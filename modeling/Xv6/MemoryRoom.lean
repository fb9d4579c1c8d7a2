import Mathlib.Order.Interval.Finset.Nat
import Xv6.MemoryTables
import Xv6.PageCalls

/-!
# When there is enough memory

A directory needs at most one page for each page table that it does not have yet. With that many
pages on the free list, besides those that are mapped, and no competition for them, `mappages`,
`setupkvm`, `allocuvm`, `growproc` and `copyuvm` succeed.
-/

namespace Xv6.Vm

open Alloc

/-- The number of page tables from entry `lo` on that `d` does not have. -/
def Pgdir.lacking (d : Pgdir) (lo : Nat) : Nat :=
  (Finset.univ.filter (fun i : Fin NPDENTRIES => lo ≤ i.val ∧ (d.pde i).isNone)).card

variable {s : Mem} {d : Pgdir} {t : Pgtab} {l : Layout} {a k lo : Nat} {E : Fault → Prop}

theorem lacking_setPte (h : d.pde (PDX a) = some t) (e : Option Pte) :
    (d.setPte t a e).lacking lo = d.lacking lo := by
  have hsame : ∀ i, ((d.setPte t a e).pde i).isNone = (d.pde i).isNone := by
    intro i
    rw [← Option.not_isSome, ← Option.not_isSome, pde_setPte h]
  simp only [Pgdir.lacking, hsame]

theorem lacking_setPde {i : Fin NPDENTRIES} (hi : lo ≤ i.val) (h : d.pde i = none) (t : Pgtab) :
    (d.setPde i t).lacking lo + 1 = d.lacking lo := by
  have hset : Finset.univ.filter (fun j => lo ≤ j.val ∧ ((d.setPde i t).pde j).isNone) =
      (Finset.univ.filter (fun j : Fin NPDENTRIES => lo ≤ j.val ∧ (d.pde j).isNone)).erase i := by
    ext j
    by_cases hj : j = i
    · simp [Pgdir.setPde, hj]
    · simp [Pgdir.setPde, hj]
  unfold Pgdir.lacking
  rw [hset]
  exact Finset.card_erase_add_one (by simp [h, hi])

theorem kalloc_room {n : Nat} (hdeny : ∀ n, s.deny n = false) (hlen : n + 1 ≤ s.free.length) :
    wp Mem.kalloc s (fun r s' => (∃ p, r = some p) ∧ (∀ n, s'.deny n = false) ∧
      n ≤ s'.free.length) E := by
  unfold wp Mem.kalloc
  cases hfree : s.free with
  | nil =>
    rw [hfree] at hlen
    cases hlen
  | cons p rest =>
    rw [hfree, List.length_cons] at hlen
    dsimp only
    rw [hdeny 0]
    exact ⟨⟨p, rfl⟩, fun n => hdeny (n + 1), Nat.le_of_succ_le_succ hlen⟩

/-- `kalloc` is not refused as long as the free list is not empty, which has a page for each missing
page table from entry `lo` on and `k` more. -/
structure Room (lo : Nat) (s : Mem) (d : Pgdir) (k : Nat) : Prop where
  deny : ∀ n, s.deny n = false
  pages : d.lacking lo + k ≤ s.free.length

theorem walkpgdir_room {va : Nat} (hva : lo ≤ (PDX va).val) (h : Room lo s d k) :
    wp (serve (walkpgdir d va)) s (fun r s' => ∃ d' t, r = some (d', t) ∧ Room lo s' d' k ∧
      d'.pde (PDX va) = some t) E := by
  unfold walkpgdir
  split
  · next t ht => exact ⟨d, t, rfl, h, ht⟩
  · next hnone =>
    have hlacking := lacking_setPde hva hnone ⟨0, fun _ => none⟩
    change wp (Mem.kalloc >>= _) s _ E
    refine wp_seq (kalloc_room (n := d.lacking lo - 1 + k) h.deny ?_) ?_
    · have := h.pages
      omega
    · rintro r s' ⟨⟨p, rfl⟩, hdeny, hlen⟩
      refine ⟨_, _, rfl, ⟨hdeny, ?_⟩, setPde_self _ _ _⟩
      have hlacking := lacking_setPde hva hnone ⟨p, fun _ => none⟩
      omega

theorem mapPage_room {e : Pte} (ha : lo ≤ (PDX a).val) (h : Room lo s d k) :
    wp (serve (mapPage d a e)) s (fun r s' => ∃ d', r = some d' ∧ Room lo s' d' k)
      (fun _ => True) := by
  refine wp_serve_seq (walkpgdir_room ha h) ?_
  rintro r s' ⟨d', t, rfl, hroom, ht⟩
  dsimp only
  split_ifs
  · trivial
  · exact ⟨_, rfl, hroom.deny, by rw [lacking_setPte ht]; exact hroom.pages⟩

/-- The pages are mapped, and there is room for `k` more. -/
structure Roomy (lo k : Nat) (r : Pgdir × Bool) (s : Mem) : Prop where
  ok : r.2 = true
  room : Room lo s r.1 k

theorem mapLoop_room (perm n pa : Nat)
    (ha : ∀ j ≤ n, lo ≤ (PDX (a + j * PGSIZE)).val) (h : Room lo s d k) :
    wp (serve (mapLoop perm n a pa d)) s (Roomy lo k) (fun _ => True) := by
  have hfirst : lo ≤ (PDX a).val := by simpa using ha 0 (Nat.zero_le n)
  induction n generalizing a pa d s with
  | zero =>
    unfold mapLoop
    refine wp_serve_seq (mapPage_room hfirst h) ?_
    rintro r s' ⟨d', rfl, hroom⟩
    exact ⟨rfl, hroom⟩
  | succ n ih =>
    unfold mapLoop
    refine wp_serve_seq (mapPage_room hfirst h) ?_
    rintro r s' ⟨d', rfl, hroom⟩
    have hnext : ∀ j ≤ n, lo ≤ (PDX ((a + PGSIZE) % 2 ^ 32 + j * PGSIZE)).val := by
      intro j hj
      have hva := ha (j + 1) (by omega)
      simp only [PDX, PGSIZE] at hva ⊢
      omega
    exact ih _ hnext hroom (by simpa using hnext 0 (Nat.zero_le n))

theorem mappages_room {va size pa perm : Nat} (h : Room 0 s d k) :
    wp (serve (mappages d va size pa perm)) s (Roomy 0 k) (fun _ => True) :=
  mapLoop_room _ _ _ (fun _ _ => Nat.zero_le _) h

/-- The kernel part needs no page tables below entry 512. -/
theorem mapKernel_room {ks : List Kmap} (hlo : lo ≤ 512) (habove : ∀ k ∈ ks, k.Above)
    (halign : ∀ k ∈ ks, k.Aligned) (h : Room lo s d k) :
    wp (serve (mapKernel ks d)) s (fun r s' => ∃ d', r = some d' ∧ Room lo s' d' k)
      (fun _ => True) := by
  induction ks generalizing d s with
  | nil => exact ⟨d, rfl, h⟩
  | cons km ks ih =>
    obtain ⟨hkm, hks⟩ := List.forall_mem_cons.mp habove
    obtain ⟨hal, hals⟩ := List.forall_mem_cons.mp halign
    have hkernel : ∀ j ≤ km.size / PGSIZE - 1, lo ≤ (PDX (km.virt + j * PGSIZE)).val := by
      intro j hj
      have hvirt := hkm.virt
      have hlast : km.virt + km.size ≤ 2 ^ 32 := hkm.last
      have hsize : 0 < km.size := hkm.size
      have hmod := hal.size
      simp only [PGSIZE] at hj hmod
      exact hlo.trans (Nat.not_lt.mp (PDX_kernel (by omega) (by simp only [PGSIZE]; omega)))
    have hroom := mapLoop_room km.perm _ km.phys_start hkernel h
    rw [← mappages_eq_mapLoop hkm hal] at hroom
    refine wp_serve_seq hroom ?_
    rintro ⟨d', ok⟩ s' ⟨hok, hroom⟩
    cases hok
    exact ih hks hals hroom

theorem lacking_le (d : Pgdir) (lo : Nat) : d.lacking lo ≤ NPDENTRIES - lo := by
  rw [← Nat.card_Ico]
  refine Finset.card_le_card_of_injOn Fin.val ?_ Fin.val_injective.injOn
  intro i hi
  exact Finset.mem_Ico.mpr ⟨(Finset.mem_filter.mp hi).2.1, i.isLt⟩

theorem setupkvm_room (hlo : lo ≤ 512) (hdeny : ∀ n, s.deny n = false)
    (hlen : NPDENTRIES - lo + k < s.free.length) :
    wp (serve (setupkvm l)) s (fun r s' => ∃ d, r = some d ∧ Room lo s' d k) (fun _ => True) := by
  obtain ⟨n, hn⟩ : ∃ n, NPDENTRIES - lo + k = n := ⟨_, rfl⟩
  rw [hn] at hlen
  change wp (Mem.kalloc >>= _) s _ _
  refine wp_seq (kalloc_room hdeny hlen) ?_
  rintro r s' ⟨⟨p, rfl⟩, hdeny', hlen'⟩
  refine mapKernel_room hlo (kmap_above l) (kmap_aligned l) ⟨hdeny', ?_⟩
  exact (Nat.add_le_add_right (lacking_le _ lo) k).trans (hn.le.trans hlen')

/-- A page from `kalloc` that is filled and mapped. -/
theorem kalloc_mappages_room {β : Type} {f : Option Page → Routine Page β}
    {g : Page → Pgdir × Bool → Routine Page β} {src : Option Page} {va perm : Nat}
    {Q : β → Mem → Prop} (h : Room 0 s d (k + 1))
    (hf : ∀ p, f (some p) = (Routine.overwrite p src).bind
      (fun _ => (mappages d va PGSIZE (p * PGSIZE) perm).bind (g p)))
    (hg : ∀ p d' s', Room 0 s' d' k → wp (serve (g p (d', true))) s' Q (fun _ => True)) :
    wp (serve (kalloc.bind f)) s Q (fun _ => True) := by
  have hpages : d.lacking 0 + k + 1 ≤ s.free.length := by
    rw [Nat.add_assoc]
    exact h.pages
  change wp (Mem.kalloc >>= fun r => serve (f r)) s Q _
  refine wp_seq (kalloc_room h.deny hpages) ?_
  rintro r s' ⟨⟨p, rfl⟩, hdeny, hlen⟩
  rw [hf]
  refine wp_serve_overwrite src (wp_serve_seq (mappages_room (k := k) ⟨hdeny, hlen⟩) ?_)
  rintro ⟨d', ok⟩ s₂ ⟨hok, hroom⟩
  cases hok
  exact hg p d' s₂ hroom

theorem allocRound_room {oldsz newsz : Nat} (h : Room 0 s d (k + 1)) :
    wp (serve (allocRound oldsz newsz a d)) s (Roomy 0 k) (fun _ => True) :=
  kalloc_mappages_room h (fun _ => rfl) (fun _ _ _ hroom => ⟨rfl, hroom⟩)

theorem copyRound_room {e : Pte} (h : Room 0 s d (k + 1)) :
    wp (serve (copyRound e a d)) s (fun r s' => ∃ d', r = some d' ∧ Room 0 s' d' k)
      (fun _ => True) :=
  kalloc_mappages_room h (fun _ => rfl) (fun _ d' _ hroom => ⟨d', rfl, hroom⟩)

theorem Room.mono {n : Nat} (h : Room lo s d (k + n)) : Room lo s d k :=
  ⟨h.deny, (Nat.add_le_add_left (Nat.le_add_right k n) _).trans h.pages⟩

theorem allocLoop_room {oldsz newsz : Nat} (fuel : Nat) {n : Nat} (h : Room 0 s d (k + n))
    (hn : newsz ≤ a + n * PGSIZE) :
    wp (serve (allocLoop oldsz newsz fuel a d)) s (fun r s' => r.2 = newsz ∧ Room 0 s' r.1 k)
      (fun _ => True) := by
  induction fuel generalizing a d s n with
  | zero => exact ⟨rfl, h.mono⟩
  | succ fuel ih =>
    unfold allocLoop
    split_ifs with hlt
    · cases n with
      | zero => omega
      | succ n =>
        refine wp_serve_seq (allocRound_room (k := k + n) h) ?_
        rintro ⟨d', ok⟩ s' ⟨hok, hroom⟩
        cases hok
        exact ih hroom (by simp only [PGSIZE] at hn ⊢; omega)
    · exact ⟨rfl, h.mono⟩

theorem allocuvm_room {oldsz newsz n : Nat} (h : Room 0 s d (k + n)) (hnew : newsz < KERNBASE)
    (hle : oldsz ≤ newsz) (hn : newsz ≤ PGROUNDUP oldsz + n * PGSIZE) :
    wp (serve (allocuvm d oldsz newsz)) s (fun r s' => r.2 = newsz ∧ Room 0 s' r.1 k)
      (fun _ => True) := by
  unfold allocuvm
  rw [if_neg (by omega), if_neg (by omega)]
  exact allocLoop_room _ h hn

theorem growproc_room {sz n m : Nat} (h : Room 0 s d (k + m)) (h0 : 0 < n)
    (hnew : sz + n < KERNBASE) (hm : sz + n ≤ PGROUNDUP sz + m * PGSIZE) :
    wp (serve (growproc d sz n)) s (fun r s' => r.2 = (sz + n, 0) ∧ Room 0 s' r.1 k)
      (fun _ => True) := by
  have hmod : (((sz : Int) + n) % 2 ^ 32).toNat = sz + n := by
    simp only [KERNBASE] at hnew
    omega
  unfold growproc
  dsimp only
  rw [if_pos (by omega), hmod]
  refine wp_serve_seq (allocuvm_room h hnew (Nat.le_add_right _ _) hm) ?_
  rintro ⟨d', r⟩ s' ⟨rfl, hroom⟩
  dsimp only
  rw [if_neg (by omega)]
  exact ⟨rfl, hroom⟩

theorem copyLoop_room {pgdir : Pgdir} {sz : Nat} (fuel : Nat) {n : Nat} (h : Room 0 s d (k + n))
    (hn : sz ≤ a + n * PGSIZE) :
    wp (serve (copyLoop pgdir sz fuel a d)) s (fun r s' => ∃ d', r = some d' ∧ Room 0 s' d' k)
      (fun _ => True) := by
  induction fuel generalizing a d s n with
  | zero => exact ⟨d, rfl, h.mono⟩
  | succ fuel ih =>
    unfold copyLoop
    split_ifs with hlt
    · split
      · trivial
      · split
        · trivial
        · cases n with
          | zero => omega
          | succ n =>
            refine wp_serve_seq (copyRound_room (k := k + n) h) ?_
            rintro r s' ⟨d', rfl, hroom⟩
            exact ih hroom (by simp only [PGSIZE] at hn ⊢; omega)
    · exact ⟨d, rfl, h.mono⟩

theorem copyuvm_room {pgdir : Pgdir} {sz n : Nat} (hdeny : ∀ n, s.deny n = false)
    (hlen : NPDENTRIES + (k + n) < s.free.length) (hn : sz ≤ n * PGSIZE) :
    wp (serve (copyuvm l pgdir sz)) s (fun r s' => ∃ d, r = some d ∧ Room 0 s' d k)
      (fun _ => True) := by
  refine wp_serve_seq (setupkvm_room (Nat.zero_le _) hdeny hlen) ?_
  rintro r s' ⟨d, rfl, hroom⟩
  exact copyLoop_room _ hroom (by rwa [Nat.zero_add])

end Xv6.Vm
