import Xv6.Memory

/-!
# Page tables in memory

What the routines of `PageTable` do to the entries of a directory when they run on the memory. Page
`n` of the address space is the page at address `n * PGSIZE`.
-/

namespace Xv6.Vm

open Alloc

variable {α : Type} {s : Mem} {E : Fault → Prop} {d d' d₁ : Pgdir} {t : Pgtab} {l : Layout}
  {a n : Nat} {e : Option Pte}

@[simp] theorem setPde_self (d : Pgdir) (i : Fin NPDENTRIES) (t : Pgtab) :
    (d.setPde i t).pde i = some t :=
  Function.update_self _ _ _

theorem pde_setPte (h : d.pde (PDX a) = some t) (i : Fin NPDENTRIES) :
    ((d.setPte t a e).pde i).isSome = (d.pde i).isSome := by
  by_cases hi : i = PDX a
  · simp [Pgdir.setPte, Pgdir.setPde, hi, h]
  · simp [Pgdir.setPte, Pgdir.setPde, hi]

theorem mem_pages_of_entry {e : Pte} (hn : n * PGSIZE < KERNBASE) (h : d.entry n = some e) :
    e.ppn ∈ d.pages := by
  rw [← pages_clear hn h]
  exact Multiset.mem_add.mpr (Or.inr (Multiset.mem_singleton_self _))

/-- A directory that owns its pages maps no page twice for the user. -/
theorem entry_injective {m : Nat} {e e' : Pte} (hd : d.pages.Nodup) (hn : n * PGSIZE < KERNBASE)
    (hm : m * PGSIZE < KERNBASE) (he : d.entry n = some e) (he' : d.entry m = some e')
    (hpp : e.ppn = e'.ppn) : n = m := by
  by_contra hne
  have hrest : (d.clear n).entry m = some e' := by
    rw [entry_clear (lt_NPAGES hn) (lt_NPAGES hm), if_neg (Ne.symm hne), he']
  rw [← pages_clear hn he] at hd
  exact Multiset.disjoint_left.mp (Multiset.nodup_add.mp hd).2.2 (mem_pages_of_entry hm hrest)
    (Multiset.mem_singleton.mpr hpp.symm)

/-! ### Mapping -/

/-- The entries of `d'` are those of `d` where `P` holds, and the page tables of the kernel part
are the same. -/
structure Agree (d d' : Pgdir) (P : Nat → Prop) : Prop where
  entry : ∀ n < NPAGES, P n → d'.entry n = d.entry n
  table : ∀ i : Fin NPDENTRIES, 512 ≤ i.val → (d'.pde i).isSome = (d.pde i).isSome

namespace Agree

variable {P P' : Nat → Prop}

theorem refl (d : Pgdir) (P : Nat → Prop) : Agree d d P := ⟨fun _ _ _ => rfl, fun _ _ => rfl⟩

theorem mono (h : Agree d d' P) (hP : ∀ n < NPAGES, P' n → P n) : Agree d d' P' :=
  ⟨fun n hn hn' => h.entry n hn (hP n hn hn'), h.table⟩

end Agree

theorem entry_addTable (h : d.pde (PDX a) = none) (p : Page) (n : Nat) :
    (d.setPde (PDX a) ⟨p, fun _ => none⟩).entry n = d.entry n := by
  by_cases hi : PDX (n * PGSIZE) = PDX a
  · simp [Pgdir.entry, Pgdir.lookup, Pgdir.setPde, hi, h]
  · simp [Pgdir.entry, Pgdir.lookup, Pgdir.setPde, hi]

/-- What `walkpgdir` does to the directory. -/
structure Walked (d : Pgdir) (va : Nat) (d' : Pgdir) (t : Pgtab) : Prop where
  pde : d'.pde (PDX va) = some t
  entry : ∀ n, d'.entry n = d.entry n
  table : ∀ i, i ≠ PDX va → d'.pde i = d.pde i

theorem serve_walkpgdir (s : Mem) (d : Pgdir) (va : Nat) :
    wp (serve (walkpgdir d va)) s (fun r s' =>
      match r with
      | none => Grow s d.pages s' d.pages
      | some (d', t) => Grow s d.pages s' d'.pages ∧ Walked d va d' t) E := by
  unfold walkpgdir
  split
  · next t ht => exact ⟨Grow.refl s _, ht, fun _ => rfl, fun _ _ => rfl⟩
  · next hnone =>
    refine wp_serve_kalloc d.pages (fun s' h => h) ?_
    intro p s' _ h
    refine ⟨h.cast rfl ?_, setPde_self _ _ _, entry_addTable hnone p,
      fun i hi => Function.update_of_ne hi _ _⟩
    have hpages := pages_setPde d (PDX va) ⟨p, fun _ => none⟩
    rw [hnone] at hpages
    simpa [owned, Pgtab.mapped] using hpages

/-- What a round of `mappages` does to the directory. -/
structure Mapped (d : Pgdir) (a : Nat) (e : Pte) (d' : Pgdir) : Prop where
  entry : ∀ n < NPAGES, d'.entry n = if n = a / PGSIZE then some e else d.entry n
  table : ∀ i, i ≠ PDX a → d'.pde i = d.pde i

theorem serve_mapPage (s : Mem) (ha : a < 2 ^ 32) (hfresh : d.entry (a / PGSIZE) = none) (e : Pte) :
    wp (serve (mapPage d a e)) s (fun r s' =>
      match r with
      | none => Grow s d.pages s' d.pages
      | some d' => Grow s (d.pages + ownedPage a (some e)) s' d'.pages ∧ Mapped d a e d') E := by
  refine wp_serve_seq (serve_walkpgdir s d a) ?_
  rintro (_ | ⟨d', t⟩) s' h
  · exact h
  · obtain ⟨hgrow, hwalk⟩ := h
    have hpte : t.pte (PTX a) = none := by
      rw [← lookup_of_pde hwalk.pde, lookup_eq_entry, hwalk.entry, hfresh]
    dsimp only
    rw [if_neg (by simp [hpte])]
    refine ⟨(hgrow.frame (ownedPage a (some e))).cast rfl ?_, ?_, ?_⟩
    · have hset := pages_setPte hwalk.pde (some e)
      rw [hpte] at hset
      simpa [ownedPage] using hset
    · intro n hn
      rw [entry_setPte hwalk.pde _ ha hn, hwalk.entry]
    · intro i hi
      rw [← hwalk.table i hi]
      exact Function.update_of_ne hi _ _

/-- Every page table has a present entry. -/
def Dense (d : Pgdir) : Prop :=
  ∀ i : Fin NPDENTRIES, (d.pde i).isSome → ∃ n < NPAGES, n / 1024 = i.val ∧ (d.entry n).isSome

theorem Mapped.dense {e : Pte} (h : Mapped d a e d') (ha : a < 2 ^ 32) (hd : Dense d) :
    Dense d' := by
  intro i hi
  by_cases hia : i = PDX a
  · have hn : a / PGSIZE < NPAGES := by
      simp only [PGSIZE, NPAGES]
      omega
    refine ⟨a / PGSIZE, hn, ?_, ?_⟩
    · subst hia
      simp only [PDX, PGSIZE]
      omega
    · rw [h.entry _ hn, if_pos rfl]
      rfl
  · rw [h.table i hia] at hi
    obtain ⟨n, hn, hni, hsome⟩ := hd i hi
    refine ⟨n, hn, hni, ?_⟩
    rw [h.entry n hn]
    split_ifs
    · rfl
    · exact hsome

/-- The pages from `first` to `first + n` are mapped to those from `ppn` on. -/
def mappedRange (first n ppn perm : Nat) (d : Pgdir) (m : Nat) : Option Pte :=
  if first ≤ m ∧ m ≤ first + n then some ⟨ppn + (m - first), perm⟩ else d.entry m

theorem serve_mapLoop_kernel (perm n : Nat) (s : Mem) {a : Nat} (pa : Nat) (d : Pgdir)
    (ha : KERNBASE ≤ a) (hn : a + n * PGSIZE < 2 ^ 32) (halign : a % PGSIZE = 0)
    (hfresh : ∀ m, a / PGSIZE ≤ m → m ≤ a / PGSIZE + n → d.entry m = none) (hd : Dense d) :
    wp (serve (mapLoop perm n a pa d)) s (fun r s' => Grow s d.pages s' r.1.pages ∧
      (r.2 = true → Dense r.1 ∧ ∀ m < NPAGES,
        r.1.entry m = mappedRange (a / PGSIZE) n (pa / PGSIZE) perm d m)) E := by
  simp only [PGSIZE] at hn halign
  induction n generalizing a pa d s with
  | zero =>
    have hnone := PDX_kernel ha (by omega)
    have hdiv : a / PGSIZE < NPAGES := by simp only [PGSIZE, NPAGES]; omega
    unfold mapLoop
    refine wp_serve_seq (serve_mapPage s (by omega)
      (hfresh _ le_rfl (by omega)) ⟨pa / PGSIZE, perm⟩) ?_
    rintro (_ | d') s' h
    · exact ⟨h, fun hc => by cases hc⟩
    · obtain ⟨hgrow, hmap⟩ := h
      refine ⟨hgrow.cast (by simp [ownedPage, hnone]) rfl, fun _ => ⟨hmap.dense (by omega) hd, ?_⟩⟩
      intro m hm
      rw [hmap.entry m hm, mappedRange]
      split_ifs with h₁ h₂ h₂
      · simp [h₁]
      · omega
      · omega
      · rfl
  | succ n ih =>
    have hnone := PDX_kernel ha (by omega)
    have hnext : (a + PGSIZE) % 2 ^ 32 = a + PGSIZE := Nat.mod_eq_of_lt (by
      simp only [PGSIZE]
      omega)
    have hdiv : (a + PGSIZE) / PGSIZE = a / PGSIZE + 1 := Nat.add_div_right a (by decide)
    have hpdiv : (pa + PGSIZE) / PGSIZE = pa / PGSIZE + 1 := Nat.add_div_right pa (by decide)
    unfold mapLoop
    refine wp_serve_seq (serve_mapPage s (by omega)
      (hfresh _ le_rfl (by omega)) ⟨pa / PGSIZE, perm⟩) ?_
    rintro (_ | d') s' h
    · exact ⟨h, fun hc => by cases hc⟩
    · obtain ⟨hgrow, hmap⟩ := h
      have hgrow' : Grow s d.pages s' d'.pages := hgrow.cast (by simp [ownedPage, hnone]) rfl
      dsimp only
      rw [hnext]
      refine wp_mono (ih s' (pa + PGSIZE) d' (by omega) (by simp only [PGSIZE]; omega)
        (by simp only [PGSIZE]; omega) ?_ (hmap.dense (by omega) hd)) ?_
      · intro m h₁ h₂
        rw [hdiv] at h₁ h₂
        have hm : m < NPAGES := by
          simp only [PGSIZE, NPAGES] at h₁ h₂ ⊢
          omega
        rw [hmap.entry m hm, if_neg (by omega)]
        exact hfresh m (by omega) (by omega)
      · rintro ⟨d₂, ok⟩ s₂ ⟨hg, hok⟩
        refine ⟨hgrow'.trans hg, fun h => ⟨(hok h).1, ?_⟩⟩
        intro m hm
        rw [(hok h).2 m hm, mappedRange, mappedRange, hdiv, hpdiv, hmap.entry m hm]
        by_cases hfirst : m = a / PGSIZE
        · rw [if_neg (by omega), if_pos hfirst, if_pos (by omega), hfirst, Nat.sub_self,
            Nat.add_zero]
        · by_cases hin : a / PGSIZE + 1 ≤ m ∧ m ≤ a / PGSIZE + 1 + n
          · have hppn : pa / PGSIZE + 1 + (m - (a / PGSIZE + 1)) =
                pa / PGSIZE + (m - a / PGSIZE) := by omega
            rw [if_pos hin, if_pos (by omega), hppn]
          · rw [if_neg hin, if_neg hfirst, if_neg (by omega)]

/-- Mapping a page at a user address. If there is no page for the page table, the caller keeps the
page. -/
theorem serve_mappages_user (s : Mem) {va : Nat} (mem : Page) (perm : Nat) (hva : va < KERNBASE)
    (ha : va % PGSIZE = 0) (hfresh : d.entry (va / PGSIZE) = none) :
    wp (serve (mappages d va PGSIZE (mem * PGSIZE) perm)) s (fun r s' =>
      if r.2 then Grow s (d.pages + {mem}) s' r.1.pages ∧ Mapped d va ⟨mem, perm⟩ r.1
      else Grow s d.pages s' d.pages ∧ r.1 = d) E := by
  have hdiv : mem * PGSIZE / PGSIZE = mem := Nat.mul_div_cancel _ (by decide)
  rw [mappages_page d _ perm hva ha]
  unfold mapLoop
  refine wp_serve_seq (serve_mapPage s (by simp only [KERNBASE] at hva; omega)
    hfresh ⟨mem * PGSIZE / PGSIZE, perm⟩) ?_
  rintro (_ | d') s' h
  · exact ⟨h, rfl⟩
  · obtain ⟨hgrow, hmap⟩ := h
    rw [hdiv] at hmap hgrow
    exact ⟨hgrow.cast (by simp [ownedPage, PDX_user hva]) rfl, hmap⟩

/-- A page is taken, filled from `src` and mapped at `va`. -/
theorem wp_serve_mapFresh {β : Type} {f : Option Page → Routine Page β}
    {g : Page → Pgdir × Bool → Routine Page β} {src : Option Page} {va perm : Nat}
    {Q : β → Mem → Prop} (hva : va < KERNBASE) (ha : va % PGSIZE = 0)
    (hfresh : d.entry (va / PGSIZE) = none)
    (hf : ∀ p, f (some p) = (Routine.overwrite p src).bind
      (fun _ => (mappages d va PGSIZE (p * PGSIZE) perm).bind (g p)))
    (hnone : ∀ s₁, Grow s d.pages s₁ d.pages → wp (serve (f none)) s₁ Q E)
    (hmapped : ∀ p s₁ s₂ d', p ∈ s.free → Grow s d.pages s₁ (d.pages + {p}) →
      Grow (s₁.setData p (src.elim Bytes.zero s₁.data)) (d.pages + {p}) s₂ d'.pages →
      Mapped d va ⟨p, perm⟩ d' → wp (serve (g p (d', true))) s₂ Q E)
    (hfull : ∀ p s₂, Grow s d.pages s₂ (d.pages + {p}) → wp (serve (g p (d, false))) s₂ Q E) :
    wp (serve (kalloc.bind f)) s Q E := by
  refine wp_serve_kalloc d.pages hnone ?_
  intro p s₁ hp hs₁
  rw [hf]
  refine wp_serve_overwrite src (wp_serve_seq (serve_mappages_user _ p perm hva ha hfresh) ?_)
  rintro ⟨d', ok⟩ s₂ hmap
  cases ok with
  | true => exact hmapped p s₁ s₂ d' hp hs₁ hmap.1 hmap.2
  | false =>
    obtain ⟨hs₂, hd'⟩ := hmap
    change d' = d at hd'
    subst hd'
    exact hfull p s₂ ((hs₁.write hp _).trans (hs₂.frame {p}))

theorem Mapped.agree {e : Pte} (h : Mapped d a e d') (ha : a < KERNBASE) :
    Agree d d' (fun n => n ≠ a / PGSIZE) := by
  refine ⟨fun n hn hne => by rw [h.entry n hn, if_neg hne], ?_⟩
  intro i hi
  rw [h.table i]
  have huser := PDX_user ha
  intro hc
  subst hc
  omega

/-! ### Freeing -/

/-- The pages from `a` up to `b` are not mapped any more. -/
structure Cleared (a b : Nat) (d d' : Pgdir) : Prop where
  entry : ∀ n < NPAGES,
    d'.entry n = if a ≤ n * PGSIZE ∧ n * PGSIZE < b then none else d.entry n
  table : ∀ i, (d'.pde i).isSome = (d.pde i).isSome

theorem Clears.cleared {b : Nat} (h : Clears (pagesBelow b a) d d') :
    Cleared (a * PGSIZE) b d d' := by
  refine ⟨fun n hn => ?_, fun i => by simpa using congrArg Option.isSome (h.table i)⟩
  rw [h.entry n hn]
  simp only [mem_pagesBelow, Nat.mul_le_mul_right_iff (show 0 < PGSIZE by decide)]

/-- The page that page `n` of the address space is mapped to. -/
def Pgdir.ppn (d : Pgdir) (n : Nat) : Option Page := (d.entry n).map Pte.ppn

/-- The pages `ns` are not mapped any more, and those that they were mapped to are free. -/
structure Freed (ns : List Nat) (s : Mem) (d : Pgdir) (s' : Mem) (d' : Pgdir) : Prop where
  kend : s'.kend = s.kend
  free : s'.free = (ns.filterMap d.ppn).reverse ++ s.free
  data : ∀ p ∉ ns.filterMap d.ppn, s'.data p = s.data p
  clears : Clears ns d d'
  pages : (ns.filterMap d.ppn : Multiset Page) + d'.pages = d.pages

theorem Freed.shrink {ns : List Nat} {s' : Mem} (h : Freed ns s d s' d') :
    Shrink s d.pages s' d'.pages := by
  refine ⟨h.kend, ?_, fun p hp => ?_, fun p hp => h.data p ?_⟩
  · rw [h.free, ← Multiset.coe_add, Multiset.coe_reverse, ← h.pages]
    ac_rfl
  · rw [h.free]
    exact List.mem_append_right _ hp
  · intro hc
    rw [h.free] at hp
    exact hp (List.mem_append_left _ (List.mem_reverse.mpr hc))

theorem serve_plainLoop {ns : List Nat} (s : Mem) (d : Pgdir) (hns : ns.Nodup)
    (huser : ∀ n ∈ ns, n * PGSIZE < KERNBASE) (hvalid : ∀ p ∈ ns.filterMap d.ppn, s.Valid p) :
    wp (serve (plainLoop ns d)) s (fun d' s' => Freed ns s d s' d') E := by
  induction ns generalizing s d with
  | nil => exact ⟨rfl, rfl, fun _ _ => rfl, .refl d, zero_add _⟩
  | cons n ns ih =>
    obtain ⟨hnot, hns⟩ := List.nodup_cons.mp hns
    have hrest := fun m hm => huser m (List.mem_cons_of_mem n hm)
    have hn := huser n List.mem_cons_self
    unfold plainLoop
    split
    · next hnone =>
      have hmap : (n :: ns).filterMap d.ppn = ns.filterMap d.ppn := by simp [Pgdir.ppn, hnone]
      rw [hmap] at hvalid
      refine wp_mono (ih s d hns hrest hvalid) ?_
      intro d' s' h
      exact ⟨h.kend, hmap ▸ h.free, hmap ▸ h.data, h.clears.skip hnone, hmap ▸ h.pages⟩
    · next e he =>
      -- the entries of the other pages stay
      have hsame : ns.filterMap (d.clear n).ppn = ns.filterMap d.ppn := by
        refine List.filterMap_congr (fun m hm => ?_)
        have hne : m ≠ n := fun hc => hnot (hc ▸ hm)
        rw [Pgdir.ppn, entry_clear (lt_NPAGES hn) (lt_NPAGES (hrest m hm)), if_neg hne, Pgdir.ppn]
      have hmap : (n :: ns).filterMap d.ppn = e.ppn :: ns.filterMap (d.clear n).ppn := by
        simp [Pgdir.ppn, he, ← hsame]
      rw [hmap] at hvalid
      obtain ⟨hv, hvalid⟩ := List.forall_mem_cons.mp hvalid
      have hzero : e.ppn ≠ 0 := Nat.ne_of_gt (Nat.lt_of_lt_of_le s.kernel hv.1)
      rw [if_neg hzero]
      have hkfree : ∀ {Q : Unit → Mem → Prop},
          Q () ((s.setData e.ppn Mem.junk).setFree (e.ppn :: s.free)) → wp (Mem.kfree e.ppn) s Q E := by
        intro Q hQ
        unfold Xv6.wp Mem.kfree
        rwa [if_pos hv]
      change wp (Mem.kfree e.ppn >>= fun _ => serve (plainLoop ns (d.clear n))) s _ E
      rw [wp_bind]
      refine hkfree (wp_mono (ih _ (d.clear n) hns hrest hvalid) ?_)
      intro d' s' h
      refine ⟨h.kend, ?_, ?_, h.clears.cons (lt_NPAGES hn), ?_⟩
      · rw [h.free, hmap]
        simp
      · intro p hp
        rw [hmap, List.mem_cons, not_or] at hp
        exact (h.data p hp.2).trans (s.setData_of_ne hp.1 _)
      · rw [hmap, ← pages_clear hn he, ← h.pages, ← Multiset.cons_coe, ← Multiset.singleton_add]
        ac_rfl

/-- The user's entries map distinct pages of the allocator. -/
structure DistinctPages (s : Mem) (d : Pgdir) : Prop where
  valid : ∀ n e, n * PGSIZE < KERNBASE → d.entry n = some e → s.Valid e.ppn
  inj : ∀ n m e e', n * PGSIZE < KERNBASE → m * PGSIZE < KERNBASE → d.entry n = some e →
    d.entry m = some e' → e.ppn = e'.ppn → n = m

theorem Fits.distinctPages (hf : Fits s d.pages) : DistinctPages s d :=
  ⟨fun _ _ hn he => hf.of_mem (mem_pages_of_entry hn he),
    fun _ _ _ _ => entry_injective (Multiset.nodup_add.mp hf.nodup).2.1⟩

theorem serve_freePages {oldsz newsz : Nat} (hold : oldsz ≤ KERNBASE) (hlt : newsz < oldsz)
    (h : DistinctPages s d) : wp (serve (deallocuvm d oldsz newsz)) s (fun r s' => r.2 = newsz ∧
      Freed (pagesBelow oldsz ((newsz + 4095) / PGSIZE)) s d s' r.1) E := by
  have huser : ∀ n ∈ pagesBelow oldsz ((newsz + 4095) / PGSIZE), n * PGSIZE < KERNBASE :=
    fun n hn => (mem_pagesBelow.mp hn).2.trans_le hold
  rw [deallocuvm_eq d hold hlt, wp_serve_bind]
  refine wp_mono (serve_plainLoop s d List.nodup_range' huser ?_) (fun d' s' hd => ⟨rfl, hd⟩)
  intro p hp
  obtain ⟨n, hn, hppn⟩ := List.mem_filterMap.mp hp
  obtain ⟨e, he, rfl⟩ := Option.map_eq_some_iff.mp hppn
  exact h.valid n e (huser n hn) he

theorem serve_deallocuvm {oldsz newsz : Nat} (s : Mem) (d : Pgdir) (hold : oldsz ≤ KERNBASE)
    (hlt : newsz < oldsz) (hf : Fits s d.pages) :
    wp (serve (deallocuvm d oldsz newsz)) s (fun r s' => Shrink s d.pages s' r.1.pages ∧
      r.2 = newsz ∧ Cleared (PGROUNDUP newsz) oldsz d r.1) E := by
  have hround : PGROUNDUP newsz = (newsz + 4095) / PGSIZE * PGSIZE := PGROUNDUP_eq (by
    simp only [PGSIZE, KERNBASE] at hold ⊢
    omega)
  refine wp_mono (serve_freePages hold hlt hf.distinctPages) ?_
  rintro ⟨d', sz⟩ s' ⟨hsz, h⟩
  exact ⟨h.shrink, hsz, hround ▸ h.clears.cleared⟩

theorem serve_freeTables (s : Mem) (d : Pgdir) (is : List (Fin NPDENTRIES))
    (hf : Fits s (is.map (tablePage d)).sum) :
    wp (serve (freeTables d is)) s (fun _ s' => Shrink s (is.map (tablePage d)).sum s' 0) E := by
  induction is generalizing s with
  | nil => exact Shrink.refl s 0
  | cons i is ih =>
    unfold freeTables
    rw [List.map_cons, List.sum_cons] at hf ⊢
    cases hi : d.pde i with
    | none =>
      have hnone : tablePage d i = 0 := by simp [tablePage, hi]
      rw [hnone, zero_add] at hf ⊢
      exact ih s hf
    | some t =>
      have hsome : tablePage d i = {t.page} := by simp [tablePage, hi]
      rw [hsome, add_comm] at hf ⊢
      refine wp_serve_kfree _ hf ?_
      intro s₁ hs₁
      refine wp_mono (ih s₁ (hs₁.fits hf)) ?_
      intro _ s' hs
      exact hs₁.trans hs

theorem serve_freeDirectory {s₀ : Mem} {own : Multiset Page} (is : List (Fin NPDENTRIES))
    (hf : Fits s₀ own) (h : Shrink s₀ own s ({d.page} + (is.map (tablePage d)).sum)) :
    wp (serve (do freeTables d is; kfree d.page)) s (fun _ s' => Shrink s₀ own s' 0) E := by
  rw [add_comm] at h
  have hfits := h.fits hf
  refine wp_serve_seq (serve_freeTables s d is (hfits.mono (Multiset.le_add_right _ _))) ?_
  intro _ s₁ hs₁
  have hs₁' := hs₁.frame {d.page}
  refine wp_serve_kfree 0 (hs₁'.fits hfits) ?_
  intro s' hs'
  exact h.trans (hs₁'.trans hs')

theorem serve_freevm (s : Mem) (d : Pgdir) (hf : Fits s d.pages) :
    wp (serve (freevm d)) s (fun _ s' => Shrink s d.pages s' 0) E := by
  have hfree := @serve_freePages s E d KERNBASE 0 (Nat.le_refl _) (by decide) hf.distinctPages
  refine wp_serve_seq hfree ?_
  rintro ⟨d', sz⟩ s₁ hpost
  have hs₁ : Shrink s d.pages s₁ d'.pages := hpost.2.shrink
  rw [hpost.2.clears.pages] at hs₁
  dsimp only
  -- what the list of all indices evaluates to does not matter
  generalize List.finRange NPDENTRIES = is at hs₁ ⊢
  exact serve_freeDirectory is hf hs₁

/-! ### The kernel part -/

namespace Kmap

variable (k : Kmap)

def size : Nat := (k.phys_end + 2 ^ 32 - k.phys_start) % 2 ^ 32

/-- Page `n` of the address space is one of those that the entry maps. -/
def Covers (n : Nat) : Prop := k.virt ≤ n * PGSIZE ∧ n * PGSIZE < k.virt + k.size

instance (n : Nat) : Decidable (k.Covers n) := inferInstanceAs (Decidable (_ ∧ _))

structure Aligned : Prop where
  virt : k.virt % PGSIZE = 0
  phys : k.phys_start % PGSIZE = 0
  size : k.size % PGSIZE = 0

end Kmap

/-- The entry for page `n` of a directory that the entries of `ks` have been mapped in. -/
def kernelEntry : List Kmap → Nat → Option Pte
  | [], _ => none
  | k :: ks, n =>
    if k.Covers n then some ⟨k.phys_start / PGSIZE + (n - k.virt / PGSIZE), k.perm⟩
    else kernelEntry ks n

variable {ks : List Kmap}

theorem isSome_kernelEntry : (kernelEntry ks n).isSome ↔ ∃ k ∈ ks, k.Covers n := by
  induction ks with
  | nil => simp [kernelEntry]
  | cons k ks ih =>
    rw [kernelEntry]
    split_ifs with hk
    · simp [hk]
    · simp [ih, hk]

theorem kernelEntry_eq_none (h : ∀ k ∈ ks, ¬ k.Covers n) : kernelEntry ks n = none := by
  rw [← Option.not_isSome_iff_eq_none, isSome_kernelEntry]
  rintro ⟨k, hk, hc⟩
  exact h k hk hc

theorem exists_covers {e : Pte} (h : kernelEntry ks n = some e) :
    ∃ k ∈ ks, k.Covers n ∧ e.perm = k.perm := by
  induction ks with
  | nil => cases h
  | cons k ks ih =>
    rw [kernelEntry] at h
    split_ifs at h with hk
    · exact ⟨k, List.mem_cons_self, hk, by cases h; rfl⟩
    · obtain ⟨k', hk', hc⟩ := ih h
      exact ⟨k', List.mem_cons_of_mem _ hk', hc⟩

theorem mappages_eq_mapLoop {k : Kmap} (habove : k.Above) (hk : k.Aligned) :
    mappages d k.virt k.size k.phys_start k.perm =
      mapLoop k.perm (k.size / PGSIZE - 1) k.virt k.phys_start d := by
  obtain ⟨-, hsize, hlast⟩ := habove
  obtain ⟨hva, -, hsz⟩ := hk
  change 0 < k.size at hsize
  change k.virt + k.size ≤ 2 ^ 32 at hlast
  simp only [mappages, PGROUNDDOWN, PGSIZE] at hva hsz ⊢
  congr 1 <;> omega

theorem serve_mappages_kernel (s : Mem) {k : Kmap} (habove : k.Above) (hk : k.Aligned)
    (hfresh : ∀ m, k.Covers m → d.entry m = none) (hd : Dense d) :
    wp (serve (mappages d k.virt ((k.phys_end + 2 ^ 32 - k.phys_start) % 2 ^ 32) k.phys_start
      k.perm)) s (fun r s' => Grow s d.pages s' r.1.pages ∧ (r.2 = true → Dense r.1 ∧
        ∀ m < NPAGES, r.1.entry m = if k.Covers m then
          some ⟨k.phys_start / PGSIZE + (m - k.virt / PGSIZE), k.perm⟩ else d.entry m)) E := by
  have hround := mappages_eq_mapLoop (d := d) habove hk
  obtain ⟨hvirt, hsize, hlast⟩ := habove
  obtain ⟨hva, -, hsz⟩ := hk
  have hcov : ∀ m, k.Covers m ↔ k.virt / PGSIZE ≤ m ∧ m ≤ k.virt / PGSIZE + (k.size / PGSIZE - 1) := by
    intro m
    simp only [Kmap.Covers, Kmap.size, PGSIZE] at hva hsz ⊢
    omega
  change 0 < k.size at hsize
  change k.virt + k.size ≤ 2 ^ 32 at hlast
  change wp (serve (mappages d k.virt k.size k.phys_start k.perm)) s _ E
  rw [hround]
  refine wp_mono (serve_mapLoop_kernel k.perm _ s k.phys_start d hvirt ?_ hva ?_ hd) ?_
  · simp only [PGSIZE] at hsz ⊢
    omega
  · intro m h₁ h₂
    exact hfresh m ((hcov m).mpr ⟨h₁, h₂⟩)
  · rintro ⟨d', ok⟩ s' ⟨hgrow, hok⟩
    refine ⟨hgrow, fun h => ⟨(hok h).1, fun m hm => ?_⟩⟩
    rw [(hok h).2 m hm, mappedRange]
    simp only [hcov]

theorem serve_mapKernel (s : Mem) (habove : ∀ k ∈ ks, k.Above)
    (halign : ∀ k ∈ ks, k.Aligned)
    (hdisj : ks.Pairwise (fun k k' => ∀ m, k.Covers m → ¬ k'.Covers m))
    (hfresh : ∀ k ∈ ks, ∀ m, k.Covers m → d.entry m = none) (hd : Dense d) (hf : Fits s d.pages) :
    wp (serve (mapKernel ks d)) s (fun r s' =>
      match r with
      | none => Kept s d.pages s' 0
      | some d' => Grow s d.pages s' d'.pages ∧ Dense d' ∧
          ∀ m < NPAGES, d'.entry m = (kernelEntry ks m).or (d.entry m)) E := by
  induction ks generalizing d s with
  | nil => exact ⟨Grow.refl s _, hd, fun m _ => rfl⟩
  | cons k ks ih =>
    obtain ⟨hk, hrest⟩ := List.pairwise_cons.mp hdisj
    refine wp_serve_seq (serve_mappages_kernel s
      (habove k List.mem_cons_self) (halign k List.mem_cons_self)
      (hfresh k List.mem_cons_self) hd) ?_
    rintro ⟨d₁, ok⟩ s₁ ⟨hgrow, hok⟩
    cases ok with
    | true =>
      obtain ⟨hd₁, hentry⟩ := hok rfl
      refine wp_mono (ih s₁ (fun k hk => habove k (List.mem_cons_of_mem _ hk))
        (fun k hk => halign k (List.mem_cons_of_mem _ hk)) hrest ?_ hd₁ (hgrow.fits hf)) ?_
      · intro k' hk' m hm
        have hmem : k' ∈ k :: ks := List.mem_cons_of_mem _ hk'
        have hm' : m < NPAGES := by
          have hlast := (habove k' hmem).last
          change k'.virt + k'.size ≤ 2 ^ 32 at hlast
          simp only [Kmap.Covers, PGSIZE, NPAGES] at hm ⊢
          omega
        rw [hentry m hm', if_neg (fun hc => hk k' hk' m hc hm)]
        exact hfresh k' hmem m hm
      · rintro (_ | d') s' h
        · exact Kept.grow_trans hgrow h
        · obtain ⟨hg, hd', he⟩ := h
          refine ⟨hgrow.trans hg, hd', fun m hm => ?_⟩
          rw [he m hm, hentry m hm, kernelEntry]
          split_ifs with hc
          · rw [kernelEntry_eq_none (fun k' hk' => hk k' hk' m hc)]
            rfl
          · rfl
    | false =>
      refine wp_serve_seq (serve_freevm s₁ d₁ (hgrow.fits hf)) ?_
      intro _ s' hs'
      exact hgrow.kept.trans_shrink hs'

theorem kmap_aligned (l : Layout) : ∀ k ∈ kmap l, k.Aligned := by
  have htext := l.text
  have hmemory := l.memory
  have haligned := l.aligned
  simp only [KERNLINK, KERNBASE, EXTMEM, PHYSTOP, PGSIZE] at htext hmemory haligned
  intro k hk
  simp only [kmap, List.mem_cons, List.not_mem_nil, or_false] at hk
  rcases hk with rfl | rfl | rfl | rfl
  · exact ⟨by decide, by decide, by decide⟩
  · refine ⟨(by decide : KERNLINK % PGSIZE = 0), (by decide : (KERNLINK - KERNBASE) % PGSIZE = 0), ?_⟩
    simp only [Kmap.size, KERNLINK, KERNBASE, EXTMEM, PGSIZE]
    omega
  · refine ⟨?_, ?_, ?_⟩ <;> simp only [Kmap.size, KERNBASE, PHYSTOP, PGSIZE] <;> omega
  · exact ⟨by decide, by decide, by decide⟩

theorem kmap_disjoint (l : Layout) :
    (kmap l).Pairwise (fun k k' => ∀ m, k.Covers m → ¬ k'.Covers m) := by
  have htext := l.text
  have hmemory := l.memory
  simp only [KERNLINK, KERNBASE, EXTMEM, PHYSTOP] at htext hmemory
  simp only [kmap, List.pairwise_cons, List.mem_cons, List.not_mem_nil, or_false, Kmap.Covers,
    Kmap.size, KERNLINK, KERNBASE, EXTMEM, PHYSTOP, DEVSPACE, PGSIZE, List.Pairwise.nil]
  refine ⟨?_, ?_, ?_, ?_, trivial⟩
  · rintro k (rfl | rfl | rfl) m hm <;> dsimp only at hm ⊢ <;> omega
  · rintro k (rfl | rfl) m hm <;> dsimp only at hm ⊢ <;> omega
  · rintro k rfl m hm
    dsimp only at hm ⊢
    omega
  · rintro k hk
    cases hk

/-- The addresses that the kernel part maps. -/
def InKernel (va : Nat) : Prop :=
  KERNBASE ≤ va ∧ va < KERNBASE + PHYSTOP ∨ DEVSPACE ≤ va ∧ va < 2 ^ 32

theorem kernelEntry_isSome (l : Layout) (n : Nat) :
    (kernelEntry (kmap l) n).isSome ↔ InKernel (n * PGSIZE) := by
  have htext := l.text
  have hmemory := l.memory
  have haligned := l.aligned
  simp only [KERNLINK, KERNBASE, EXTMEM, PHYSTOP, PGSIZE] at htext hmemory haligned
  rw [isSome_kernelEntry]
  simp only [kmap, List.mem_cons, List.not_mem_nil, or_false, exists_eq_or_imp, exists_eq_left,
    Kmap.Covers, Kmap.size, InKernel, KERNLINK, KERNBASE, EXTMEM, PHYSTOP, DEVSPACE, PGSIZE]
  omega

/-- No page of the kernel part is accessible to the user. -/
theorem kernelEntry_perm {e : Pte} (h : kernelEntry (kmap l) n = some e) : e.perm &&& PTE_U = 0 := by
  obtain ⟨k, hk, -, hperm⟩ := exists_covers h
  simp only [kmap, List.mem_cons, List.not_mem_nil, or_false] at hk
  have hkernel : k.perm = 0 ∨ k.perm = PTE_W := by
    rcases hk with rfl | rfl | rfl | rfl
    · exact Or.inr rfl
    · exact Or.inl rfl
    · exact Or.inr rfl
    · exact Or.inr rfl
  rw [hperm]
  rcases hkernel with h | h
  · rw [h]
    rfl
  · rw [h]
    rfl

theorem serve_setupkvm (l : Layout) (s : Mem) (hf : Fits s 0) :
    wp (serve (setupkvm l)) s (fun r s' =>
      match r with
      | none => Kept s 0 s' 0
      | some d => Grow s 0 s' d.pages ∧ Dense d ∧
          ∀ n < NPAGES, d.entry n = kernelEntry (kmap l) n) E := by
  refine wp_serve_kalloc 0 (fun s' h => h.kept) ?_
  intro p s₁ _ hs₁
  have hpages : (⟨p, fun _ => none⟩ : Pgdir).pages = 0 + {p} := by
    unfold Pgdir.pages
    simp only [owned, Option.elim_none, Finset.sum_const_zero, add_comm]
  have hgrow : Grow s 0 s₁ (⟨p, fun _ => none⟩ : Pgdir).pages := hs₁.cast rfl hpages
  have hmap := @serve_mapKernel E (⟨p, fun _ => none⟩ : Pgdir) (kmap l) s₁ (kmap_above l)
    (kmap_aligned l) (kmap_disjoint l) (fun _ _ _ _ => rfl) (fun i hi => by cases hi)
    (hgrow.fits hf)
  refine wp_mono hmap ?_
  rintro (_ | d) s' h
  · exact Kept.grow_trans hgrow h
  · obtain ⟨hg, hd, he⟩ := h
    refine ⟨hgrow.trans hg, hd, fun n hn => ?_⟩
    rw [he n hn]
    exact Option.or_none

end Xv6.Vm
