import Xv6.MemoryRoom

/-!
# Growing and shrinking a process

`allocuvm` and `growproc` with the contents of the pages. `growproc` is exact for every size that it
reaches from above zero: it either changes the size by `n`, with the pages to match, or changes
nothing.
-/

namespace Xv6.Vm

open Alloc

variable {s s' s₀ : Mem} {d d' d₀ : Pgdir} {E : Fault → Prop} {a r sz : Nat}

/-- The pages from `r` up to `a` have been added to `d₀`, filled with zeros. -/
structure Alloced (s₀ : Mem) (d₀ : Pgdir) (r a : Nat) (s : Mem) (d : Pgdir) : Prop where
  grow : Grow s₀ d₀.pages s d.pages
  agree : Agree d₀ d (fun n => ¬ (r ≤ n * PGSIZE ∧ n * PGSIZE < a))
  new : ∀ n < NPAGES, r ≤ n * PGSIZE → n * PGSIZE < a →
    ∃ p ∈ s₀.free, d.entry n = some ⟨p, PTE_W + PTE_U⟩ ∧ s.data p = Bytes.zero

theorem Alloced.refl (s : Mem) (d : Pgdir) (h : a ≤ r) : Alloced s d r a s d :=
  ⟨Grow.refl s _, Agree.refl d _, fun n _ h₁ h₂ => by omega⟩

theorem Alloced.step (h : Alloced s₀ d₀ r a s d) (hf : Fits s₀ d₀.pages) (hr : r ≤ a)
    (ha : a % PGSIZE = 0) (hlt : a < KERNBASE) {s₁ s₂ : Mem} {p : Page} {d' : Pgdir}
    (hp : p ∈ s.free) (hs₁ : Grow s d.pages s₁ (d.pages + {p}))
    (hs₂ : Grow (s₁.setData p Bytes.zero) (d.pages + {p}) s₂ d'.pages)
    (hmap : Mapped d a ⟨p, PTE_W + PTE_U⟩ d') : Alloced s₀ d₀ r (a + PGSIZE) s₂ d' := by
  have hp₀ : p ∈ s₀.free := h.grow.free p hp
  have hsz : Grow s₀ d₀.pages (s₁.setData p Bytes.zero) (d.pages + {p}) :=
    (h.grow.trans hs₁).write hp₀ _
  have hout : ∀ q ∈ d.pages + {p}, q ∉ (s₁.setData p Bytes.zero).free :=
    fun q hq => (hsz.fits hf).not_free hq
  refine ⟨hsz.trans hs₂, ⟨?_, ?_⟩, ?_⟩
  · intro n hn hin
    have hne : n ≠ a / PGSIZE := by
      intro hc
      apply hin
      simp only [hc, PGSIZE] at ha ⊢
      omega
    rw [hmap.entry n hn, if_neg hne]
    exact h.agree.entry n hn (by omega)
  · intro i hi
    rw [(hmap.agree hlt).table i hi, h.agree.table i hi]
  · intro n hn h₁ h₂
    rw [hmap.entry n hn]
    by_cases hna : n = a / PGSIZE
    · refine ⟨p, hp₀, if_pos hna, ?_⟩
      rw [hs₂.data p (hout p (Multiset.mem_add.mpr (Or.inr (Multiset.mem_singleton_self p)))),
        Mem.setData_self]
    · have hlt' : n * PGSIZE < a := by
        simp only [PGSIZE] at hna ha h₂ ⊢
        omega
      obtain ⟨q, hq, hentry, hzero⟩ := h.new n hn h₁ hlt'
      have hqd : q ∈ d.pages := mem_pages_of_entry (by omega) hentry
      have hqp : q ≠ p := by
        intro hc
        exact (h.grow.fits hf).not_free hqd (hc ▸ hp)
      refine ⟨q, hq, by rw [if_neg hna, hentry], ?_⟩
      rw [hs₂.data q (hout q (Multiset.mem_add.mpr (Or.inl hqd))), s₁.setData_of_ne hqp,
        hs₁.data q ((h.grow.fits hf).not_free hqd), hzero]

/-- `allocuvm` gave up and left the directory as it was. -/
structure Unchanged (s₀ : Mem) (d₀ : Pgdir) (s : Mem) (d : Pgdir) : Prop where
  kept : Kept s₀ d₀.pages s d.pages
  agree : Agree d₀ d (fun _ => True)

theorem Alloced.undo (h : Alloced s₀ d₀ r a s d) {b : Nat} {p : Multiset Page} {s₁ s₂ : Mem}
    (hfresh : ∀ n, r ≤ n * PGSIZE → n * PGSIZE < b → d₀.entry n = none) (hab : a ≤ b)
    (hs₁ : Grow s d.pages s₁ (d.pages + p)) (hs₂ : Shrink s₁ (d.pages + p) s₂ d'.pages)
    (hc : Cleared r b d d') : Unchanged s₀ d₀ s₂ d' := by
  refine ⟨Kept.grow_trans (h.grow.trans hs₁) hs₂.kept, ?_, ?_⟩
  · intro n hn _
    rw [hc.entry n hn]
    split_ifs with hin
    · exact (hfresh n hin.1 hin.2).symm
    · exact h.agree.entry n hn (by omega)
  · intro i hi
    rw [hc.table i, h.agree.table i hi]

variable {oldsz newsz : Nat}

theorem serve_allocRound (hnew : newsz < KERNBASE) (hf : Fits s₀ d₀.pages)
    (hfresh : ∀ n, PGROUNDUP oldsz ≤ n * PGSIZE → n * PGSIZE < newsz → d₀.entry n = none)
    (hold : oldsz ≤ PGROUNDUP oldsz) (h : Alloced s₀ d₀ (PGROUNDUP oldsz) a s d)
    (hr : PGROUNDUP oldsz ≤ a) (ha : a % PGSIZE = 0) (hlt : a < newsz) :
    wp (serve (allocRound oldsz newsz a d)) s (fun res s' =>
      if res.2 then Alloced s₀ d₀ (PGROUNDUP oldsz) (a + PGSIZE) s' res.1
      else Unchanged s₀ d₀ s' res.1) E := by
  have hfs := h.grow.fits hf
  have hnone : d.entry (a / PGSIZE) = none := by
    have hmul : a / PGSIZE * PGSIZE = a := Nat.div_mul_cancel (Nat.dvd_of_mod_eq_zero ha)
    have hn : a / PGSIZE < NPAGES := by
      simp only [PGSIZE, NPAGES, KERNBASE] at hnew ⊢
      omega
    rw [h.agree.entry _ hn (by rw [hmul]; omega)]
    exact hfresh _ (by rw [hmul]; exact hr) (by rw [hmul]; exact hlt)
  refine wp_serve_mapFresh (by omega) ha hnone (fun _ => rfl) ?_ ?_ ?_
  · -- no page: undo what has been done
    intro s₁ hs₁
    refine wp_serve_seq (serve_deallocuvm s₁ d hnew.le (by omega) (hs₁.fits hfs)) ?_
    rintro ⟨d', sz⟩ s₂ ⟨hs₂, -, hc⟩
    exact h.undo (p := 0) hfresh (by omega) (hs₁.cast rfl (add_zero _))
      (hs₂.cast (add_zero _) rfl) hc
  · intro mem s₁ s₂ d' hmem hs₁ hs₂ hmap
    exact h.step hf hr ha (by omega) hmem hs₁ hs₂ hmap
  · intro mem s₂ hgrow
    have hfs₂ := hgrow.fits hfs
    refine wp_serve_seq (serve_deallocuvm s₂ d hnew.le (by omega)
      (hfs₂.mono (Multiset.le_add_right _ _))) ?_
    rintro ⟨d₂, sz⟩ s₃ ⟨hs₃, -, hc⟩
    have hs₃' := hs₃.frame {mem}
    refine wp_serve_kfree d₂.pages (hs₃'.fits hfs₂) ?_
    intro s₄ hs₄
    exact h.undo hfresh (by omega) hgrow (hs₃'.trans hs₄) hc

theorem serve_allocLoop (hnew : newsz < KERNBASE) (fuel : Nat) (hf : Fits s₀ d₀.pages)
    (hfresh : ∀ n, PGROUNDUP oldsz ≤ n * PGSIZE → n * PGSIZE < newsz → d₀.entry n = none)
    (hold : oldsz ≤ PGROUNDUP oldsz) (h : Alloced s₀ d₀ (PGROUNDUP oldsz) a s d)
    (hr : PGROUNDUP oldsz ≤ a) (ha : a % PGSIZE = 0)
    (hend : a = PGROUNDUP oldsz ∨ a < newsz + PGSIZE) (hfuel : newsz ≤ a + fuel * PGSIZE) :
    wp (serve (allocLoop oldsz newsz fuel a d)) s (fun res s' =>
      res.2 = newsz ∧ Alloced s₀ d₀ (PGROUNDUP oldsz) newsz s' res.1 ∨
      res.2 = 0 ∧ Unchanged s₀ d₀ s' res.1) E := by
  have hdone : ∀ {a : Nat} {s : Mem} {d : Pgdir}, Alloced s₀ d₀ (PGROUNDUP oldsz) a s d →
      newsz ≤ a → a % PGSIZE = 0 → (a = PGROUNDUP oldsz ∨ a < newsz + PGSIZE) →
      Alloced s₀ d₀ (PGROUNDUP oldsz) newsz s d := by
    intro a s d h hle ha hend
    have hiff : ∀ n, PGROUNDUP oldsz ≤ n * PGSIZE → (n * PGSIZE < a ↔ n * PGSIZE < newsz) := by
      intro n hn
      simp only [PGSIZE] at ha hend hn ⊢
      omega
    refine ⟨h.grow, h.agree.mono (fun n _ hout => ?_), fun n hn h₁ h₂ => h.new n hn h₁ (by omega)⟩
    intro hin
    exact hout ⟨hin.1, (hiff n hin.1).mp hin.2⟩
  induction fuel generalizing a d s with
  | zero => exact Or.inl ⟨rfl, hdone h (by omega) ha hend⟩
  | succ fuel ih =>
    unfold allocLoop
    split_ifs with hlt
    · refine wp_serve_seq (serve_allocRound hnew hf hfresh hold h hr ha hlt) ?_
      rintro ⟨d', ok⟩ s₁ hres
      cases ok with
      | true =>
        refine ih hres (by omega) (by simp only [PGSIZE] at ha ⊢; omega) (by omega) ?_
        simp only [PGSIZE] at hfuel ⊢
        omega
      | false => exact Or.inr ⟨rfl, hres⟩
    · exact Or.inl ⟨rfl, hdone h (by omega) ha hend⟩

theorem serve_allocuvm (hf : Fits s d.pages) (hle : oldsz ≤ newsz) (hnew : newsz < KERNBASE)
    (hfresh : ∀ n, PGROUNDUP oldsz ≤ n * PGSIZE → n * PGSIZE < newsz → d.entry n = none) :
    wp (serve (allocuvm d oldsz newsz)) s (fun res s' =>
      res.2 = newsz ∧ Alloced s d (PGROUNDUP oldsz) newsz s' res.1 ∨
      res.2 = 0 ∧ Unchanged s d s' res.1) E := by
  have hround : PGROUNDUP oldsz = (oldsz + 4095) / 4096 * 4096 := PGROUNDUP_eq (by
    simp only [PGSIZE, KERNBASE] at hnew ⊢
    omega)
  unfold allocuvm
  rw [if_neg (by omega), if_neg (by omega)]
  refine serve_allocLoop hnew _ hf hfresh (by omega) (Alloced.refl s d le_rfl) le_rfl ?_
    (Or.inl rfl) ?_
  · simp only [hround, PGSIZE]
    omega
  · simp only [hround, PGSIZE]
    omega

/-! ### Address spaces of processes -/

/-- The byte that a process reads at `va`. -/
def Mem.byte (s : Mem) (d : Pgdir) (va : Nat) : Option UInt8 :=
  (d.lookup va).map (fun e => (s.data e.ppn).get (va % PGSIZE))

/-- The user pages are those below `sz`. -/
def UserPages (d : Pgdir) (sz : Nat) : Prop :=
  ∀ n, n * PGSIZE < KERNBASE → ((d.entry n).isSome ↔ n * PGSIZE < PGROUNDUP sz)

/-- The address space of a process of size `sz`. -/
structure Space (s : Mem) (d : Pgdir) (sz : Nat) : Prop where
  fits : Fits s d.pages
  size : sz < KERNBASE
  pages : UserPages d sz

theorem Space.round (h : Space s d sz) : PGROUNDUP sz = (sz + 4095) / 4096 * 4096 := by
  have hsz := h.size
  exact PGROUNDUP_eq (by simp only [PGSIZE, KERNBASE] at hsz ⊢; omega)

theorem byte_congr {va : Nat} (h : d'.lookup va = d.lookup va)
    (hdata : ∀ e, d.lookup va = some e → s'.data e.ppn = s.data e.ppn) :
    s'.byte d' va = s.byte d va := by
  unfold Mem.byte
  rw [h]
  cases he : d.lookup va with
  | none => rfl
  | some e => simp only [Option.map_some, hdata e he]

theorem Unchanged.same (h : Unchanged s d s' d') (hf : Fits s d.pages) {va : Nat}
    (hva : va < KERNBASE) : d'.lookup va = d.lookup va ∧ s'.byte d' va = s.byte d va := by
  have hn : va / PGSIZE < NPAGES := by
    simp only [PGSIZE, NPAGES, KERNBASE] at hva ⊢
    omega
  have hmul : va / PGSIZE * PGSIZE < KERNBASE := lt_of_le_of_lt (Nat.div_mul_le_self _ _) hva
  have hlookup : d'.lookup va = d.lookup va := by
    rw [lookup_eq_entry, lookup_eq_entry, h.agree.entry _ hn trivial]
  refine ⟨hlookup, byte_congr hlookup ?_⟩
  intro e he
  rw [lookup_eq_entry] at he
  have he' : d'.entry (va / PGSIZE) = some e := by rw [h.agree.entry _ hn trivial, he]
  exact h.kept.data_of_mem hf (mem_pages_of_entry hmul he) (mem_pages_of_entry hmul he')

/-- What a `growproc` that succeeds has done. -/
structure Grown (s : Mem) (d : Pgdir) (sz : Nat) (n : Int) (s' : Mem) (d' : Pgdir) (sz' : Nat) :
    Prop where
  size : (sz' : Int) = sz + n
  user : sz' < KERNBASE
  pages : UserPages d' sz'
  old : ∀ va < min sz sz', s'.byte d' va = s.byte d va
  new : ∀ va, PGROUNDUP sz ≤ va → va < PGROUNDUP sz' → s'.byte d' va = some 0

/-- `growproc` changes the size by `n`, or fails and changes nothing. -/
def GrowsExactly (s : Mem) (d : Pgdir) (sz : Nat) (n : Int) : Prop :=
  ∃ d' sz' res s', serve (growproc d sz n) s = .ok ((d', sz', res), s') ∧
    (res = 0 ∧ Grown s d sz n s' d' sz' ∨
      res = -1 ∧ sz' = sz ∧
        ∀ va < KERNBASE, d'.lookup va = d.lookup va ∧ s'.byte d' va = s.byte d va)

theorem Alloced.grown {newsz : Nat} {n : Int} (hsp : Space s d sz)
    (h : Alloced s d (PGROUNDUP sz) newsz s' d') (hsize : (newsz : Int) = sz + n) (hn : 0 ≤ n)
    (hnew : newsz < KERNBASE) : Grown s d sz n s' d' newsz := by
  have hround := hsp.round
  have hround' : PGROUNDUP newsz = (newsz + 4095) / 4096 * 4096 :=
    PGROUNDUP_eq (by simp only [PGSIZE, KERNBASE] at hnew ⊢; omega)
  refine ⟨hsize, hnew, ?_, ?_, ?_⟩
  · intro m hm
    by_cases hin : PGROUNDUP sz ≤ m * PGSIZE ∧ m * PGSIZE < newsz
    · obtain ⟨p, -, he, -⟩ := h.new m (lt_NPAGES hm) hin.1 hin.2
      rw [he]
      simp only [Option.isSome_some, true_iff]
      omega
    · rw [h.agree.entry m (lt_NPAGES hm) hin, hsp.pages m hm]
      simp only [PGSIZE] at hin ⊢
      omega
  · intro va hva
    have hmul : va / PGSIZE * PGSIZE < KERNBASE :=
      lt_of_le_of_lt (Nat.div_mul_le_self _ _) (by omega)
    have hout : ¬ (PGROUNDUP sz ≤ va / PGSIZE * PGSIZE ∧ va / PGSIZE * PGSIZE < newsz) := by
      simp only [PGSIZE]
      omega
    have hlookup : d'.lookup va = d.lookup va := by
      rw [lookup_eq_entry, lookup_eq_entry, h.agree.entry _ (lt_NPAGES hmul) hout]
    refine byte_congr hlookup ?_
    intro e he
    rw [lookup_eq_entry] at he
    exact h.grow.data _ (hsp.fits.not_free (mem_pages_of_entry hmul he))
  · intro va h₁ h₂
    have hmul : va / PGSIZE * PGSIZE < newsz := by
      simp only [PGSIZE]
      omega
    obtain ⟨p, -, he, hzero⟩ := h.new (va / PGSIZE) (lt_NPAGES (hmul.trans hnew))
      (by simp only [PGSIZE]; omega) hmul
    rw [Mem.byte, lookup_eq_entry, he, Option.map_some, hzero, Bytes.get_zero]

theorem Cleared.grown {newsz : Nat} {n : Int} (hsp : Space s d sz)
    (hs : Shrink s d.pages s' d'.pages) (h : Cleared (PGROUNDUP newsz) sz d d')
    (hsize : (newsz : Int) = sz + n) (hn : n < 0) : Grown s d sz n s' d' newsz := by
  have hsz := hsp.size
  have hround := hsp.round
  have hround' : PGROUNDUP newsz = (newsz + 4095) / 4096 * 4096 :=
    PGROUNDUP_eq (by simp only [PGSIZE, KERNBASE] at hsz ⊢; omega)
  refine ⟨hsize, by omega, ?_, ?_, fun va h₁ h₂ => by omega⟩
  · intro m hm
    rw [h.entry m (lt_NPAGES hm)]
    split_ifs with hin
    · simp only [Option.isSome_none, Bool.false_eq_true, false_iff]
      omega
    · rw [hsp.pages m hm]
      simp only [PGSIZE] at hin ⊢
      omega
  · intro va hva
    have hmul : va / PGSIZE * PGSIZE < KERNBASE :=
      lt_of_le_of_lt (Nat.div_mul_le_self _ _) (by omega)
    have hlookup : d'.lookup va = d.lookup va := by
      rw [lookup_eq_entry, lookup_eq_entry, h.entry _ (lt_NPAGES hmul), if_neg]
      simp only [PGSIZE]
      omega
    refine byte_congr hlookup ?_
    intro e he
    rw [← hlookup, lookup_eq_entry] at he
    exact hs.data _ ((hs.fits hsp.fits).not_free (mem_pages_of_entry hmul he))

section Exact

variable {n : Int} (hsp : Space s d sz)
include hsp

/-- Growing: the new pages are there, or everything is as before. -/
theorem growproc_up (h0 : 0 < n) (hn : n < 2 ^ 31) :
    wp (serve (growproc d sz n)) s (fun r s' =>
      r.2.2 = 0 ∧ (r.2.1 : Int) = sz + n ∧ r.2.1 < KERNBASE ∧
        Alloced s d (PGROUNDUP sz) r.2.1 s' r.1 ∨
      r.2.2 = -1 ∧ r.2.1 = sz ∧ Unchanged s d s' r.1) E := by
  have hsz := hsp.size
  simp only [KERNBASE] at hsz
  have hround := hsp.round
  obtain ⟨newsz, hnew⟩ : ∃ newsz : Nat, (newsz : Int) = sz + n := ⟨(sz + n).toNat, by omega⟩
  have hmod : ((sz + n : Int) % 2 ^ 32).toNat = newsz := by omega
  unfold growproc
  dsimp only
  rw [if_pos h0, hmod]
  refine (wp_serve_bind _ _).mpr ?_
  by_cases hbig : KERNBASE ≤ newsz
  · unfold allocuvm
    rw [if_pos hbig]
    exact Or.inr ⟨rfl, rfl, ⟨rfl, rfl, fun _ _ _ => rfl⟩, Agree.refl d _⟩
  · have hlt : newsz < KERNBASE := by omega
    refine wp_mono (serve_allocuvm hsp.fits (by omega) hlt ?_) ?_
    · intro m h₁ h₂
      have hm := hsp.pages m (by omega)
      rw [← Option.not_isSome_iff_eq_none, hm]
      omega
    · rintro ⟨d', res⟩ s' (⟨hres, hall⟩ | ⟨hres, hun⟩)
      · change res = newsz at hres
        subst hres
        dsimp only
        rw [if_neg (by omega)]
        exact Or.inl ⟨rfl, hnew, hlt, hall⟩
      · change res = 0 at hres
        dsimp only
        rw [if_pos hres]
        exact Or.inr ⟨rfl, rfl, hun⟩

theorem growsExactly_up (h0 : 0 < n) (hn : n < 2 ^ 31) : GrowsExactly s d sz n := by
  have hspec := growproc_up (E := fun _ => False) hsp h0 hn
  obtain ⟨r, s', hrun, hpost⟩ := wp_returns hspec (fun _ h => h)
  refine ⟨r.1, r.2.1, r.2.2, s', hrun, ?_⟩
  rcases hpost with ⟨hres, hsize, hlt, hall⟩ | ⟨hres, hsize, hun⟩
  · exact Or.inl ⟨hres, hall.grown hsp hsize h0.le hlt⟩
  · exact Or.inr ⟨hres, hsize, fun va hva => hun.same hsp.fits hva⟩

theorem growproc_space (h0 : 0 < n) (hn : n < 2 ^ 31) :
    wp (serve (growproc d sz n)) s (fun r s' => Space s' r.1 r.2.1 ∧
      (r.2.2 = 0 ∧ (r.2.1 : Int) = sz + n ∨ r.2.2 = -1 ∧ r.2.1 = sz)) E := by
  refine wp_mono (growproc_up hsp h0 hn) ?_
  rintro ⟨d', sz', res⟩ s' (⟨hres, hsize, hlt, hall⟩ | ⟨hres, hsize, hun⟩)
  · have hgrown := hall.grown hsp hsize h0.le hlt
    exact ⟨⟨hall.grow.fits hsp.fits, hlt, hgrown.pages⟩, Or.inl ⟨hres, hsize⟩⟩
  · change sz' = sz at hsize
    subst hsize
    refine ⟨⟨hun.kept.fits hsp.fits, hsp.size, fun m hm => ?_⟩, Or.inr ⟨hres, rfl⟩⟩
    rw [hun.agree.entry m (lt_NPAGES hm) trivial]
    exact hsp.pages m hm

theorem growsExactly_down (hn : n < 0) (hpos : 0 < sz + n) : GrowsExactly s d sz n := by
  have hsz := hsp.size
  obtain ⟨newsz, hnew⟩ : ∃ newsz : Nat, (newsz : Int) = sz + n := ⟨(sz + n).toNat, by omega⟩
  have hmod : ((sz + n : Int) % 2 ^ 32).toNat = newsz := by
    simp only [KERNBASE] at hsz
    omega
  have hspec : wp (serve (growproc d sz n)) s (fun r s' => r.2.2 = 0 ∧ Grown s d sz n s' r.1 r.2.1)
      (fun _ => False) := by
    unfold growproc
    dsimp only
    rw [if_neg (by omega), if_pos hn, hmod]
    refine wp_serve_seq (serve_deallocuvm s d hsz.le (by omega) hsp.fits) ?_
    rintro ⟨d', res⟩ s' ⟨hs, hres, hc⟩
    change res = newsz at hres
    subst hres
    dsimp only
    rw [if_neg (by omega)]
    exact ⟨rfl, hc.grown hsp hs hnew hn⟩
  obtain ⟨r, s', hrun, hpost⟩ := wp_returns hspec (fun _ h => h)
  exact ⟨r.1, r.2.1, r.2.2, s', hrun, Or.inl hpost⟩

/-- Shrinking below zero: `sz + n` wraps around, and nothing is done. -/
theorem growproc_below (hn : -2 ^ 31 ≤ n) (hneg : sz + n < 0) :
    serve (growproc d sz n) s = .ok ((d, sz, if sz = 0 then -1 else 0), s) := by
  have hsz := hsp.size
  simp only [KERNBASE] at hsz
  have hge : ((sz + n : Int) % 2 ^ 32).toNat ≥ sz := by omega
  unfold growproc deallocuvm
  dsimp only
  rw [if_neg (by omega), if_pos (by omega), if_pos hge]
  change serve (if sz = 0 then .ret (d, sz, -1) else .ret (d, sz, 0)) s = _
  split_ifs <;> rfl

theorem not_growsExactly_zero (hpos : 0 < sz) (hzero : sz + n = 0) : ¬ GrowsExactly s d sz n := by
  rintro ⟨d', sz', res, s', hrun, hpost⟩
  have hsz := hsp.size
  have hspec : wp (serve (growproc d sz n)) s (fun r _ => r.2.2 = -1 ∧ r.1.lookup 0 = none)
      (fun _ => False) := by
    unfold growproc
    dsimp only
    have hmod : ((0 : Int) % 2 ^ 32).toNat = 0 := rfl
    rw [if_neg (by omega), if_pos (by omega), hzero, hmod]
    refine wp_serve_seq (serve_deallocuvm s d hsz.le hpos hsp.fits) ?_
    rintro ⟨d', res⟩ s' ⟨-, hres, hc⟩
    change res = 0 at hres
    dsimp only
    rw [if_pos hres]
    have hround : PGROUNDUP 0 = 0 := by decide
    refine ⟨rfl, ?_⟩
    rw [lookup_eq_entry, Nat.zero_div, hc.entry 0 (by decide), if_pos]
    rw [hround, Nat.zero_mul]
    exact ⟨le_rfl, hpos⟩
  have hq := wp_ok hspec hrun
  rcases hpost with ⟨hres, -⟩ | ⟨-, -, hsame⟩
  · have : res = -1 := hq.1
    omega
  · -- page 0 was mapped before
    have hround : 0 * PGSIZE < PGROUNDUP sz := by
      rw [hsp.round, Nat.zero_mul]
      omega
    have hpage := (hsp.pages 0 (by decide)).mpr hround
    rw [Pgdir.entry, Nat.zero_mul, ← (hsame 0 (by decide)).1] at hpage
    have : d'.lookup 0 = none := hq.2
    rw [this] at hpage
    cases hpage

/-- `growproc` is exact unless it would take a process of positive size to zero or below. -/
theorem growproc_exact_iff (hn : -2 ^ 31 ≤ n ∧ n < 2 ^ 31) :
    GrowsExactly s d sz n ↔ 0 ≤ n ∨ 0 < sz + n ∨ sz = 0 := by
  constructor
  · intro h
    by_contra hcond
    have hpos : 0 < sz := by omega
    rcases Int.lt_or_eq_of_le (show (sz : Int) + n ≤ 0 by omega) with hneg | hzero
    · obtain ⟨d', sz', res, s', hrun, hpost⟩ := h
      rw [growproc_below hsp hn.1 hneg, if_neg (by omega)] at hrun
      cases hrun
      rcases hpost with ⟨-, hg⟩ | ⟨hres, -⟩
      · have := hg.size
        omega
      · omega
    · exact not_growsExactly_zero hsp hpos hzero h
  · intro h
    rcases lt_trichotomy n 0 with hneg | rfl | hpos
    · by_cases hgt : 0 < sz + n
      · exact growsExactly_down hsp hneg hgt
      · refine ⟨d, sz, _, s, growproc_below hsp hn.1 (by omega), Or.inr ⟨?_, rfl, fun _ _ => ⟨rfl, rfl⟩⟩⟩
        rw [if_pos (by omega)]
    · refine ⟨d, sz, 0, s, rfl, Or.inl ⟨rfl, ?_⟩⟩
      exact ⟨by omega, hsp.size, hsp.pages, fun _ _ => rfl, fun va h₁ h₂ => by omega⟩
    · exact growsExactly_up hsp hpos hn.2

end Exact

/-- A process with one page, and no free page. -/
def onePage : Pgdir :=
  ((⟨256, fun _ => none⟩ : Pgdir).setPde (PDX 0) ⟨257, fun _ => none⟩).setPte ⟨257, fun _ => none⟩ 0
    (some ⟨258, PTE_W + PTE_U⟩)

def onePageMem : Mem := ⟨256, by decide, [], fun _ => Bytes.zero, fun _ => false⟩

theorem onePage_pages : onePage.pages = {256} + {257} + {258} := by
  have hempty : (⟨256, fun _ => none⟩ : Pgdir).pages = {256} := by
    unfold Pgdir.pages
    simp only [owned, Option.elim_none, Finset.sum_const_zero, add_zero]
  have htable := pages_setPde ⟨256, fun _ => none⟩ (PDX 0) ⟨257, fun _ => none⟩
  have hentry := @pages_setPte
    ((⟨256, fun _ => none⟩ : Pgdir).setPde (PDX 0) ⟨257, fun _ => none⟩) ⟨257, fun _ => none⟩ 0
    (setPde_self _ _ _) (some ⟨258, PTE_W + PTE_U⟩)
  have hmapped : Pgtab.mapped ⟨257, fun _ => none⟩ = 0 := by simp [Pgtab.mapped]
  have huser : (PDX 0).val < 512 := by decide
  simp only [owned, Option.elim_none, Option.elim_some, hmapped, ite_self, add_zero, hempty]
    at htable
  simp only [ownedPage, huser, if_true, Option.elim_none, Option.elim_some, add_zero, htable]
    at hentry
  exact hentry

theorem onePage_fits (hk : s.kend = 256) (hf : Fits s 0) (hlow : ∀ p ∈ s.free, 258 < p) :
    Fits s onePage.pages := by
  have hmem : ∀ p ∈ onePage.pages, 256 ≤ p ∧ p ≤ 258 := by
    intro p hp
    have heq : p = 256 ∨ p = 257 ∨ p = 258 := by simpa [onePage_pages, or_assoc] using hp
    rcases heq with rfl | rfl | rfl <;> decide
  have hfree := hf.nodup
  rw [add_zero] at hfree
  refine ⟨Multiset.nodup_add.mpr ⟨hfree, by rw [onePage_pages]; decide, ?_⟩, ?_⟩
  · refine Multiset.disjoint_left.mpr ?_
    intro p hp hp'
    exact absurd (hmem p hp').2 (Nat.not_le.mpr (hlow p (Multiset.mem_coe.mp hp)))
  · intro p hp
    rcases Multiset.mem_add.mp hp with hp | hp
    · exact hf.valid p (by rwa [add_zero])
    · have hle := (hmem p hp).2
      exact ⟨hk.symm ▸ (hmem p hp).1, lt_of_le_of_lt hle (by decide)⟩

theorem onePage_userPages : UserPages onePage 4096 := by
  intro n hn
  have hround : PGROUNDUP 4096 = 4096 := by decide
  rw [onePage, entry_setPte (setPde_self _ _ _) _ (by decide) (lt_NPAGES hn),
    entry_addTable rfl, hround]
  by_cases h0 : n = 0
  · simp [h0]
  · simp only [Nat.zero_div, h0, if_false, Pgdir.entry, Pgdir.lookup, Option.bind_none,
      Option.isSome_none, Bool.false_eq_true, false_iff, PGSIZE]
    omega

theorem onePage_space : Space onePageMem onePage 4096 := by
  have hfits : Fits onePageMem 0 := ⟨by decide, fun p hp => absurd hp (Multiset.notMem_zero p)⟩
  exact ⟨onePage_fits rfl hfits (fun p hp => absurd hp List.not_mem_nil), by decide,
    onePage_userPages⟩

/-- Memory with pages to spare. -/
def freshMem : Mem :=
  ⟨256, onePageMem.kernel, List.range' 1024 12000, fun _ => Bytes.zero, fun _ => false⟩

theorem mem_freshMem {p : Page} : p ∈ freshMem.free ↔ 1024 ≤ p ∧ p < 13024 := by
  simp only [freshMem, List.mem_range'_1]

theorem freshMem_length : freshMem.free.length = 12000 := List.length_range'

theorem freshMem_fits : Fits freshMem 0 := by
  refine ⟨?_, ?_⟩
  · rw [add_zero, Multiset.coe_nodup]
    exact List.nodup_range'
  · intro p hp
    rw [add_zero, Multiset.mem_coe, mem_freshMem] at hp
    exact ⟨Nat.le_trans (by decide) hp.1, Nat.lt_trans hp.2 (by decide)⟩

theorem onePage_freshMem : Space freshMem onePage 4096 :=
  ⟨onePage_fits rfl freshMem_fits (fun _ hp => Nat.lt_of_lt_of_le (by decide) (mem_freshMem.mp hp).1),
    by decide, onePage_userPages⟩

theorem onePage_room : Room 0 freshMem onePage 8 := by
  refine ⟨fun _ => rfl, ?_⟩
  have hlacking := lacking_le onePage 0
  simp only [NPDENTRIES] at hlacking
  rw [freshMem_length]
  omega

/-- The process gives back all its memory. -/
theorem onePage_toZero : Space onePageMem onePage 4096 ∧
    ¬ GrowsExactly onePageMem onePage 4096 (-4096) :=
  ⟨onePage_space, not_growsExactly_zero onePage_space (by decide) (by decide)⟩

/-- The process gets a second page and gives it back. -/
theorem onePage_shrinks : Space freshMem onePage 4096 ∧ GrowsExactly freshMem onePage 4096 4096 ∧
    ∃ d s, serve (growproc onePage 4096 4096) freshMem = .ok ((d, 8192, 0), s) ∧
      GrowsExactly s d 8192 (-4096) := by
  have hroom := @growproc_room freshMem onePage 7 4096 4096 1 onePage_room (by decide) (by decide)
    (by decide)
  have hspace := growproc_space (E := fun _ => False) onePage_freshMem
    (show (0 : Int) < (4096 : Nat) by decide) (by decide)
  obtain ⟨⟨d, sz, res⟩, s, hrun, ⟨hsize, -⟩, hsp, -⟩ := wp_returns (wp_and hroom hspace)
    (fun _ h => h.2)
  cases hsize
  have hsp' : Space s d 8192 := hsp
  exact ⟨onePage_freshMem, (growproc_exact_iff onePage_freshMem (by decide)).mpr (Or.inl (by decide)),
    d, s, hrun, (growproc_exact_iff hsp' (by decide)).mpr (Or.inr (Or.inl (by decide)))⟩

/-- `deallocuvm` is the loop over all pages from `PGROUNDUP newsz` up to `oldsz`, and that loop frees
each page that is mapped there once and changes no other entry. -/
theorem deallocuvm_plain {oldsz : Nat} (newsz : Nat) (hold : oldsz ≤ KERNBASE)
    (h : DistinctPages s d) :
    (oldsz ≤ newsz → serve (deallocuvm d oldsz newsz) s = .ok ((d, oldsz), s)) ∧
    (newsz < oldsz → ∃ ns d' s',
      (∀ n, n ∈ ns ↔ PGROUNDUP newsz ≤ n * PGSIZE ∧ n * PGSIZE < oldsz) ∧
      deallocuvm d oldsz newsz = (plainLoop ns d).bind (fun d' => .ret (d', newsz)) ∧
      serve (deallocuvm d oldsz newsz) s = .ok ((d', newsz), s') ∧
      (ns.filterMap d.ppn).Nodup ∧ Freed ns s d s' d') := by
  refine ⟨fun hle => ?_, fun hlt => ?_⟩
  · rw [deallocuvm, if_pos hle]
    rfl
  · have hround : PGROUNDUP newsz = (newsz + 4095) / PGSIZE * PGSIZE := PGROUNDUP_eq (by
      simp only [PGSIZE, KERNBASE] at hold ⊢
      omega)
    obtain ⟨⟨d', sz⟩, s', hrun, rfl, hfreed⟩ :=
      wp_returns (serve_freePages (E := fun _ => False) hold hlt h) (fun _ h => h)
    refine ⟨_, d', s', fun n => ?_, deallocuvm_eq d hold hlt, hrun, ?_, hfreed⟩
    · rw [mem_pagesBelow, hround, Nat.mul_le_mul_right_iff (by decide)]
    · refine List.pairwise_filterMap.mpr (List.Pairwise.imp_of_mem ?_ List.nodup_range')
      intro n m hn hm hne p hp q hq hpq
      obtain ⟨e, he, rfl⟩ := Option.map_eq_some_iff.mp hp
      obtain ⟨e', he', rfl⟩ := Option.map_eq_some_iff.mp hq
      exact hne (h.inj n m e e' ((mem_pagesBelow.mp hn).2.trans_le hold)
        ((mem_pagesBelow.mp hm).2.trans_le hold) he he' hpq)

/-- The second page table is missing. -/
theorem onePage_plain : DistinctPages onePageMem onePage ∧ onePage.pde (PDX 0x400000) = none ∧
    ∃ ns d' s', 1024 ∈ ns ∧ serve (deallocuvm onePage 0x800000 0) onePageMem = .ok ((d', 0), s') ∧
      Freed ns onePageMem onePage s' d' ∧ 258 ∈ s'.free := by
  have hpages := onePage_space.fits.distinctPages
  obtain ⟨ns, d', s', hns, -, hrun, -, hfreed⟩ :=
    (deallocuvm_plain 0 (by decide : 0x800000 ≤ KERNBASE) hpages).2 (by decide)
  have hppn : onePage.ppn 0 = some 258 := by decide
  refine ⟨hpages, by decide, ns, d', s', (hns 1024).mpr (by decide), hrun, hfreed, ?_⟩
  rw [hfreed.free, List.mem_append, List.mem_reverse, List.mem_filterMap]
  exact Or.inl ⟨0, (hns 0).mpr (by decide), hppn⟩

end Xv6.Vm
