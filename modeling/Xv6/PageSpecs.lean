import Mathlib.Algebra.BigOperators.Fin
import Xv6.PageTable

/-!
# Pages of an address space

`Pgdir.pages` lists what a page directory owns: its own page, those of its page tables, and the pages
that it maps below `KERNBASE`. Each routine of `vm.c` is given the pages of the directories that it
works on and gives back those of the directories that it returns.
-/

namespace Xv6.Vm

open Function
open Alloc

/-- The pages that the entries of a table refer to. -/
def Pgtab.mapped (t : Pgtab) : Multiset Page :=
  ∑ j, (t.pte j).elim 0 (fun e => {e.ppn})

/-- What entry `i` of a page directory stands for. -/
def owned (i : Fin NPDENTRIES) (o : Option Pgtab) : Multiset Page :=
  o.elim 0 (fun t => {t.page} + if i.val < 512 then t.mapped else 0)

@[irreducible] def Pgdir.pages (d : Pgdir) : Multiset Page := {d.page} + ∑ i, owned i (d.pde i)

variable {F : Prop} {d d' : Pgdir} {t : Pgtab} {va : Nat}

theorem pages_setPde (d : Pgdir) (i : Fin NPDENTRIES) (t : Pgtab) :
    (d.setPde i t).pages + owned i (d.pde i) = d.pages + owned i (some t) := by
  unfold Pgdir.pages Pgdir.setPde
  rw [add_assoc, add_assoc, sum_apply_update]

theorem mapped_update (t : Pgtab) (j : Fin NPTENTRIES) (e : Option Pte) :
    Pgtab.mapped { t with pte := update t.pte j e } + (t.pte j).elim 0 (fun e => {e.ppn}) =
      t.mapped + e.elim 0 (fun e => {e.ppn}) :=
  sum_apply_update (fun _ (o : Option Pte) => o.elim 0 (fun e => ({e.ppn} : Multiset Page))) t.pte j e

/-- The page that an entry for `va` owns. -/
def ownedPage (va : Nat) (o : Option Pte) : Multiset Page :=
  if (PDX va).val < 512 then o.elim 0 (fun e => {e.ppn}) else 0

theorem pages_setPte (h : d.pde (PDX va) = some t) (e : Option Pte) :
    (d.setPte t va e).pages + ownedPage va (t.pte (PTX va)) = d.pages + ownedPage va e := by
  have hdir := pages_setPde d (PDX va) { t with pte := update t.pte (PTX va) e }
  rw [h] at hdir
  have htab := mapped_update t (PTX va) e
  unfold Pgdir.setPte ownedPage
  simp only [owned, Option.elim_some] at hdir
  split_ifs at hdir ⊢ with hi
  · ext p
    have hdir' := congrArg (Multiset.count p) hdir
    have htab' := congrArg (Multiset.count p) htab
    simp only [Multiset.count_add] at hdir' htab' ⊢
    omega
  · simpa using hdir

theorem walkpgdir_spec (d : Pgdir) (va : Nat) :
    Alloc.wp F d.pages (walkpgdir d va) (fun r own =>
      match r with
      | none => F ∧ own = d.pages
      | some (d', t) => own = d'.pages ∧ d'.pde (PDX va) = some t) := by
  unfold walkpgdir
  split
  · next t ht => exact wp_ret ⟨rfl, ht⟩
  · next hnone =>
    refine wp_allocate (fun hF => wp_ret ⟨hF, rfl⟩) ?_
    intro p
    refine wp_ret ⟨?_, Function.update_self _ _ _⟩
    have h := pages_setPde d (PDX va) ⟨p, fun _ => none⟩
    rw [hnone] at h
    simpa [owned, Pgtab.mapped] using h.symm

/-- The routine does not own the page that it maps. -/
theorem mapPage_spec (d : Pgdir) (a : Nat) (e : Pte) :
    Alloc.wp F d.pages (mapPage d a e) (fun r own =>
      match r with
      | none => F ∧ own = d.pages
      | some d' => own + ownedPage a (some e) = d'.pages) := by
  refine Alloc.wp_seq (walkpgdir_spec d a) ?_
  rintro (_ | ⟨d', t⟩) own h
  · exact wp_ret h
  · obtain ⟨rfl, ht⟩ := h
    dsimp only
    split_ifs with hpte
    · exact wp_panic _
    · refine wp_ret ?_
      have hset := pages_setPte ht (some e)
      rw [Option.not_isSome_iff_eq_none.mp hpte] at hset
      simpa [ownedPage] using hset.symm

variable {a : Nat} {sz : Nat}

theorem PDX_kernel (ha : KERNBASE ≤ a) (hb : a < 2 ^ 32) : ¬ (PDX a).val < 512 := by
  simp only [PDX, KERNBASE] at ha ⊢
  omega

theorem PDX_user (ha : a < KERNBASE) : (PDX a).val < 512 := by
  simp only [PDX, KERNBASE] at ha ⊢
  omega

/-- Mapping kernel memory takes page tables only. -/
theorem mapLoop_kernel (perm n : Nat) (pa : Nat) (d : Pgdir) (ha : KERNBASE ≤ a)
    (hn : a + n * PGSIZE < 2 ^ 32) :
    Alloc.wp F d.pages (mapLoop perm n a pa d) (fun r own => own = r.1.pages) := by
  induction n generalizing a pa d with
  | zero =>
    have hnone := PDX_kernel ha (by omega)
    unfold mapLoop
    refine Alloc.wp_seq (mapPage_spec d a _) ?_
    rintro (_ | d') own h
    · exact wp_ret h.2
    · exact wp_ret (by simpa [ownedPage, hnone] using h)
  | succ n ih =>
    have hnone := PDX_kernel ha (by omega)
    have hnext : (a + PGSIZE) % 2 ^ 32 = a + PGSIZE := Nat.mod_eq_of_lt (by
      simp only [PGSIZE] at hn ⊢
      omega)
    unfold mapLoop
    refine Alloc.wp_seq (mapPage_spec d a _) ?_
    rintro (_ | d') own h
    · exact wp_ret h.2
    · simp only [ownedPage, hnone, if_false, add_zero] at h
      subst h
      rw [hnext]
      exact ih (pa + PGSIZE) d' (by omega) (by simp only [PGSIZE] at hn ⊢; omega)

theorem mapLoop_user (perm : Nat) (pa : Nat) (d : Pgdir) (ha : a < KERNBASE) :
    Alloc.wp F d.pages (mapLoop perm 0 a pa d) (fun r own =>
      if r.2 then own + {pa / PGSIZE} = r.1.pages else F ∧ own = r.1.pages) := by
  have huser := PDX_user ha
  unfold mapLoop
  refine Alloc.wp_seq (mapPage_spec d a _) ?_
  rintro (_ | d') own h
  · exact wp_ret h
  · exact wp_ret (by simpa [ownedPage, huser] using h)

theorem mappages_kernel (d : Pgdir) {va size : Nat} (pa perm : Nat) (hva : KERNBASE ≤ va)
    (hsize : 0 < size) (hend : va + size ≤ 2 ^ 32) :
    Alloc.wp F d.pages (mappages d va size pa perm) (fun r own => own = r.1.pages) := by
  unfold mappages
  simp only [PGROUNDDOWN, PGSIZE, KERNBASE] at hva ⊢
  exact mapLoop_kernel _ _ _ _ (by simp only [KERNBASE]; omega) (by simp only [PGSIZE]; omega)

theorem mappages_page (d : Pgdir) {va : Nat} (pa perm : Nat) (hva : va < KERNBASE)
    (ha : va % PGSIZE = 0) : mappages d va PGSIZE pa perm = mapLoop perm 0 va pa d := by
  simp only [mappages, PGROUNDDOWN, PGSIZE, KERNBASE] at hva ha ⊢
  congr 1 <;> omega

theorem mappages_user (d : Pgdir) {va : Nat} (mem : Page) (perm : Nat) (hva : va < KERNBASE)
    (ha : va % PGSIZE = 0) :
    Alloc.wp F (d.pages + {mem}) (mappages d va PGSIZE (mem * PGSIZE) perm) (fun r own =>
      own = r.1.pages + (if r.2 then 0 else {mem}) ∧ (r.2 = false → F)) := by
  rw [mappages_page d _ perm hva ha]
  refine Alloc.wp_mono (wp_frame {mem} (mapLoop_user perm _ d hva)) ?_
  rintro ⟨d', ok⟩ _ ⟨own, rfl, h⟩
  rw [Nat.mul_div_cancel _ (by decide)] at h
  cases ok with
  | true => simpa using h
  | false => simpa [and_comm] using h

/-! ### Freeing -/

theorem lookup_of_pde {va : Nat} (h : d.pde (PDX va) = some t) : d.lookup va = t.pte (PTX va) := by
  simp [Pgdir.lookup, h]

theorem lookup_setPte_self (hi : PDX va = PDX a) (hj : PTX va = PTX a)
    (e : Option Pte) : (d.setPte t a e).lookup va = e := by
  simp [Pgdir.lookup, Pgdir.setPte, Pgdir.setPde, hi, hj]

theorem PDX_eq {a va : Nat} (h : va / 2 ^ 22 = a / 2 ^ 22) : PDX va = PDX a := by
  simp only [PDX, h]

theorem PTX_eq {a va : Nat} (h : va / PGSIZE = a / PGSIZE) : PTX va = PTX a := by
  simp only [PTX, h]

/-- The entry for page `n` of the address space. -/
def Pgdir.entry (d : Pgdir) (n : Nat) : Option Pte := d.lookup (n * PGSIZE)

abbrev NPAGES : Nat := 0x100000

variable {n m : Nat}

theorem lt_NPAGES (hn : n * PGSIZE < KERNBASE) : n < NPAGES := by
  simp only [PGSIZE, KERNBASE, NPAGES] at hn ⊢
  omega

theorem lookup_eq_entry (d : Pgdir) (va : Nat) : d.lookup va = d.entry (va / PGSIZE) := by
  have hi : PDX (va / PGSIZE * PGSIZE) = PDX va := PDX_eq (by simp only [PGSIZE]; omega)
  have hj : PTX (va / PGSIZE * PGSIZE) = PTX va := PTX_eq (by simp only [PGSIZE]; omega)
  simp only [Pgdir.entry, Pgdir.lookup, hi, hj]

theorem entry_setPte (h : d.pde (PDX a) = some t) (e : Option Pte) (ha : a < 2 ^ 32)
    (hn : n < NPAGES) : (d.setPte t a e).entry n = if n = a / PGSIZE then e else d.entry n := by
  simp only [NPAGES] at hn
  split_ifs with heq
  · refine lookup_setPte_self (PDX_eq ?_) (PTX_eq ?_) e
    · simp only [heq, PGSIZE]
      omega
    · simp only [heq, PGSIZE]
      omega
  · by_cases hi : PDX (n * PGSIZE) = PDX a
    · -- the same table, so another entry of it
      have hj : PTX (n * PGSIZE) ≠ PTX a := by
        intro hj
        apply heq
        simp only [PDX, PTX, PGSIZE, Fin.mk.injEq] at hi hj ⊢
        omega
      simp [Pgdir.entry, Pgdir.lookup, Pgdir.setPte, Pgdir.setPde, hi, hj, h]
    · simp [Pgdir.entry, Pgdir.lookup, Pgdir.setPte, Pgdir.setPde, hi]

/-- Without the entry for page `n`. -/
def Pgdir.clear (d : Pgdir) (n : Nat) : Pgdir :=
  (d.pde (PDX (n * PGSIZE))).elim d (fun t => d.setPte t (n * PGSIZE) none)

theorem entry_clear (hn : n < NPAGES) (hm : m < NPAGES) :
    (d.clear n).entry m = if m = n then none else d.entry m := by
  have hdiv : n * PGSIZE / PGSIZE = n := Nat.mul_div_cancel _ (by decide)
  have hlt : n * PGSIZE < 2 ^ 32 := by
    simp only [NPAGES, PGSIZE] at hn ⊢
    omega
  unfold Pgdir.clear
  cases ht : d.pde (PDX (n * PGSIZE)) with
  | none =>
    rw [Option.elim_none]
    split_ifs with heq
    · simp [heq, Pgdir.entry, Pgdir.lookup, ht]
    · rfl
  | some t => rw [Option.elim_some, entry_setPte ht none hlt hm, hdiv]

theorem table_clear (d : Pgdir) (n : Nat) (i : Fin NPDENTRIES) :
    ((d.clear n).pde i).map Pgtab.page = (d.pde i).map Pgtab.page := by
  unfold Pgdir.clear
  cases ht : d.pde (PDX (n * PGSIZE)) with
  | none => rfl
  | some t =>
    by_cases hi : i = PDX (n * PGSIZE)
    · simp [Pgdir.setPte, Pgdir.setPde, hi, ht]
    · simp [Pgdir.setPte, Pgdir.setPde, hi]

theorem pages_clear {e : Pte} (hn : n * PGSIZE < KERNBASE) (he : d.entry n = some e) :
    (d.clear n).pages + {e.ppn} = d.pages := by
  rw [Pgdir.entry, Pgdir.lookup, Option.bind_eq_some_iff] at he
  obtain ⟨t, ht, hte⟩ := he
  have hset := pages_setPte ht none
  simpa [Pgdir.clear, ht, hte, ownedPage, PDX_user hn] using hset

/-- The loop of `deallocuvm` page by page. -/
def plainLoop : List Nat → Pgdir → Routine Page Pgdir
  | [], d => .ret d
  | n :: ns, d =>
    match d.entry n with
    | none => plainLoop ns d
    | some e =>
      if e.ppn = 0 then .panic "kfree"
      else do
        kfree e.ppn
        plainLoop ns (d.clear n)

/-- The pages from `n` on whose addresses are below `b`. -/
def pagesBelow (b n : Nat) : List Nat := List.range' n ((b + 4095) / PGSIZE - n)

theorem mem_pagesBelow {b : Nat} : m ∈ pagesBelow b n ↔ n ≤ m ∧ m * PGSIZE < b := by
  simp only [pagesBelow, List.mem_range'_1, PGSIZE]
  omega

theorem pagesBelow_eq (b n : Nat) :
    pagesBelow b n = if n * PGSIZE < b then n :: pagesBelow b (n + 1) else [] := by
  unfold pagesBelow
  split_ifs with h
  · rw [← List.range'_succ]
    congr 1
    simp only [PGSIZE] at h ⊢
    omega
  · rw [Nat.sub_eq_zero_of_le (by simp only [PGSIZE] at h ⊢; omega)]
    rfl

theorem plainLoop_skip {b : Nat} (hle : n ≤ m) (h : ∀ k, n ≤ k → k < m → d.entry k = none) :
    plainLoop (pagesBelow b n) d = plainLoop (pagesBelow b m) d := by
  induction hle with
  | refl => rfl
  | @step m hle ih =>
    rw [ih (fun k h₁ h₂ => h k h₁ (Nat.lt_succ_of_lt h₂)), pagesBelow_eq b m]
    split_ifs with hb
    · simp only [plainLoop, h m hle (Nat.lt_succ_self m)]
    · have hb' := (Nat.not_lt.mp hb).trans (Nat.mul_le_mul_right PGSIZE (Nat.le_succ m))
      rw [pagesBelow_eq, if_neg (Nat.not_lt.mpr hb')]

/-- To go on with the next page table skips no page that is mapped. -/
theorem deallocLoop_eq (oldsz fuel : Nat) (d : Pgdir) (hfuel : oldsz ≤ (n + fuel) * PGSIZE) :
    deallocLoop oldsz fuel (n * PGSIZE) d = plainLoop (pagesBelow oldsz n) d := by
  induction fuel generalizing n d with
  | zero =>
    rw [Nat.add_zero] at hfuel
    rw [pagesBelow_eq, if_neg (Nat.not_lt.mpr hfuel)]
    rfl
  | succ fuel ih =>
    unfold deallocLoop
    split_ifs with hlt
    · have hsucc : n * PGSIZE + PGSIZE = (n + 1) * PGSIZE := (Nat.succ_mul _ _).symm
      have hnext : oldsz ≤ (n + 1 + fuel) * PGSIZE := by
        rwa [Nat.add_right_comm, Nat.add_assoc]
      cases ht : d.pde (PDX (n * PGSIZE)) with
      | none =>
        have hskip : (n * PGSIZE / 2 ^ 22 + 1) * 2 ^ 22 = (n / 1024 + 1) * 1024 * PGSIZE := by
          simp only [PGSIZE]
          omega
        simp only [hskip]
        rw [ih d (hfuel.trans (Nat.mul_le_mul_right _ (by omega)))]
        refine (plainLoop_skip (by omega) ?_).symm
        intro m h₁ h₂
        have hi : PDX (m * PGSIZE) = PDX (n * PGSIZE) := PDX_eq (by simp only [PGSIZE]; omega)
        simp [Pgdir.entry, Pgdir.lookup, hi, ht]
      | some t =>
        have hentry : d.entry n = t.pte (PTX (n * PGSIZE)) := lookup_of_pde ht
        rw [pagesBelow_eq, if_pos hlt]
        cases he : t.pte (PTX (n * PGSIZE)) <;>
          simp only [plainLoop, hentry, hsucc, ih _ hnext, Pgdir.clear, ht, he, Option.elim_some]
    · rw [pagesBelow_eq, if_neg hlt]
      rfl

theorem PGROUNDUP_eq (h : sz + PGSIZE ≤ 2 ^ 32) : PGROUNDUP sz = (sz + 4095) / 4096 * 4096 := by
  simp only [PGROUNDUP, PGSIZE] at h ⊢
  rw [Nat.mod_eq_of_lt (by omega)]
  rfl

theorem deallocuvm_eq {oldsz newsz : Nat} (d : Pgdir) (hold : oldsz ≤ KERNBASE)
    (hlt : newsz < oldsz) : deallocuvm d oldsz newsz =
      (plainLoop (pagesBelow oldsz ((newsz + 4095) / PGSIZE)) d).bind (fun d' => .ret (d', newsz)) := by
  have hround : PGROUNDUP newsz = (newsz + 4095) / PGSIZE * PGSIZE := PGROUNDUP_eq (by
    simp only [PGSIZE, KERNBASE] at hold ⊢
    omega)
  have hfuel : oldsz ≤ ((newsz + 4095) / PGSIZE +
      ((oldsz - (newsz + 4095) / PGSIZE * PGSIZE) / PGSIZE + 1)) * PGSIZE := by
    rw [Nat.add_mul, Nat.mul_comm (_ + 1)]
    exact (lt_add_of_tsub_lt_left (Nat.lt_mul_div_succ _ (by decide))).le
  unfold deallocuvm
  rw [if_neg (by omega)]
  simp only [hround, deallocLoop_eq oldsz _ d hfuel]
  rfl

/-- The pages `ns` are not mapped any more. -/
structure Clears (ns : List Nat) (d d' : Pgdir) : Prop where
  entry : ∀ n < NPAGES, d'.entry n = if n ∈ ns then none else d.entry n
  table : ∀ i, (d'.pde i).map Pgtab.page = (d.pde i).map Pgtab.page

theorem Clears.refl (d : Pgdir) : Clears [] d d := ⟨fun _ _ => by simp, fun _ => rfl⟩

theorem Clears.cons {ns : List Nat} (hn : n < NPAGES) (h : Clears ns (d.clear n) d') :
    Clears (n :: ns) d d' := by
  refine ⟨fun m hm => ?_, fun i => (h.table i).trans (table_clear d n i)⟩
  rw [h.entry m hm, entry_clear hn hm]
  by_cases hmn : m = n <;> simp [hmn]

theorem Clears.skip {ns : List Nat} (hn : d.entry n = none) (h : Clears ns d d') :
    Clears (n :: ns) d d' := by
  refine ⟨fun m hm => ?_, h.table⟩
  rw [h.entry m hm]
  by_cases hmn : m = n <;> simp [hmn, hn]

theorem plainLoop_spec {ns : List Nat} (d : Pgdir) (huser : ∀ n ∈ ns, n * PGSIZE < KERNBASE) :
    Alloc.wp F d.pages (plainLoop ns d) (fun d' own => own = d'.pages ∧ Clears ns d d') := by
  induction ns generalizing d with
  | nil => exact wp_ret ⟨rfl, .refl d⟩
  | cons n ns ih =>
    have hrest := fun m hm => huser m (List.mem_cons_of_mem n hm)
    have hn := huser n List.mem_cons_self
    unfold plainLoop
    split
    · next hnone => exact Alloc.wp_mono (ih d hrest) (fun _ _ h => ⟨h.1, h.2.skip hnone⟩)
    · next e he =>
      split_ifs with hzero
      · exact wp_panic _
      · refine wp_release (pages_clear hn he).symm ?_
        exact Alloc.wp_mono (ih _ hrest) (fun _ _ h => ⟨h.1, h.2.cons (lt_NPAGES hn)⟩)

theorem deallocuvm_spec {oldsz newsz : Nat} (d : Pgdir) (hold : oldsz ≤ KERNBASE) :
    Alloc.wp F d.pages (deallocuvm d oldsz newsz) (fun r own => own = r.1.pages ∧ r.2 ≤ KERNBASE ∧
      (newsz < oldsz → Clears (pagesBelow oldsz ((newsz + 4095) / PGSIZE)) d r.1)) := by
  by_cases hlt : newsz < oldsz
  · rw [deallocuvm_eq d hold hlt]
    refine Alloc.wp_seq (plainLoop_spec d ?_) ?_
    · intro n hn
      have := (mem_pagesBelow.mp hn).2
      omega
    · rintro d' own ⟨hown, hc⟩
      exact wp_ret ⟨hown, by omega, fun _ => hc⟩
  · rw [deallocuvm, if_pos (by omega)]
    exact wp_ret ⟨rfl, hold, fun h => absurd h hlt⟩

/-- The page of entry `i`, if it is present. -/
def tablePage (d : Pgdir) (i : Fin NPDENTRIES) : Multiset Page :=
  (d.pde i).elim 0 (fun t => {t.page})

theorem freeTables_spec (d : Pgdir) (is : List (Fin NPDENTRIES)) :
    Alloc.wp F (is.map (tablePage d)).sum (freeTables d is) (fun _ own => own = 0) := by
  induction is with
  | nil => exact wp_ret rfl
  | cons i is ih =>
    unfold freeTables
    rw [List.map_cons, List.sum_cons]
    cases hi : d.pde i with
    | none =>
      have hnone : tablePage d i = 0 := by simp [tablePage, hi]
      rw [hnone, zero_add]
      exact ih
    | some t =>
      have hsome : tablePage d i = {t.page} := by simp [tablePage, hi]
      rw [hsome, add_comm]
      exact wp_release rfl ih

/-- Without user pages a directory owns itself and its page tables. -/
theorem pages_of_unmapped (h : ∀ va, va < KERNBASE → d.lookup va = none) :
    d.pages = {d.page} + ((List.finRange NPDENTRIES).map (tablePage d)).sum := by
  have hentry : ∀ i, owned i (d.pde i) = tablePage d i := by
    intro i
    unfold owned tablePage
    cases hi : d.pde i with
    | none => rfl
    | some t =>
      simp only [Option.elim_some]
      split_ifs with huser
      · have hmapped : t.mapped = 0 := by
          refine Finset.sum_eq_zero (fun j _ => ?_)
          have hj : j.val < 1024 := j.isLt
          -- the address that entry `j` of table `i` is for
          have hPDX : PDX (i.val * 2 ^ 22 + j.val * PGSIZE) = i := by
            apply Fin.ext
            simp only [PDX, PGSIZE]
            omega
          have hPTX : PTX (i.val * 2 ^ 22 + j.val * PGSIZE) = j := by
            apply Fin.ext
            simp only [PTX, PGSIZE]
            omega
          have hva := h (i.val * 2 ^ 22 + j.val * PGSIZE) (by
            simp only [PGSIZE, KERNBASE]
            omega)
          rw [Pgdir.lookup, hPDX, hi, Option.bind_some, hPTX] at hva
          rw [hva]
          rfl
        rw [hmapped, add_zero]
      · rw [add_zero]
  unfold Pgdir.pages
  rw [Finset.sum_congr rfl (fun i _ => hentry i), Fin.sum_univ_def]

theorem Clears.pages (h : Clears (pagesBelow KERNBASE ((0 + 4095) / PGSIZE)) d d') :
    d'.pages = {d'.page} + ((List.finRange NPDENTRIES).map (tablePage d')).sum := by
  refine pages_of_unmapped (fun va hva => ?_)
  have hn : va / PGSIZE * PGSIZE < KERNBASE := lt_of_le_of_lt (Nat.div_mul_le_self _ _) hva
  rw [lookup_eq_entry, h.entry _ (lt_NPAGES hn), if_pos]
  exact mem_pagesBelow.mpr ⟨Nat.zero_le _, hn⟩

theorem freeDirectory_spec (d : Pgdir) (is : List (Fin NPDENTRIES)) :
    Alloc.wp F ({d.page} + (is.map (tablePage d)).sum) (do freeTables d is; kfree d.page)
      (fun _ own => own = 0) := by
  refine wp_call (freeTables_spec d is) {d.page} (add_comm _ _) ?_
  rintro _ own rfl
  exact wp_release rfl (wp_ret rfl)

theorem freevm_spec (d : Pgdir) : Alloc.wp F d.pages (freevm d) (fun _ own => own = 0) := by
  refine Alloc.wp_seq (@deallocuvm_spec F KERNBASE 0 d (Nat.le_refl _)) ?_
  rintro ⟨d', sz⟩ own ⟨rfl, -, hun⟩
  rw [(hun (by decide)).pages]
  exact freeDirectory_spec d' _

/-! ### Building address spaces -/

/-- An entry of `kmap` maps memory above `KERNBASE`. -/
structure Kmap.Above (k : Kmap) : Prop where
  virt : KERNBASE ≤ k.virt
  size : 0 < (k.phys_end + 2 ^ 32 - k.phys_start) % 2 ^ 32
  last : k.virt + (k.phys_end + 2 ^ 32 - k.phys_start) % 2 ^ 32 ≤ 2 ^ 32

theorem kmap_above (l : Layout) : ∀ k ∈ kmap l, k.Above := by
  have htext := l.text
  have hmemory := l.memory
  simp only [KERNLINK, KERNBASE, EXTMEM, PHYSTOP] at htext hmemory
  intro k hk
  simp only [kmap, List.mem_cons, List.not_mem_nil, or_false] at hk
  rcases hk with rfl | rfl | rfl | rfl
  · exact ⟨by decide, by decide, by decide⟩
  · refine ⟨?_, ?_, ?_⟩ <;> simp only [KERNLINK, KERNBASE, EXTMEM] <;> omega
  · refine ⟨?_, ?_, ?_⟩ <;> simp only [KERNBASE, PHYSTOP] <;> omega
  · exact ⟨by decide, by decide, by decide⟩

theorem mapKernel_spec {ks : List Kmap} (h : ∀ k ∈ ks, k.Above) (d : Pgdir) :
    Alloc.wp F d.pages (mapKernel ks d) (fun r own => own = r.elim 0 Pgdir.pages) := by
  induction ks generalizing d with
  | nil => exact wp_ret rfl
  | cons k ks ih =>
    have hk := h k List.mem_cons_self
    refine Alloc.wp_seq (mappages_kernel d _ _ hk.virt hk.size hk.last) ?_
    rintro ⟨d', ok⟩ own rfl
    cases ok with
    | true => exact ih (fun k hk => h k (List.mem_cons_of_mem _ hk)) d'
    | false =>
      refine Alloc.wp_seq (freevm_spec d') ?_
      rintro _ own rfl
      exact wp_ret rfl

theorem setupkvm_spec (l : Layout) :
    Alloc.wp F 0 (setupkvm l) (fun r own => own = r.elim 0 Pgdir.pages) := by
  refine wp_allocate (fun _ => wp_ret rfl) ?_
  intro p
  have hpages : (⟨p, fun _ => none⟩ : Pgdir).pages = 0 + {p} := by
    unfold Pgdir.pages
    simp only [owned, Option.elim_none, Finset.sum_const_zero, add_comm]
  rw [← hpages]
  exact mapKernel_spec (kmap_above l) _

/-- `inituvm` does not look at the result of `mappages`; its requests must not be refused. -/
theorem inituvm_spec (d : Pgdir) :
    Alloc.wp False d.pages (inituvm d) (fun d' own => own = d'.pages) := by
  refine wp_allocate False.elim ?_
  intro mem
  refine Alloc.wp_seq (mappages_user d mem _ (by decide) rfl) ?_
  rintro ⟨d', ok⟩ own ⟨hown, hok⟩
  cases ok with
  | true => exact wp_ret (by simpa using hown)
  | false => exact (hok rfl).elim

theorem mem_add_singleton (own : Multiset Page) (p : Page) : p ∈ own + {p} :=
  Multiset.mem_add.mpr (Or.inr (Multiset.mem_singleton_self p))

theorem allocRound_spec {oldsz newsz : Nat} (hnew : newsz < KERNBASE) (d : Pgdir)
    (ha : a % PGSIZE = 0) (hlt : a < newsz) :
    Alloc.wp F d.pages (allocRound oldsz newsz a d) (fun r own => own = r.1.pages) := by
  refine wp_allocate (fun _ => ?_) ?_
  · refine Alloc.wp_seq (deallocuvm_spec d hnew.le) ?_
    rintro ⟨d', sz⟩ own ⟨rfl, -, -⟩
    exact wp_ret rfl
  · intro mem
    refine wp_overwrite (mem_add_singleton _ mem) ?_
    refine Alloc.wp_seq (mappages_user d mem _ (hlt.trans hnew) ha) ?_
    rintro ⟨d', ok⟩ own ⟨rfl, -⟩
    cases ok with
    | true => exact wp_ret (add_zero _)
    | false =>
      refine wp_call (deallocuvm_spec d' hnew.le) {mem} rfl ?_
      rintro ⟨d₂, sz⟩ own ⟨rfl, -, -⟩
      exact wp_release rfl (wp_ret rfl)

theorem allocLoop_spec {oldsz newsz : Nat} (hnew : newsz < KERNBASE) (fuel : Nat)
    (d : Pgdir) (ha : a % PGSIZE = 0) :
    Alloc.wp F d.pages (allocLoop oldsz newsz fuel a d)
      (fun r own => own = r.1.pages ∧ r.2 ≤ KERNBASE) := by
  induction fuel generalizing a d with
  | zero => exact wp_ret ⟨rfl, hnew.le⟩
  | succ fuel ih =>
    unfold allocLoop
    split_ifs with hlt
    · refine Alloc.wp_seq (allocRound_spec hnew d ha hlt) ?_
      rintro ⟨d', ok⟩ own rfl
      cases ok with
      | true => exact ih d' (by simp only [PGSIZE] at ha ⊢; omega)
      | false => exact wp_ret ⟨rfl, Nat.zero_le _⟩
    · exact wp_ret ⟨rfl, hnew.le⟩

theorem allocuvm_spec {oldsz : Nat} (newsz : Nat) (d : Pgdir) (hold : oldsz ≤ KERNBASE) :
    Alloc.wp F d.pages (allocuvm d oldsz newsz) (fun r own => own = r.1.pages ∧ r.2 ≤ KERNBASE) := by
  unfold allocuvm
  split_ifs with hbig hshrink
  · exact wp_ret ⟨rfl, Nat.zero_le _⟩
  · exact wp_ret ⟨rfl, hold⟩
  · refine allocLoop_spec (by omega) _ d ?_
    rw [PGROUNDUP_eq (by simp only [PGSIZE, KERNBASE] at hold ⊢; omega)]
    simp only [PGSIZE]
    omega

theorem copyRound_spec (e : Pte) {i : Nat} (d : Pgdir) (hi : i % PGSIZE = 0) (hlt : i < KERNBASE) :
    Alloc.wp F d.pages (copyRound e i d) (fun r own => own = r.elim 0 Pgdir.pages) := by
  refine wp_allocate (fun _ => ?_) ?_
  · refine Alloc.wp_seq (freevm_spec d) ?_
    rintro _ own rfl
    exact wp_ret rfl
  · intro mem
    refine wp_overwrite (mem_add_singleton _ mem) ?_
    refine Alloc.wp_seq (mappages_user d mem _ hlt hi) ?_
    rintro ⟨d', ok⟩ own ⟨rfl, -⟩
    cases ok with
    | true => exact wp_ret (add_zero _)
    | false =>
      refine wp_release rfl (Alloc.wp_seq (freevm_spec d') ?_)
      rintro _ own rfl
      exact wp_ret rfl

theorem copyLoop_spec (pgdir : Pgdir) (hsz : sz ≤ KERNBASE) (fuel : Nat) {i : Nat}
    (d : Pgdir) (hi : i % PGSIZE = 0) :
    Alloc.wp F d.pages (copyLoop pgdir sz fuel i d) (fun r own => own = r.elim 0 Pgdir.pages) := by
  induction fuel generalizing i d with
  | zero => exact wp_ret rfl
  | succ fuel ih =>
    unfold copyLoop
    split_ifs with hlt
    · split
      · exact wp_panic _
      · split
        · exact wp_panic _
        · refine Alloc.wp_seq (copyRound_spec _ d hi (by omega)) ?_
          rintro (_ | d') own rfl
          · exact wp_ret rfl
          · exact ih d' (by simp only [PGSIZE] at hi ⊢; omega)
    · exact wp_ret rfl

theorem copyuvm_spec (l : Layout) (pgdir : Pgdir) (hsz : sz ≤ KERNBASE) :
    Alloc.wp F 0 (copyuvm l pgdir sz) (fun r own => own = r.elim 0 Pgdir.pages) := by
  refine Alloc.wp_seq (setupkvm_spec l) ?_
  rintro (_ | d) own rfl
  · exact wp_ret rfl
  · exact copyLoop_spec pgdir hsz _ d rfl

theorem clearpteu_spec (d : Pgdir) (uva : Nat) :
    Alloc.wp F d.pages (clearpteu d uva) (fun d' own => own = d'.pages) := by
  unfold clearpteu
  split
  · exact wp_panic _
  · next t ht =>
    refine wp_ret ?_
    have hset := pages_setPte ht ((t.pte (PTX uva)).map
      (fun e => ⟨e.ppn, e.perm - (e.perm &&& PTE_U)⟩))
    have hsame : ownedPage uva ((t.pte (PTX uva)).map
        (fun e => ⟨e.ppn, e.perm - (e.perm &&& PTE_U)⟩)) = ownedPage uva (t.pte (PTX uva)) := by
      cases t.pte (PTX uva) <;> rfl
    rw [hsame] at hset
    exact (add_right_cancel hset).symm

end Xv6.Vm
