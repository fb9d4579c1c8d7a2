import Mathlib.Data.List.GetD
import Xv6.ExecImage

/-!
# The arguments on the stack

The argument strings and the words that point to them are pushed on the one page of the stack. A string
that does not fit runs into the guard page, unless it is so long that the stack pointer wraps around to
an address of the kernel part. `copyout` refuses to write there, except where the new directory has no
page table (`InGap`): there it goes by what is at address zero.
-/

namespace Xv6.Exec

open Vm

/-- The addresses between the physical memory and the devices, which have no page table. -/
def InGap (va : Nat) : Prop := KERNBASE + PHYSTOP ≤ va ∧ va < DEVSPACE

instance (va : Nat) : Decidable (InGap va) := inferInstanceAs (Decidable (_ ∧ _))

/-- `n` bytes from `va` on are in the stack page of an image of size `sz`. -/
def InStack (sz va n : Nat) : Prop := sz - PGSIZE ≤ va ∧ va + n ≤ sz

variable {l : Layout} {null : Null} {s s' s₀ : Mem} {d : Pgdir} {sz va : Nat} {E : Fault → Prop}
  {buf : List UInt8} {ps : Page}

theorem table_of_entry {e : Pte} (he : d.entry (va / PGSIZE) = some e) :
    (d.pde (PDX va)).isSome := by
  rw [← lookup_eq_entry, Pgdir.lookup, Option.bind_eq_some_iff] at he
  obtain ⟨t, ht, -⟩ := he
  rw [ht]
  rfl

theorem entry_of_user {p : Page} (hp : d.user va = some p) :
    ∃ e, d.entry (va / PGSIZE) = some e ∧ e.ppn = p := by
  rw [Pgdir.user, lookup_eq_entry, Option.bind_eq_some_iff] at hp
  obtain ⟨e, he, hpp⟩ := hp
  split_ifs at hpp
  exact ⟨e, he, Option.some_inj.mp hpp⟩

namespace Stacked

variable (h : Stacked l s₀ s d sz)
include h

theorem round : PGROUNDUP sz = sz := by
  have hsz := h.size
  have ha := h.aligned
  rw [PGROUNDUP_eq (by simp only [PGSIZE, KERNBASE] at hsz ⊢; omega)]
  simp only [PGSIZE] at ha
  omega

theorem entry_some (hva : va < sz) : ∃ e, d.entry (va / PGSIZE) = some e := by
  have hsz := h.size
  have hle : va / PGSIZE * PGSIZE ≤ va := Nat.div_mul_le_self _ _
  exact Option.isSome_iff_exists.mp ((h.pages _ (by omega)).mpr (by rw [h.round]; omega))

theorem table_user (hva : va < sz) : (d.pde (PDX va)).isSome := by
  obtain ⟨e, he⟩ := h.entry_some hva
  exact table_of_entry he

theorem user_below (hva : va < sz) :
    (d.user va = none ↔ sz - 2 * PGSIZE ≤ va ∧ va < sz - PGSIZE) := by
  have hsz := h.size
  have ha := h.aligned
  have hroom := h.room
  have hle : va / PGSIZE * PGSIZE ≤ va := Nat.div_mul_le_self _ _
  obtain ⟨e, he⟩ := h.entry_some hva
  have hguard : va / PGSIZE * PGSIZE = sz - 2 * PGSIZE ↔
      sz - 2 * PGSIZE ≤ va ∧ va < sz - PGSIZE := by
    simp only [PGSIZE] at ha hroom ⊢
    omega
  rw [← hguard, ← h.perm _ (by omega) e he, Pgdir.user, lookup_eq_entry, he]
  simp

theorem user_above (hva : sz ≤ va) (hlt : va < 2 ^ 32) : d.user va = none := by
  have ha := h.aligned
  have hn : va / PGSIZE < NPAGES := by
    simp only [PGSIZE, NPAGES]
    omega
  rw [Pgdir.user, lookup_eq_entry]
  by_cases hk : va / PGSIZE * PGSIZE < KERNBASE
  · have hnone : d.entry (va / PGSIZE) = none := by
      rw [← Option.not_isSome_iff_eq_none, h.pages _ hk, h.round]
      simp only [PGSIZE] at ha ⊢
      omega
    rw [hnone]
    rfl
  · rw [h.kernel.entry _ hn (by omega)]
    cases he : kernelEntry (kmap l) (va / PGSIZE) with
    | none => rfl
    | some e =>
      rw [Option.bind_some, if_pos (kernelEntry_perm he)]

theorem table_kernel (hva : KERNBASE ≤ va) (hlt : va < 2 ^ 32) :
    (d.pde (PDX va)).isSome ↔ ¬ InGap va := by
  have hn : va / PGSIZE < NPAGES := by
    simp only [PGSIZE, NPAGES]
    omega
  constructor
  · intro ht hgap
    have hi : 512 ≤ (PDX va).val := by
      have := PDX_kernel hva hlt
      omega
    obtain ⟨n, hn', hni, hsome⟩ := h.kernel.table _ hi ht
    simp only [PDX] at hni
    simp only [InGap, KERNBASE, PHYSTOP, DEVSPACE] at hgap
    rw [h.kernel.entry n hn' (by simp only [KERNBASE, PGSIZE]; omega), kernelEntry_isSome] at hsome
    simp only [InKernel, KERNBASE, PHYSTOP, DEVSPACE, PGSIZE] at hsome
    omega
  · intro hgap
    have hsome : (d.entry (va / PGSIZE)).isSome := by
      simp only [InGap, KERNBASE, PHYSTOP, DEVSPACE] at hgap hva
      rw [h.kernel.entry _ hn (by simp only [KERNBASE, PGSIZE]; omega), kernelEntry_isSome]
      simp only [InKernel, KERNBASE, PHYSTOP, DEVSPACE, PGSIZE]
      omega
    obtain ⟨e, he⟩ := Option.isSome_iff_exists.mp hsome
    exact table_of_entry he

theorem exists_stackPage : ∃ ps, d.user (sz - PGSIZE) = some ps := by
  have hroom := h.room
  have hlt : sz - PGSIZE < sz := by
    simp only [PGSIZE] at hroom ⊢
    omega
  rw [← Option.isSome_iff_exists, Option.isSome_iff_ne_none, ne_eq, h.user_below hlt]
  omega

theorem user_stack (hps : d.user (sz - PGSIZE) = some ps) (h₁ : sz - PGSIZE ≤ va) (h₂ : va < sz) :
    d.user va = some ps := by
  have ha := h.aligned
  have hroom := h.room
  rw [← hps]
  apply user_congr
  simp only [PGSIZE] at ha hroom h₁ ⊢
  omega

theorem mem_pages_of_user {p : Page} (hlt : va < 2 ^ 32) (hp : d.user va = some p) :
    p ∈ d.pages := by
  have hsz := h.size
  have hva : va < sz := by
    by_contra hc
    rw [h.user_above (by omega) hlt] at hp
    cases hp
  obtain ⟨e, he, rfl⟩ := entry_of_user hp
  exact mem_pages_of_entry (lt_of_le_of_lt (Nat.div_mul_le_self _ _) (by omega)) he

theorem mem_stackPage (hps : d.user (sz - PGSIZE) = some ps) : ps ∈ d.pages := by
  have hsz := h.size
  exact h.mem_pages_of_user (by simp only [KERNBASE] at hsz; omega) hps

end Stacked

/-- The memory with bytes written to the stack page, at address `va`. -/
def pushBytes (sz va : Nat) (buf : List UInt8) (b : Bytes PGSIZE) : Bytes PGSIZE :=
  b.write (va - (sz - PGSIZE)) (fun i => buf.getD i 0) buf.length

variable {s₁ : Mem}

section

variable (h : Stacked l s₀ s d sz)
include h

theorem copyout_inStack (hps : d.user (sz - PGSIZE) = some ps)
    (hin : InStack sz va buf.length) (hne : buf ≠ []) :
    wp (copyout null d va buf) s₁
      (fun r s' => r = 0 ∧ s' = s₁.setData ps (pushBytes sz va buf (s₁.data ps))) E := by
  obtain ⟨hlo, hhi⟩ := hin
  have hpos : 0 < buf.length := List.length_pos_iff.mpr hne
  have ha := h.aligned
  have hroom := h.room
  have hoff : va - PGROUNDDOWN va = va - (sz - PGSIZE) := by
    simp only [PGROUNDDOWN, PGSIZE] at ha hroom hlo ⊢
    omega
  have hchunk : copyLen va buf.length = buf.length := by
    simp only [copyLen, hoff]
    simp only [PGSIZE] at hroom hlo ⊢
    omega
  rw [wp_copyout hne]
  refine wp_uva2ka (by rw [PDX_rounddown]; exact h.table_user (by omega)) ?_
  rw [user_rounddown, h.user_stack hps hlo (by omega)]
  dsimp only
  rw [hchunk, List.drop_length, copyout, dif_pos rfl]
  refine ⟨rfl, ?_⟩
  rw [Mem.afterRound, hoff, hchunk]
  rfl

/-- What would begin below the stack page runs into the guard page. -/
theorem copyout_guard (hlo : va < sz - PGSIZE)
    (hend : sz - 2 * PGSIZE < va + buf.length) (hhi : va + buf.length ≤ sz) (hne : buf ≠ []) :
    wp (copyout null d va buf) s₁ (fun r s' => r = -1 ∧ Outside d va buf.length s₁ s') E := by
  have hpos : 0 < buf.length := List.length_pos_iff.mpr hne
  have hsz := h.size
  simp only [KERNBASE] at hsz
  have haddr : ∀ i < buf.length, addr va i = va + i := by
    intro i hi
    simp only [addr]
    omega
  have ht : TablesExist d va buf.length := by
    intro i hi _
    rw [haddr i hi]
    exact h.table_user (by omega)
  have hmiss : ¬ AllUser d va buf.length := by
    intro hall
    -- the first byte of the range in the guard page
    have hi : max va (sz - 2 * PGSIZE) - va < buf.length := by omega
    have hsome := hall _ hi
    have hguard := (h.user_below (show max va (sz - 2 * PGSIZE) < sz by omega)).mpr ⟨by omega, by
      have hroom := h.room
      simp only [PGSIZE] at hroom hlo ⊢
      omega⟩
    rw [haddr _ hi, Nat.add_sub_of_le (le_max_left _ _), hguard] at hsome
    cases hsome
  refine wp_mono (copyout_spec (by omega) ht) ?_
  rintro r s' ⟨hout, ⟨-, hall, -⟩ | ⟨hr, -⟩⟩
  · exact absurd hall hmiss
  · exact ⟨hr, hout⟩

theorem copyout_kernel (hva : KERNBASE ≤ va) (hlt : va < 2 ^ 32)
    (hgap : ¬ InGap va) (hne : buf ≠ []) :
    wp (copyout null d va buf) s₁ (fun r s' => r = -1 ∧ s' = s₁) E := by
  have hsz := h.size
  rw [wp_copyout hne]
  refine wp_uva2ka (by rw [PDX_rounddown]; exact (h.table_kernel hva hlt).mpr hgap) ?_
  rw [user_rounddown, h.user_above (by omega) hlt]
  exact ⟨rfl, rfl⟩

/-- A round of `copyout` in the gap: it writes to the page that the word at address zero names. -/
theorem copyout_gap_round (hgap : InGap va)
    (hend : DEVSPACE < va + buf.length) {Q : Int → Mem → Prop}
    (htrap : null s₁ = none → E (.panic "trap"))
    (hstop : ∀ w, null s₁ = some w → w &&& PTE_P = 0 ∨ w &&& PTE_U = 0 → Q (-1) s₁)
    (hlast : ∀ w, null s₁ = some w → DEVSPACE ≤ PGROUNDDOWN va + PGSIZE →
      Q (-1) (s₁.afterRound (w / PGSIZE) va buf))
    (hnext : ∀ w, null s₁ = some w → InGap (PGROUNDDOWN va + PGSIZE) →
      DEVSPACE < PGROUNDDOWN va + PGSIZE + (buf.drop (PGSIZE - va % PGSIZE)).length →
      wp (copyout null d (PGROUNDDOWN va + PGSIZE) (buf.drop (PGSIZE - va % PGSIZE)))
        (s₁.afterRound (w / PGSIZE) va buf) Q E) :
    wp (copyout null d va buf) s₁ Q E := by
  have hgap' := hgap
  simp only [InGap, KERNBASE, PHYSTOP, DEVSPACE] at hgap' hend
  have hne : buf ≠ [] := List.length_pos_iff.mp (by omega)
  have hnone : d.pde (PDX (PGROUNDDOWN va)) = none := by
    rw [PDX_rounddown, ← Option.not_isSome_iff_eq_none,
      h.table_kernel (by simp only [KERNBASE]; omega) (by omega)]
    exact not_not.mpr hgap
  have hchunk : copyLen va buf.length = PGSIZE - va % PGSIZE := by
    rw [copyLen, sub_rounddown]
    simp only [PGSIZE]
    omega
  have hmod : (PGROUNDDOWN va + PGSIZE) % 2 ^ 32 = PGROUNDDOWN va + PGSIZE := by
    simp only [PGROUNDDOWN, PGSIZE]
    omega
  rw [wp_copyout hne, hchunk, hmod]
  unfold uva2ka
  simp only [hnone, wp_bind, wp_get]
  cases hnull : null s₁ with
  | none => exact htrap hnull
  | some w =>
    dsimp only
    rw [wp_pure]
    split_ifs with hw
    · exact hstop w hnull hw
    · dsimp only
      have hlen : (buf.drop (PGSIZE - va % PGSIZE)).length =
          buf.length - (PGSIZE - va % PGSIZE) := List.length_drop
      simp only [PGSIZE] at hlen
      by_cases hdev : PGROUNDDOWN va + PGSIZE < DEVSPACE
      · refine hnext w hnull ⟨?_, hdev⟩ ?_
        · simp only [PGROUNDDOWN, PGSIZE, KERNBASE, PHYSTOP]
          omega
        · simp only [PGROUNDDOWN, PGSIZE, DEVSPACE, hlen]
          omega
      · -- the devices have a page table, whose entries are not for the user
        have hres := hlast w hnull (Nat.le_of_not_lt hdev)
        refine wp_mono (copyout_kernel h (by simp only [KERNBASE, PGROUNDDOWN, PGSIZE]; omega)
          (by simp only [PGROUNDDOWN, PGSIZE]; omega) (fun hc => hdev hc.2) ?_)
          (fun r s' hr => by rw [hr.1, hr.2]; exact hres)
        apply List.length_pos_iff.mp
        simp only [PGROUNDDOWN, PGSIZE, DEVSPACE] at hdev hlen ⊢
        omega

end

theorem devspace_sub_lt (hgap : InGap va) : DEVSPACE - (PGROUNDDOWN va + PGSIZE) < DEVSPACE - va := by
  simp only [InGap, DEVSPACE, PGROUNDDOWN, PGSIZE] at hgap ⊢
  omega

/-- From the gap `copyout` does not get past the devices. -/
theorem copyout_gap (h : Stacked l s₀ s d sz) (hgap : InGap va)
    (hend : DEVSPACE < va + buf.length) :
    wp (copyout null d va buf) s₁
      (fun r s' => r = -1 ∧ s'.free = s₁.free ∧ s'.kend = s₁.kend) (fun e => e = .panic "trap") := by
  obtain ⟨k, hk⟩ : ∃ k, DEVSPACE - va = k := ⟨_, rfl⟩
  induction k using Nat.strong_induction_on generalizing va buf s₁ with
  | _ k ih =>
    refine copyout_gap_round h hgap hend (fun _ => rfl) (fun w _ _ => ⟨rfl, rfl, rfl⟩)
      (fun w _ _ => ⟨rfl, rfl, rfl⟩) (fun w _ hgap' hend' => ?_)
    exact ih _ (hk ▸ devspace_sub_lt hgap) hgap' hend' rfl

/-- If the word at address zero is the entry of another page `x` for the user, that page gets the
bytes. -/
theorem copyout_fills (h : Stacked l s₀ s d sz) (hgap : InGap va)
    (hend : DEVSPACE < va + buf.length) {p₀ x : Page} {page : Bytes PGSIZE} {w o : Nat}
    {c : UInt8} (hnull : ∀ m : Mem, m.data p₀ = page → null m = some w)
    (hw : ¬ (w &&& PTE_P = 0 ∨ w &&& PTE_U = 0)) (hx : w / PGSIZE = x) (hne : p₀ ≠ x)
    (hpage : s₁.data p₀ = page) (hbuf : ∀ i, va + i < DEVSPACE → buf.getD i 0 = c)
    (ho : va % PGSIZE ≤ o) (ho' : o < PGSIZE) :
    wp (copyout null d va buf) s₁ (fun r s' => r = -1 ∧ s'.free = s₁.free ∧ s'.kend = s₁.kend ∧
      (s'.data x).get o = c) E := by
  obtain ⟨k, hk⟩ : ∃ k, DEVSPACE - va = k := ⟨_, rfl⟩
  induction k using Nat.strong_induction_on generalizing va buf s₁ with
  | _ k ih =>
    have hsome := hnull s₁ hpage
    have hlt := hgap.2
    have hchunk : o - va % PGSIZE < copyLen va buf.length := by
      rw [copyLen, sub_rounddown]
      simp only [DEVSPACE, PGSIZE] at hend hlt ho' ⊢
      omega
    have hin : va + (o - va % PGSIZE) < DEVSPACE := by
      simp only [DEVSPACE, PGSIZE] at hlt ho' ⊢
      omega
    have hget : ((s₁.afterRound x va buf).data x).get o = c := by
      have hst := @stored_round va buf s₁ x _ hchunk
      rwa [Nat.add_sub_of_le ho, hbuf _ hin] at hst
    refine copyout_gap_round h hgap hend ?_ ?_ ?_ ?_
    · intro hc
      cases hsome.symm.trans hc
    · intro w' hw' hbits
      cases hsome.symm.trans hw'
      exact absurd hbits hw
    · intro w' hw' _
      cases hsome.symm.trans hw'
      rw [hx]
      exact ⟨rfl, rfl, rfl, hget⟩
    · intro w' hw' hgap' hend'
      cases hsome.symm.trans hw'
      rw [hx]
      refine ih _ (hk ▸ devspace_sub_lt hgap) hgap' hend' ?_ ?_ ?_ rfl
      · rw [Mem.afterRound, s₁.setData_of_ne hne]
        exact hpage
      · intro i hi
        rw [List.getD_eq_getElem?_getD, List.getElem?_drop, ← List.getD_eq_getElem?_getD]
        apply hbuf
        simp only [PGROUNDDOWN, PGSIZE, DEVSPACE] at hi ⊢
        omega
      · simp only [PGROUNDDOWN, PGSIZE]
        omega

/-! ### Strings -/

/-- The bytes that the strings take on the stack, each rounded up to a word. -/
def stringsSize (argv : List (List UInt8)) : Nat :=
  argv.foldl (fun n a => (n + (a.length + 1) + 3) / 4 * 4) 0

theorem stringsSize_append (argv : List (List UInt8)) (a : List UInt8) :
    stringsSize (argv ++ [a]) = (stringsSize argv + (a.length + 1) + 3) / 4 * 4 := by
  rw [stringsSize, List.foldl_append, List.foldl_cons, List.foldl_nil, stringsSize]

theorem stringsSize_mod (argv : List (List UInt8)) : stringsSize argv % 4 = 0 := by
  induction argv using List.reverseRecOn with
  | nil => rfl
  | append_singleton argv a _ => rw [stringsSize_append, Nat.mul_mod_left]

theorem stringsSize_le (argv more : List (List UInt8)) :
    stringsSize argv ≤ stringsSize (argv ++ more) := by
  induction more using List.reverseRecOn with
  | nil => rw [List.append_nil]
  | append_singleton more a ih =>
    rw [← List.append_assoc, stringsSize_append]
    omega

/-- The strings and the words fit into one page. -/
def Fit (argv : List (List UInt8)) : Prop :=
  argv.length ≤ MAXARG ∧ 4 * (4 + argv.length) + stringsSize argv ≤ PGSIZE

/-- The strings `argv` have been pushed at the addresses `ptrs`, the last one at `sp`; `b` are the
bytes of the stack page, and `b₀` those from before. -/
structure Layed (sz : Nat) (argv : List (List UInt8)) (ptrs : List Nat) (sp : Nat)
    (b₀ b : Bytes PGSIZE) : Prop where
  length : ptrs.length = argv.length
  low : sz - PGSIZE ≤ sp
  high : sp ≤ sz
  aligned : sp % 4 = 0
  size : sp + stringsSize argv = sz
  ptr_aligned : ∀ i < argv.length, ptrs.getD i 0 % 4 = 0
  above : ∀ i < argv.length, sp ≤ ptrs.getD i 0
  inside : ∀ i < argv.length, ptrs.getD i 0 + ((argv.getD i []).length + 1) ≤ sz
  apart : ∀ i k, i < k → k < argv.length →
    ptrs.getD k 0 + ((argv.getD k []).length + 1) ≤ ptrs.getD i 0
  bytes : ∀ i < argv.length, ∀ j < (argv.getD i []).length + 1,
    b.get (ptrs.getD i 0 + j - (sz - PGSIZE)) = (argv.getD i [] ++ [0]).getD j 0
  other : ∀ o, (∀ i < argv.length, ¬ (ptrs.getD i 0 ≤ sz - PGSIZE + o ∧
    sz - PGSIZE + o < ptrs.getD i 0 + ((argv.getD i []).length + 1))) → b.get o = b₀.get o

theorem layed_nil (ha : sz % PGSIZE = 0) (b : Bytes PGSIZE) : Layed sz [] [] sz b b := by
  have h4 : sz % 4 = 0 := by
    simp only [PGSIZE] at ha
    omega
  refine ⟨rfl, Nat.sub_le _ _, le_rfl, h4, rfl, ?_, ?_, ?_, ?_, ?_, fun _ _ => rfl⟩ <;>
    simp only [List.length_nil, Nat.not_lt_zero, false_implies, implies_true]

theorem below_eq {sp n : Nat} (hn : n ≤ sp) (hsp : sp < 2 ^ 32) : below sp n = (sp - n) / 4 * 4 := by
  simp only [below]
  omega

theorem Layed.push {argv : List (List UInt8)} {ptrs : List Nat} {sp : Nat} {b₀ b : Bytes PGSIZE}
    (h : Layed sz argv ptrs sp b₀ b) (a : List UInt8) {q : Nat} (hfit : a.length + 1 ≤ sp)
    (hqe : q = (sp - (a.length + 1)) / 4 * 4) (hlo : sz - PGSIZE ≤ q) (hsz : PGSIZE ≤ sz) :
    Layed sz (argv ++ [a]) (ptrs ++ [q]) q b₀ (pushBytes sz q (a ++ [0]) b) := by
  have hq : q % 4 = 0 := by omega
  have hle : q + (a.length + 1) ≤ sp := by omega
  have hhigh := h.high
  have hsize : q + stringsSize (argv ++ [a]) = sz := by
    have hold := h.size
    have hsp := h.aligned
    have hmul := stringsSize_mod argv
    rw [stringsSize_append]
    omega
  have hlen := h.length
  -- index `i` of the longer lists is one of before, or the new one
  have hold : ∀ i < argv.length, (ptrs ++ [q]).getD i 0 = ptrs.getD i 0 ∧
      (argv ++ [a]).getD i [] = argv.getD i [] := by
    intro i hi
    exact ⟨List.getD_append _ _ _ _ (by omega), List.getD_append _ _ _ _ hi⟩
  have hnew : (ptrs ++ [q]).getD argv.length 0 = q ∧ (argv ++ [a]).getD argv.length [] = a := by
    refine ⟨?_, ?_⟩
    · rw [← hlen, List.getD_append_right _ _ _ _ le_rfl, Nat.sub_self]
      rfl
    · rw [List.getD_append_right _ _ _ _ le_rfl, Nat.sub_self]
      rfl
  have hcases : ∀ i, i < (argv ++ [a]).length → i < argv.length ∨ i = argv.length := by
    intro i hi
    rw [List.length_append, List.length_singleton] at hi
    omega
  have hbuf : (a ++ [0]).length = a.length + 1 := by simp
  refine ⟨by simp [hlen], hlo, by omega, hq, hsize, ?_, ?_, ?_, ?_, ?_, ?_⟩
  · intro i hi
    rcases hcases i hi with hi | rfl
    · rw [(hold i hi).1]
      exact h.ptr_aligned i hi
    · rw [hnew.1]
      exact hq
  · intro i hi
    rcases hcases i hi with hi | rfl
    · rw [(hold i hi).1]
      have := h.above i hi
      omega
    · rw [hnew.1]
  · intro i hi
    rcases hcases i hi with hi | rfl
    · rw [(hold i hi).1, (hold i hi).2]
      exact h.inside i hi
    · rw [hnew.1, hnew.2]
      omega
  · intro i k hik hk
    rcases hcases k hk with hk | rfl
    · rw [(hold k hk).1, (hold k hk).2, (hold i (by omega)).1]
      exact h.apart i k hik hk
    · rw [hnew.1, hnew.2, (hold i hik).1]
      have := h.above i hik
      omega
  · intro i hi j hj
    rcases hcases i hi with hi | rfl
    · rw [(hold i hi).2] at hj
      rw [(hold i hi).1, (hold i hi).2, ← h.bytes i hi j hj]
      have habove := h.above i hi
      exact Bytes.get_write_out _ _ (by rw [hbuf]; omega)
    · rw [hnew.2] at hj
      have hoff : q + j - (sz - PGSIZE) - (q - (sz - PGSIZE)) = j := by omega
      have hin : q + j - (sz - PGSIZE) < PGSIZE := by omega
      rw [hnew.1, hnew.2, pushBytes, Bytes.get_write_in _ _ (by omega) (by omega) hin, hoff]
  · intro o ho
    rw [pushBytes, Bytes.get_write_out]
    · apply h.other o
      intro i hi
      have hout := ho i (by simp only [List.length_append, List.length_singleton]; omega)
      rwa [(hold i hi).1, (hold i hi).2] at hout
    · have hout := ho argv.length (by simp)
      rw [hnew.1, hnew.2] at hout
      rw [hbuf]
      omega

/-! ### Words -/

theorem length_words (ws : List Nat) : (ws.flatMap wordBytes).length = 4 * ws.length := by
  induction ws with
  | nil => rfl
  | cons w ws ih =>
    have hw : (wordBytes w).length = 4 := by simp [wordBytes]
    rw [List.flatMap_cons, List.length_append, ih, hw, List.length_cons]
    omega

theorem getD_words {ws : List Nat} {i j : Nat} (hi : i < ws.length) (hj : j < 4) :
    (ws.flatMap wordBytes).getD (4 * i + j) 0 = leByte (ws.getD i 0) j := by
  induction ws generalizing i with
  | nil => cases hi
  | cons w ws ih =>
    have hw : (wordBytes w).length = 4 := by simp [wordBytes]
    rw [List.flatMap_cons]
    cases i with
    | zero =>
      rw [List.getD_append _ _ _ _ (by omega), List.getD_cons_zero, Nat.mul_zero, Nat.zero_add]
      simp [wordBytes, List.getD_eq_getElem?_getD, hj]
    | succ i =>
      rw [List.getD_append_right _ _ _ _ (by omega), List.getD_cons_succ, hw,
        show 4 * (i + 1) + j - 4 = 4 * i + j by omega]
      exact ih (by simpa using hi)

theorem length_ustack (sp : Nat) (ptrs : List Nat) : (ustack sp ptrs).length = 4 + ptrs.length := by
  simp only [ustack, List.length_cons, List.length_append, List.length_nil]
  omega

theorem Stacked.grow_outside (h : Stacked l s₀ s d sz) {n : Nat}
    (hg : Grow s₀ 0 s₁ d.pages) (hout : Outside d va n s₁ s') : Grow s₀ 0 s' d.pages := by
  refine ⟨hout.kend.trans hg.kend, by rw [hout.free]; exact hg.pages,
    fun p hp => hg.free p (hout.free ▸ hp), ?_⟩
  intro p hp
  rw [← hg.data p hp]
  apply Bytes.ext_get
  intro o _
  refine hout.data p o ?_
  rintro i - ⟨huser, -⟩
  exact hp (mem_free_of_grow hg (h.mem_pages_of_user (Nat.mod_lt _ (by decide)) huser))

/-- One of the strings begins in the gap when `exec` pushes it. -/
def MeetsGap (sz : Nat) : Nat → Nat → List (List UInt8) → Prop
  | _, _, [] => False
  | argc, sp, a :: argv => argc < MAXARG ∧ (InGap (below sp (a.length + 1)) ∨
      InStack sz (below sp (a.length + 1)) (a.length + 1) ∧
        MeetsGap sz (argc + 1) (below sp (a.length + 1)) argv)

section Push

variable (h : Stacked l s₀ s d sz) (hps : d.user (sz - PGSIZE) = some ps)
include h hps

variable {sp : Nat} {argv : List (List UInt8)}

theorem copyout_string {s₁ : Mem} {a : List UInt8} (hg : Grow s₀ 0 s₁ d.pages)
    (hlo : sz - PGSIZE ≤ sp) (hhi : sp ≤ sz) (ha : a.length < KERNBASE) :
    wp (copyout null d (below sp (a.length + 1)) (a ++ [0])) s₁ (fun r s' =>
      r = 0 ∧ InStack sz (below sp (a.length + 1)) (a.length + 1) ∧
        a.length + 1 ≤ sp ∧ below sp (a.length + 1) = (sp - (a.length + 1)) / 4 * 4 ∧
        s' = s₁.setData ps (pushBytes sz (below sp (a.length + 1)) (a ++ [0]) (s₁.data ps)) ∨
      r = -1 ∧ sp < sz - PGSIZE + (a.length + 1) ∧ s'.free = s₁.free ∧ s'.kend = s₁.kend ∧
        (¬ InGap (below sp (a.length + 1)) → Grow s₀ 0 s' d.pages))
      (fun e => InGap (below sp (a.length + 1)) ∧ e = .panic "trap") := by
  have hsz := h.size
  have hroom := h.room
  simp only [KERNBASE] at hsz ha
  have hne : a ++ [0] ≠ [] := by simp
  have hlen : (a ++ [0]).length = a.length + 1 := by simp
  by_cases hfit : a.length + 1 ≤ sp
  · have hbelow := below_eq hfit (by omega)
    by_cases hin : sz - PGSIZE ≤ below sp (a.length + 1)
    · have hstack : InStack sz (below sp (a.length + 1)) (a ++ [0]).length := by
        refine ⟨hin, ?_⟩
        rw [hlen]
        omega
      refine wp_conseq (copyout_inStack h hps hstack hne (E := fun _ => False)) ?_ (fun _ h => h.elim)
      rintro r s' ⟨hr, hs'⟩
      rw [hlen] at hstack
      exact Or.inl ⟨hr, hstack, hfit, hbelow, hs'⟩
    · refine wp_conseq (copyout_guard h (by omega) ?_ ?_ hne (E := fun _ => False)) ?_
        (fun _ h => h.elim)
      · rw [hlen]
        simp only [PGSIZE] at hroom hlo ⊢
        omega
      · rw [hlen]
        omega
      · rintro r s' ⟨hr, hout⟩
        have halign := h.aligned
        refine Or.inr ⟨hr, ?_, hout.free, hout.kend, fun _ => h.grow_outside hg hout⟩
        simp only [PGSIZE] at hroom halign hin ⊢
        omega
  · -- the stack pointer wraps around
    have hva : KERNBASE ≤ below sp (a.length + 1) ∧ below sp (a.length + 1) < 2 ^ 32 ∧
        2 ^ 32 < below sp (a.length + 1) + (a.length + 1) + 4 := by
      simp only [below, KERNBASE]
      omega
    by_cases hgap : InGap (below sp (a.length + 1))
    · refine wp_conseq (copyout_gap h hgap ?_)
        (fun r s' hr => Or.inr ⟨hr.1, by omega, hr.2.1, hr.2.2, fun hc => absurd hgap hc⟩)
        (fun e he => ⟨hgap, he⟩)
      rw [hlen]
      simp only [DEVSPACE]
      omega
    · refine wp_conseq (copyout_kernel h hva.1 hva.2.1 hgap hne (E := fun _ => False)) ?_
        (fun _ h => h.elim)
      rintro r s' ⟨hr, rfl⟩
      exact Or.inr ⟨hr, by omega, rfl, rfl, fun _ => hg⟩

theorem pushStrings_spec {argv done : List (List UInt8)} {ptrs : List Nat}
    {b : Bytes PGSIZE} (hl : Layed sz done ptrs sp (s.data ps) b) (hmax : done.length ≤ MAXARG)
    (hargv : ∀ a ∈ argv, a.length < KERNBASE) :
    wp (pushStrings null d argv sp ptrs) (s.setData ps b) (fun r s' =>
      match r with
      | none => ¬ Fit (done ++ argv) ∧ s'.free = s.free ∧ s'.kend = s.kend ∧
          (¬ MeetsGap sz done.length sp argv → Grow s₀ 0 s' d.pages)
      | some (sp', ptrs') => ∃ b', s' = s.setData ps b' ∧ (done ++ argv).length ≤ MAXARG ∧
          Layed sz (done ++ argv) ptrs' sp' (s.data ps) b')
      (fun e => MeetsGap sz done.length sp argv ∧ e = .panic "trap") := by
  have hroom := h.room
  have hgrow : ∀ b, Grow s₀ 0 (s.setData ps b) d.pages :=
    fun b => h.grow.write (mem_free_of_grow h.grow (h.mem_stackPage hps)) b
  induction argv generalizing done ptrs sp b with
  | nil => exact ⟨b, rfl, by rwa [List.append_nil], by rwa [List.append_nil]⟩
  | cons a argv ih =>
    rw [pushStrings, hl.length]
    by_cases hfull : done.length ≥ MAXARG
    · rw [if_pos hfull]
      refine ⟨fun hfit => ?_, rfl, rfl, fun _ => hgrow b⟩
      have hlen := hfit.1
      rw [List.length_append, List.length_cons] at hlen
      omega
    · rw [if_neg hfull]
      refine wp_chain (copyout_string h hps (hgrow b) hl.low hl.high
        (hargv a List.mem_cons_self)) ?_ ?_
      · rintro r s' (⟨rfl, hin, hfit, hbelow, rfl⟩ | ⟨rfl, hlong, hfree, hkend, hg⟩)
        · rw [if_neg (by decide), Mem.setData_setData, Mem.setData_self]
          have hpush := hl.push a hfit hbelow hin.1 (by
            simp only [PGSIZE] at hroom ⊢
            omega)
          have hnext := ih hpush (by
            rw [List.length_append, List.length_singleton]
            omega) (fun a' ha' => hargv a' (List.mem_cons_of_mem _ ha'))
          have hlen : (done ++ [a]).length = done.length + 1 := by simp
          rw [hlen] at hnext
          refine wp_conseq hnext ?_ ?_
          · rintro (_ | ⟨sp', ptrs'⟩) s₂ hres
            · obtain ⟨hfit, hfree, hkend, hg⟩ := hres
              rw [List.append_assoc, List.singleton_append] at hfit
              exact ⟨hfit, hfree, hkend, fun hc => hg (fun hm => hc ⟨by omega, Or.inr ⟨hin, hm⟩⟩)⟩
            · obtain ⟨b', hs₂, hm, hl'⟩ := hres
              rw [List.append_assoc, List.singleton_append] at hm hl'
              exact ⟨b', hs₂, hm, hl'⟩
          · rintro e ⟨hm, he⟩
            exact ⟨⟨by omega, Or.inr ⟨hin, hm⟩⟩, he⟩
        · rw [if_pos (by decide)]
          refine ⟨fun hfit => ?_, hfree, hkend, fun hc => hg (fun hgap => hc ⟨by omega, Or.inl hgap⟩)⟩
          have hsize := hl.size
          have hall := hfit.2
          have hle := stringsSize_le (done ++ [a]) argv
          rw [List.append_assoc, List.singleton_append, stringsSize_append] at hle
          omega
      · rintro e ⟨hgap, he⟩
        exact ⟨⟨by omega, Or.inl hgap⟩, he⟩

theorem pushArgs_spec (hargv : ∀ a ∈ argv, a.length < KERNBASE) :
    wp (pushArgs null d sz argv) s (fun r s' =>
      match r with
      | none => ¬ Fit argv ∧ s'.free = s.free ∧ s'.kend = s.kend ∧
          (¬ MeetsGap sz 0 sz argv → Grow s₀ 0 s' d.pages)
      | some esp => ∃ b sp ptrs, Layed sz argv ptrs sp (s.data ps) b ∧
          esp + 4 * (4 + argv.length) = sp ∧ sz - PGSIZE ≤ esp ∧
          s' = s.setData ps (pushBytes sz esp ((ustack sp ptrs).flatMap wordBytes) b))
      (fun e => MeetsGap sz 0 sz argv ∧ e = .panic "trap") := by
  have hroom := h.room
  have hsz := h.size
  simp only [KERNBASE] at hsz
  have hstart := @pushStrings_spec l null _ _ _ _ _ h hps _ _ _ _ _
    (layed_nil h.aligned (s.data ps)) (Nat.zero_le _) hargv
  rw [Mem.setData_eq_self] at hstart
  unfold pushArgs
  refine wp_seq hstart ?_
  rintro (_ | ⟨sp, ptrs⟩) s₁ hres
  · exact hres
  · obtain ⟨b, rfl, hmax, hl⟩ := hres
    rw [List.nil_append] at hmax hl
    have hlen := hl.length
    have hlow := hl.low
    have hhigh := hl.high
    have hbytes : ((ustack sp ptrs).flatMap wordBytes).length = 4 * (4 + argv.length) := by
      rw [length_words, length_ustack, hlen]
    have hesp : (sp + 2 ^ 32 - (3 + ptrs.length + 1) * 4) % 2 ^ 32 + 4 * (4 + argv.length) = sp := by
      simp only [PGSIZE, MAXARG] at hroom hlow hmax
      rw [hlen]
      omega
    have hne : (ustack sp ptrs).flatMap wordBytes ≠ [] := List.length_pos_iff.mp (by omega)
    dsimp only
    generalize (sp + 2 ^ 32 - (3 + ptrs.length + 1) * 4) % 2 ^ 32 = esp at hesp ⊢
    rw [wp_bind]
    by_cases hin : sz - PGSIZE ≤ esp
    · refine wp_conseq (copyout_inStack h hps ⟨hin, by omega⟩ hne (E := fun _ => False)) ?_
        (fun _ (hc : False) => hc.elim)
      rintro r s' ⟨rfl, rfl⟩
      rw [if_neg (by decide), Mem.setData_setData, Mem.setData_self]
      exact ⟨b, sp, ptrs, hl, hesp, hin, rfl⟩
    · refine wp_conseq (copyout_guard h (by omega) ?_ (by omega) hne (E := fun _ => False)) ?_
        (fun _ (hc : False) => hc.elim)
      · simp only [PGSIZE] at hroom hlow ⊢
        omega
      · rintro r s' ⟨rfl, hout⟩
        rw [if_pos (by decide)]
        have hgrow := h.grow.write (mem_free_of_grow h.grow (h.mem_stackPage hps)) b
        refine ⟨fun hfit => ?_, hout.free, hout.kend, fun _ => h.grow_outside hgrow hout⟩
        have hsize := hl.size
        have hall := hfit.2
        omega

theorem pushStrings_traps {ptrs : List Nat} {s₁ : Mem} (hm : MeetsGap sz ptrs.length sp argv) :
    wp (pushStrings (fun _ => none) d argv sp ptrs) s₁ (fun _ _ => False)
      (fun e => e = .panic "trap") := by
  have hsz := h.size
  induction argv generalizing ptrs sp s₁ with
  | nil => exact hm.elim
  | cons a argv ih =>
    obtain ⟨hargc, hm⟩ := hm
    have hne : a ++ [0] ≠ [] := by simp
    have hlen : (a ++ [0]).length = a.length + 1 := by simp
    rw [pushStrings, if_neg (by omega), wp_bind]
    rcases hm with hgap | ⟨hin, hm⟩
    · have hgap' := hgap
      simp only [InGap, KERNBASE, PHYSTOP, DEVSPACE] at hgap'
      refine wp_mono (copyout_traps (by omega) ?_) (fun _ _ hc => hc.elim)
      intro ht
      have htab := ht 0 (by rw [hlen]; omega) (fun j hj => by omega)
      rw [addr_zero (by omega), h.table_kernel (by simp only [KERNBASE]; omega) (by omega)] at htab
      exact htab hgap
    · have hin' : InStack sz (below sp (a.length + 1)) (a ++ [0]).length := by rwa [hlen]
      refine wp_mono (copyout_inStack h hps hin' hne) ?_
      rintro r s' ⟨rfl, rfl⟩
      rw [if_neg (by decide)]
      refine ih ?_
      rwa [List.length_append, List.length_singleton]

theorem pushArgs_traps (hm : MeetsGap sz 0 sz argv) :
    wp (pushArgs (fun _ => none) d sz argv) s (fun _ _ => False) (fun e => e = .panic "trap") := by
  unfold pushArgs
  rw [wp_bind]
  exact wp_mono (pushStrings_traps h hps hm) (fun _ _ hc => hc.elim)

end Push

/-! ### What the program finds on its stack -/

/-- The word that a program reads at `va`. -/
def word (s : Mem) (d : Pgdir) (va : Nat) : Nat := leWord (fun a => (s.byte d a).getD 0) va 4

/-- The address of argument `i`. -/
def arg (s : Mem) (d : Pgdir) (esp i : Nat) : Nat := word s d (word s d (esp + 8) + 4 * i)

/-- `main` finds `argv` on the stack, which is in the last page. -/
structure ArgvStack (s : Mem) (d : Pgdir) (sz esp : Nat) (argv : List (List UInt8)) : Prop where
  pc : word s d esp = 0xffffffff
  argc : word s d (esp + 4) = argv.length
  array : word s d (esp + 8) = esp + 12
  last : arg s d esp argv.length = 0
  aligned : ∀ i < argv.length, arg s d esp i % 4 = 0
  string : ∀ i < argv.length, ∀ j ≤ (argv.getD i []).length,
    s.byte d (arg s d esp i + j) = some ((argv.getD i [] ++ [0]).getD j 0)
  page : sz - PGSIZE ≤ esp
  words : ∀ i < argv.length, esp + 4 * (4 + argv.length) ≤ arg s d esp i
  inside : ∀ i < argv.length, arg s d esp i + (argv.getD i []).length < sz
  apart : ∀ i k, i < k → k < argv.length →
    arg s d esp k + (argv.getD k []).length < arg s d esp i
  size : esp + (4 * (4 + argv.length) + stringsSize argv) = sz

/-- The byte at `va` belongs to the words or to a string. -/
def IsArgument (s : Mem) (d : Pgdir) (esp : Nat) (argv : List (List UInt8)) (va : Nat) : Prop :=
  esp ≤ va ∧ va < esp + 4 * (4 + argv.length) ∨
    ∃ i < argv.length, arg s d esp i ≤ va ∧ va ≤ arg s d esp i + (argv.getD i []).length

section Decode

variable (h : Stacked l s₀ s d sz) (hps : d.user (sz - PGSIZE) = some ps) {b : Bytes PGSIZE}
include h hps

theorem byte_stack (h₁ : sz - PGSIZE ≤ va) (h₂ : va < sz) :
    (s.setData ps b).byte d va = some (b.get (va - (sz - PGSIZE))) := by
  have ha := h.aligned
  have hroom := h.room
  have hoff : va % PGSIZE = va - (sz - PGSIZE) := by
    simp only [PGSIZE] at ha hroom h₁ ⊢
    omega
  obtain ⟨e, he, rfl⟩ := entry_of_user (h.user_stack hps h₁ h₂)
  rw [Mem.byte, lookup_eq_entry, he, Option.map_some, Mem.setData_self, hoff]

theorem byte_below (hd : d.pages.Nodup) (hva : va < sz - PGSIZE) :
    (s.setData ps b).byte d va = s.byte d va := by
  have hsz := h.size
  have ha := h.aligned
  have hroom := h.room
  refine byte_congr rfl ?_
  intro e he
  refine s.setData_of_ne ?_ b
  intro hc
  rw [lookup_eq_entry] at he
  obtain ⟨e', he', rfl⟩ := entry_of_user hps
  have hle : va / PGSIZE * PGSIZE ≤ va := Nat.div_mul_le_self _ _
  have hle' : (sz - PGSIZE) / PGSIZE * PGSIZE ≤ sz - PGSIZE := Nat.div_mul_le_self _ _
  have hsame := entry_injective hd (by omega) (by omega) he he' hc
  simp only [PGSIZE] at ha hroom hva hsame
  omega

theorem word_pushed {esp i v : Nat} {ws : List Nat} (hlo : sz - PGSIZE ≤ esp)
    (hhi : esp + 4 * ws.length ≤ sz) (hi : i < ws.length) (hv : ws.getD i 0 = v) (hlt : v < 2 ^ 32) :
    word (s.setData ps (pushBytes sz esp (ws.flatMap wordBytes) b)) d (esp + 4 * i) = v := by
  have hroom := h.room
  have hbytes : ∀ j < 4, ((s.setData ps (pushBytes sz esp (ws.flatMap wordBytes) b)).byte d
      (esp + 4 * i + j)).getD 0 = leByte v j := by
    intro j hj
    have hoff : esp + 4 * i + j - (sz - PGSIZE) - (esp - (sz - PGSIZE)) = 4 * i + j := by omega
    have hlen := length_words ws
    have hin : esp + 4 * i + j - (sz - PGSIZE) < PGSIZE := by
      simp only [PGSIZE] at hroom hlo ⊢
      omega
    rw [byte_stack h hps (by omega) (by omega), Option.getD_some, pushBytes,
      Bytes.get_write_in _ _ (by omega) (by rw [hlen]; omega) hin, hoff, getD_words hi hj, hv]
  rw [word, leWord_leByte hbytes]
  exact Nat.mod_eq_of_lt (hlt.trans_eq (by norm_num))

omit h hps in
theorem ustack_head (sp : Nat) (ptrs : List Nat) :
    (ustack sp ptrs).getD 0 0 = 0xffffffff ∧ (ustack sp ptrs).getD 1 0 = ptrs.length ∧
      (ustack sp ptrs).getD 2 0 = (sp + 2 ^ 32 - (ptrs.length + 1) * 4) % 2 ^ 32 := by
  simp only [ustack, List.cons_append, List.getD_cons_zero, List.getD_cons_succ, and_self]

omit h hps in
theorem ustack_getD (sp : Nat) (ptrs : List Nat) (i : Nat) :
    (ustack sp ptrs).getD (3 + i) 0 = (ptrs ++ [0]).getD i 0 := by
  rw [show 3 + i = i + 1 + 1 + 1 by omega]
  simp only [ustack, List.cons_append, List.getD_cons_succ]

theorem argvStack {argv : List (List UInt8)} {ptrs : List Nat} {sp esp : Nat} (hd : d.pages.Nodup)
    (hl : Layed sz argv ptrs sp (s.data ps) b) (hesp : esp + 4 * (4 + argv.length) = sp)
    (hlo : sz - PGSIZE ≤ esp) (hs' : ∀ va < sz, s'.byte d va = (s.setData ps
      (pushBytes sz esp ((ustack sp ptrs).flatMap wordBytes) b)).byte d va) :
    ArgvStack s' d sz esp argv ∧
      ∀ va < sz, ¬ IsArgument s' d esp argv va → s'.byte d va = s.byte d va := by
  have hsz := h.size
  have hroom := h.room
  have hlen := hl.length
  have hhigh := hl.high
  have hsize := hl.size
  simp only [KERNBASE] at hsz
  have hword : ∀ i v, i < 4 + argv.length → (ustack sp ptrs).getD i 0 = v → v < 2 ^ 32 →
      word s' d (esp + 4 * i) = v := by
    intro i v hi hv hlt
    have hl4 := length_ustack sp ptrs
    rw [← word_pushed (b := b) h hps hlo (by omega) (by omega) hv hlt]
    exact leWord_congr (fun a h₁ h₂ => by rw [hs' a (by omega)])
  have hhead := ustack_head sp ptrs
  have harray : word s' d (esp + 8) = esp + 12 := by
    have hw := hword 2 (esp + 12) (by omega) (by rw [hhead.2.2]; omega) (by omega)
    rwa [show esp + 4 * 2 = esp + 8 by omega] at hw
  have harg : ∀ i < argv.length, arg s' d esp i = ptrs.getD i 0 := by
    intro i hi
    have hin := hl.inside i hi
    have hw := hword (3 + i) (ptrs.getD i 0) (by omega)
      (by rw [ustack_getD, List.getD_append _ _ _ _ (by omega)]) (by omega)
    rw [arg, harray, ← hw]
    congr 1
    omega
  have hlast : arg s' d esp argv.length = 0 := by
    have hw := hword (3 + argv.length) 0 (by omega)
      (by rw [ustack_getD, ← hlen, List.getD_append_right _ _ _ _ le_rfl, Nat.sub_self]; rfl)
      (by omega)
    rw [arg, harray, ← hw]
    congr 1
    omega
  -- the words are below the strings
  have hbyte : ∀ va, sp ≤ va → va < sz → s'.byte d va = some (b.get (va - (sz - PGSIZE))) := by
    intro va h₁ h₂
    have hwords := length_words (ustack sp ptrs)
    have hl4 := length_ustack sp ptrs
    rw [hs' va h₂, byte_stack h hps (by omega) h₂, pushBytes, Bytes.get_write_out _ _ (by omega)]
  refine ⟨⟨?_, ?_, harray, hlast, ?_, ?_, hlo, ?_, ?_, ?_, by omega⟩, ?_⟩
  · have hw := hword 0 _ (by omega) hhead.1 (by norm_num)
    rwa [Nat.mul_zero, Nat.add_zero] at hw
  · have hw := hword 1 _ (by omega) (hhead.2.1.trans hlen) (by omega)
    rwa [Nat.mul_one] at hw
  · intro i hi
    rw [harg i hi]
    exact hl.ptr_aligned i hi
  · intro i hi j hj
    have hab := hl.above i hi
    have hin := hl.inside i hi
    rw [harg i hi, hbyte _ (by omega) (by omega), hl.bytes i hi j (by omega)]
  · intro i hi
    have hab := hl.above i hi
    rw [harg i hi]
    omega
  · intro i hi
    have hin := hl.inside i hi
    rw [harg i hi]
    omega
  · intro i k hik hk
    have hap := hl.apart i k hik hk
    rw [harg k hk, harg i (by omega)]
    omega
  · intro va hva hout
    by_cases hbelow : va < sz - PGSIZE
    · rw [hs' va hva, byte_below h hps hd hbelow]
    · have hself : s.byte d va = some ((s.data ps).get (va - (sz - PGSIZE))) := by
        have := @byte_stack l s s₀ d sz va ps h hps (s.data ps) (by omega) hva
        rwa [Mem.setData_eq_self] at this
      have hwords := length_words (ustack sp ptrs)
      have hl4 := length_ustack sp ptrs
      have hnot : ¬ (esp ≤ va ∧ va < esp + 4 * (4 + argv.length)) := fun hc => hout (Or.inl hc)
      rw [hself, hs' va hva, byte_stack h hps (by omega) hva, pushBytes,
        Bytes.get_write_out _ _ (by omega), hl.other]
      intro i hi hc
      refine hout (Or.inr ⟨i, hi, ?_⟩)
      rw [harg i hi]
      omega

end Decode

end Xv6.Exec
