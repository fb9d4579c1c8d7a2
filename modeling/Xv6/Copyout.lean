import Xv6.MemoryGrow

/-!
# Copying to user memory

`copyout` looks up each page of the range with `uva2ka`, which reads the entry that `walkpgdir` points
to without a check that there is one. Where the page table is missing it reads from address zero; what
it finds there is a parameter.
-/

namespace Xv6.Vm

/-- What a read of the word at address zero gives, if the address is mapped. -/
abbrev Null := Mem → Option Nat

abbrev PTE_P : Nat := 1

/-- The page that `uva2ka` returns the kernel address of. -/
def uva2ka (null : Null) (d : Pgdir) (uva : Nat) : Prog Mem (Option Page) :=
  match d.pde (PDX uva) with
  | some t =>
    match t.pte (PTX uva) with
    | none => pure none
    | some e => pure (if e.perm &&& PTE_U = 0 then none else some e.ppn)
  | none => do
    -- the entry is read through the null pointer that `walkpgdir` returned
    let s ← Prog.get
    match null s with
    | none => Prog.panicWith "trap"
    | some pte =>
      pure (if pte &&& PTE_P = 0 ∨ pte &&& PTE_U = 0 then none else some (pte / PGSIZE))

/-- `memmove` of the first `n` bytes of `buf` to offset `off` of page `p`. -/
def Mem.memmove (p : Page) (off : Nat) (buf : List UInt8) (n : Nat) : Prog Mem Unit :=
  Prog.modify (fun s => s.setData p ((s.data p).write off (fun i => buf.getD i 0) n))

/-- The number of bytes that a round of `copyout` copies. -/
def copyLen (va len : Nat) : Nat := min (PGSIZE - (va - PGROUNDDOWN va)) len

theorem copyLen_pos {va len : Nat} (h : 0 < len) : 0 < copyLen va len := by
  simp only [copyLen, PGROUNDDOWN, PGSIZE]
  omega

def copyout (null : Null) (d : Pgdir) (va : Nat) (buf : List UInt8) : Prog Mem Int :=
  if h : buf = [] then pure 0
  else do
    let va0 := PGROUNDDOWN va
    match ← uva2ka null d va0 with
    | none => pure (-1)
    | some pa0 => do
      let n := copyLen va buf.length
      Mem.memmove pa0 (va - va0) buf n
      copyout null d ((va0 + PGSIZE) % 2 ^ 32) (buf.drop n)
termination_by buf.length
decreasing_by
  have hpos := List.length_pos_iff.mpr h
  have hchunk := @copyLen_pos va buf.length hpos
  rw [List.length_drop]
  omega

/-- The page that `d` maps for the user at `va`. -/
def Pgdir.user (d : Pgdir) (va : Nat) : Option Page :=
  (d.lookup va).bind (fun e => if e.perm &&& PTE_U = 0 then none else some e.ppn)

variable {null : Null} {d : Pgdir} {va : Nat} {buf : List UInt8} {s s' s₁ : Mem}
  {E : Fault → Prop}

/-- The address of byte `i` of a range that starts at `va`. -/
def addr (va i : Nat) : Nat := (va + i) % 2 ^ 32

/-- Byte `i` of the range is byte `off` of page `p`. -/
def Hits (d : Pgdir) (va i : Nat) (p : Page) (off : Nat) : Prop :=
  d.user (addr va i) = some p ∧ addr va i % PGSIZE = off

/-- Only bytes of the range have changed. -/
structure Outside (d : Pgdir) (va len : Nat) (s s' : Mem) : Prop where
  kend : s'.kend = s.kend
  free : s'.free = s.free
  data : ∀ p off, (∀ i < len, ¬ Hits d va i p off) → (s'.data p).get off = (s.data p).get off

/-- Every byte of the range holds its source byte; a byte of memory that is in the range more than
once holds the last one. -/
def Stored (d : Pgdir) (va : Nat) (buf : List UInt8) (s' : Mem) : Prop :=
  ∀ i < buf.length, ∀ p off, Hits d va i p off →
    (∀ j, i < j → j < buf.length → ¬ Hits d va j p off) → (s'.data p).get off = buf.getD i 0

theorem Outside.refl (d : Pgdir) (va len : Nat) (s : Mem) : Outside d va len s s :=
  ⟨rfl, rfl, fun _ _ _ => rfl⟩

theorem addr_copyLen {len i : Nat} (hva : va < 2 ^ 32) (hi : i < copyLen va len) :
    addr va i = va + i ∧ addr va i / PGSIZE = va / PGSIZE := by
  simp only [copyLen, PGROUNDDOWN, addr, PGSIZE] at hi ⊢
  omega

theorem addr_next {len : Nat} (hlen : copyLen va len < len) (i : Nat) :
    addr ((PGROUNDDOWN va + PGSIZE) % 2 ^ 32) i = addr va (copyLen va len + i) := by
  simp only [copyLen, PGROUNDDOWN, addr, PGSIZE] at hlen ⊢
  omega

theorem user_congr {va va' : Nat} (h : va / PGSIZE = va' / PGSIZE) : d.user va = d.user va' := by
  rw [Pgdir.user, Pgdir.user, lookup_eq_entry, lookup_eq_entry, h]

theorem wp_uva2ka {Q : Option Page → Mem → Prop} (ht : (d.pde (PDX va)).isSome)
    (h : Q (d.user va) s) : wp (uva2ka null d va) s Q E := by
  obtain ⟨t, ht⟩ := Option.isSome_iff_exists.mp ht
  unfold uva2ka
  unfold Pgdir.user at h
  rw [lookup_of_pde ht] at h
  simp only [ht]
  cases hpte : t.pte (PTX va) with
  | none => simpa [hpte] using h
  | some e => simpa [hpte] using h

theorem wp_memmove (p : Page) (off n : Nat) {Q : Unit → Mem → Prop} :
    wp (Mem.memmove p off buf n) s Q E ↔
      Q () (s.setData p ((s.data p).write off (fun i => buf.getD i 0) n)) := Iff.rfl

/-! ### A round -/

/-- The memory after a round that copies to page `p`. -/
def Mem.afterRound (s : Mem) (p : Page) (va : Nat) (buf : List UInt8) : Mem :=
  s.setData p ((s.data p).write (va - PGROUNDDOWN va) (fun i => buf.getD i 0)
    (copyLen va buf.length))

theorem sub_rounddown (va : Nat) : va - PGROUNDDOWN va = va % PGSIZE := by
  simp only [PGROUNDDOWN, PGSIZE]
  omega

section Round

variable {p : Page} (hva : va < 2 ^ 32) (hp : d.user va = some p)
include hva hp

theorem hits_copyLen {i len : Nat} (hi : i < copyLen va len) : Hits d va i p (va % PGSIZE + i) := by
  obtain ⟨haddr, hdiv⟩ := addr_copyLen hva hi
  refine ⟨by rw [user_congr hdiv, hp], ?_⟩
  rw [haddr]
  simp only [copyLen, PGROUNDDOWN, PGSIZE] at hi ⊢
  omega

theorem outside_round : Outside d va (copyLen va buf.length) s (s.afterRound p va buf) := by
  refine ⟨rfl, rfl, ?_⟩
  intro q off hout
  unfold Mem.afterRound
  by_cases hq : q = p
  · subst hq
    rw [Mem.setData_self, sub_rounddown]
    apply Bytes.get_write_out
    by_contra hc
    refine hout (off - va % PGSIZE) (by omega) ?_
    have h := @hits_copyLen d va q hva hp (off - va % PGSIZE) buf.length (by omega)
    rwa [Nat.add_sub_of_le (by omega)] at h
  · rw [s.setData_of_ne hq]

end Round

theorem stored_round {p : Page} {i : Nat} (hi : i < copyLen va buf.length) :
    ((s.afterRound p va buf).data p).get (va % PGSIZE + i) = buf.getD i 0 := by
  have hin : va % PGSIZE + i < PGSIZE := by
    simp only [copyLen, PGROUNDDOWN, PGSIZE] at hi ⊢
    omega
  rw [Mem.afterRound, Mem.setData_self, sub_rounddown,
    Bytes.get_write_in _ _ (Nat.le_add_right _ _) (by omega) hin, Nat.add_sub_cancel_left]

theorem Outside.next {va' n len : Nat} (h₁ : Outside d va n s s₁)
    (h₂ : Outside d va' (len - n) s₁ s') (hn : n ≤ len)
    (haddr : ∀ i < len - n, addr va' i = addr va (n + i)) : Outside d va len s s' := by
  refine ⟨h₂.kend.trans h₁.kend, h₂.free.trans h₁.free, ?_⟩
  intro p off hout
  rw [h₂.data p off, h₁.data p off (fun i hi => hout i (by omega))]
  intro i hi hhit
  refine hout (n + i) (by omega) ?_
  simpa only [Hits, haddr i hi] using hhit

theorem stored_next {va' n : Nat}
    (h₁ : ∀ i < n, ∀ p off, Hits d va i p off → (s₁.data p).get off = buf.getD i 0)
    (ho : Outside d va' (buf.length - n) s₁ s') (h₂ : Stored d va' (buf.drop n) s')
    (haddr : ∀ i < buf.length - n, addr va' i = addr va (n + i)) : Stored d va buf s' := by
  have hhits : ∀ i < buf.length - n, ∀ p off, Hits d va' i p off ↔ Hits d va (n + i) p off := by
    intro i hi p off
    simp only [Hits, haddr i hi]
  intro i hi p off hhit hlast
  by_cases hin : i < n
  · rw [ho.data p off, h₁ i hin p off hhit]
    intro j hj hc
    exact hlast (n + j) (by omega) (by omega) ((hhits j hj p off).mp hc)
  · have hi' : i - n < buf.length - n := by omega
    have hsplit : n + (i - n) = i := by omega
    have h := h₂ (i - n) (by rwa [List.length_drop]) p off
      ((hhits _ hi' p off).mpr (by rwa [hsplit])) ?_
    · rw [h, List.getD_eq_getElem?_getD, List.getElem?_drop, hsplit, List.getD_eq_getElem?_getD]
    · intro j hj hjl hc
      rw [List.length_drop] at hjl
      exact hlast (n + j) (by omega) (by omega) ((hhits j hjl p off).mp hc)

/-! ### The whole range -/

theorem wp_copyout (hnil : buf ≠ []) {Q : Int → Mem → Prop} :
    wp (copyout null d va buf) s Q E ↔ wp (uva2ka null d (PGROUNDDOWN va)) s (fun r s' =>
      match r with
      | none => Q (-1) s'
      | some p => wp (copyout null d ((PGROUNDDOWN va + PGSIZE) % 2 ^ 32)
          (buf.drop (copyLen va buf.length))) (s'.afterRound p va buf) Q E) E := by
  rw [copyout, dif_neg hnil, wp_bind]
  have hround : (fun (r : Option Page) (s' : Mem) => wp (match r with
      | none => pure (-1)
      | some pa0 => do
          Mem.memmove pa0 (va - PGROUNDDOWN va) buf (copyLen va buf.length)
          copyout null d ((PGROUNDDOWN va + PGSIZE) % 2 ^ 32) (buf.drop (copyLen va buf.length)))
        s' Q E) = (fun r s' =>
      match r with
      | none => Q (-1) s'
      | some p => wp (copyout null d ((PGROUNDDOWN va + PGSIZE) % 2 ^ 32)
          (buf.drop (copyLen va buf.length))) (s'.afterRound p va buf) Q E) := by
    funext r s'
    cases r with
    | none => rfl
    | some p => simp only [wp_bind, wp_memmove, Mem.afterRound]
  exact iff_of_eq (congrArg (fun Q => wp (uva2ka null d (PGROUNDDOWN va)) s Q E) hround)

theorem user_rounddown : d.user (PGROUNDDOWN va) = d.user va :=
  user_congr (by simp only [PGROUNDDOWN, PGSIZE]; omega)

theorem PDX_rounddown : PDX (PGROUNDDOWN va) = PDX va :=
  PDX_eq (by simp only [PGROUNDDOWN, PGSIZE]; omega)

/-- Every page of the range is mapped for the user. -/
def AllUser (d : Pgdir) (va len : Nat) : Prop := ∀ i < len, (d.user (addr va i)).isSome

/-- Up to the first page that is not mapped for the user, and there too, page tables exist. -/
def TablesExist (d : Pgdir) (va len : Nat) : Prop :=
  ∀ i < len, (∀ j < i, (d.user (addr va j)).isSome) → (d.pde (PDX (addr va i))).isSome

theorem addr_zero (hva : va < 2 ^ 32) : addr va 0 = va := by
  simp only [addr]
  omega

theorem copyout_spec (hva : va < 2 ^ 32) (ht : TablesExist d va buf.length) :
    wp (copyout null d va buf) s (fun r s' => Outside d va buf.length s s' ∧
      (r = 0 ∧ AllUser d va buf.length ∧ Stored d va buf s' ∨
        r = -1 ∧ ∃ i < buf.length, d.user (addr va i) = none)) E := by
  obtain ⟨len, hlen⟩ : ∃ len, buf.length = len := ⟨_, rfl⟩
  induction len using Nat.strong_induction_on generalizing va buf s with
  | _ len ih =>
    by_cases hnil : buf = []
    · subst hnil
      rw [copyout, dif_pos rfl]
      refine ⟨Outside.refl _ _ _ _, Or.inl ⟨rfl, fun i hi => ?_, fun i hi => ?_⟩⟩
      · cases hi
      · cases hi
    · have hpos : 0 < buf.length := List.length_pos_iff.mpr hnil
      have hchunk := @copyLen_pos va buf.length hpos
      have hle : copyLen va buf.length ≤ buf.length := Nat.min_le_right _ _
      have htab : (d.pde (PDX (PGROUNDDOWN va))).isSome := by
        have h := ht 0 hpos (fun j hj => by omega)
        rwa [addr_zero hva, ← PDX_rounddown] at h
      rw [wp_copyout hnil]
      refine wp_uva2ka htab ?_
      rw [user_rounddown]
      cases hp : d.user va with
      | none =>
        refine ⟨⟨rfl, rfl, fun _ _ _ => rfl⟩, Or.inr ⟨rfl, 0, hpos, ?_⟩⟩
        rw [addr_zero hva, hp]
      | some p =>
        have haddr : ∀ i < buf.length - copyLen va buf.length,
            addr ((PGROUNDDOWN va + PGSIZE) % 2 ^ 32) i = addr va (copyLen va buf.length + i) :=
          fun i hi => addr_next (by omega) i
        have huser : ∀ i < copyLen va buf.length, d.user (addr va i) = some p :=
          fun i hi => (hits_copyLen hva hp hi).1
        refine wp_mono (ih (buf.length - copyLen va buf.length) (by omega)
          (Nat.mod_lt _ (by decide)) ?_ (List.length_drop)) ?_
        · rw [List.length_drop]
          intro i hi hbefore
          rw [haddr i hi]
          refine ht _ (by omega) ?_
          intro j hj
          by_cases hjc : j < copyLen va buf.length
          · rw [huser j hjc]
            rfl
          · have h := hbefore (j - copyLen va buf.length) (by omega)
            rwa [haddr _ (by omega), Nat.add_sub_of_le (by omega)] at h
        · rw [List.length_drop]
          rintro r s' ⟨hout, hres⟩
          refine ⟨(outside_round hva hp).next hout hle haddr, ?_⟩
          rcases hres with ⟨hr, hall, hst⟩ | ⟨hr, i, hi, hnone⟩
          · refine Or.inl ⟨hr, ?_, stored_next ?_ hout hst haddr⟩
            · intro i hi
              by_cases hic : i < copyLen va buf.length
              · rw [huser i hic]
                rfl
              · have h := hall (i - copyLen va buf.length) (by omega)
                rwa [haddr _ (by omega), Nat.add_sub_of_le (by omega)] at h
            · intro i hi q off hhit
              have hself := hits_copyLen hva hp hi
              obtain rfl : p = q := Option.some.inj (hself.1.symm.trans hhit.1)
              obtain rfl : va % PGSIZE + i = off := hself.2.symm.trans hhit.2
              exact stored_round hi
          · refine Or.inr ⟨hr, copyLen va buf.length + i, by omega, ?_⟩
            rw [← haddr i hi, hnone]

/-- If address zero is not mapped, reading from it is a fault. -/
theorem copyout_traps (hva : va < 2 ^ 32) (ht : ¬ TablesExist d va buf.length) :
    wp (copyout (fun _ => none) d va buf) s (fun _ _ => False) (fun e => e = .panic "trap") := by
  obtain ⟨len, hlen⟩ : ∃ len, buf.length = len := ⟨_, rfl⟩
  induction len using Nat.strong_induction_on generalizing va buf s with
  | _ len ih =>
    simp only [TablesExist, not_forall] at ht
    obtain ⟨i, hi, hbefore, hnone⟩ := ht
    have hnone' := Option.not_isSome_iff_eq_none.mp hnone
    have hpos : 0 < buf.length := by omega
    have hnil : buf ≠ [] := List.length_pos_iff.mp hpos
    have hchunk := @copyLen_pos va buf.length hpos
    rw [wp_copyout hnil]
    by_cases hic : i < copyLen va buf.length
    · -- the missing table is that of the first page
      have hpage : PDX (PGROUNDDOWN va) = PDX (addr va i) := by
        obtain ⟨-, hdiv⟩ := addr_copyLen hva hic
        rw [PDX_rounddown]
        apply PDX_eq
        simp only [PGSIZE] at hdiv
        omega
      unfold uva2ka
      simp only [hpage, hnone']
      rfl
    · have huser := hbefore 0 (by omega)
      rw [addr_zero hva] at huser
      obtain ⟨p, hp⟩ := Option.isSome_iff_exists.mp huser
      have htab : (d.pde (PDX (PGROUNDDOWN va))).isSome := by
        rw [PDX_rounddown]
        rw [Pgdir.user, Option.bind_eq_some_iff] at hp
        obtain ⟨e, he, -⟩ := hp
        rw [Pgdir.lookup, Option.bind_eq_some_iff] at he
        obtain ⟨t, ht, -⟩ := he
        rw [ht]
        rfl
      have haddr : ∀ i < buf.length - copyLen va buf.length,
          addr ((PGROUNDDOWN va + PGSIZE) % 2 ^ 32) i = addr va (copyLen va buf.length + i) :=
        fun i hi => addr_next (by omega) i
      refine wp_uva2ka htab ?_
      rw [user_rounddown, hp]
      refine ih (buf.length - copyLen va buf.length) (by omega) (Nat.mod_lt _ (by decide)) ?_
        List.length_drop
      rw [List.length_drop]
      intro hall
      have hsplit : copyLen va buf.length + (i - copyLen va buf.length) = i := by omega
      have h := hall (i - copyLen va buf.length) (by omega) (fun j hj => by
        rw [haddr j (by omega)]
        exact hbefore _ (by omega))
      rw [haddr _ (by omega), hsplit] at h
      exact hnone h

/-- Whatever is at address zero, `copyout` succeeds exactly if the range is mapped for the user, has
then copied the bytes, and has changed nothing outside of the range in any case. -/
def Confined (d : Pgdir) (va : Nat) (buf : List UInt8) (s : Mem) : Prop :=
  ∀ null, ∃ r s', copyout null d va buf s = .ok (r, s') ∧ (r = 0 ↔ AllUser d va buf.length) ∧
    (r = 0 ∨ r = -1) ∧ (r = 0 → Stored d va buf s') ∧ Outside d va buf.length s s'

theorem copyout_confined_iff (d : Pgdir) (buf : List UInt8) (s : Mem) (hva : va < 2 ^ 32) :
    Confined d va buf s ↔ TablesExist d va buf.length := by
  constructor
  · intro h
    by_contra ht
    obtain ⟨r, s', hrun, -⟩ := h (fun _ => none)
    exact wp_ok (copyout_traps hva ht) hrun
  · intro ht null
    have hspec := @copyout_spec null d va buf s (fun _ => False) hva ht
    obtain ⟨r, s', hrun, hout, hres⟩ := wp_returns hspec (fun _ h => h)
    refine ⟨r, s', hrun, ?_, ?_, ?_, hout⟩
    · rcases hres with ⟨rfl, hall, -⟩ | ⟨rfl, i, hi, hnone⟩
      · exact iff_of_true rfl hall
      · refine iff_of_false (by decide) (fun hall => ?_)
        have h := hall i hi
        rw [hnone] at h
        cases h
    · rcases hres with ⟨rfl, -⟩ | ⟨rfl, -⟩
      · exact Or.inl rfl
      · exact Or.inr rfl
    · rintro rfl
      rcases hres with ⟨-, -, hst⟩ | ⟨hr, -⟩
      · exact hst
      · cases hr

/-- The process has no page table for addresses from 4 MB on. -/
theorem onePage_unconfined : ¬ Confined onePage 0x400000 [1] onePageMem := by
  intro h
  obtain ⟨r, s', hrun, -⟩ := h (fun _ => none)
  refine wp_ok (copyout_traps (by decide) ?_) hrun
  intro ht
  have htab := ht 0 (by decide) (fun j hj => by omega)
  have hother : PDX (addr 0x400000 0) ≠ PDX 0 := by decide
  simp [onePage, Pgdir.setPte, Pgdir.setPde, hother] at htab

theorem onePage_confined : Confined onePage 4 [1, 2] onePageMem := by
  refine (copyout_confined_iff onePage [1, 2] onePageMem (by decide)).mpr ?_
  intro i hi _
  have hfirst : PDX (addr 4 i) = PDX 0 := by
    apply PDX_eq
    simp only [addr, List.length_cons, List.length_nil] at hi ⊢
    omega
  rw [hfirst, onePage, pde_setPte (setPde_self _ _ _), setPde_self]
  rfl

end Xv6.Vm
