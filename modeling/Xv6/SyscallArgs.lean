import Mathlib.Logic.Function.Basic
import Xv6.Exec

/-!
# Arguments of system calls

`fetchint`, `fetchstr`, `argint`, `argptr` and `argstr` of `syscall.c`, and the loop of `sys_exec` over
the arguments. Addresses are 32-bit words, sums wrap and comparisons are unsigned, except for the size
that `argptr` takes. What the kernel then reads or writes lies below the size of the process.
-/

namespace Xv6.Args

open Function

abbrev Addr := BitVec 32

/-- The part of a process that the functions look at. -/
structure Process where
  sz : Addr
  esp : Addr
  mem : Addr → BitVec 8

variable (u : Process)

/-- `*(int*)addr` -/
def Process.word (addr : Addr) : Addr :=
  u.mem (addr + 3) ++ u.mem (addr + 2) ++ u.mem (addr + 1) ++ u.mem addr

def fetchint (addr : Addr) : Option Addr :=
  if addr ≥ u.sz ∨ addr + 4 > u.sz then none else some (u.word addr)

/-- The loop of `fetchstr`, with the pointer to the NUL that it finds. -/
def findNul : Nat → Addr → Option Addr
  | 0, _ => none
  | fuel + 1, s =>
    if s < u.sz then if u.mem s = 0 then some s else findNul fuel (s + 1) else none

/-- The pointer to the string and its length. -/
def fetchstr (addr : Addr) : Option (Addr × Nat) :=
  if addr ≥ u.sz then none
  else (findNul u u.sz.toNat addr).map (fun s => (addr, (s - addr).toNat))

/-- The address of the `n`th argument. -/
def argAddr (n : BitVec 32) : Addr := u.esp + 4 + 4 * n

def argint (n : BitVec 32) : Option Addr := fetchint u (argAddr u n)

def argptr (n size : BitVec 32) : Option Addr := do
  let i ← argint u n
  if size.toInt < 0 ∨ i ≥ u.sz ∨ i + size > u.sz then none else some i

def argstr (n : BitVec 32) : Option (Addr × Nat) := do
  let addr ← argint u n
  fetchstr u addr

/-- The loop of `sys_exec` from argument `i` on; `rounds` is `NELEM(argv) - i`. -/
def execArgs (uargv : Addr) : Nat → Nat → (Nat → Addr) → Option (Nat → Addr)
  | 0, _, _ => none
  | rounds + 1, i, argv => do
    let uarg ← fetchint u (uargv + 4 * BitVec.ofNat 32 i)
    if uarg = 0 then some (update argv i 0)
    else do
      let s ← fetchstr u uarg
      execArgs uargv rounds (i + 1) (update argv i s.1)

/-- What `sys_exec` passes to `exec`. -/
def sysExec : Option (Addr × (Nat → Addr)) := do
  let path ← argstr u 0
  let uargv ← argint u 1
  let argv ← execArgs u uargv Exec.MAXARG 0 (fun _ => 0)
  some (path.1, argv)

/-- The `n` bytes at `a` belong to the process. -/
def Process.Inside (a : Addr) (n : Nat) : Prop := a.toNat + n ≤ u.sz.toNat

/-- There is a string of length `len` at `a`, all of which belongs to the process. -/
structure Process.StringAt (a : Addr) (len : Nat) : Prop where
  inside : u.Inside a (len + 1)
  nul : u.mem (a + BitVec.ofNat 32 len) = 0
  bytes : ∀ i < len, u.mem (a + BitVec.ofNat 32 i) ≠ 0

variable {u} {addr i s q : Addr} {n size : BitVec 32} {len : Nat}

theorem fetchint_eq_some (hsz : u.sz.toNat < KERNBASE) :
    fetchint u addr = some i ↔ u.Inside addr 4 ∧ u.word addr = i := by
  rw [fetchint]
  have hcheck : (addr ≥ u.sz ∨ addr + 4 > u.sz) ↔ ¬ u.Inside addr 4 := by
    simp only [KERNBASE] at hsz
    rw [Process.Inside]
    constructor
    · rintro (h | h) <;> bv_omega
    · intro h
      by_cases hlt : addr ≥ u.sz
      · exact .inl hlt
      · refine .inr ?_
        bv_omega
  split
  · next h => simp [hcheck.mp h]
  · next h =>
    simp only [Option.some.injEq, iff_and_self]
    exact fun _ => not_not.mp (fun hc => h (hcheck.mpr hc))

theorem add_one_ofNat (a : Addr) (k : Nat) : a + 1 + BitVec.ofNat 32 k = a + BitVec.ofNat 32 (k + 1) := by
  rw [BitVec.ofNat_add, BitVec.add_assoc, BitVec.add_comm (BitVec.ofNat 32 k)]
  rfl

theorem Process.StringAt.cons (hlt : addr < u.sz) (hmem : u.mem addr ≠ 0)
    (h : u.StringAt (addr + 1) len) : u.StringAt addr (len + 1) := by
  obtain ⟨hinside, hnul, hbytes⟩ := h
  refine ⟨?_, ?_, ?_⟩
  · rw [Process.Inside] at hinside ⊢
    bv_omega
  · rw [← add_one_ofNat]
    exact hnul
  · intro k hk
    cases k with
    | zero => simpa using hmem
    | succ k =>
      rw [← add_one_ofNat]
      exact hbytes k (Nat.lt_of_succ_lt_succ hk)

theorem stringAt_of_findNul {fuel : Nat} (h : findNul u fuel addr = some q) :
    ∃ len, q = addr + BitVec.ofNat 32 len ∧ u.StringAt addr len := by
  induction fuel generalizing addr with
  | zero => cases h
  | succ fuel ih =>
    rw [findNul] at h
    split at h
    · next hlt =>
      split at h
      · next hnul =>
        cases h
        refine ⟨0, by simp, ?_, by simpa using hnul, fun k hk => absurd hk (Nat.not_lt_zero k)⟩
        rw [Process.Inside]
        bv_omega
      · next hmem =>
        obtain ⟨len, hq, hstr⟩ := ih h
        exact ⟨len + 1, hq.trans (add_one_ofNat addr len), hstr.cons hlt hmem⟩
    · cases h

theorem fetchstr_spec (h : fetchstr u addr = some (s, len)) : s = addr ∧ u.StringAt addr len := by
  rw [fetchstr] at h
  split at h
  · cases h
  · obtain ⟨q, hq, he⟩ := Option.map_eq_some_iff.mp h
    obtain ⟨len', rfl, hstr⟩ := stringAt_of_findNul hq
    cases he
    have hlen : (addr + BitVec.ofNat 32 len' - addr).toNat = len' := by
      have hinside := hstr.inside
      rw [Process.Inside] at hinside
      have := u.sz.isLt
      rw [BitVec.add_comm, BitVec.add_sub_cancel, BitVec.toNat_ofNat, Nat.mod_eq_of_lt (by omega)]
    rw [hlen]
    exact ⟨rfl, hstr⟩

theorem argptr_spec (hsz : u.sz.toNat < KERNBASE) (h : argptr u n size = some i) :
    argint u n = some i ∧ 0 ≤ size.toInt ∧ u.Inside i size.toNat := by
  obtain ⟨i', hi, h⟩ := Option.bind_eq_some_iff.mp h
  split at h
  · cases h
  · next hcheck =>
    cases h
    rw [not_or, not_or] at hcheck
    obtain ⟨hsize, hlt, hend⟩ := hcheck
    have hnonneg := Int.not_lt.mp hsize
    refine ⟨hi, hnonneg, ?_⟩
    have hsmall : size.toNat < 2 ^ 31 := by
      have := BitVec.toInt_eq_toNat_cond size
      have := size.isLt
      omega
    simp only [KERNBASE] at hsz
    rw [Process.Inside]
    bv_omega

/-- The arguments that have been found are strings, and the others are null. -/
structure Argv (u : Process) (argv : Nat → Addr) (i : Nat) : Prop where
  strings : ∀ k < i, argv k ≠ 0 ∧ ∃ len, u.StringAt (argv k) len
  null : ∀ k, i ≤ k → argv k = 0

theorem Argv.update {argv : Nat → Addr} {k : Nat} (h : Argv u argv k) (hne : addr ≠ 0)
    (hstr : u.StringAt addr len) : Argv u (update argv k addr) (k + 1) := by
  refine ⟨?_, ?_⟩
  · intro j hj
    rcases Nat.lt_succ_iff_lt_or_eq.mp hj with hj | rfl
    · rw [update_of_ne (Nat.ne_of_lt hj)]
      exact h.strings j hj
    · rw [update_self]
      exact ⟨hne, len, hstr⟩
  · intro j hj
    rw [update_of_ne (by omega)]
    exact h.null j (by omega)

theorem execArgs_spec {uargv : Addr} {rounds k : Nat} {argv argv' : Nat → Addr} (hargv : Argv u argv k)
    (h : execArgs u uargv rounds k argv = some argv') :
    ∃ j, j < k + rounds ∧ Argv u argv' j := by
  induction rounds generalizing k argv with
  | zero => cases h
  | succ rounds ih =>
    obtain ⟨uarg, -, h⟩ := Option.bind_eq_some_iff.mp h
    split at h
    · cases h
      refine ⟨k, by omega, ?_⟩
      rwa [show Function.update argv k 0 = argv by
        rw [← hargv.null k (Nat.le_refl k), update_eq_self]]
    · next hne =>
      obtain ⟨⟨s, len⟩, hs, hrest⟩ := Option.bind_eq_some_iff.mp h
      obtain ⟨rfl, hstr⟩ := fetchstr_spec hs
      obtain ⟨j, hj, hargv'⟩ := ih (hargv.update hne hstr) hrest
      exact ⟨j, by omega, hargv'⟩

/-- Whatever the arguments of a system call are, the kernel is given only addresses inside the
process. -/
theorem args_inside (u : Process) (hsz : u.sz.toNat < KERNBASE) :
    (∀ addr i, fetchint u addr = some i → u.Inside addr 4 ∧ u.word addr = i) ∧
    (∀ addr s len, fetchstr u addr = some (s, len) → s = addr ∧ u.StringAt s len) ∧
    (∀ n i, argint u n = some i → u.Inside (argAddr u n) 4 ∧ u.word (argAddr u n) = i) ∧
    (∀ n size i, argptr u n size = some i →
      u.word (argAddr u n) = i ∧ 0 ≤ size.toInt ∧ u.Inside i size.toNat) ∧
    (∀ n s len, argstr u n = some (s, len) → u.word (argAddr u n) = s ∧ u.StringAt s len) ∧
    ∀ path argv, sysExec u = some (path, argv) →
      (∃ len, u.StringAt path len) ∧ ∃ k ≤ Exec.MAXARG - 1, Argv u argv k := by
  have hint : ∀ n i, argint u n = some i → u.Inside (argAddr u n) 4 ∧ u.word (argAddr u n) = i :=
    fun n i h => (fetchint_eq_some hsz).mp h
  have hstr : ∀ n s len, argstr u n = some (s, len) →
      u.word (argAddr u n) = s ∧ u.StringAt s len := by
    intro n s len h
    obtain ⟨addr, haddr, h⟩ := Option.bind_eq_some_iff.mp h
    obtain ⟨rfl, hs⟩ := fetchstr_spec h
    exact ⟨(hint n s haddr).2, hs⟩
  refine ⟨fun addr i h => (fetchint_eq_some hsz).mp h, ?_, hint, ?_, hstr, ?_⟩
  · intro addr s len h
    obtain ⟨rfl, hs⟩ := fetchstr_spec h
    exact ⟨rfl, hs⟩
  · intro n size i h
    obtain ⟨hi, hsize, hinside⟩ := argptr_spec hsz h
    exact ⟨(hint n i hi).2, hsize, hinside⟩
  · intro path argv h
    obtain ⟨⟨s, len⟩, hpath, h⟩ := Option.bind_eq_some_iff.mp h
    obtain ⟨uargv, -, h⟩ := Option.bind_eq_some_iff.mp h
    obtain ⟨argv', hargv, h⟩ := Option.bind_eq_some_iff.mp h
    cases h
    have hnone : Argv u (fun _ => 0) 0 :=
      ⟨fun k hk => absurd hk (Nat.not_lt_zero k), fun k _ => rfl⟩
    obtain ⟨k, hk, hargs⟩ := execArgs_spec hnone hargv
    exact ⟨⟨len, (hstr 0 s len hpath).2⟩, k, by omega, hargs⟩

/-- A process of 64 bytes that calls `exec` with the path `a` at address 32, which is also its only
argument. -/
def oneArgument : Process where
  sz := 64
  esp := 0
  mem a := if a = 4 ∨ a = 40 then 32 else if a = 8 then 40 else if a = 32 then 97 else 0

theorem oneArgument_inside : (sysExec oneArgument).isSome = true ∧
    argstr oneArgument 0 = some (32, 1) ∧ oneArgument.StringAt 32 1 := by
  have hpath : argstr oneArgument 0 = some (32, 1) := by decide
  exact ⟨by decide, hpath, ((args_inside oneArgument (by decide)).2.2.2.2.1 0 32 1 hpath).2⟩

end Xv6.Args
