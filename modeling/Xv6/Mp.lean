import Mathlib.Logic.Function.Basic
import Xv6.Param

/-!
# The multiprocessor table

`mp.c`: the search for the configuration table of the firmware and the scan of its entries. `mem` is the
memory at the virtual addresses. The scan is given with the number of rounds that it may take. An entry
of unknown type leaves the scan where it is, because the `break` there ends the `switch` only.
-/

namespace Xv6.Mp

open Function

abbrev NCPU : Nat := 8

/-- `sizeof(struct mp)` -/
abbrev mpSize : Nat := 16

/-- `sizeof(struct mpconf)` -/
abbrev mpconfSize : Nat := 44

def P2V (a : Nat) : Nat := (a + KERNBASE) % 2 ^ 32

section Search

variable (mem : Nat → UInt8)

/-- The sum of the bytes as a `uchar`. -/
def sum (addr : Nat) : Nat → UInt8
  | 0 => 0
  | len + 1 => sum addr len + mem (addr + len)

/-- `memcmp` with four characters finds no difference. -/
def signed (p : Nat) (s : List Char) : Bool :=
  (s.zipIdx).all (fun c => mem (p + c.2) = UInt8.ofNat c.1.toNat)

/-- The loop of `mpsearch1`, for `n` places. -/
def mpsearch1Loop (p : Nat) : Nat → Option Nat
  | 0 => none
  | n + 1 =>
    if signed mem p ['_', 'M', 'P', '_'] ∧ sum mem p mpSize = 0 then some p
    else mpsearch1Loop (p + mpSize) n

def mpsearch1 (a len : Nat) : Option Nat := mpsearch1Loop mem (P2V a) (len / mpSize)

def mpsearch : Option Nat :=
  let bda := P2V 0x400
  let p := leWord mem (bda + 0x0E) 2 * 16
  let found :=
    if p ≠ 0 then mpsearch1 mem p 1024
    else mpsearch1 mem ((leWord mem (bda + 0x13) 2 * 1024 + 2 ^ 32 - 1024) % 2 ^ 32) 1024
  found.or (mpsearch1 mem 0xF0000 0x10000)

def physaddr (mp : Nat) : Nat := leWord mem (mp + 4) 4

def confLength (conf : Nat) : Nat := leWord mem (conf + 4) 2

def confVersion (conf : Nat) : UInt8 := mem (conf + 6)

/-- The floating pointer and the configuration table. -/
def mpconfig : Option (Nat × Nat) := do
  let mp ← mpsearch mem
  if physaddr mem mp = 0 then none
  else
    let conf := P2V (physaddr mem mp)
    if ¬ signed mem conf ['P', 'C', 'M', 'P'] then none
    else if confVersion mem conf ≠ 1 ∧ confVersion mem conf ≠ 4 then none
    else if sum mem conf (confLength mem conf) ≠ 0 then none
    else some (mp, conf)

end Search

abbrev MPPROC : UInt8 := 0x00
abbrev MPBUS : UInt8 := 0x01
abbrev MPIOAPIC : UInt8 := 0x02
abbrev MPIOINTR : UInt8 := 0x03
abbrev MPLINTR : UInt8 := 0x04

/-- The variables of the scan, with the globals that it sets; `apicid i` is `cpus[i].apicid`. -/
structure Scan where
  p : Nat
  ismp : Bool
  ncpu : Nat
  apicid : Nat → UInt8
  ioapicid : UInt8

/-- One round of the loop of `mpinit`. -/
def Scan.step (mem : Nat → UInt8) (s : Scan) : Scan :=
  if mem s.p = MPPROC then
    if s.ncpu < NCPU then
      { s with
        p := s.p + 20, ncpu := s.ncpu + 1, apicid := update s.apicid s.ncpu (mem (s.p + 1)) }
    else { s with p := s.p + 20 }
  else if mem s.p = MPIOAPIC then { s with p := s.p + 8, ioapicid := mem (s.p + 1) }
  else if mem s.p = MPBUS ∨ mem s.p = MPIOINTR ∨ mem s.p = MPLINTR then { s with p := s.p + 8 }
  else { s with ismp := false }

/-- The loop, in at most `fuel` tests. -/
def scan (mem : Nat → UInt8) (e : Nat) : Nat → Scan → Option Scan
  | 0, _ => none
  | fuel + 1, s => if s.p < e then scan mem e fuel (s.step mem) else some s

/-- `mpinit`, or `none` if the loop has not ended after `fuel` tests. -/
def mpinit (mem : Nat → UInt8) (fuel : Nat) : Option (Except String Scan) :=
  match mpconfig mem with
  | none => some (.error "Expect to run on an SMP")
  | some (_, conf) =>
    (scan mem (conf + confLength mem conf) fuel
      ⟨conf + mpconfSize, true, 0, fun _ => 0, 0⟩).map (fun s =>
        if s.ismp then .ok s else .error "Didn't find a suitable machine")

/-! ### The entries of a table -/

/-- The size of an entry, by its type. -/
def entrySize (type : UInt8) : Option Nat :=
  if type = MPPROC then some 20
  else if type = MPIOAPIC then some 8
  else if type = MPBUS ∨ type = MPIOINTR ∨ type = MPLINTR then some 8
  else none

/-- The entries from `p` to `e`, each with its type and its second byte. -/
inductive Entries (mem : Nat → UInt8) (e : Nat) : Nat → List (UInt8 × UInt8) → Prop
  | done {p : Nat} (h : e ≤ p) : Entries mem e p []
  | entry {p k : Nat} {es : List (UInt8 × UInt8)} (h : p < e) (hk : entrySize (mem p) = some k)
      (t : Entries mem e (p + k) es) : Entries mem e p ((mem p, mem (p + 1)) :: es)

/-- An entry of unknown type comes before `e`. -/
inductive Unknown (mem : Nat → UInt8) (e : Nat) : Nat → Prop
  | here {p : Nat} (h : p < e) (hk : entrySize (mem p) = none) : Unknown mem e p
  | later {p k : Nat} (h : p < e) (hk : entrySize (mem p) = some k) (t : Unknown mem e (p + k)) :
      Unknown mem e p

/-- The APIC ids of the processors, in the order of the table. -/
def processors (es : List (UInt8 × UInt8)) : List UInt8 :=
  (es.filter (fun x => x.1 = MPPROC)).map Prod.snd

variable {mem : Nat → UInt8} {e p k : Nat} {es : List (UInt8 × UInt8)} {s r : Scan}

theorem entrySize_pos {type : UInt8} (h : entrySize type = some k) : 0 < k := by
  rw [entrySize] at h
  split_ifs at h <;> cases h <;> decide

theorem Entries.not_unknown (h : Entries mem e p es) : ¬ Unknown mem e p := by
  induction h with
  | done h =>
    rintro (⟨hlt, -⟩ | ⟨hlt, -, -⟩) <;> omega
  | entry h hk _ ih =>
    rintro (⟨-, hnone⟩ | ⟨-, hk', t⟩)
    · rw [hk] at hnone
      cases hnone
    · rw [hk] at hk'
      cases hk'
      exact ih t

theorem exists_entries (h : ¬ Unknown mem e p) : ∃ es, Entries mem e p es := by
  induction hn : e - p using Nat.strongRecOn generalizing p with
  | ind n ih =>
    by_cases hlt : p < e
    · cases hk : entrySize (mem p) with
      | none => exact absurd (.here hlt hk) h
      | some k =>
        have hpos := entrySize_pos hk
        obtain ⟨es, hes⟩ := ih (e - (p + k)) (by omega) (fun t => h (.later hlt hk t)) rfl
        exact ⟨_, .entry hlt hk hes⟩
    · exact ⟨[], .done (Nat.le_of_not_lt hlt)⟩

/-! ### The scan -/

theorem step_of_size (h : entrySize (mem s.p) = some k) :
    (s.step mem).p = s.p + k ∧ (s.step mem).ismp = s.ismp := by
  rw [entrySize] at h
  rw [Scan.step]
  split_ifs at h ⊢ <;> cases h <;> exact ⟨rfl, rfl⟩

theorem step_of_unknown (h : entrySize (mem s.p) = none) : (s.step mem).p = s.p := by
  rw [entrySize] at h
  rw [Scan.step]
  split_ifs at h ⊢
  rfl

/-- If the scan ends, it has met no unknown entry. -/
theorem entries_of_scan {fuel : Nat} (h : scan mem e fuel s = some r) : ∃ es, Entries mem e s.p es := by
  induction fuel generalizing s with
  | zero => cases h
  | succ fuel ih =>
    rw [scan] at h
    split at h
    · next hlt =>
      obtain ⟨es, hes⟩ := ih h
      cases hk : entrySize (mem s.p) with
      | none => exact ⟨es, step_of_unknown hk ▸ hes⟩
      | some k => exact ⟨_, .entry hlt hk ((step_of_size hk).1 ▸ hes)⟩
    · next hge => exact ⟨[], .done (Nat.le_of_not_lt hge)⟩

/-- `r` has the processors `ids` after those of `s`, as far as there is room for them. -/
structure Collects (s r : Scan) (ids : List UInt8) : Prop where
  ncpu : r.ncpu = min NCPU (s.ncpu + ids.length)
  kept : ∀ i < s.ncpu, r.apicid i = s.apicid i
  added : ∀ i, s.ncpu + i < r.ncpu → ids[i]? = some (r.apicid (s.ncpu + i))

theorem step_processor (h : mem s.p = MPPROC) :
    ((s.step mem).ncpu = if s.ncpu < NCPU then s.ncpu + 1 else s.ncpu) ∧
      ((s.step mem).apicid =
        if s.ncpu < NCPU then update s.apicid s.ncpu (mem (s.p + 1)) else s.apicid) := by
  rw [Scan.step, if_pos h]
  split_ifs <;> exact ⟨rfl, rfl⟩

theorem step_other (h : mem s.p ≠ MPPROC) :
    (s.step mem).ncpu = s.ncpu ∧ (s.step mem).apicid = s.apicid := by
  rw [Scan.step, if_neg h]
  split_ifs <;> exact ⟨rfl, rfl⟩

theorem Collects.processor {ids : List UInt8} (h : mem s.p = MPPROC) (hs : s.ncpu ≤ NCPU)
    (hr : Collects (s.step mem) r ids) : Collects s r (mem (s.p + 1) :: ids) := by
  obtain ⟨hncpu, hapic⟩ := step_processor h
  obtain ⟨hlen, hkept, hadded⟩ := hr
  by_cases hlt : s.ncpu < NCPU
  · rw [if_pos hlt] at hncpu hapic
    rw [hncpu] at hlen hkept hadded
    rw [hapic] at hkept
    refine ⟨?_, ?_, ?_⟩
    · rw [hlen, List.length_cons]
      congr 1
      omega
    · intro i hi
      rw [hkept i (by omega), Function.update_of_ne (by omega)]
    · intro i hi
      cases i with
      | zero =>
        have hnew := hkept s.ncpu (Nat.lt_succ_self _)
        rw [Function.update_self] at hnew
        exact congrArg some hnew.symm
      | succ i =>
        rw [List.getElem?_cons_succ, hadded i (by omega)]
        congr 2
        omega
  · rw [if_neg hlt] at hncpu hapic
    rw [hncpu] at hlen hkept
    rw [hapic] at hkept
    have hfull : s.ncpu = NCPU := Nat.le_antisymm hs (Nat.le_of_not_lt hlt)
    have hr : r.ncpu = NCPU := by
      rw [hlen, hfull, Nat.min_eq_left (Nat.le_add_right _ _)]
    refine ⟨?_, hkept, ?_⟩
    · rw [hr, hfull, Nat.min_eq_left (Nat.le_add_right _ _)]
    · intro i hi
      omega

theorem Collects.other {ids : List UInt8} (h : mem s.p ≠ MPPROC)
    (hr : Collects (s.step mem) r ids) : Collects s r ids := by
  obtain ⟨hncpu, hapic⟩ := step_other h
  obtain ⟨hlen, hkept, hadded⟩ := hr
  rw [hncpu] at hlen hkept hadded
  rw [hapic] at hkept
  exact ⟨hlen, hkept, hadded⟩

theorem processors_cons (x : UInt8 × UInt8) (es : List (UInt8 × UInt8)) :
    processors (x :: es) = if x.1 = MPPROC then x.2 :: processors es else processors es := by
  rw [processors, List.filter_cons]
  by_cases h : x.1 = MPPROC
  · simp only [h, decide_true, if_true, List.map_cons]
    rfl
  · simp only [h, decide_false, if_false, Bool.false_eq_true]
    rfl

/-- The scan of a table with known entries ends and collects its processors. -/
theorem scan_entries (h : Entries mem e s.p es) (hs : s.ncpu ≤ NCPU) :
    ∃ r, scan mem e (es.length + 1) s = some r ∧ r.ismp = s.ismp ∧ Collects s r (processors es) := by
  obtain ⟨p, hp⟩ : ∃ p, s.p = p := ⟨_, rfl⟩
  rw [hp] at h
  induction h generalizing s with
  | done h =>
    refine ⟨s, ?_, rfl, ?_, fun _ _ => rfl, ?_⟩
    · rw [scan, if_neg (by omega)]
    · rw [processors, List.filter_nil, List.map_nil, List.length_nil, Nat.add_zero,
        Nat.min_eq_right hs]
    · intro i hi
      omega
  | @entry p k es h hk _ ih =>
    subst hp
    obtain ⟨hstep, hismp⟩ := step_of_size hk
    have hs' : (s.step mem).ncpu ≤ NCPU := by
      by_cases hproc : mem s.p = MPPROC
      · rw [(step_processor hproc).1]
        split <;> omega
      · rw [(step_other hproc).1]
        exact hs
    obtain ⟨r, hscan, hr, hcol⟩ := ih hs' hstep
    refine ⟨r, ?_, hr.trans hismp, ?_⟩
    · rw [List.length_cons, scan, if_pos h]
      exact hscan
    · rw [processors_cons]
      split
      · next hproc => exact hcol.processor hproc hs
      · next hproc => exact hcol.other hproc

/-- What `mpinit` does for a table of which the entries are between `p` and `e`: it panics because of
an unknown entry, or it has the first processors of the table, in their order. -/
def Outcome (mem : Nat → UInt8) (e p : Nat) : Except String Scan → Prop
  | .error _ => Unknown mem e p
  | .ok r => ∃ es, Entries mem e p es ∧ r.ncpu = min NCPU (processors es).length ∧
      ∀ i < r.ncpu, (processors es)[i]? = some (r.apicid i)

/-- The scan of an accepted table ends if, and only if, it meets no entry of unknown type. -/
theorem mpinit_ends_iff {mp conf : Nat} (h : mpconfig mem = some (mp, conf)) :
    (∃ fuel r, mpinit mem fuel = some r ∧
      Outcome mem (conf + confLength mem conf) (conf + mpconfSize) r) ↔
    ¬ Unknown mem (conf + confLength mem conf) (conf + mpconfSize) := by
  constructor
  · rintro ⟨fuel, r, hr, -⟩
    rw [mpinit, h] at hr
    obtain ⟨s, hs, -⟩ := Option.map_eq_some_iff.mp hr
    obtain ⟨es, hes⟩ := entries_of_scan hs
    exact hes.not_unknown
  · intro hknown
    obtain ⟨es, hes⟩ := exists_entries hknown
    obtain ⟨r, hscan, hismp, hcol⟩ :=
      scan_entries (s := ⟨conf + mpconfSize, true, 0, fun _ => 0, 0⟩) hes (Nat.zero_le _)
    refine ⟨es.length + 1, .ok r, ?_, es, hes, ?_, ?_⟩
    · rw [mpinit, h]
      simp only [hscan, Option.map_some, hismp, if_true]
    · rw [hcol.ncpu, Nat.zero_add]
    · intro i hi
      have := hcol.added i
      rw [Nat.zero_add] at this
      exact this hi

/-- A memory with the given configuration table at physical address 64, a floating pointer to it at 16,
and the address of the latter in the BIOS data area. -/
def firmware (checksum : UInt8) (entries : List UInt8) (a : Nat) : UInt8 :=
  if a = P2V 0x40E then 1
  else ([0, 0, 0, 0, 0, 0, 0, 0, 0, 0, 0, 0, 0, 0, 0, 0,
    95, 77, 80, 95, 64, 0, 0, 0, 1, 4, 96, 0, 0, 0, 0, 0,
    0, 0, 0, 0, 0, 0, 0, 0, 0, 0, 0, 0, 0, 0, 0, 0,
    0, 0, 0, 0, 0, 0, 0, 0, 0, 0, 0, 0, 0, 0, 0, 0,
    80, 67, 77, 80, UInt8.ofNat (mpconfSize + entries.length), 0, 4, checksum] ++
    List.replicate 36 0 ++ entries).getD (a - KERNBASE) 0

/-- A table with one processor. -/
def oneProcessor : Nat → UInt8 := firmware 135 ([0, 5] ++ List.replicate 18 0)

/-- A table with one entry of type 5. -/
def strangeEntry : Nat → UInt8 := firmware 147 [5, 0, 0, 0, 0, 0, 0, 0]

theorem oneProcessor_ends : mpconfig oneProcessor = some (P2V 16, P2V 64) ∧
    ∃ fuel r, mpinit oneProcessor fuel = some r ∧
      Outcome oneProcessor (P2V 64 + confLength oneProcessor (P2V 64)) (P2V 64 + mpconfSize) r := by
  have hconf : mpconfig oneProcessor = some (P2V 16, P2V 64) := by decide +kernel
  refine ⟨hconf, (mpinit_ends_iff hconf).mpr ?_⟩
  have hlen : P2V 64 + confLength oneProcessor (P2V 64) = P2V 64 + mpconfSize + 20 := by decide
  rw [hlen]
  exact (Entries.entry (by decide) (by decide) (.done (Nat.le_refl _))).not_unknown

/-- The table is accepted, and the scan of it never ends. -/
theorem strangeEntry_loops : mpconfig strangeEntry = some (P2V 16, P2V 64) ∧
    ¬ ∃ fuel r, mpinit strangeEntry fuel = some r := by
  have hconf : mpconfig strangeEntry = some (P2V 16, P2V 64) := by decide +kernel
  refine ⟨hconf, ?_⟩
  rintro ⟨fuel, r, hr⟩
  rw [mpinit, hconf] at hr
  obtain ⟨s, hs, -⟩ := Option.map_eq_some_iff.mp hr
  obtain ⟨es, hes⟩ := entries_of_scan hs
  exact hes.not_unknown (.here (by decide) (by decide))

end Xv6.Mp
