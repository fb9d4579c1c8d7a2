import Mathlib.Data.List.Basic
import Xv6.SleepRefines

/-!
# Pipes

`pipewrite`, `piperead` and `pipeclose` as a monitor program: any process may call any of them at
any time. The data comes with a record of the traffic, which nothing reads: who has stored which
bytes, which bytes have been taken out, what the finished calls of each writer have stored, and
what the finished calls of `piperead` have returned.
-/

namespace Xv6.Kern

open Function
open Monitor (Program Action Place)

abbrev PIPESIZE : Nat := 512

structure Pipe where
  data : Fin PIPESIZE → UInt8
  nread : UInt32
  nwrite : UInt32
  readopen : Bool
  writeopen : Bool
  /-- `kfree` has been called. -/
  freed : Bool

structure PipeData (n : Nat) extends Pipe where
  stored : List (Fin n × UInt8)
  taken : List UInt8
  sent : Fin n → List UInt8
  returned : List (List UInt8)

/-- A new pipe; `kalloc` does not clear the page. -/
def PipeData.init (n : Nat) (data : Fin PIPESIZE → UInt8) : PipeData n where
  data := data
  nread := 0
  nwrite := 0
  readopen := true
  writeopen := true
  freed := false
  stored := []
  taken := []
  sent _ := []
  returned := []

/-- The place of a counter in the buffer. -/
def slotOf (x : UInt32) : Fin PIPESIZE := ⟨x.toNat % PIPESIZE, Nat.mod_lt _ (by decide)⟩

inductive PipeChan
  | nread
  | nwrite
  deriving DecidableEq, Repr

inductive PipeCall
  | write (addr : Nat → UInt8) (n : Int)
  | read (n : Int)
  | close (writable : Bool)

/-- The variables of `pipewrite`. `fresh` says whether bytes have been stored since the lock was
taken or the readers were last woken. -/
structure Write (n : Nat) where
  who : Fin n
  addr : Nat → UInt8
  n : Int
  i : Nat
  fresh : Bool

/-- The variables of `piperead`; `i` is the length of `buf`. -/
structure Read where
  n : Int
  buf : List UInt8

def Write.bytes {n : Nat} (w : Write n) : List UInt8 := (List.range w.i).map w.addr

inductive PipeLocal (n : Nat)
  /-- `i < n` -/
  | writeFor (w : Write n)
  /-- `p->nwrite == p->nread + PIPESIZE` -/
  | writeWhile (w : Write n)
  /-- `p->readopen == 0 || myproc()->killed` -/
  | writeTest (w : Write n)
  /-- `wakeup(&p->nread)` before `sleep` -/
  | writeFull (w : Write n)
  /-- `sleep(&p->nwrite, &p->lock)` -/
  | writeSleep (w : Write n)
  | writeReturn (w : Write n) (r : Int)
  /-- `p->nread == p->nwrite && p->writeopen`, and the test of `killed` -/
  | readWhile (r : Read)
  /-- `sleep(&p->nread, &p->lock)` -/
  | readSleep (r : Read)
  /-- The loop that copies. -/
  | readFor (r : Read)
  | readReturn (r : Read) (res : Int)
  | closeFlag (writable : Bool)
  | closeWake (writable : Bool)
  /-- `p->readopen == 0 && p->writeopen == 0` -/
  | closeTest
  | finished

variable {n : Nat}

/-- `p->data[p->nwrite++ % PIPESIZE] = addr[i]` -/
def PipeData.store (d : PipeData n) (w : Write n) : PipeData n :=
  { d with
    data := update d.data (slotOf d.nwrite) (w.addr w.i)
    nwrite := d.nwrite + 1
    stored := d.stored ++ [(w.who, w.addr w.i)] }

/-- The byte that `addr[i] = p->data[p->nread++ % PIPESIZE]` copies. -/
def PipeData.next (d : PipeData n) : UInt8 := d.data (slotOf d.nread)

def PipeData.take (d : PipeData n) : PipeData n :=
  { d with nread := d.nread + 1, taken := d.taken ++ [d.next] }

def PipeData.full (d : PipeData n) : Prop := d.nwrite = d.nread + 512

def PipeData.empty (d : PipeData n) : Prop := d.nread = d.nwrite

instance (d : PipeData n) : Decidable d.full := inferInstanceAs (Decidable (_ = _))

instance (d : PipeData n) : Decidable d.empty := inferInstanceAs (Decidable (_ = _))

def pipeAct : PipeLocal n → PipeData n → Action (PipeData n) (PipeLocal n) PipeChan
  | .writeFor w, d =>
    if (w.i : Int) < w.n then .step d (.writeWhile w)
    else .wakeup .nread (.writeReturn w w.n)
  | .writeWhile w, d =>
    if d.full then .step d (.writeTest w)
    else .step (d.store w) (.writeFor { w with i := w.i + 1, fresh := true })
  | .writeTest w, d =>
    if d.readopen then .testKilled (.writeReturn w (-1)) (.writeFull w)
    else .step d (.writeReturn w (-1))
  | .writeFull w, _ => .wakeup .nread (.writeSleep { w with fresh := false })
  | .writeSleep w, _ => .sleep .nwrite (.writeWhile w)
  | .writeReturn w _, d =>
    .step { d with sent := update d.sent w.who (d.sent w.who ++ w.bytes) } .finished
  | .readWhile r, d =>
    if d.empty ∧ d.writeopen = true then .testKilled (.readReturn r (-1)) (.readSleep r)
    else .step d (.readFor r)
  | .readSleep r, _ => .sleep .nread (.readWhile r)
  | .readFor r, d =>
    if (r.buf.length : Int) < r.n ∧ ¬ d.empty then
      .step d.take (.readFor { r with buf := r.buf ++ [d.next] })
    else .wakeup .nwrite (.readReturn r r.buf.length)
  | .readReturn r res, d =>
    .step { d with returned := if res < 0 then d.returned else d.returned ++ [r.buf] } .finished
  | .closeFlag true, d => .step { d with writeopen := false } (.closeWake true)
  | .closeFlag false, d => .step { d with readopen := false } (.closeWake false)
  | .closeWake true, _ => .wakeup .nread .closeTest
  | .closeWake false, _ => .wakeup .nwrite .closeTest
  | .closeTest, d =>
    .step { d with freed := d.freed || !d.readopen && !d.writeopen } .finished
  | .finished, _ => .release

def pipeProgram (n : Nat) : Program (Fin n) (PipeData n) (PipeLocal n) PipeChan PipeCall where
  start i
    | .write addr len => .writeFor ⟨i, addr, len, 0, false⟩
    | .read len => .readWhile ⟨len, []⟩
    | .close writable => .closeFlag writable
  act := pipeAct

/-! ### Where the program does what -/

theorem act_testKilled {t yes no : PipeLocal n} {d : PipeData n}
    (h : pipeAct t d = .testKilled yes no) :
    (∃ w, t = .writeTest w ∧ d.readopen = true ∧ yes = .writeReturn w (-1) ∧ no = .writeFull w) ∨
    ∃ r, t = .readWhile r ∧ (d.empty ∧ d.writeopen = true) ∧ yes = .readReturn r (-1) ∧
      no = .readSleep r := by
  unfold pipeAct at h
  split at h
  all_goals try split_ifs at h
  all_goals cases h
  · next w hopen => exact Or.inl ⟨w, rfl, hopen, rfl, rfl⟩
  · next r hcond => exact Or.inr ⟨r, rfl, hcond, rfl, rfl⟩

theorem act_wakeup {t t' : PipeLocal n} {d : PipeData n} {c : PipeChan}
    (h : pipeAct t d = .wakeup c t') :
    (∃ w, t = .writeFor w ∧ ¬ (w.i : Int) < w.n ∧ c = .nread ∧ t' = .writeReturn w w.n) ∨
    (∃ w, t = .writeFull w ∧ c = .nread ∧ t' = .writeSleep { w with fresh := false }) ∨
    (∃ r, t = .readFor r ∧ ¬ ((r.buf.length : Int) < r.n ∧ ¬ d.empty) ∧ c = .nwrite ∧
      t' = .readReturn r r.buf.length) ∨
    (t = .closeWake true ∧ c = .nread ∧ t' = .closeTest) ∨
    (t = .closeWake false ∧ c = .nwrite ∧ t' = .closeTest) := by
  unfold pipeAct at h
  split at h
  all_goals try split_ifs at h
  all_goals cases h
  · next w hlt => exact Or.inl ⟨w, rfl, hlt, rfl, rfl⟩
  · next w => exact Or.inr (Or.inl ⟨w, rfl, rfl, rfl⟩)
  · next r hcond => exact Or.inr (Or.inr (Or.inl ⟨r, rfl, hcond, rfl, rfl⟩))
  · exact Or.inr (Or.inr (Or.inr (Or.inl ⟨rfl, rfl, rfl⟩)))
  · exact Or.inr (Or.inr (Or.inr (Or.inr ⟨rfl, rfl, rfl⟩)))

theorem act_sleep {t t' : PipeLocal n} {d : PipeData n} {c : PipeChan}
    (h : pipeAct t d = .sleep c t') :
    (∃ w, t = .writeSleep w ∧ c = .nwrite ∧ t' = .writeWhile w) ∨
    ∃ r, t = .readSleep r ∧ c = .nread ∧ t' = .readWhile r := by
  unfold pipeAct at h
  split at h
  all_goals try split_ifs at h
  all_goals cases h
  · next w => exact Or.inl ⟨w, rfl, rfl, rfl⟩
  · next r => exact Or.inr ⟨r, rfl, rfl, rfl⟩

theorem act_release {t : PipeLocal n} {d : PipeData n} (h : pipeAct t d = .release) :
    t = .finished := by
  unfold pipeAct at h
  split at h
  all_goals try split_ifs at h
  all_goals cases h
  rfl

/-! ### The buffer -/

/-- The buffer holds what has been stored and not yet taken. The counters are those numbers modulo
`2 ^ 32`, which `PIPESIZE` divides. -/
structure Buffered (d : PipeData n) : Prop where
  nwrite : d.nwrite.toNat = d.stored.length % 2 ^ 32
  nread : d.nread.toNat = d.taken.length % 2 ^ 32
  le : d.taken.length ≤ d.stored.length
  bound : d.stored.length ≤ d.taken.length + PIPESIZE
  taken : d.taken <+: d.stored.map Prod.snd
  data : ∀ (j : Nat) (hj : j < d.stored.length), d.taken.length ≤ j →
    d.data ⟨j % PIPESIZE, Nat.mod_lt _ (by decide)⟩ = d.stored[j].2

variable {d : PipeData n}

theorem buffered_init (data : Fin PIPESIZE → UInt8) : Buffered (PipeData.init n data) := by
  refine ⟨rfl, rfl, Nat.le_refl _, Nat.zero_le _, List.prefix_refl _, ?_⟩
  intro j hj
  exact absurd hj (Nat.not_lt_zero j)

namespace Buffered

section

variable (h : Buffered d)
include h

theorem count : (d.nwrite - d.nread).toNat = d.stored.length - d.taken.length := by
  have h₁ := h.nwrite
  have h₂ := h.nread
  have h₃ := h.le
  have h₄ : d.stored.length ≤ d.taken.length + 512 := h.bound
  have h₅ := d.nread.toNat_lt
  rw [UInt32.toNat_sub]
  omega

theorem full_iff : d.full ↔ d.stored.length = d.taken.length + PIPESIZE := by
  have h₁ := h.nwrite
  have h₂ := h.nread
  have h₃ := h.le
  have h₄ : d.stored.length ≤ d.taken.length + 512 := h.bound
  have h512 : (d.nread + 512).toNat = (d.nread.toNat + 512) % 2 ^ 32 := by
    rw [UInt32.toNat_add]
    rfl
  rw [PipeData.full, ← UInt32.toNat_inj, h512, PIPESIZE]
  omega

theorem empty_iff : d.empty ↔ d.stored.length = d.taken.length := by
  have h₁ := h.nwrite
  have h₂ := h.nread
  have h₃ := h.le
  have h₄ : d.stored.length ≤ d.taken.length + 512 := h.bound
  rw [PipeData.empty, ← UInt32.toNat_inj]
  omega

theorem taken_eq (he : d.empty) : d.taken = d.stored.map Prod.snd := by
  refine h.taken.eq_of_length ?_
  rw [List.length_map, h.empty_iff.mp he]

theorem slotOf_nwrite : slotOf d.nwrite =
    ⟨d.stored.length % PIPESIZE, Nat.mod_lt _ (by decide)⟩ := by
  have h₁ := h.nwrite
  simp only [slotOf, Fin.mk.injEq, PIPESIZE]
  omega

theorem slotOf_nread : slotOf d.nread =
    ⟨d.taken.length % PIPESIZE, Nat.mod_lt _ (by decide)⟩ := by
  have h₁ := h.nread
  simp only [slotOf, Fin.mk.injEq, PIPESIZE]
  omega

theorem store (hfull : ¬ d.full) (w : Write n) : Buffered (d.store w) := by
  have h₁ := h.nwrite
  have h₃ := h.le
  have h₄ : d.stored.length ≤ d.taken.length + 512 := h.bound
  rw [h.full_iff, PIPESIZE] at hfull
  have hone : (d.nwrite + 1).toNat = (d.nwrite.toNat + 1) % 2 ^ 32 := by
    rw [UInt32.toNat_add]
    rfl
  refine ⟨?_, h.nread, ?_, ?_, ?_, ?_⟩
  · simp only [PipeData.store, hone, List.length_append, List.length_singleton]
    omega
  · simp only [PipeData.store, List.length_append, List.length_singleton]
    omega
  · simp only [PipeData.store, List.length_append, List.length_singleton, PIPESIZE]
    omega
  · simp only [PipeData.store, List.map_append]
    exact h.taken.trans (List.prefix_append _ _)
  · intro j hj htj
    simp only [PipeData.store, List.length_append, List.length_singleton] at hj htj ⊢
    rw [h.slotOf_nwrite]
    -- the other bytes in the buffer are in other places, as there are less than `PIPESIZE`
    rcases Nat.lt_or_ge j d.stored.length with hlt | hge
    · rw [Function.update_of_ne, List.getElem_append_left hlt]
      · exact h.data j hlt htj
      · simp only [ne_eq, Fin.mk.injEq, PIPESIZE]
        omega
    · obtain rfl : j = d.stored.length := by omega
      simp

theorem next_eq (hne : d.taken.length < d.stored.length) :
    d.next = d.stored[d.taken.length].2 := by
  rw [PipeData.next, h.slotOf_nread]
  exact h.data d.taken.length hne (Nat.le_refl _)

theorem take (hne : ¬ d.empty) : Buffered d.take := by
  have h₂ := h.nread
  have h₃ := h.le
  have h₄ : d.stored.length ≤ d.taken.length + 512 := h.bound
  rw [h.empty_iff] at hne
  have hlt : d.taken.length < d.stored.length := by omega
  have hone : (d.nread + 1).toNat = (d.nread.toNat + 1) % 2 ^ 32 := by
    rw [UInt32.toNat_add]
    rfl
  refine ⟨h.nwrite, ?_, ?_, ?_, ?_, ?_⟩
  · simp only [PipeData.take, hone, List.length_append, List.length_singleton]
    omega
  · simp only [PipeData.take, List.length_append, List.length_singleton]
    omega
  · simp only [PipeData.take, List.length_append, List.length_singleton, PIPESIZE]
    omega
  · have htake := List.prefix_iff_eq_take.mp h.taken
    simp only [PipeData.take]
    rw [List.prefix_iff_eq_take, List.length_append, List.length_singleton,
      List.take_succ_eq_append_getElem (by simpa using hlt), ← htake, h.next_eq hlt,
      List.getElem_map]
  · intro j hj htj
    simp only [PipeData.take, List.length_append, List.length_singleton] at htj ⊢
    exact h.data j hj (by omega)

theorem congr {d' : PipeData n} (h₁ : d'.data = d.data)
    (h₂ : d'.nread = d.nread) (h₃ : d'.nwrite = d.nwrite) (h₄ : d'.stored = d.stored)
    (h₅ : d'.taken = d.taken) : Buffered d' := by
  obtain ⟨⟨⟩⟩ := d'
  simp only at h₁ h₂ h₃ h₄ h₅
  subst h₁ h₂ h₃ h₄ h₅
  exact ⟨h.nwrite, h.nread, h.le, h.bound, h.taken, h.data⟩

end

end Buffered

end Xv6.Kern
