import Mathlib.Data.List.FinRange
import Xv6.Counts
import Xv6.Param

/-!
# The buffer cache

`bio.c` and `ide.c`, for any number `N` of processes that use one device. Every critical section
under `bcache.lock` or `idelock` is a step, and so is every operation on the sleep-lock of a
buffer. The disk works on one request at a time and answers it with an interrupt; it does not fail.
A step that would panic is not enabled.

`View` records what was written, independently of the cache: the data of the last `log_write` or
`bwrite` for every block. `Fresh` says how the buffers and the disk together hold it.
-/

namespace Xv6.Bio

open Function

variable {N : Nat} {α : Type*}

structure Buf (N : Nat) (α : Type*) where
  dev : Nat
  blockno : Nat
  /-- `B_VALID` -/
  valid : Bool
  /-- `B_DIRTY` -/
  dirty : Bool
  refcnt : Nat
  /-- The process that holds the sleep-lock. -/
  lock : Option (Fin N)
  data : α

/-- What `idestart` asks of the disk: a block to read, or a block to write with its data. -/
def Buf.request (x : Buf N α) : Nat × Option α := (x.blockno, if x.dirty then some x.data else none)

/-- Where a process is in the code. `b` is the block that the call is about. -/
inductive Pc
  | idle
  /-- `acquiresleep` in `bget` -/
  | lock (i : Fin NBUF) (b : Nat)
  /-- The test of `B_VALID` in `bread`. -/
  | test (i : Fin NBUF) (b : Nat)
  /-- `iderw`: `acquire(&idelock)` -/
  | enter (i : Fin NBUF) (b : Nat)
  /-- The loop of `iderw`. -/
  | wait (i : Fin NBUF) (b : Nat)
  /-- `acquire(&bcache.lock)` in `brelse` -/
  | unref (i : Fin NBUF)
  deriving DecidableEq

structure Cache (N : Nat) (α : Type*) where
  buf : Fin NBUF → Buf N α
  /-- The list from `bcache.head.next` on, the most recently used buffer first. -/
  order : List (Fin NBUF)
  idequeue : List (Fin NBUF)
  /-- What the disk works on. -/
  request : Option (Nat × Option α)
  disk : Nat → α
  pc : Fin N → Pc

/-- `binit` puts every buffer at the front of the list. -/
def binit (zero : α) (disk : Nat → α) : Cache N α where
  buf _ := ⟨0, 0, false, false, 0, none, zero⟩
  order := (List.finRange NBUF).reverse
  idequeue := []
  request := none
  disk := disk
  pc _ := .idle

namespace Cache

variable (s : Cache N α)

def goto (p : Fin N) (v : Pc) : Cache N α := { s with pc := update s.pc p v }

def setBuf (i : Fin NBUF) (x : Buf N α) : Cache N α := { s with buf := update s.buf i x }

/-- The first loop of `bget`. -/
def lookup (dev b : Nat) : Option (Fin NBUF) :=
  s.order.find? (fun i => (s.buf i).dev = dev ∧ (s.buf i).blockno = b)

/-- The second loop of `bget`. -/
def victim : Option (Fin NBUF) :=
  s.order.reverse.find? (fun i => (s.buf i).refcnt = 0 ∧ (s.buf i).dirty = false)

def recycled (dev b : Nat) (i : Fin NBUF) : Buf N α :=
  { s.buf i with dev := dev, blockno := b, valid := false, dirty := false, refcnt := 1 }

/-- `bget` up to `acquiresleep`. -/
def bget (dev b : Nat) (p : Fin N) : Option (Cache N α) :=
  match s.lookup dev b with
  | some i =>
    some ((s.setBuf i { s.buf i with refcnt := (s.buf i).refcnt + 1 }).goto p (.lock i b))
  | none =>
    match s.victim with
    | some i => some ((s.setBuf i (s.recycled dev b i)).goto p (.lock i b))
    | none => none

def acquiresleep (p : Fin N) (i : Fin NBUF) (b : Nat) : Option (Cache N α) :=
  if (s.buf i).lock = none then
    some ((s.setBuf i { s.buf i with lock := some p }).goto p (.test i b))
  else none

def idestart (i : Fin NBUF) : Option (Cache N α) :=
  if (s.buf i).blockno ≥ FSSIZE then none
  else some { s with request := some (s.buf i).request }

/-- `iderw` up to its loop. -/
def iderw (p : Fin N) (i : Fin NBUF) (b : Nat) : Option (Cache N α) :=
  if (s.buf i).valid ∧ (s.buf i).dirty = false then none
  else
    let s := { s with idequeue := s.idequeue ++ [i] }.goto p (.wait i b)
    if s.idequeue.head? = some i then s.idestart i else some s

/-- The disk has finished its request, for buffer `i`. -/
def finish (i : Fin NBUF) (rest : List (Fin NBUF)) : Cache N α :=
  let x := s.buf i
  let answer := match s.request with
    | some (b, _) => s.disk b
    | none => x.data
  let disk := match s.request with
    | some (b, some data) => update s.disk b data
    | _ => s.disk
  { s.setBuf i { x with
      data := if x.dirty then x.data else answer, valid := true, dirty := false } with
    idequeue := rest, request := none, disk := disk }

def ideintr : Option (Cache N α) :=
  match s.idequeue with
  | [] => some s
  | i :: rest =>
    match rest with
    | [] => some (s.finish i rest)
    | j :: _ => (s.finish i rest).idestart j

/-- `brelse` after `releasesleep`. -/
def unref (p : Fin N) (i : Fin NBUF) : Cache N α :=
  let s := (s.setBuf i { s.buf i with refcnt := (s.buf i).refcnt - 1 }).goto p .idle
  if (s.buf i).refcnt = 0 then { s with order := i :: s.order.erase i } else s

/-- Process `p` holds buffer `i` and is not in a call. -/
def Owns (p : Fin N) (i : Fin NBUF) : Prop := s.pc p = .idle ∧ (s.buf i).lock = some p

instance (p : Fin N) (i : Fin NBUF) : Decidable (s.Owns p i) :=
  inferInstanceAs (Decidable (_ ∧ _))

/-- The next step of the call that process `p` is in. -/
def go (p : Fin N) : Option (Cache N α) :=
  match s.pc p with
  | .idle => none
  | .lock i b => s.acquiresleep p i b
  | .test i b => some (s.goto p (if (s.buf i).valid then .idle else .enter i b))
  | .enter i b => s.iderw p i b
  | .wait i _ =>
    if (s.buf i).valid ∧ (s.buf i).dirty = false then some (s.goto p .idle) else none
  | .unref i => some (s.unref p i)

end Cache

inductive Event (N : Nat) (α : Type*)
  | bread (p : Fin N) (b : Nat)
  | go (p : Fin N)
  | ideintr
  | modify (p : Fin N) (i : Fin NBUF) (data : α)
  /-- What `log_write` does to the buffer. -/
  | pin (p : Fin N) (i : Fin NBUF)
  | bwrite (p : Fin N) (i : Fin NBUF)
  | brelse (p : Fin N) (i : Fin NBUF)

def step (dev : Nat) (s : Cache N α) : Event N α → Option (Cache N α)
  | .bread p b => if s.pc p = .idle then s.bget dev b p else none
  | .go p => s.go p
  | .ideintr => s.ideintr
  | .modify p i data =>
    if s.Owns p i then some (s.setBuf i { s.buf i with data := data }) else none
  | .pin p i => if s.Owns p i then some (s.setBuf i { s.buf i with dirty := true }) else none
  | .bwrite p i =>
    if s.Owns p i then
      some ((s.setBuf i { s.buf i with dirty := true }).goto p (.enter i (s.buf i).blockno))
    else none
  | .brelse p i =>
    if s.Owns p i then some ((s.setBuf i { s.buf i with lock := none }).goto p (.unref i))
    else none

/-! ### What was written -/

structure View (α : Type*) where
  /-- The last data log-written or bwritten. -/
  last : Nat → α
  /-- Buffers that have been modified since. -/
  touched : Fin NBUF → Bool
  /-- Blocks that have been log-written and not been written to the disk since. -/
  owed : Nat → Bool

def View.init (disk : Nat → α) : View α := ⟨disk, fun _ => false, fun _ => false⟩

/-- What an event adds to the records, in the state before it. -/
def View.record (s : Cache N α) (v : View α) : Event N α → View α
  | .modify _ i _ => { v with touched := update v.touched i true }
  | .pin _ i =>
    { last := update v.last (s.buf i).blockno (s.buf i).data
      touched := update v.touched i false
      owed := update v.owed (s.buf i).blockno true }
  | .bwrite _ i =>
    { v with
      last := update v.last (s.buf i).blockno (s.buf i).data
      touched := update v.touched i false }
  | .ideintr =>
    match s.request with
    | some (b, some _) => { v with owed := update v.owed b false }
    | _ => v
  | _ => v

/-- A modified buffer is written before it is released. -/
def WritesBack (v : View α) : Event N α → Prop
  | .brelse _ i => v.touched i = false
  | _ => True

/-! ### The steps one by one -/

inductive Step (dev : Nat) (s : Cache N α) : Event N α → Cache N α → Prop
  | hit {p b i} (hp : s.pc p = .idle) (hl : s.lookup dev b = some i) : Step dev s (.bread p b)
      ((s.setBuf i { s.buf i with refcnt := (s.buf i).refcnt + 1 }).goto p (.lock i b))
  | recycle {p b i} (hp : s.pc p = .idle) (hl : s.lookup dev b = none) (hv : s.victim = some i) :
      Step dev s (.bread p b) ((s.setBuf i (s.recycled dev b i)).goto p (.lock i b))
  | acquiresleep {p b i} (hp : s.pc p = .lock i b) (hl : (s.buf i).lock = none) :
      Step dev s (.go p) ((s.setBuf i { s.buf i with lock := some p }).goto p (.test i b))
  | test {p b i} (hp : s.pc p = .test i b) :
      Step dev s (.go p) (s.goto p (if (s.buf i).valid then .idle else .enter i b))
  | iderw {p b i s'} (hp : s.pc p = .enter i b) (hs : s.iderw p i b = some s') :
      Step dev s (.go p) s'
  | wake {p b i} (hp : s.pc p = .wait i b) (hv : (s.buf i).valid = true)
      (hd : (s.buf i).dirty = false) : Step dev s (.go p) (s.goto p .idle)
  | unref {p i} (hp : s.pc p = .unref i) : Step dev s (.go p) (s.unref p i)
  | ideintr {s'} (hs : s.ideintr = some s') : Step dev s .ideintr s'
  | modify {p i data} (ho : s.Owns p i) :
      Step dev s (.modify p i data) (s.setBuf i { s.buf i with data := data })
  | pin {p i} (ho : s.Owns p i) :
      Step dev s (.pin p i) (s.setBuf i { s.buf i with dirty := true })
  | bwrite {p i} (ho : s.Owns p i) : Step dev s (.bwrite p i)
      ((s.setBuf i { s.buf i with dirty := true }).goto p (.enter i (s.buf i).blockno))
  | brelse {p i} (ho : s.Owns p i) : Step dev s (.brelse p i)
      ((s.setBuf i { s.buf i with lock := none }).goto p (.unref i))

variable {dev b : Nat} {s s' : Cache N α} {p : Fin N} {i : Fin NBUF}

theorem step_go (hs : s.go p = some s') : Step dev s (.go p) s' := by
  unfold Cache.go at hs
  split at hs
  · cases hs
  · next hp =>
    unfold Cache.acquiresleep at hs
    split at hs
    · next hl =>
      cases hs
      exact .acquiresleep hp hl
    · cases hs
  · next hp =>
    cases hs
    exact .test hp
  · next hp => exact .iderw hp hs
  · next hp =>
    split at hs
    · next hv =>
      cases hs
      exact .wake hp hv.1 hv.2
    · cases hs
  · next hp =>
    cases hs
    exact .unref hp

theorem step_cases {e : Event N α} (hs : step dev s e = some s') : Step dev s e s' := by
  cases e with
  | bread p b =>
    simp only [step, Cache.bget] at hs
    split at hs
    · next hp =>
      split at hs
      · next hl =>
        cases hs
        exact .hit hp hl
      · next hl =>
        split at hs
        · next hv =>
          cases hs
          exact .recycle hp hl hv
        · cases hs
    · cases hs
  | go p => exact step_go hs
  | ideintr => exact .ideintr hs
  | modify p i data =>
    simp only [step, Option.ite_none_right_eq_some, Option.some.injEq] at hs
    obtain ⟨ho, rfl⟩ := hs
    exact .modify ho
  | pin p i =>
    simp only [step, Option.ite_none_right_eq_some, Option.some.injEq] at hs
    obtain ⟨ho, rfl⟩ := hs
    exact .pin ho
  | bwrite p i =>
    simp only [step, Option.ite_none_right_eq_some, Option.some.injEq] at hs
    obtain ⟨ho, rfl⟩ := hs
    exact .bwrite ho
  | brelse p i =>
    simp only [step, Option.ite_none_right_eq_some, Option.some.injEq] at hs
    obtain ⟨ho, rfl⟩ := hs
    exact .brelse ho

theorem idestart_eq_some (h : s.idestart i = some s') :
    s' = { s with request := some (s.buf i).request } := by
  unfold Cache.idestart at h
  split at h
  · cases h
  · exact (Option.some.inj h).symm

theorem iderw_frame (hs : s.iderw p i b = some s') :
    s'.buf = s.buf ∧ s'.pc = update s.pc p (.wait i b) := by
  simp only [Cache.iderw] at hs
  split at hs
  · cases hs
  · split at hs
    · rw [idestart_eq_some hs]
      exact ⟨rfl, rfl⟩
    · cases hs
      exact ⟨rfl, rfl⟩

/-- Who uses a buffer, and for which block. -/
def Buf.users (x : Buf N α) : Nat × Nat × Option (Fin N) × Nat :=
  (x.dev, x.blockno, x.lock, x.refcnt)

theorem finish_frame (s : Cache N α) (i : Fin NBUF) (rest : List (Fin NBUF)) (j : Fin NBUF) :
    ((s.finish i rest).buf j).users = (s.buf j).users := by
  rcases eq_or_ne j i with rfl | hj
  · simp [Cache.finish, Cache.setBuf, Buf.users]
  · simp [Cache.finish, Cache.setBuf, hj]

theorem ideintr_frame (hs : s.ideintr = some s') :
    s'.pc = s.pc ∧ ∀ j, (s'.buf j).users = (s.buf j).users := by
  cases hq : s.idequeue with
  | nil =>
    simp only [Cache.ideintr, hq, Option.some.injEq] at hs
    subst hs
    exact ⟨rfl, fun _ => rfl⟩
  | cons i rest =>
    have hframe := finish_frame s i rest
    cases rest with
    | nil =>
      simp only [Cache.ideintr, hq, Option.some.injEq] at hs
      subst hs
      exact ⟨rfl, hframe⟩
    | cons j rest =>
      simp only [Cache.ideintr, hq] at hs
      rw [idestart_eq_some hs]
      exact ⟨rfl, hframe⟩

theorem unref_frame : (s.unref p i).pc = update s.pc p .idle ∧
    (s.unref p i).buf = update s.buf i { s.buf i with refcnt := (s.buf i).refcnt - 1 } := by
  simp only [Cache.unref]
  split <;> exact ⟨rfl, rfl⟩

/-- Whose step an event is. -/
def Event.proc : Event N α → Option (Fin N)
  | .bread p _ | .go p | .modify p _ _ | .pin p _ | .bwrite p _ | .brelse p _ => some p
  | .ideintr => none

theorem lock_setBuf {j : Fin NBUF} {x : Buf N α} (hx : x.lock = some p → (s.buf j).lock = some p)
    (h : (update s.buf j x i).lock = some p) : (s.buf i).lock = some p := by
  rcases eq_or_ne i j with rfl | hij
  · rw [update_self] at h
    exact hx h
  · rwa [update_of_ne hij] at h

/-- A process is not moved by the steps of others, and does not come to hold a lock. -/
theorem step_other {e : Event N α} (hs : step dev s e = some s') (he : e.proc ≠ some p) :
    s'.pc p = s.pc p ∧ ((s'.buf i).lock = some p → (s.buf i).lock = some p) := by
  have hpc : ∀ {q : Fin N} {v : Pc}, Event.proc e = some q → update s.pc q v p = s.pc p := by
    intro q v hq
    rw [hq] at he
    exact update_of_ne (fun hp => he (congrArg some hp.symm)) _ _
  cases step_cases hs with
  | hit hp hl => exact ⟨hpc rfl, lock_setBuf id⟩
  | recycle hp hl hv => exact ⟨hpc rfl, lock_setBuf id⟩
  | acquiresleep hp hl => exact ⟨hpc rfl, lock_setBuf (fun hq => absurd hq he)⟩
  | test hp => exact ⟨hpc rfl, id⟩
  | iderw hp hs =>
    rw [(iderw_frame hs).1, (iderw_frame hs).2]
    exact ⟨hpc rfl, id⟩
  | wake hp hv hd => exact ⟨hpc rfl, id⟩
  | unref hp =>
    rw [unref_frame.1, unref_frame.2]
    exact ⟨hpc rfl, lock_setBuf id⟩
  | ideintr hs =>
    have hlock := (ideintr_frame hs).2 i
    simp only [Buf.users, Prod.mk.injEq] at hlock
    rw [(ideintr_frame hs).1, hlock.2.2.1]
    exact ⟨rfl, id⟩
  | modify ho => exact ⟨rfl, lock_setBuf id⟩
  | pin ho => exact ⟨rfl, lock_setBuf id⟩
  | bwrite ho => exact ⟨hpc rfl, lock_setBuf id⟩
  | brelse ho => exact ⟨hpc rfl, lock_setBuf (fun hq => nomatch hq)⟩

theorem record_touched {w : View α} {e : Event N α} (h : (w.record s e).touched i = true) :
    w.touched i = true ∨ ∃ q data, e = .modify q i data := by
  cases e with
  | modify q j data =>
    rcases eq_or_ne i j with rfl | hij
    · exact Or.inr ⟨q, data, rfl⟩
    · simp only [View.record, update_of_ne hij] at h
      exact Or.inl h
  | pin q j =>
    rcases eq_or_ne i j with rfl | hij
    · simp [View.record] at h
    · simp only [View.record, update_of_ne hij] at h
      exact Or.inl h
  | bwrite q j =>
    rcases eq_or_ne i j with rfl | hij
    · simp [View.record] at h
    · simp only [View.record, update_of_ne hij] at h
      exact Or.inl h
  | ideintr =>
    simp only [View.record] at h
    split at h <;> exact Or.inl h
  | _ => exact Or.inl h

end Xv6.Bio
