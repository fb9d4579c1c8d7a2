import Mathlib.Logic.Relation
import Xv6.Scheduler

/-!
# The process tree

What the process table is for: who is alive under which pid, who is whose parent, and who waits
for whom. `Alloc` and `Change` list the changes that the critical sections of `proc.c` are made of,
with the conditions under which they happen. `Tree.Sound` is an invariant that each of them keeps;
`Tree.Ok` adds what holds as long as `nextpid` does not overflow.
-/

namespace Xv6.Ptable

structure Tree where
  state : Slot → ProcState
  pid : Slot → Int
  parent : Slot → Option Slot
  chan : Slot → Option Chan
  thread : Slot → Thread
  cpu : Nat → Option Slot
  initproc : Option Slot
  nextpid : Int
  /-- The pids that calls of `wait` have returned. -/
  reaped : List Int

/-- A process that has been started and has not exited. -/
def ProcState.active (s : ProcState) : Prop := s = .sleeping ∨ s = .runnable ∨ s = .running

/-- A process that has been started and has not been reaped. -/
def ProcState.started (s : ProcState) : Prop := s.active ∨ s = .zombie

open Function

/-- `allocproc`, called by `userinit` or by `fork`. -/
inductive Alloc : Tree → Tree → Prop
  | init {v : Tree} {np : Slot} (hinit : v.initproc = none) (hnp : v.state np = .unused) :
      Alloc v { v with
        state := update v.state np .embryo
        pid := update v.pid np v.nextpid
        nextpid := wrap32 (v.nextpid + 1)
        initproc := some np }
  | fork {v : Tree} {c : Nat} {p np : Slot} (hc : v.cpu c = some p)
      (hp : v.thread p = .user) (hnp : v.state np = .unused) :
      Alloc v { v with
        state := update v.state np .embryo
        pid := update v.pid np v.nextpid
        nextpid := wrap32 (v.nextpid + 1)
        thread := update v.thread p (.forking np) }

/-- What happens between two calls of `allocproc`. -/
inductive Change : Tree → Tree → Prop
  | startInit {v : Tree} {p : Slot} (hinit : v.initproc = some p) (hp : v.state p = .embryo) :
      Change v { v with state := update v.state p .runnable }
  | startFork {v : Tree} {c : Nat} {p np : Slot} (hc : v.cpu c = some p)
      (hp : v.thread p = .forking np) :
      Change v { v with
        state := update v.state np .runnable
        parent := update v.parent np (some p)
        thread := update v.thread p .user }
  | failFork {v : Tree} {c : Nat} {p np : Slot} (hc : v.cpu c = some p)
      (hp : v.thread p = .forking np) :
      Change v { v with
        state := update v.state np .unused
        thread := update v.thread p .user }
  | dispatch {v : Tree} {c : Nat} {p : Slot} (hc : v.cpu c = none) (hp : v.state p = .runnable) :
      Change v { v with
        state := update v.state p .running
        cpu := update v.cpu c (some p) }
  | resume {v : Tree} {c : Nat} {p : Slot} (hc : v.cpu c = some p)
      (hp : v.thread p = .sleeping ∨ v.thread p = .waiting) :
      Change v { v with
        chan := update v.chan p none
        thread := update v.thread p .user }
  /-- A round of `wait` that finds a child to reap. -/
  | reap {v : Tree} {c : Nat} {p i : Slot} (hc : v.cpu c = some p) (hp : v.thread p = .user)
      (hpar : v.parent i = some p) (hi : v.state i = .zombie) :
      Change v { v with
        state := update v.state i .unused
        pid := update v.pid i 0
        parent := update v.parent i none
        reaped := v.reaped ++ [v.pid i] }
  /-- `wait` goes to sleep only without a child to reap. -/
  | wait {v : Tree} {c : Nat} {p : Slot} (hc : v.cpu c = some p) (hp : v.thread p = .user)
      (hnone : ∀ i, v.parent i = some p → v.state i ≠ .zombie) :
      Change v { v with
        state := update v.state p .sleeping
        chan := update v.chan p (some (.proc p))
        thread := update v.thread p .waiting
        cpu := update v.cpu c none }
  | sleep {v : Tree} {c : Nat} {p : Slot} {chan : Chan} (hc : v.cpu c = some p)
      (hp : v.thread p = .user) :
      Change v { v with
        state := update v.state p .sleeping
        chan := update v.chan p (some chan)
        thread := update v.thread p .sleeping
        cpu := update v.cpu c none }
  | wake {v : Tree} {state : Slot → ProcState}
      (hw : ∀ i, state i = v.state i ∨ v.state i = .sleeping ∧ state i = .runnable) :
      Change v { v with state := state }
  | yield {v : Tree} {c : Nat} {p : Slot} (hc : v.cpu c = some p) :
      Change v { v with
        state := update v.state p .runnable
        cpu := update v.cpu c none }
  | exit {v : Tree} {c : Nat} {p init : Slot} {state : Slot → ProcState} (hc : v.cpu c = some p)
      (hp : v.thread p = .user) (hinit : v.initproc = some init) (hne : p ≠ init)
      (hw : ∀ i, state i = v.state i ∨ v.state i = .sleeping ∧ state i = .runnable)
      (hparent : ∀ i, state i = .sleeping → v.chan i = some (.proc i) → v.parent p ≠ some i)
      (horphan : state init = .sleeping → v.chan init = some (.proc init) →
        ∀ i, v.parent i = some p → v.state i ≠ .zombie) :
      Change v { v with
        state := update state p .zombie
        parent := fun i => if v.parent i = some p then some init else v.parent i
        cpu := update v.cpu c none }

theorem Alloc.nextpid {v v' : Tree} (h : Alloc v v') : v'.nextpid = wrap32 (v.nextpid + 1) := by
  cases h <;> rfl

theorem Change.nextpid_eq {v v' : Tree} (h : Relation.ReflTransGen Change v v') :
    v'.nextpid = v.nextpid := by
  induction h with
  | refl => rfl
  | tail _ hc ih =>
    rw [← ih]
    cases hc <;> rfl

namespace Tree

/-- Each processor runs a process of its own, and a `fork` in progress has its own new slot. -/
structure ThreadsOk (v : Tree) : Prop where
  running : ∀ c p, v.cpu c = some p → v.state p = .running
  cpu : ∀ c c' p, v.cpu c = some p → v.cpu c' = some p → c = c'
  forking : ∀ p np, v.thread p = .forking np → (v.state p = .running ∨ v.state p = .runnable) ∧
    v.state np = .embryo ∧ v.initproc ≠ some np
  forkInj : ∀ p q np, v.thread p = .forking np → v.thread q = .forking np → p = q
  fresh : ∀ p, ¬ (v.state p).active → v.thread p = .user

/-- Init is the first process and does not exit. -/
structure InitOk (v : Tree) : Prop where
  noInit : v.initproc = none → ∀ i, v.state i = .unused
  init : ∀ i, v.initproc = some i → (v.state i).active ∨
    v.state i = .embryo ∧ ∀ j, j ≠ i → v.state j = .unused

structure Sound (v : Tree) : Prop where
  threads : ThreadsOk v
  init : InitOk v

/-- Processes in use have pids of their own; the pids that `wait` returned are used up. -/
structure PidsOk (v : Tree) : Prop where
  range : ∀ i, v.state i ≠ .unused → 0 < v.pid i ∧ v.pid i < v.nextpid
  inj : ∀ i j, v.state i ≠ .unused → v.state j ≠ .unused → v.pid i = v.pid j → i = j
  order : ∀ p np, v.thread p = .forking np → v.pid p < v.pid np
  old : ∀ r ∈ v.reaped, r < v.nextpid
  gone : ∀ r ∈ v.reaped, ∀ i, v.state i ≠ .unused → v.pid i ≠ r
  once : v.reaped.Nodup
  pos : 0 < v.nextpid

/-- Every started process but init has an active parent, and no waiting process has a child to
reap. -/
structure FamilyOk (v : Tree) : Prop where
  parent : ∀ i, (v.state i).started → v.initproc ≠ some i → ∃ q, v.parent i = some q ∧
    (v.state q).active ∧ (v.initproc = some q ∨ v.pid q < v.pid i)
  waiting : ∀ i, v.state i = .sleeping → v.thread i = .waiting →
    v.chan i = some (.proc i) ∧ ∀ j, v.parent j = some i → v.state j ≠ .zombie

structure Ok (v : Tree) : Prop extends Sound v where
  pids : PidsOk v
  family : FamilyOk v

end Tree

end Xv6.Ptable
