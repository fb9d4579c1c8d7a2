import Mathlib.Data.List.FinRange
import Mathlib.Logic.Function.Basic
import Xv6.MachineInt

/-!
# The process table

The table of `proc.c` with the operations that run under `ptable.lock`. A pointer to a process is
its slot in the table, a null pointer is `none`. What a kernel thread does when it is resumed (it
left the processor in `yield`, in `sleep`, inside the loop of `wait`, or in the middle of `fork`)
is recorded in `thread`. Memory, open files and names play no part in scheduling and are left out.
-/

namespace Xv6.Ptable

def NPROC : Nat := 64

abbrev Slot := Fin NPROC

instance : NeZero NPROC := ⟨by decide⟩

inductive ProcState
  | unused | embryo | sleeping | runnable | running | zombie
  deriving DecidableEq, Repr

/-- A sleep channel: `wait` sleeps on the address of a `struct proc`, the other callers of
`sleep` on addresses of their own. -/
inductive Chan
  | proc (p : Slot)
  | addr (a : Nat)
  deriving DecidableEq, Repr

/-- Where the kernel thread of a process continues when it is given the processor. -/
inductive Thread
  | user
  | sleeping
  | waiting
  | forking (np : Slot)
  deriving DecidableEq, Repr

structure Proc where
  state : ProcState := .unused
  pid : Int := 0
  parent : Option Slot := none
  chan : Option Chan := none
  killed : Bool := false
  tickets : Int := 0
  ticks : Int := 0
  thread : Thread := .user
  deriving DecidableEq, Repr

structure Table where
  proc : Slot → Proc
  initproc : Option Slot
  nextpid : Int
  rseed : Int
  /-- The field `proc` of each processor. -/
  cpu : Nat → Option Slot

/-- The table at boot. -/
def boot : Table where
  proc _ := {}
  initproc := none
  nextpid := 1
  rseed := 1898888478
  cpu _ := none

/-- The loops `for(p = ptable.proc; p < &ptable.proc[NPROC]; p++)` visit the slots in this order. -/
def slots : List Slot := List.finRange NPROC

theorem mem_slots (i : Slot) : i ∈ slots := List.mem_finRange i

namespace Table

def set (t : Table) (i : Slot) (p : Proc) : Table :=
  { t with proc := Function.update t.proc i p }

def setCpu (t : Table) (c : Nat) (p : Option Slot) : Table :=
  { t with cpu := Function.update t.cpu c p }

end Table

def wakeup1 (chan : Option Chan) (t : Table) : Table :=
  { t with proc := fun i =>
      if (t.proc i).state = .sleeping ∧ (t.proc i).chan = chan then
        { t.proc i with state := .runnable }
      else t.proc i }

/-- The critical section of `allocproc`. -/
def allocproc (t : Table) : Option (Slot × Table) :=
  match slots.find? (fun i => (t.proc i).state = .unused) with
  | none => none
  | some i =>
    some (i, { t.set i { t.proc i with state := .embryo, pid := t.nextpid } with
      nextpid := wrap32 (t.nextpid + 1) })

/-- The end of `userinit`, once `allocproc` has returned `p`. -/
def userinitDone (p : Slot) (t : Table) : Table :=
  t.set p { t.proc p with ticks := 0, tickets := 10, state := .runnable }

/-- The end of a successful `fork` of `curproc` into `np`. -/
def forkDone (curproc np : Slot) (t : Table) : Table :=
  t.set np { t.proc np with
    ticks := 0
    tickets := if 10 ≥ (t.proc curproc).tickets then 10 else (t.proc curproc).tickets
    parent := some curproc
    state := .runnable }

/-- `kalloc` in `allocproc` or `copyuvm` in `fork` has failed. -/
def forkFail (np : Slot) (t : Table) : Table :=
  t.set np { t.proc np with state := .unused }

def settickets (p : Slot) (number : Int) (t : Table) : Int × Table :=
  (0, t.set p { t.proc p with tickets := number })

def sysSettickets (p : Slot) (n : Int) (t : Table) : Int × Table :=
  if n < 10 then (-1, t) else settickets p n t

def kill (pid : Int) (t : Table) : Int × Table :=
  match slots.find? (fun i => (t.proc i).pid = pid) with
  | none => (-1, t)
  | some i =>
    (0, t.set i { t.proc i with
      killed := true
      state := if (t.proc i).state = .sleeping then .runnable else (t.proc i).state })

/-- `sched` gives the processor back to `scheduler`, which accounts one tick to the process. -/
def sched (c : Nat) (p : Slot) (t : Table) : Table :=
  (t.setCpu c none).set p { t.proc p with ticks := wrap32 ((t.proc p).ticks + 1) }

def yield (c : Nat) (p : Slot) (t : Table) : Table :=
  sched c p (t.set p { t.proc p with state := .runnable })

/-- Everything in `sleep` up to `sched`; `thread` says how the sleeper continues. -/
def sleep (c : Nat) (p : Slot) (chan : Chan) (thread : Thread) (t : Table) : Table :=
  sched c p (t.set p { t.proc p with chan := some chan, state := .sleeping, thread := thread })

def passChildren (curproc initproc : Slot) (t : Table) : Table :=
  slots.foldl (fun t i =>
    if (t.proc i).parent = some curproc then
      let t := t.set i { t.proc i with parent := some initproc }
      if (t.proc i).state = .zombie then wakeup1 (some (.proc initproc)) t else t
    else t) t

/-- The critical section of `exit`. -/
def exit (c : Nat) (curproc initproc : Slot) (t : Table) : Table :=
  let t := wakeup1 ((t.proc curproc).parent.map Chan.proc) t
  let t := passChildren curproc initproc t
  sched c curproc (t.set curproc { t.proc curproc with state := .zombie })

inductive WaitResult
  | reaped (pid : Int)
  | failed
  | slept
  deriving DecidableEq, Repr

/-- One round of the loop in `wait`, from the scan of the table to the return or to `sleep`. -/
def waitScan (c : Nat) (curproc : Slot) (t : Table) : WaitResult × Table :=
  let havekids := slots.any (fun i => (t.proc i).parent = some curproc)
  match slots.find? (fun i => (t.proc i).parent = some curproc ∧ (t.proc i).state = .zombie) with
  | some i =>
    let pid := (t.proc i).pid
    let t := t.set i { t.proc i with
      pid := 0, parent := none, killed := false, state := .unused }
    (.reaped pid, t.set curproc { t.proc curproc with thread := .user })
  | none =>
    if !havekids || (t.proc curproc).killed then
      (.failed, t.set curproc { t.proc curproc with thread := .user })
    else (.slept, sleep c curproc (.proc curproc) .waiting t)

end Xv6.Ptable
