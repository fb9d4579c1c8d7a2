import Xv6.ProcTable
import Xv6.Run

/-!
# The lottery scheduler and the runs of the process table

One pass of the loop in `scheduler` draws a winning ticket and walks the table until the running
total passes it. Every event of `step` is one critical section of `ptable.lock`; a section that is
entered in `scheduler` and left by the resumed process is a single event.
-/

namespace Xv6.Ptable

/-- `& RAND_MAX` keeps the low 31 bits of the wrapped product. -/
def random (rseed : Int) : Int :=
  wrap32 (wrap32 (rseed * 1103515245) + 12345) % 2 ^ 31

theorem random_range (rseed : Int) : 0 ≤ random rseed ∧ random rseed < 2 ^ 31 :=
  ⟨Int.emod_nonneg _ (by decide), Int.emod_lt_of_pos _ (by decide)⟩

def Runnable (t : Table) (i : Slot) : Prop := (t.proc i).state = .runnable

instance (t : Table) (i : Slot) : Decidable (Runnable t i) :=
  inferInstanceAs (Decidable ((t.proc i).state = .runnable))

/-- The first loop of `scheduler`. -/
def addTickets (t : Table) : Int → List Slot → Int
  | total, [] => total
  | total, i :: is =>
    if (t.proc i).state ≠ .runnable then addTickets t total is
    else addTickets t (wrap32 (total + (t.proc i).tickets)) is

def totalTickets (t : Table) : Int := addTickets t 0 slots

/-- The second loop of `scheduler`, up to the process it switches to. -/
def findWinner (t : Table) (winner : Int) : Int → List Slot → Option Slot
  | _, [] => none
  | newTotal, i :: is =>
    if (t.proc i).state ≠ .runnable then findWinner t winner newTotal is
    else
      let newTotal := wrap32 (newTotal + (t.proc i).tickets)
      if newTotal > winner then some i else findWinner t winner newTotal is

variable {t : Table} {i : Slot}

theorem addTickets_runnable (h : Runnable t i) (total : Int) (is : List Slot) :
    addTickets t total (i :: is) = addTickets t (wrap32 (total + (t.proc i).tickets)) is :=
  if_neg (not_not.mpr h)

theorem addTickets_skip (h : ¬ Runnable t i) (total : Int)
    (is : List Slot) : addTickets t total (i :: is) = addTickets t total is :=
  if_pos h

theorem findWinner_cons_runnable (h : Runnable t i) (winner total : Int) (is : List Slot) :
    findWinner t winner total (i :: is) =
      if wrap32 (total + (t.proc i).tickets) > winner then some i
      else findWinner t winner (wrap32 (total + (t.proc i).tickets)) is :=
  if_neg (not_not.mpr h)

theorem findWinner_skip (h : ¬ Runnable t i) (winner total : Int)
    (is : List Slot) : findWinner t winner total (i :: is) = findWinner t winner total is :=
  if_pos h

/-- What the process does after `swtch` until it releases `ptable.lock` or calls `sched` again. -/
def resume (c : Nat) (p : Slot) (t : Table) : Table :=
  match (t.proc p).thread with
  | .user | .forking _ => t
  | .sleeping => t.set p { t.proc p with chan := none, thread := .user }
  | .waiting => (waitScan c p (t.set p { t.proc p with chan := none })).2

def dispatch (c : Nat) (p : Slot) (t : Table) : Table :=
  resume c p ((t.setCpu c (some p)).set p { t.proc p with state := .running })

/-- One pass of the loop in `scheduler`: the process it switched to, if any, and the table. -/
def scheduler (c : Nat) (t : Table) : Option Slot × Table :=
  if totalTickets t > 0 then
    let r := random t.rseed
    let winner := Int.tmod r (totalTickets t)
    match findWinner t winner 0 slots with
    | some p => (some p, dispatch c p { t with rseed := r })
    | none => (none, { t with rseed := r })
  else (none, t)

inductive Event
  | userinit
  | userinitDone
  | schedule (c : Nat)
  | fork (c : Nat)
  | forkFail (c : Nat)
  | forkDone (c : Nat)
  | settickets (c : Nat) (n : Int)
  | sleep (c : Nat) (chan : Chan)
  | wakeup (chan : Chan)
  | yield (c : Nat)
  | kill (pid : Int)
  | exit (c : Nat)
  | wait (c : Nat)
  deriving DecidableEq, Repr

/-- A system call of the process running on processor `c`, outside of `fork`. -/
def syscall (c : Nat) (t : Table) (f : Slot → Option Table) : Option Table :=
  match t.cpu c with
  | some p => if (t.proc p).thread = .user then f p else none
  | none => none

/-- A continuation of the `fork` that the process running on processor `c` has begun. -/
def infork (c : Nat) (t : Table) (f : Slot → Slot → Table) : Option Table :=
  match t.cpu c with
  | some p =>
    match (t.proc p).thread with
    | .forking np =>
      let t' := f p np
      some (t'.set p { t'.proc p with thread := .user })
    | _ => none
  | none => none

def step (t : Table) : Event → Option Table
  | .userinit =>
    match t.initproc with
    | some _ => none
    | none => (allocproc t).map (fun (p, t) => { t with initproc := some p })
  | .userinitDone =>
    match t.initproc with
    | some p => if (t.proc p).state = .embryo then some (userinitDone p t) else none
    | none => none
  | .schedule c =>
    match t.cpu c with
    | none => some (scheduler c t).2
    | some _ => none
  | .fork c =>
    syscall c t (fun p =>
      match allocproc t with
      | some (np, t) => some (t.set p { t.proc p with thread := .forking np })
      | none => some t)
  | .forkFail c => infork c t (fun _ np => forkFail np t)
  | .forkDone c => infork c t (fun p np => forkDone p np t)
  | .settickets c n => syscall c t (fun p => some (sysSettickets p n t).2)
  | .sleep c chan => syscall c t (fun p => some (sleep c p chan .sleeping t))
  | .wakeup chan => some (wakeup1 (some chan) t)
  | .yield c => (t.cpu c).map (fun p => yield c p t)
  | .kill pid => some (kill pid t).2
  | .exit c =>
    syscall c t (fun p =>
      match t.initproc with
      | some i => if p = i then none else some (exit c p i t)
      | none => none)
  | .wait c => syscall c t (fun p => some (waitScan c p t).2)

end Xv6.Ptable
