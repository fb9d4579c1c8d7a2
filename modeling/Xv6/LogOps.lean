import Mathlib.Algebra.BigOperators.Group.Finset.Basic
import Mathlib.Data.Fintype.BigOperators
import Xv6.Param
import Xv6.Run

/-!
# Operations and transactions

The part of `log.c` that runs under `log.lock`, for any number `N` of processes. Each critical
section is one event, the unlocked size check of `log_write` is an event of its own, and `commit`
is a sequence of events of the process that performs it. `Pc` records where a process is. An
operation also carries the set of blocks it has logged; in `opStep` it may log at most `MAXOPBLOCKS`
of them, so a further `log_write` is not enabled.
-/

namespace Xv6.Log

inductive Pc
  | idle
  /-- Between `begin_op` and `end_op`. -/
  | op (logged : Finset Nat)
  /-- In `log_write` of block `b`, after the size check. -/
  | checked (logged : Finset Nat) (b : Nat)
  /-- In `commit`, about to look at entry `tail` in `write_log`. -/
  | writeLog (tail : Nat)
  | writeHead
  | install (tail : Nat)
  | clearHead
  /-- `commit` has returned to `end_op`. -/
  | committed
  deriving DecidableEq

structure State (N : Nat) where
  start : Nat
  size : Nat
  outstanding : Nat
  committing : Bool
  /-- The logged block numbers `log.lh.block[0 .. log.lh.n)`. -/
  lh : List Nat
  pc : Fin N → Pc
  panic : Option String

/-- The log as `initlog` leaves it on the file system that `mkfs` makes. -/
def initlog (N : Nat) : State N where
  start := 2
  size := LOGSIZE
  outstanding := 0
  committing := false
  lh := []
  pc _ := .idle
  panic := none

inductive Op (N : Nat)
  | beginOp (p : Fin N)
  | logCheck (p : Fin N) (b : Nat)
  | logAppend (p : Fin N)
  | endOp (p : Fin N)
  | commit (p : Fin N)
  | endCommit (p : Fin N)
  deriving DecidableEq

namespace State

variable {N : Nat}

def setPc (s : State N) (p : Fin N) (pc : Pc) : State N :=
  { s with pc := Function.update s.pc p pc }

end State

variable {N : Nat}

/-- The critical section of `begin_op`; a process that has to sleep does not take it. -/
def beginOp (p : Fin N) (s : State N) : Option (State N) :=
  if s.committing then none
  else if s.lh.length + (s.outstanding + 1) * MAXOPBLOCKS > LOGSIZE then none
  else some { s.setPc p (.op ∅) with outstanding := s.outstanding + 1 }

/-- The checks of `log_write` before it takes the lock. -/
def logCheck (p : Fin N) (logged : Finset Nat) (b : Nat) (s : State N) : State N :=
  if s.lh.length ≥ LOGSIZE ∨ s.lh.length ≥ s.size - 1 then
    { s with panic := some "too big a transaction" }
  else if s.outstanding < 1 then { s with panic := some "log_write outside of trans" }
  else s.setPc p (.checked logged b)

/-- The critical section of `log_write`. -/
def logAppend (p : Fin N) (logged : Finset Nat) (b : Nat) (s : State N) : State N :=
  { s.setPc p (.op (insert b logged)) with
    lh := if b ∈ s.lh then s.lh else s.lh ++ [b] }

/-- The first critical section of `end_op`. -/
def endOp (p : Fin N) (s : State N) : State N :=
  let s := { s with outstanding := s.outstanding - 1 }
  if s.committing then { s with panic := some "log.committing" }
  else if s.outstanding = 0 then { s.setPc p (.writeLog 0) with committing := true }
  else s.setPc p .idle

/-- The next step of `commit`. -/
def commitStep (p : Fin N) (s : State N) : Option (State N) :=
  match s.pc p with
  | .writeLog tail =>
    if s.lh.length = 0 then some (s.setPc p .committed)
    else if tail < s.lh.length then some (s.setPc p (.writeLog (tail + 1)))
    else some (s.setPc p .writeHead)
  | .writeHead => some (s.setPc p (.install 0))
  | .install tail =>
    if tail < s.lh.length then some (s.setPc p (.install (tail + 1)))
    else some (s.setPc p .clearHead)
  | .clearHead => some { s.setPc p .committed with lh := [] }
  | _ => none

/-- A step, with a limit to the number of blocks that an operation logs. -/
def limitStep (limit : Option Nat) (s : State N) (o : Op N) : Option (State N) :=
  if s.panic.isSome then none
  else
    match o with
    | .beginOp p => if s.pc p = .idle then beginOp p s else none
    | .logCheck p b =>
      match s.pc p with
      | .op logged =>
        if limit.all (fun n => (insert b logged).card ≤ n) then some (logCheck p logged b s)
        else none
      | _ => none
    | .logAppend p =>
      match s.pc p with
      | .checked logged b => some (logAppend p logged b s)
      | _ => none
    | .endOp p =>
      match s.pc p with
      | .op _ => some (endOp p s)
      | _ => none
    | .commit p => commitStep p s
    | .endCommit p =>
      if s.pc p = .committed then some { s.setPc p .idle with committing := false } else none

def opStep : State N → Op N → Option (State N) := limitStep (some MAXOPBLOCKS)

/-- Without a limit on the number of blocks that an operation logs. -/
def logStep : State N → Op N → Option (State N) := limitStep none

/-- The log block that the next step of `write_log` writes. -/
def nextLogBlock (s : State N) (p : Fin N) : Option Nat :=
  match s.pc p with
  | .writeLog tail => if tail < s.lh.length then some (s.start + tail + 1) else none
  | _ => none

/-- What the reservation promises: no panic, a transaction that fits, and a `write_log` that stays
inside the log region. -/
structure Safe (s : State N) : Prop where
  noPanic : s.panic = none
  fits : s.lh.length ≤ s.size - 1
  inLog : ∀ p b, nextLogBlock s p = some b → b < s.start + s.size

/-- What the operation at `pc` may still add to the log. -/
def Pc.remaining : Pc → Nat
  | .op logged | .checked logged _ => MAXOPBLOCKS - logged.card
  | _ => 0

/-- The number of log blocks that the transaction may come to need. -/
def demand (s : State N) : Nat := s.lh.length + ∑ p, (s.pc p).remaining

end Xv6.Log
