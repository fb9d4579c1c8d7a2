import Xv6.LinkList
import Xv6.Param
import Xv6.Run

/-!
# The disk queue

`ide.c`, for any processes `P`. A critical section under `idelock` is a step; between calls of `iderw`
the process that holds the sleep-lock of a buffer may change it. The device works on one command at a
time and answers it with one interrupt; it does not fail. `arrived`, `started` and `done` record the
requests that were queued, the buffers that were passed to `idestart`, and what the device has
transferred.
-/

namespace Xv6.Ide

open Function

variable {P : Type} {α : Type*}

structure Buf (P : Type) (α : Type*) where
  dev : Nat
  blockno : Nat
  /-- `B_VALID` -/
  valid : Bool
  /-- `B_DIRTY` -/
  dirty : Bool
  /-- The process that holds the sleep-lock. -/
  lock : Option P
  data : α
  qnext : Option (Fin NBUF)

/-- The flags that `iderw` waits for. -/
def Buf.clean (x : Buf P α) : Bool := x.valid && !x.dirty

/-- What `idestart` writes to the ports 0x1f3 to 0x1f7, with the data that it sends. -/
structure Command (α : Type*) where
  lo : Nat
  mid : Nat
  hi : Nat
  select : Nat
  write : Option α

namespace Command

def drive (c : Command α) : Nat := c.select / 16 % 2

def sector (c : Command α) : Nat := c.lo + 256 * c.mid + 65536 * c.hi + 16777216 * (c.select % 16)

end Command

abbrev SECTOR_SIZE : Nat := 512

def Buf.command (x : Buf P α) : Command α :=
  let sector := x.blockno * (BSIZE / SECTOR_SIZE)
  { lo := sector % 256
    mid := sector / 256 % 256
    hi := sector / 65536 % 256
    select := 0xe0 + x.dev % 2 * 16 + sector / 16777216 % 16
    write := if x.dirty then some x.data else none }

inductive Call
  | idle
  /-- `sleep(b, &idelock)`, for the `k`th request. -/
  | asleep (b : Fin NBUF) (k : Nat)
  | awake (b : Fin NBUF) (k : Nat)
  deriving DecidableEq

/-- A request to read or write the block of a buffer. -/
structure Request (α : Type*) where
  buf : Fin NBUF
  drive : Nat
  block : Nat
  write : Option α

/-- What the device has done for the first buffer of the queue; `data` is then in the block. -/
structure Transfer (α : Type*) where
  buf : Fin NBUF
  drive : Nat
  sector : Nat
  write : Option α
  data : α

structure State (P : Type) (α : Type*) where
  buf : Fin NBUF → Buf P α
  idequeue : Option (Fin NBUF)
  /-- The command that the device works on. -/
  device : Option (Command α)
  disk : Nat → Nat → α
  call : P → Call
  arrived : List (Request α)
  started : List (Fin NBUF)
  done : List (Transfer α)

inductive Stop
  | panic (msg : String)
  /-- The loop over the queue does not end. -/
  | loops

namespace State

variable (s : State P α)

def setBuf (b : Fin NBUF) (x : Buf P α) : State P α := { s with buf := update s.buf b x }

/-- `&idequeue`, or the address of a `qnext`. -/
def link : Option (Fin NBUF) → Option (Fin NBUF)
  | none => s.idequeue
  | some b => (s.buf b).qnext

def setLink : Option (Fin NBUF) → Option (Fin NBUF) → State P α
  | none, v => { s with idequeue := v }
  | some b, v => s.setBuf b { s.buf b with qnext := v }

/-- Start the request for `b`. -/
def idestart (b : Fin NBUF) : Except Stop (State P α) :=
  if (s.buf b).blockno ≥ FSSIZE then .error (.panic "incorrect blockno")
  else .ok { s with device := some (s.buf b).command, started := s.started ++ [b] }

/-- The request of buffer `b` at this time. -/
def request (b : Fin NBUF) : Request α :=
  ⟨b, (s.buf b).dev % 2, (s.buf b).blockno, if (s.buf b).dirty then some (s.buf b).data else none⟩

/-- Append `b` to the queue. -/
def append (b : Fin NBUF) : Except Stop (State P α) :=
  let s := s.setBuf b { s.buf b with qnext := none }
  match walk s.link (NBUF + 1) none with
  | none => .error .loops
  | some pp => .ok (s.setLink pp (some b))

/-- Start the disk if necessary. -/
def startFirst (b : Fin NBUF) : Except Stop (State P α) :=
  if s.idequeue = some b then s.idestart b else .ok s

/-- The test of the loop of `iderw`, which returns or sleeps. -/
def await [DecidableEq P] (p : P) (b : Fin NBUF) (k : Nat) : State P α :=
  { s with call := update s.call p (if (s.buf b).clean then .idle else .asleep b k) }

/-- `iderw` up to its first `sleep`. -/
def iderw [DecidableEq P] (havedisk1 : Bool) (p : P) (b : Fin NBUF) : Except Stop (State P α) :=
  if (s.buf b).lock ≠ some p then .error (.panic "iderw: buf not locked")
  else if (s.buf b).clean then .error (.panic "iderw: nothing to do")
  else if (s.buf b).dev ≠ 0 ∧ havedisk1 = false then .error (.panic "iderw: ide disk 1 not present")
  else do
    let s' ← s.append b
    let s' ← s'.startFirst b
    pure ({ s' with arrived := s.arrived ++ [s.request b] }.await p b s.arrived.length)

/-- The device ends its command. -/
def complete (c : Command α) : State P α × α :=
  match c.write with
  | some data =>
    ({ s with
      device := none
      disk := update s.disk c.drive (update (s.disk c.drive) c.sector data) }, data)
  | none => ({ s with device := none }, s.disk c.drive c.sector)

/-- `wakeup(b)` -/
def wakeup (b : Fin NBUF) : State P α :=
  { s with call := fun p =>
      match s.call p with
      | .asleep b' k => if b' = b then .awake b' k else .asleep b' k
      | v => v }

/-- The buffer `b` with what the interrupt handler changes; `answer` is what it reads from the
device. -/
def served (b : Fin NBUF) (answer : α) : Buf P α :=
  { s.buf b with
    data := if (s.buf b).dirty then (s.buf b).data else answer, valid := true, dirty := false }

/-- The handler for the first buffer `b` of the queue. -/
def finish (b : Fin NBUF) (c : Command α) (answer : α) : State P α :=
  { (s.setBuf b (s.served b answer)).wakeup b with
    idequeue := (s.buf b).qnext
    done := s.done ++ [⟨b, c.drive, c.sector, c.write, answer⟩] }

/-- The interrupt for command `c`. -/
def ideintr (c : Command α) : Except Stop (State P α) :=
  let r := s.complete c
  match r.1.idequeue with
  | none => .ok r.1
  | some b =>
    let s' := r.1.finish b c r.2
    match s'.idequeue with
    | none => .ok s'
    | some b' => s'.idestart b'

end State

inductive Event (P : Type) (α : Type*)
  | acquiresleep (p : P) (b : Fin NBUF)
  | releasesleep (p : P) (b : Fin NBUF)
  /-- The process that holds the lock changes the buffer. -/
  | change (p : P) (b : Fin NBUF) (valid dirty : Bool) (data : α)
  /-- `bget` uses the buffer for another block. -/
  | recycle (b : Fin NBUF) (dev blockno : Nat)
  | iderw (p : P) (b : Fin NBUF)
  /-- A process that was woken up goes on. -/
  | resume (p : P)
  | ideintr

/-- A step that would panic is not enabled. -/
def step [DecidableEq P] (havedisk1 : Bool) (s : State P α) : Event P α → Option (State P α)
  | .acquiresleep p b =>
    if s.call p = .idle ∧ (s.buf b).lock = none then
      some (s.setBuf b { s.buf b with lock := some p })
    else none
  | .releasesleep p b =>
    if s.call p = .idle ∧ (s.buf b).lock = some p then
      some (s.setBuf b { s.buf b with lock := none })
    else none
  | .change p b valid dirty data =>
    if s.call p = .idle ∧ (s.buf b).lock = some p then
      some (s.setBuf b { s.buf b with valid := valid, dirty := dirty, data := data })
    else none
  | .recycle b dev blockno =>
    if (s.buf b).lock = none then
      some (s.setBuf b { s.buf b with
        dev := dev, blockno := blockno, valid := false, dirty := false })
    else none
  | .iderw p b => if s.call p = .idle then (s.iderw havedisk1 p b).toOption else none
  | .resume p =>
    match s.call p with
    | .awake b k => some (s.await p b k)
    | _ => none
  | .ideintr => s.device.bind (fun c => (s.ideintr c).toOption)

/-- No request has been made yet. -/
structure Boot (s : State P α) : Prop where
  idequeue : s.idequeue = none
  device : s.device = none
  call : ∀ p, s.call p = .idle
  arrived : s.arrived = []
  started : s.started = []
  done : s.done = []

end Xv6.Ide
