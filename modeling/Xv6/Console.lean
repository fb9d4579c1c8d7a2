import Xv6.Bytes
import Xv6.Run

/-!
# The console input queue

`consoleintr` puts characters into a ring of `INPUT_BUF` bytes and `consoleread` takes them out.
Every event is one critical section of `cons.lock`: an interrupt with the characters it has, the
beginning of a read, or a reader that comes back from `sleep`; a section of a read ends when the
read returns or goes to sleep. A sleeper may come back at any time.

`Discipline` says what the ring is for: the line that is being edited, and the queue of the
characters that have been committed and not read. The ring refines it.
-/

namespace Xv6.Cons

open Function

abbrev INPUT_BUF : Nat := 128

abbrev carriageReturn : UInt8 := 13

abbrev delete : UInt8 := 127

/-- `C('D')` and so on. -/
abbrev ctrlD : UInt8 := 4

abbrev ctrlH : UInt8 := 8

abbrev ctrlP : UInt8 := 16

abbrev ctrlU : UInt8 := 21

structure Input where
  buf : Bytes INPUT_BUF
  r : UInt32
  w : UInt32
  e : UInt32

namespace Input

def init : Input := ⟨Bytes.zero, 0, 0, 0⟩

/-- `input.buf[x % INPUT_BUF]` -/
def byteAt (inp : Input) (x : UInt32) : UInt8 := inp.buf.get (x.toNat % INPUT_BUF)

/-- The loop for `C('U')`; it runs at most once for every position between `w` and `e`. -/
def killLine : Nat → Input → Input
  | 0, inp => inp
  | fuel + 1, inp =>
    if inp.e ≠ inp.w ∧ inp.byteAt (inp.e - 1) ≠ newline then
      killLine fuel { inp with e := inp.e - 1 }
    else inp

def store (inp : Input) (c : UInt8) : Input :=
  let inp := { inp with
    buf := inp.buf.write (inp.e.toNat % INPUT_BUF) (fun _ => c) 1
    e := inp.e + 1 }
  if c = newline ∨ c = ctrlD ∨ inp.e = inp.r + 128 then { inp with w := inp.e } else inp

/-- One round of the loop in `consoleintr`. -/
def key (inp : Input) (c : UInt8) : Input :=
  if c = ctrlP then inp
  else if c = ctrlU then killLine (inp.e - inp.w).toNat inp
  else if c = ctrlH ∨ c = delete then
    if inp.e ≠ inp.w then { inp with e := inp.e - 1 } else inp
  else if c ≠ 0 ∧ inp.e - inp.r < 128 then
    inp.store (if c = carriageReturn then newline else c)
  else inp

def consoleintr (inp : Input) (cs : List UInt8) : Input := cs.foldl key inp

end Input

/-- How a section of a read ends, with the value of `n`. `eof` has consumed a `C('D')`. -/
inductive ReadEnd
  | slept (n : Nat)
  | returned (n : Nat)
  | eof (n : Nat)
  deriving DecidableEq, Repr

/-- The loop of `consoleread` up to the next `sleep`: what it stores through `dst`. -/
def readLoop (target : Nat) : Nat → Input → List UInt8 × ReadEnd × Input
  | 0, inp => ([], .returned 0, inp)
  | n + 1, inp =>
    if inp.r = inp.w then ([], .slept (n + 1), inp)
    else
      let c := inp.byteAt inp.r
      let inp := { inp with r := inp.r + 1 }
      if c = ctrlD then
        if n + 1 < target then ([], .returned (n + 1), { inp with r := inp.r - 1 })
        else ([], .eof (n + 1), inp)
      else if c = newline then ([c], .returned n, inp)
      else
        let (cs, x, inp) := readLoop target n inp
        (c :: cs, x, inp)

/-- A read in `sleep`: what is left of `n`, and what it has stored. -/
structure Reader where
  target : Nat
  n : Nat
  got : List UInt8
  deriving DecidableEq, Repr

/-- `byte` is stored by a read of process `i`; `ret` and `eof` are returns with their values. -/
inductive Item (ι : Type*)
  | byte (i : ι) (c : UInt8)
  | ret (i : ι) (value : Nat) (got : List UInt8)
  | eof (i : ι) (value : Nat)
  deriving DecidableEq

variable {ι : Type*} [DecidableEq ι]

structure Console (ι : Type*) where
  input : Input
  reader : ι → Option Reader
  log : List (Item ι)

inductive Event (ι : Type*)
  | intr (cs : List UInt8)
  | read (i : ι) (n : Int)
  | resume (i : ι)

/-- The reader and the log after a section of a read has stored `cs` and ended with `x`. -/
def after (i : ι) (rd : Reader) (cs : List UInt8) (x : ReadEnd) : Option Reader × List (Item ι) :=
  let got := rd.got ++ cs
  match x with
  | .slept n => (some { rd with n := n, got := got }, cs.map (.byte i))
  | .returned n => (none, cs.map (.byte i) ++ [.ret i (rd.target - n) got])
  | .eof n => (none, cs.map (.byte i) ++ [.eof i (rd.target - n)])

def readSection (m : Console ι) (i : ι) (rd : Reader) : Console ι :=
  let (cs, x, input) := readLoop rd.target rd.n m.input
  let (reader, items) := after i rd cs x
  { input := input, reader := update m.reader i reader, log := m.log ++ items }

/-- `n` may be any `int`; the loop does nothing unless it is positive. -/
def step (m : Console ι) : Event ι → Option (Console ι)
  | .intr cs => some { m with input := m.input.consoleintr cs }
  | .read i n =>
    match m.reader i with
    | none => some (readSection m i ⟨n.toNat, n.toNat, []⟩)
    | some _ => none
  | .resume i => (m.reader i).map (readSection m i)

def boot (ι : Type*) : Console ι := ⟨.init, fun _ => none, []⟩

/-! ### The line discipline -/

structure Discipline (ι : Type*) where
  line : List UInt8
  queue : List UInt8
  /-- Everything that has been committed. -/
  committed : List UInt8
  reader : ι → Option Reader
  log : List (Item ι)

namespace Discipline

def accept (d : Discipline ι) (c : UInt8) : Discipline ι :=
  let line := d.line ++ [c]
  if c = newline ∨ c = ctrlD ∨ d.queue.length + line.length = INPUT_BUF then
    { d with line := [], queue := d.queue ++ line, committed := d.committed ++ line }
  else { d with line := line }

def key (d : Discipline ι) (c : UInt8) : Discipline ι :=
  if c = 0 ∨ c = ctrlP then d
  else if c = ctrlU then { d with line := [] }
  else if c = ctrlH ∨ c = delete then { d with line := d.line.dropLast }
  else if d.queue.length + d.line.length < INPUT_BUF then
    d.accept (if c = carriageReturn then newline else c)
  else d

/-- A read takes characters until it has enough, a line is complete or the queue is empty. An end
of file is left for the next read unless it comes first. -/
def take (target : Nat) : Nat → List UInt8 → List UInt8 × ReadEnd × List UInt8
  | 0, queue => ([], .returned 0, queue)
  | n + 1, [] => ([], .slept (n + 1), [])
  | n + 1, c :: queue =>
    if c = ctrlD then
      if n + 1 < target then ([], .returned (n + 1), c :: queue) else ([], .eof (n + 1), queue)
    else if c = newline then ([c], .returned n, queue)
    else
      let (cs, x, queue) := take target n queue
      (c :: cs, x, queue)

def readSection (d : Discipline ι) (i : ι) (rd : Reader) : Discipline ι :=
  let (cs, x, queue) := take rd.target rd.n d.queue
  let (reader, items) := after i rd cs x
  { d with queue := queue, reader := update d.reader i reader, log := d.log ++ items }

def step (d : Discipline ι) : Event ι → Option (Discipline ι)
  | .intr cs => some (cs.foldl key d)
  | .read i n =>
    match d.reader i with
    | none => some (d.readSection i ⟨n.toNat, n.toNat, []⟩)
    | some _ => none
  | .resume i => (d.reader i).map (d.readSection i)

def boot (ι : Type*) : Discipline ι := ⟨[], [], [], fun _ => none, []⟩

end Discipline

end Xv6.Cons
