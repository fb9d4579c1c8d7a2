import Mathlib.Logic.Relation
import Xv6.FileTable
import Xv6.FsCache
import Xv6.FsWrite
import Xv6.Interleave

/-!
# Writing through a shared file

Processes that share one `struct file` call `filewrite`. A call is cut at every place where another
process may come in between: before it has the lock of the inode and after each of the statements
under the lock. `begin_op` and `end_op` are left out, they only delimit the transactions. Meanwhile
other processes use the file system, without writing this file.
-/

namespace Xv6.Fs

open Function
open Relation (ReflTransGen)

/-- `((MAXOPBLOCKS-1-1-2) / 2) * 512` -/
abbrev chunkMax : Nat := (MAXOPBLOCKS - 1 - 1 - 2) / 2 * 512

/-- How far `filewrite` is in its loop. -/
inductive WriteStage
  /-- `i < n` -/
  | test
  /-- `ilock(f->ip)` -/
  | lock (n1 : Nat)
  /-- `r = writei(f->ip, addr + i, f->off, n1)` -/
  | write (n1 : Nat)
  /-- `if(r > 0) f->off += r` -/
  | advance (n1 : Nat) (r : Int)
  /-- `iunlock(f->ip)`, and the tests of `r`. -/
  | unlock (n1 : Nat) (r : Int)
  deriving DecidableEq, Repr

/-- A call of `filewrite`; `sys_write` has checked that `n` is not negative. -/
structure WriteCall where
  addr : Nat → UInt8
  n : Nat
  i : Nat
  stage : WriteStage

def WriteCall.bytes (c : WriteCall) : List UInt8 := (List.range c.n).map c.addr

structure Writers (ι : Type) where
  fs : FsState
  file : Ftable.File
  call : ι → Option WriteCall
  fault : Option Fault
  /-- Records that nothing reads: the buffers of the calls of each process, what the finished ones
  have returned, and what `writei` has stored. -/
  calls : ι → List (List UInt8)
  returned : ι → List Int
  log : List (ι × List UInt8)

namespace Writers

variable {ι : Type} [DecidableEq ι] (k : Writers ι) (p : ι)

def goto (c : WriteCall) : Writers ι := { k with call := update k.call p (some c) }

def finish (r : Int) : Writers ι :=
  { k with call := update k.call p none, returned := update k.returned p (k.returned p ++ [r]) }

def stop (e : Fault) : Writers ι := { k with fault := some e }

/-- The beginning of `filewrite`; writing to a pipe is not modelled here. -/
def filewrite (addr : Nat → UInt8) (n : Nat) : Option (Writers ι) :=
  let c : WriteCall := ⟨addr, n, 0, .test⟩
  let k := { k with calls := update k.calls p (k.calls p ++ [c.bytes]) }
  if k.file.writable = false then some (k.finish p (-1))
  else
    match k.file.type with
    | .pipe => none
    | .none => some (k.stop (.panic "filewrite"))
    | .inode => some (k.goto p c)

/-- `return i == n ? n : -1` -/
def leave (c : WriteCall) : Writers ι := k.finish p (if c.i = c.n then c.n else -1)

/-- `writei` returns the number of bytes that it has stored, or -1. -/
def stored (c : WriteCall) (n1 : Nat) (r : Int) : List (ι × List UInt8) :=
  if r < 0 then [] else [(p, (List.range n1).map (fun j => c.addr (c.i + j)))]

def nextStage (c : WriteCall) : WriteStage → Option (Writers ι)
  | .test =>
    if c.i < c.n then some (k.goto p { c with stage := .lock (min (c.n - c.i) chunkMax) })
    else some (k.leave p c)
  | .lock n1 =>
    match ilock k.file.ip k.fs with
    | .ok (_, fs) => some ({ k with fs := fs }.goto p { c with stage := .write n1 })
    -- another process has the lock
    | .error (.deadlock _) => none
    | .error e => some (k.stop e)
  | .write n1 =>
    match writei k.file.ip (fun j => c.addr (c.i + j)) k.file.off n1 k.fs with
    | .ok (r, fs) =>
      some ({ k with fs := fs, log := k.log ++ stored p c n1 r }.goto p
        { c with stage := .advance n1 r })
    | .error e => some (k.stop e)
  | .advance n1 r =>
    let off := if r > 0 then (k.file.off + r.toNat) % 2 ^ 32 else k.file.off
    some ({ k with file := { k.file with off := off } }.goto p { c with stage := .unlock n1 r })
  | .unlock n1 r =>
    match iunlock k.file.ip k.fs with
    | .ok (_, fs) =>
      let k := { k with fs := fs }
      if r < 0 then some (k.leave p c)
      else if r ≠ n1 then some (k.stop (.panic "short filewrite"))
      else some (k.goto p { c with i := c.i + n1, stage := .test })
    | .error e => some (k.stop e)

/-- The process goes on with its call. -/
def next : Option (Writers ι) :=
  match k.call p with
  | some c => k.nextStage p c c.stage
  | none => none

end Writers

/-- Under the lock of the inode. -/
def WriteStage.inside : WriteStage → Bool
  | .test | .lock _ => false
  | _ => true

variable {ι : Type} [DecidableEq ι]

def Writers.Inside (k : Writers ι) (p : ι) : Prop := ∃ c, k.call p = some c ∧ c.stage.inside = true

/-- What other processes do: they keep a good file system and do not write the file, and the lock
of a process under it is not taken away. -/
structure Elsewhere (k : Writers ι) (fs : FsState) : Prop where
  good : Good fs
  loaded : Loaded fs k.file.ip
  inum : (fs.icache k.file.ip).inum = (k.fs.icache k.file.ip).inum
  file : files fs (k.fs.icache k.file.ip).inum = files k.fs (k.fs.icache k.file.ip).inum
  lock : ∀ p, k.Inside p → (fs.icache k.file.ip).locked = true

inductive WriteStep : Writers ι → Writers ι → Prop
  | call {k k' : Writers ι} {p : ι} {addr : Nat → UInt8} {n : Nat} (hrun : k.fault = none)
      (hp : k.call p = none) (hk : k.filewrite p addr n = some k') : WriteStep k k'
  | next {k k' : Writers ι} {p : ι} (hrun : k.fault = none) (hk : k.next p = some k') :
      WriteStep k k'
  | other {k : Writers ι} {fs : FsState} (h : Elsewhere k fs) : WriteStep k { k with fs := fs }

end Xv6.Fs
