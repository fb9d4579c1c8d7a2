import Xv6.FileTable
import Xv6.FsLink

/-!
# System calls on files

The calls of `sysfile.c` with `fork` and `exit`, as they act on the file system, the file table, the
open files and the current directories of the processes. Each call runs from its beginning to its
end. What `allocproc`, `copyuvm` and `kalloc` return, and what `exec` reads, is decided from
outside; pipes are known here by their files only.
-/

namespace Xv6.Syscall

open Function
open Prog
open Fs (FsState FsM)
open Ptable (Slot)
open Ftable (FdType FileId Fd filealloc filedup filecloseRef argfd fdalloc)

structure Kernel where
  fs : FsState
  file : FileId → Ftable.File
  ofile : Slot → Fd → Option FileId
  /-- The current directory, as an entry of the inode cache; a slot without one has no process or
  a zombie. -/
  cwd : Slot → Option Nat
  initproc : Slot

namespace Kernel

def setFs (k : Kernel) (s : FsState) : Kernel := { k with fs := s }

def setFile (k : Kernel) (file : FileId → Ftable.File) : Kernel := { k with file := file }

def setFiles (k : Kernel) (p : Slot) (o : Fd → Option FileId) : Kernel :=
  { k with ofile := update k.ofile p o }

def setCwd (k : Kernel) (p : Slot) (c : Option Nat) : Kernel := { k with cwd := update k.cwd p c }

end Kernel

abbrev KernelM (α : Type) := Prog Kernel α

def onFs {α : Type} (p : FsM α) : KernelM α := zoom Kernel.fs (fun s k => k.setFs s) p

/-! ### Files -/

def fileclose (f : FileId) : KernelM Unit := do
  let k ← get
  match filecloseRef f k.file with
  | none => panicWith "fileclose"
  | some (ff, file) =>
    modify (·.setFile file)
    match ff with
    | none => pure ()
    -- `pipeclose` concerns the pipe only
    | some ff => if ff.type = .inode then onFs (Fs.iput ff.ip) else pure ()

def sysDup (p : Slot) (fd : Int) : KernelM Int := do
  let k ← get
  match argfd (k.ofile p) fd with
  | none => pure (-1)
  | some (_, f) =>
    match fdalloc (k.ofile p) f with
    | none => pure (-1)
    | some (fd, o) =>
      modify (·.setFiles p o)
      match filedup f k.file with
      | none => panicWith "filedup"
      | some file =>
        modify (·.setFile file)
        pure fd.val

def sysClose (p : Slot) (fd : Int) : KernelM Int := do
  let k ← get
  match argfd (k.ofile p) fd with
  | none => pure (-1)
  | some (fd, f) =>
    modify (·.setFiles p (update (k.ofile p) fd none))
    fileclose f
    pure 0

/-- The assignments to `f` at the end of `sys_open`. -/
def opened (f : Ftable.File) (ip omode : Nat) : Ftable.File :=
  { f with
    type := .inode
    ip := ip
    off := 0
    readable := omode &&& O_WRONLY = 0
    writable := omode &&& O_WRONLY ≠ 0 ∨ omode &&& O_RDWR ≠ 0 }

def sysOpen (p : Slot) (cwd : Nat) (path : List UInt8) (omode : Nat) : KernelM Int := do
  match ← onFs (Fs.openInode path omode cwd) with
  | none => pure (-1)
  | some ip =>
    let k ← get
    match filealloc k.file with
    | none =>
      onFs (Fs.iunlockput ip)
      pure (-1)
    | some (f, file) =>
      modify (·.setFile file)
      match fdalloc (k.ofile p) f with
      | none =>
        fileclose f
        onFs (Fs.iunlockput ip)
        pure (-1)
      | some (fd, o) =>
        modify (·.setFiles p o)
        onFs (Fs.iunlock ip)
        modify (fun k => k.setFile (update k.file f (opened (k.file f) ip omode)))
        pure fd.val

/-- The assignments to one end of a new pipe. -/
def piped (f : Ftable.File) (page : Nat) (writable : Bool) : Ftable.File :=
  { f with type := .pipe, readable := !writable, writable := writable, pipe := page }

/-- The two files; `page` is what `kalloc` returns. -/
def pipealloc (page : Option Nat) : KernelM (Option (FileId × FileId)) := do
  let k ← get
  match filealloc k.file with
  | none => pure none
  | some (f0, file) =>
    modify (·.setFile file)
    match filealloc file with
    | none =>
      fileclose f0
      pure none
    | some (f1, file) =>
      modify (·.setFile file)
      match page with
      | none =>
        fileclose f0
        fileclose f1
        pure none
      | some page =>
        modify (fun k => k.setFile (update k.file f0 (piped (k.file f0) page false)))
        modify (fun k => k.setFile (update k.file f1 (piped (k.file f1) page true)))
        pure (some (f0, f1))

def sysPipe (p : Slot) (page : Option Nat) : KernelM Int := do
  match ← pipealloc page with
  | none => pure (-1)
  | some (rf, wf) =>
    let k ← get
    match fdalloc (k.ofile p) rf with
    | none =>
      fileclose rf
      fileclose wf
      pure (-1)
    | some (fd0, o) =>
      modify (·.setFiles p o)
      match fdalloc o wf with
      | none =>
        modify (·.setFiles p (update o fd0 none))
        fileclose rf
        fileclose wf
        pure (-1)
      | some (_, o) =>
        modify (·.setFiles p o)
        pure 0

/-! ### Processes -/

/-- The loop of `fork` over the open files. -/
def forkFiles (p np : Slot) : List Fd → KernelM Unit
  | [] => pure ()
  | fd :: fds => do
    let k ← get
    match k.ofile p fd with
    | none => forkFiles p np fds
    | some f =>
      match filedup f k.file with
      | none => panicWith "filedup"
      | some file =>
        modify (fun k => (k.setFile file).setFiles np (update (k.ofile np) fd (some f)))
        forkFiles p np fds

/-- The slot and the pid of the new process are those that `allocproc` chose, if it and `copyuvm`
succeed. -/
def fork (p : Slot) (cwd : Nat) : Option (Slot × Int) → KernelM Int
  | none => pure (-1)
  | some (np, pid) => do
    forkFiles p np (List.finRange NOFILE)
    let c ← onFs (Fs.idup cwd)
    modify (·.setCwd np (some c))
    pure pid

/-- The loop of `exit` over the open files. -/
def exitFiles (p : Slot) : List Fd → KernelM Unit
  | [] => pure ()
  | fd :: fds => do
    let k ← get
    match k.ofile p fd with
    | none => exitFiles p fds
    | some f =>
      fileclose f
      modify (fun k => k.setFiles p (update (k.ofile p) fd none))
      exitFiles p fds

def exit (p : Slot) (cwd : Nat) : KernelM Int := do
  let k ← get
  if p = k.initproc then panicWith "init exiting"
  else
    exitFiles p (List.finRange NOFILE)
    onFs (Fs.iput cwd)
    modify (·.setCwd p none)
    pure 0

def sysChdir (p : Slot) (cwd : Nat) (path : List UInt8) : KernelM Int := do
  match ← onFs (Fs.sysChdir path cwd) with
  | none => pure (-1)
  | some ip =>
    modify (·.setCwd p (some ip))
    pure 0

/-! ### Runs -/

inductive Call
  /-- A call whose arguments cannot be fetched. -/
  | badArgs
  | open (path : List UInt8) (omode : Nat)
  | close (fd : Int)
  | dup (fd : Int)
  | pipe (page : Option Nat)
  | fork (np : Option (Slot × Int))
  | exit
  | chdir (path : List UInt8)
  | link (old new : List UInt8)
  | unlink (path : List UInt8)
  | mkdir (path : List UInt8)
  | mknod (path : List UInt8) (major minor : Nat)
  | exec (path : List UInt8) (reads : List (Nat × Nat))
  deriving DecidableEq, Repr

/-- The call of process `p` with current directory `cwd`. -/
def call (p : Slot) (cwd : Nat) : Call → KernelM Int
  | .badArgs => pure (-1)
  | .open path omode => sysOpen p cwd path omode
  | .close fd => sysClose p fd
  | .dup fd => sysDup p fd
  | .pipe page => sysPipe p page
  | .fork np => fork p cwd np
  | .exit => exit p cwd
  | .chdir path => sysChdir p cwd path
  | .link old new => onFs (Fs.sysLink old new cwd)
  | .unlink path => onFs (Fs.sysUnlink path cwd)
  | .mkdir path => onFs (Fs.sysMkdir path cwd)
  | .mknod path major minor => onFs (Fs.sysMknod path major minor cwd)
  | .exec path reads => onFs (Fs.execInode path reads cwd)

/-- The slot of the process that a call creates. -/
def Call.newSlot : Call → Option Slot
  | .fork (some (np, _)) => some np
  | _ => none

/-- `allocproc` never returns the slot of a process. -/
def Call.Fits (k : Kernel) (x : Call) : Prop := ∀ np ∈ x.newSlot, k.cwd np = none

instance (k : Kernel) (x : Call) : Decidable (x.Fits k) :=
  inferInstanceAs (Decidable (∀ np ∈ x.newSlot, k.cwd np = none))

/-- A call that returns; a panic or a sleep without end stops the run. -/
def step (k : Kernel) (e : Slot × Call) : Option Kernel :=
  match k.cwd e.1 with
  | none => none
  | some cwd =>
    if e.2.Fits k then
      match call e.1 cwd e.2 k with
      | .ok (_, k') => some k'
      | .error _ => none
    else none

/-! ### Boot -/

/-- The kernel before the first process. -/
def boot (fs : FsState) (initproc : Slot) : Kernel where
  fs := fs
  file _ := {}
  ofile _ _ := none
  cwd _ := none
  initproc := initproc

/-- `p->cwd = namei("/")`; a path from the root does not need a current directory. -/
def userinit : KernelM Unit := do
  let c ← onFs (Fs.namei [Fs.slash] 0)
  modify (fun k => k.setCwd k.initproc c)

end Xv6.Syscall
