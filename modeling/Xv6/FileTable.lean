import Xv6.Param
import Xv6.ProcFiles

/-!
# The file table

The table of `file.c`, the open files of the processes and the pipes, with the calls that move
references to them: `open`, `dup`, `pipe`, `fork`, `close` and `exit`. A call is cut at every place
where another process may come in between: where `ftable.lock`, the lock of a pipe or the lock of
the page allocator is taken.
Which inode a path names, and whether memory is left, is decided from outside. Closing an inode,
reading and writing do not touch the table and are left out.
-/

namespace Xv6.Ftable

open Function
open Ptable (Slot Table Event Thread)

/-- The constants `FD_NONE`, `FD_PIPE` and `FD_INODE`. -/
inductive FdType
  | none
  | pipe
  | inode
  deriving DecidableEq, Repr

/-- A pipe is known by its page, an inode by its place in the inode cache. -/
structure File where
  type : FdType := .none
  ref : Nat := 0
  readable : Bool := false
  writable : Bool := false
  pipe : Nat := 0
  ip : Nat := 0
  off : Nat := 0
  deriving DecidableEq, Repr

abbrev FileId := Fin NFILE

abbrev Fd := Fin NOFILE

/-! ### `file.c` -/

def filealloc (file : FileId → File) : Option (FileId × (FileId → File)) :=
  match (List.finRange NFILE).find? (fun f => (file f).ref = 0) with
  | some f => some (f, update file f { file f with ref := 1 })
  | none => none

/-- `none` is the panic. -/
def filedup (f : FileId) (file : FileId → File) : Option (FileId → File) :=
  if (file f).ref < 1 then none
  else some (update file f { file f with ref := (file f).ref + 1 })

/-- The critical section of `fileclose`, with the copy `ff` if the reference was the last one.
`none` is the panic. -/
def filecloseRef (f : FileId) (file : FileId → File) :
    Option (Option File × (FileId → File)) :=
  if (file f).ref < 1 then none
  else
    let ref := (file f).ref - 1
    if ref > 0 then some (none, update file f { file f with ref := ref })
    else some (some { file f with ref := ref },
      update file f { file f with ref := 0, type := .none })

/-! ### Descriptors -/

def argfd (ofile : Fd → Option FileId) (fd : Int) : Option (Fd × FileId) :=
  if h : 0 ≤ fd ∧ fd < NOFILE then
    (ofile ⟨fd.toNat, by omega⟩).map (fun f => (⟨fd.toNat, by omega⟩, f))
  else none

def fdalloc (ofile : Fd → Option FileId) (f : FileId) : Option (Fd × (Fd → Option FileId)) :=
  match (List.finRange NOFILE).find? (fun fd => ofile fd = none) with
  | some fd => some (fd, update ofile fd (some f))
  | none => none

/-! ### The calls -/

/-- What follows a call of `fileclose`. -/
inductive After
  /-- The system call returns. -/
  | done (r : Int)
  /-- `pipealloc` and `sys_pipe` close a second file and fail. -/
  | close (f : FileId)
  /-- The loop of `exit`. -/
  | exit (fd : Fd)
  deriving DecidableEq, Repr

/-- How far a process is in a call. -/
inductive Pc
  | user
  /-- `fdalloc` has returned `fd` for the file of `fd0`, `filedup` is next. -/
  | dup (fd0 fd : Fd) (f : FileId)
  /-- At the beginning of `fileclose`. -/
  | close (f : FileId) (a : After)
  /-- `fileclose` has dropped the last reference and released the lock. -/
  | closed (ff : File) (a : After)
  /-- `sys_open` has locked the inode, `filealloc` is next. -/
  | open (ip omode : Nat)
  /-- `sys_open` has installed the file and ended its transaction. -/
  | opened (fd : Fd) (f : FileId) (ip omode : Nat)
  /-- `pipealloc`, before the first and the second `filealloc` and before `kalloc`. -/
  | pipe
  | pipe1 (f0 : FileId)
  | pipe2 (f0 f1 : FileId)
  /-- `pipealloc` has returned. -/
  | piped (rf wf : FileId)
  /-- The loop of `fork` over the open files. -/
  | fork (i : Nat)
  /-- The loop of `exit` over the open files. -/
  | exit (fd : Nat)
  deriving DecidableEq, Repr

/-- The flags of a pipe. -/
structure Ends where
  readopen : Bool
  writeopen : Bool
  deriving DecidableEq, Repr

def Ends.get (e : Ends) (writable : Bool) : Bool := if writable then e.writeopen else e.readopen

def Ends.close (e : Ends) (writable : Bool) : Ends :=
  if writable then { e with writeopen := false } else { e with readopen := false }

/-- What happens to the page of a pipe. -/
inductive PipeEvent
  | opened (page : Nat)
  | closed (page : Nat) (writable : Bool)
  | freed (page : Nat)
  deriving DecidableEq, Repr

inductive Panic
  | filedup
  | fileclose
  /-- Not a panic of the source: `pipeclose` of a page that has been freed. -/
  | freedPipe
  deriving DecidableEq, Repr

structure Kernel where
  table : Table
  ofile : Slot → Fd → Option FileId
  file : FileId → File
  /-- The pages that are pipes. -/
  pipe : Nat → Option Ends
  call : Slot → Pc
  /-- What the last call of a process has returned. -/
  ret : Slot → Int
  panicked : Option Panic
  /-- A record of what has happened to the pipes, which nothing reads. -/
  history : List PipeEvent

inductive Syscall
  /-- `ip` is what `create` or `namei` returns. -/
  | open (ip : Option Nat) (omode : Nat)
  | dup (fd : Int)
  | close (fd : Int)
  | pipe
  | exit
  deriving DecidableEq, Repr

inductive Op
  | proc (e : Event)
  | enter (c : Nat) (call : Syscall)
  /-- The process on processor `c` continues its call; `page` is what `kalloc` returns. -/
  | next (c : Nat) (page : Option Nat)
  deriving DecidableEq, Repr

namespace Kernel

variable (k : Kernel) (p : Slot)

def goto (v : Pc) : Kernel := { k with call := update k.call p v }

def setFiles (o : Fd → Option FileId) : Kernel := { k with ofile := update k.ofile p o }

def finish (r : Int) : Kernel := { k.goto p .user with ret := update k.ret p r }

def panic (x : Panic) : Kernel := { k with panicked := some x }

def enter : Syscall → Kernel
  | .open none _ => k.finish p (-1)
  | .open (some ip) omode => k.goto p (.open ip omode)
  | .dup fd =>
    match argfd (k.ofile p) fd with
    | none => k.finish p (-1)
    | some (fd0, f) =>
      match fdalloc (k.ofile p) f with
      | none => k.finish p (-1)
      | some (fd, o) => (k.setFiles p o).goto p (.dup fd0 fd f)
  | .close fd =>
    match argfd (k.ofile p) fd with
    | none => k.finish p (-1)
    | some (fd, f) => (k.setFiles p (update (k.ofile p) fd none)).goto p (.close f (.done 0))
  | .pipe => k.goto p .pipe
  | .exit => k.goto p (.exit 0)

/-- `fileclose` returns. -/
def resume : After → Kernel
  | .done r => k.finish p r
  | .close f => k.goto p (.close f (.done (-1)))
  | .exit fd => (k.setFiles p (update (k.ofile p) fd none)).goto p (.exit (fd + 1))

def fileclose (f : FileId) (a : After) : Kernel :=
  match filecloseRef f k.file with
  | none => k.panic .fileclose
  | some (none, file) => { k with file := file }.resume p a
  | some (some ff, file) => { k with file := file }.goto p (.closed ff a)

/-- The critical section of `pipeclose`, and `kfree`. -/
def pipeclose (page : Nat) (writable : Bool) : Option Kernel :=
  match k.pipe page with
  | none => none
  | some e =>
    let e := e.close writable
    if e.readopen = false ∧ e.writeopen = false then
      some { k with
        pipe := update k.pipe page none
        history := k.history ++ [.closed page writable, .freed page] }
    else
      some { k with
        pipe := update k.pipe page (some e)
        history := k.history ++ [.closed page writable] }

/-- The end of `fileclose`, once the lock is released. -/
def closeLast (ff : File) (a : After) : Kernel :=
  match ff.type with
  | .pipe =>
    match k.pipeclose ff.pipe ff.writable with
    | none => k.panic .freedPipe
    | some k => k.resume p a
  -- `begin_op(); iput(ff.ip); end_op();`
  | .inode => k.resume p a
  | .none => k.resume p a

/-- `filealloc` and `fdalloc` in `sys_open`. -/
def openFile (ip omode : Nat) : Kernel :=
  match filealloc k.file with
  | none => k.finish p (-1)
  | some (f, file) =>
    let k := { k with file := file }
    match fdalloc (k.ofile p) f with
    | none => k.goto p (.close f (.done (-1)))
    | some (fd, o) => (k.setFiles p o).goto p (.opened fd f ip omode)

/-- The end of `sys_open`. -/
def openDone (fd : Fd) (f : FileId) (ip omode : Nat) : Kernel :=
  { k with file := update k.file f { k.file f with
      type := .inode
      ip := ip
      off := 0
      readable := omode &&& O_WRONLY = 0
      writable := omode &&& O_WRONLY ≠ 0 ∨ omode &&& O_RDWR ≠ 0 } }.finish p fd.val

/-- `pipealloc` once it has both files; `page` is what `kalloc` returns, never a page in use. -/
def pipeInit (f0 f1 : FileId) : Option Nat → Option Kernel
  | none => some (k.goto p (.close f0 (.close f1)))
  | some page =>
    if k.pipe page = none then
      let file := update k.file f0 { k.file f0 with
        type := .pipe, readable := true, writable := false, pipe := page }
      let file := update file f1 { file f1 with
        type := .pipe, readable := false, writable := true, pipe := page }
      let k := { k with
        pipe := update k.pipe page (some ⟨true, true⟩)
        file := file
        history := k.history ++ [PipeEvent.opened page] }
      some (k.goto p (.piped f0 f1))
    else none

/-- `sys_pipe` after `pipealloc`. -/
def pipeFds (rf wf : FileId) : Kernel :=
  match fdalloc (k.ofile p) rf with
  | none => k.goto p (.close rf (.close wf))
  | some (fd0, o) =>
    match fdalloc o wf with
    | none => (k.setFiles p (update o fd0 none)).goto p (.close rf (.close wf))
    | some (_, o) => (k.setFiles p o).finish p 0

/-- One round of the loop of `fork` over the open files, with `np` the new process. -/
def forkFile (np : Slot) (fd : Fd) : Kernel :=
  match k.ofile p fd with
  | none => k.goto p (.fork (fd + 1))
  | some f =>
    match filedup f k.file with
    | none => k.panic .filedup
    | some file =>
      ({ k with file := file }.setFiles np (update (k.ofile np) fd (some f))).goto p
        (.fork (fd + 1))

/-- One round of the loop of `exit` over the open files. -/
def exitFile (fd : Fd) : Kernel :=
  match k.ofile p fd with
  | none => k.goto p (.exit (fd + 1))
  | some f => k.goto p (.close f (.exit fd))

def next (page : Option Nat) : Option Kernel :=
  match k.call p with
  | .user =>
    -- `copyuvm` in `fork` has succeeded
    match (k.table.proc p).thread with
    | .forking _ => some (k.goto p (.fork 0))
    | _ => none
  | .dup _ fd f =>
    match filedup f k.file with
    | none => some (k.panic .filedup)
    | some file => some ({ k with file := file }.finish p fd.val)
  | .close f a => some (k.fileclose p f a)
  | .closed ff a => some (k.closeLast p ff a)
  | .open ip omode => some (k.openFile p ip omode)
  | .opened fd f ip omode => some (k.openDone p fd f ip omode)
  | .pipe =>
    match filealloc k.file with
    | none => some (k.finish p (-1))
    | some (f, file) => some ({ k with file := file }.goto p (.pipe1 f))
  | .pipe1 f0 =>
    match filealloc k.file with
    | none => some (k.goto p (.close f0 (.done (-1))))
    | some (f, file) => some ({ k with file := file }.goto p (.pipe2 f0 f))
  | .pipe2 f0 f1 => k.pipeInit p f0 f1 page
  | .piped rf wf => some (k.pipeFds p rf wf)
  | .fork i =>
    match (k.table.proc p).thread with
    | .forking np => if h : i < NOFILE then some (k.forkFile p np ⟨i, h⟩) else none
    | _ => none
  | .exit fd => if h : fd < NOFILE then some (k.exitFile p ⟨fd, h⟩) else none

/-- Where the process on processor `c` is. -/
def callOn (c : Nat) : Option Pc := (k.table.cpu c).map k.call

/-- Where the process has to be that takes part in an event of the process table: `fork`, `wait`
and `settickets` are called from user level, a `fork` fails before its loop over the files, and
`fork` and `exit` go on after their loops. -/
def expected : Event → Option (Nat × Pc)
  | .fork c | .forkFail c | .wait c | .settickets c _ => some (c, .user)
  | .forkDone c => some (c, .fork NOFILE)
  | .exit c => some (c, .exit NOFILE)
  | _ => none

def Fits (e : Event) : Prop := ∀ x ∈ expected e, k.callOn x.1 = some x.2

instance (e : Event) : Decidable (k.Fits e) :=
  inferInstanceAs (Decidable (∀ x ∈ expected e, k.callOn x.1 = some x.2))

/-- The kernel after an event that has changed the process table to `t`. -/
def procDone (e : Event) (t : Table) : Kernel :=
  let k' := { k with table := t }
  match e with
  | .fork c =>
    match k.table.cpu c with
    | some p => if (t.proc p).thread = .user then k'.finish p (-1) else k'
    | none => k'
  | .forkFail c =>
    match k.table.cpu c with
    | some p => k'.finish p (-1)
    | none => k'
  | .forkDone c =>
    match k.table.cpu c with
    | some p =>
      match (k.table.proc p).thread with
      | .forking np => (k'.finish np 0).finish p (t.proc np).pid
      | _ => k'
    | none => k'
  | .exit c =>
    match k.table.cpu c with
    | some p => k'.goto p .user
    | none => k'
  | _ => k'

def step : Op → Option Kernel
  | .proc e =>
    if k.panicked = none ∧ k.Fits e then (Ptable.step k.table e).map (k.procDone e) else none
  | .enter c call =>
    match k.table.cpu c with
    | some p =>
      -- `exit` of the first process is a panic of its own
      if k.panicked = none ∧ (k.table.proc p).thread = .user ∧ k.call p = .user ∧
          ¬ (call = .exit ∧ k.table.initproc = some p) then some (k.enter p call)
      else none
    | none => none
  | .next c page =>
    match k.table.cpu c with
    | some p => if k.panicked = none then k.next p page else none
    | none => none

end Kernel

def kernelBoot : Kernel where
  table := Ptable.boot
  ofile _ _ := none
  file _ := {}
  pipe _ := none
  call _ := .user
  ret _ := 0
  panicked := none
  history := []

end Xv6.Ftable
