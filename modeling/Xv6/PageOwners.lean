import Xv6.PageCalls
import Xv6.ProcTable
import Xv6.Run

/-!
# Owners of pages

The kernel from `kinit1` on, as far as pages are concerned: `main` up to the first process, and then
any number of processes that call `fork`, `exec`, `growproc`, `exit`, `wait`, `pipealloc` and
`pipeclose`. Calls of different processes interleave between any two calls of `kalloc` and `kfree`,
and `kalloc` may fail at any call.

A page that is not on the free list belongs to the kernel's page table, to the stack of a processor,
to a process, to a pipe, or to the call in progress that has allocated it or taken it from its owner.
Scheduling is left out: a process that can run is `runnable`, and any of them may go on.
-/

namespace Xv6.Vm

open Function
open Alloc
open Ptable (Slot NPROC ProcState)

structure Config where
  layout : Layout
  /-- The physical address of `end`. -/
  kend : Nat
  data : layout.data ≤ KERNBASE + kend
  ncpu : Nat

/-- The pages that `freerange` puts on the free list; the arguments are physical addresses. -/
@[irreducible] def freerange (pstart pend : Nat) : List Page :=
  let first := PGROUNDUP pstart / PGSIZE
  (List.range' first (pend / PGSIZE - first)).reverse

/-- The end of the memory that `entrypgdir` maps. -/
abbrev ENTRYTOP : Nat := 4 * 1024 * 1024

structure Proc where
  state : ProcState
  kstack : Option Page
  /-- Without a value while a call works on the directory. -/
  pgdir : Option Pgdir
  sz : Nat
  parent : Option Slot

structure Pipe where
  page : Page
  readopen : Bool
  writeopen : Bool
  deriving DecidableEq

/-- The end of a pipe that a `struct file` refers to. -/
def Pipe.isOpen (p : Pipe) (writable : Bool) : Bool :=
  if writable then p.writeopen else p.readopen

def Pipe.close (p : Pipe) (writable : Bool) : Pipe :=
  ⟨p.page, p.readopen && writable, p.writeopen && !writable⟩

/-- What `main` does next. -/
inductive Boot
  | kvmalloc
  /-- `n` processors are left. -/
  | startothers (n : Nat)
  | kinit2
  | userinit
  | inituvm (p : Slot)
  | done

/-- A call in progress, with the entry of the process table that it works on. -/
inductive Kind
  | kvmalloc
  | startothers
  | userinit (p : Slot)
  | inituvm (p : Slot)
  | fork (np curproc : Slot) (sz : Nat)
  | exec (curproc : Slot)
  /-- The end of `exec`. -/
  | freevm
  | growproc (curproc : Slot)
  | wait (p : Slot)
  | pipealloc
  | pipeclose

/-- What the part of a call that deals with pages returns. -/
def Kind.Result : Kind → Type
  | .kvmalloc => Pgdir
  | .startothers => Option Page
  | .userinit _ => Page × Pgdir
  | .inituvm _ => Pgdir
  | .fork _ _ _ => Option (Page × Pgdir)
  | .exec _ => Option (Pgdir × Nat)
  | .freevm => Unit
  | .growproc _ => Pgdir × Nat × Int
  | .wait _ => Unit
  | .pipealloc => Option Page
  | .pipeclose => Unit

structure Call where
  kind : Kind
  code : Routine Page kind.Result

/-- A process or, as `none`, `main`. -/
abbrev Party := Option Slot

structure Machine where
  freelist : List Page
  /-- The pages that `kinit1` and `kinit2` have given to the allocator. -/
  handed : Multiset Page
  boot : Boot
  kpgdir : Option Pgdir
  /-- The stacks of the other processors. -/
  cpuStacks : List Page
  procs : Slot → Proc
  initproc : Option Slot
  pipes : List Pipe
  calls : Party → Option Call

namespace Machine

variable (cfg : Config) (m : Machine)

def setProc (i : Slot) (p : Proc) : Machine := { m with procs := update m.procs i p }

def call (t : Party) (k : Kind) (code : Routine Page k.Result) : Machine :=
  { m with calls := update m.calls t (some ⟨k, code⟩) }

/-- The slot that `allocproc` finds. -/
def allocproc : Option Slot :=
  (List.finRange NPROC).find? (fun p => (m.procs p).state = .unused)

/-- The exited child that `wait` finds. -/
def zombie (curproc : Slot) : Option Slot :=
  (List.finRange NPROC).find? (fun p => (m.procs p).parent = some curproc ∧
    (m.procs p).state = .zombie)

/-- `main` goes on. -/
def bootNext : Option Machine :=
  match m.boot with
  | .kvmalloc => some (m.call none .kvmalloc (kvmalloc cfg.layout))
  | .startothers 0 => some { m with boot := .kinit2 }
  | .startothers (n + 1) =>
    some ({ m with boot := .startothers n }.call none .startothers kalloc)
  | .kinit2 =>
    let pages := freerange ENTRYTOP PHYSTOP
    some { m with
      freelist := pages ++ m.freelist
      handed := pages + m.handed
      boot := .userinit }
  | .userinit =>
    match m.allocproc with
    | none => none
    | some p =>
      some ((m.setProc p { m.procs p with state := .embryo }).call none (.userinit p)
        (userinit cfg.layout))
  | .inituvm p =>
    match (m.procs p).pgdir with
    | none => none
    | some d =>
      some ((m.setProc p { m.procs p with pgdir := none }).call none (.inituvm p) (inituvm d))
  | .done => none

def startFork (curproc : Slot) : Option Machine :=
  match m.allocproc, (m.procs curproc).pgdir with
  | some np, some d =>
    let sz := (m.procs curproc).sz
    some ((m.setProc np { m.procs np with state := .embryo }).call (some curproc)
      (.fork np curproc sz) (fork cfg.layout d sz))
  | _, _ => none

def startGrowproc (curproc : Slot) (n : Int) : Option Machine :=
  match (m.procs curproc).pgdir with
  | none => none
  | some d =>
    some ((m.setProc curproc { m.procs curproc with pgdir := none }).call (some curproc)
      (.growproc curproc) (growproc d (m.procs curproc).sz n))

/-- `exit`; children go to `initproc`. -/
def exit (curproc : Slot) : Option Machine :=
  if m.initproc = some curproc then none
  else
    some { m with procs := fun i =>
      { m.procs i with
        state := if i = curproc then .zombie else (m.procs i).state
        parent := if (m.procs i).parent = some curproc then m.initproc else (m.procs i).parent } }

/-- `wait` when it finds an exited child. -/
def startWait (curproc : Slot) : Option Machine :=
  match m.zombie curproc with
  | none => none
  | some p =>
    match (m.procs p).kstack, (m.procs p).pgdir with
    | some kstack, some d =>
      some ((m.setProc p { m.procs p with kstack := none, pgdir := none }).call (some curproc)
        (.wait p) (reap kstack d))
    | _, _ => none

/-- `pipeclose`; each end of a pipe is closed once, with its last reference. -/
def startPipeclose (curproc : Slot) (p : Pipe) (writable : Bool) : Option Machine :=
  if p ∈ m.pipes ∧ p.isOpen writable then
    let p' := p.close writable
    let pipes := m.pipes.erase p
    if p'.readopen = false ∧ p'.writeopen = false then
      some ({ m with pipes := pipes }.call (some curproc) .pipeclose (kfree p.page))
    else some { m with pipes := p' :: pipes }
  else none

/-- Party `t` returns from a call. -/
def finish (t : Party) : (k : Kind) → k.Result → Machine
  | .kvmalloc, (d : Pgdir) =>
    { m with kpgdir := some d, boot := .startothers (cfg.ncpu - 1) }
  | .startothers, (stack : Option Page) => { m with cpuStacks := stack.toList ++ m.cpuStacks }
  | .userinit p, ((kstack, d) : Page × Pgdir) =>
    { m.setProc p { m.procs p with kstack := some kstack, pgdir := some d } with
      initproc := some p
      boot := .inituvm p }
  | .inituvm p, (d : Pgdir) =>
    { m.setProc p { m.procs p with state := .runnable, pgdir := some d, sz := PGSIZE } with
      boot := .done }
  | .fork np curproc sz, (r : Option (Page × Pgdir)) =>
    match r with
    | none => m.setProc np { m.procs np with state := .unused }
    | some (kstack, d) => m.setProc np ⟨.runnable, some kstack, some d, sz, some curproc⟩
  | .exec curproc, (r : Option (Pgdir × Nat)) =>
    match r with
    | none => m
    | some (d, sz) =>
      match (m.procs curproc).pgdir with
      | none => m.call t .freevm (.panic "freevm: no pgdir")
      | some oldpgdir =>
        (m.setProc curproc { m.procs curproc with pgdir := some d, sz := sz }).call t .freevm
          (freevm oldpgdir)
  | .freevm, _ => m
  | .growproc curproc, ((d, sz, _) : Pgdir × Nat × Int) =>
    m.setProc curproc { m.procs curproc with pgdir := some d, sz := sz }
  | .wait p, _ => m.setProc p { m.procs p with state := .unused, parent := none }
  | .pipealloc, (r : Option Page) =>
    match r with
    | none => m
    | some p => { m with pipes := ⟨p, true, true⟩ :: m.pipes }
  | .pipeclose, _ => m

end Machine

inductive Event
  | boot
  | fork (curproc : Slot)
  | exec (curproc : Slot) (image : Image)
  | growproc (curproc : Slot) (n : Int)
  | exit (curproc : Slot)
  | wait (curproc : Slot)
  | pipealloc (curproc : Slot) (f0 f1 : Bool)
  | pipeclose (curproc : Slot) (p : Pipe) (writable : Bool)
  /-- The next `kalloc` or `kfree` of a call; `fail` lets `kalloc` fail. -/
  | next (t : Party) (fail : Bool)
  | ret (t : Party)

/-- The process that starts a call. -/
def Event.starts : Event → Option Slot
  | .fork p | .exec p _ | .growproc p _ | .exit p | .wait p | .pipealloc p _ _ | .pipeclose p _ _ =>
    some p
  | .boot | .next _ _ | .ret _ => none

def Machine.start (cfg : Config) (m : Machine) : Event → Option Machine
  | .fork p => m.startFork cfg p
  | .exec p image => some (m.call (some p) (.exec p) (exec cfg.layout image))
  | .growproc p n => m.startGrowproc p n
  | .exit p => m.exit p
  | .wait p => m.startWait p
  | .pipealloc p f0 f1 => some (m.call (some p) .pipealloc (pipealloc f0 f1))
  | .pipeclose p pipe writable => m.startPipeclose p pipe writable
  | .boot | .next _ _ | .ret _ => none

def step (cfg : Config) (m : Machine) : Event → Option Machine
  | .boot => if (m.calls none).isNone then m.bootNext cfg else none
  | .next t fail =>
    match m.calls t with
    | none => none
    | some ⟨k, code⟩ =>
      match code.step fail m.freelist with
      | none => none
      | some (code, fl) => some ({ m with freelist := fl }.call t k code)
  | .ret t =>
    match m.calls t with
    | some ⟨k, .ret r⟩ => some ({ m with calls := update m.calls t none }.finish cfg t k r)
    | _ => none
  | e =>
    match e.starts with
    | some p =>
      if (m.calls (some p)).isNone ∧ (m.procs p).state = .runnable then m.start cfg e else none
    | none => none

/-- `kalloc` fails in the call of `inituvm` in `userinit`. -/
def initRefused (m : Machine) : Event → Bool
  | .next t fail =>
    match m.calls t with
    | some ⟨.inituvm _, code⟩ => code.refused fail m.freelist
    | _ => false
  | _ => false

end Xv6.Vm
