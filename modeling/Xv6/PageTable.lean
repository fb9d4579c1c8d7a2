import Xv6.Counts
import Xv6.Param
import Xv6.Routine

/-!
# Page tables

`vm.c`, as far as it allocates, copies and frees pages. A page is known by its number. A page
directory is a value that consists of its page, its page tables and their entries; no two directories
share a page table.

The entries for addresses from `KERNBASE` on refer to memory that the directory does not own.
-/

namespace Xv6.Vm

open Function
open Alloc

/-- The number of a page of physical memory. -/
abbrev Page := Nat

abbrev PGSIZE : Nat := 4096

abbrev NPDENTRIES : Nat := 1024

abbrev NPTENTRIES : Nat := 1024

abbrev EXTMEM : Nat := 0x100000

abbrev PHYSTOP : Nat := 0xE000000

abbrev DEVSPACE : Nat := 0xFE000000

abbrev KERNLINK : Nat := KERNBASE + EXTMEM

abbrev PTE_W : Nat := 2

abbrev PTE_U : Nat := 4

def PDX (va : Nat) : Fin NPDENTRIES := ⟨va / 2 ^ 22 % 1024, Nat.mod_lt _ (by decide)⟩

def PTX (va : Nat) : Fin NPTENTRIES := ⟨va / PGSIZE % 1024, Nat.mod_lt _ (by decide)⟩

def PGROUNDUP (sz : Nat) : Nat := (sz + PGSIZE - 1) % 2 ^ 32 / PGSIZE * PGSIZE

def PGROUNDDOWN (a : Nat) : Nat := a / PGSIZE * PGSIZE

/-- A present page table entry. -/
structure Pte where
  ppn : Page
  perm : Nat

structure Pgtab where
  page : Page
  pte : Fin NPTENTRIES → Option Pte

structure Pgdir where
  page : Page
  pde : Fin NPDENTRIES → Option Pgtab

namespace Pgdir

variable (d : Pgdir)

def setPde (i : Fin NPDENTRIES) (t : Pgtab) : Pgdir := { d with pde := update d.pde i (some t) }

/-- Write to the entry for `va`, which is in table `t`. -/
def setPte (t : Pgtab) (va : Nat) (e : Option Pte) : Pgdir :=
  d.setPde (PDX va) { t with pte := update t.pte (PTX va) e }

/-- The entry for `va`. -/
def lookup (va : Nat) : Option Pte := (d.pde (PDX va)).bind (fun t => t.pte (PTX va))

end Pgdir

def kalloc : Routine Page (Option Page) := .allocate

/-- `memset(p, 0, PGSIZE)` -/
def memset (p : Page) : Routine Page Unit := .overwrite p none

/-- `memmove` of a page. -/
def memmove (p src : Page) : Routine Page Unit := .overwrite p (some src)

def kfree (p : Page) : Routine Page Unit := .release p

/-- `walkpgdir` with `alloc`: the directory and the page table for `va`. -/
def walkpgdir (d : Pgdir) (va : Nat) : Routine Page (Option (Pgdir × Pgtab)) :=
  match d.pde (PDX va) with
  | some t => .ret (some (d, t))
  | none => do
    match ← kalloc with
    | none => .ret none
    | some p =>
      let t : Pgtab := ⟨p, fun _ => none⟩
      .ret (some (d.setPde (PDX va) t, t))

/-- A round of the loop of `mappages`. -/
def mapPage (d : Pgdir) (a : Nat) (e : Pte) : Routine Page (Option Pgdir) := do
  match ← walkpgdir d a with
  | none => .ret none
  | some (d, t) =>
    if (t.pte (PTX a)).isSome then .panic "remap" else .ret (some (d.setPte t a (some e)))

/-- The loop of `mappages`, with `n` rounds after this one. -/
def mapLoop (perm : Nat) : Nat → Nat → Nat → Pgdir → Routine Page (Pgdir × Bool)
  | n, a, pa, d => do
    match ← mapPage d a ⟨pa / PGSIZE, perm⟩ with
    | none => .ret (d, false)
    | some d =>
      match n with
      | 0 => .ret (d, true)
      | n + 1 => mapLoop perm n ((a + PGSIZE) % 2 ^ 32) (pa + PGSIZE) d

/-- Addresses wrap around at the end of the address space. -/
def mappages (d : Pgdir) (va size pa perm : Nat) : Routine Page (Pgdir × Bool) :=
  let a := PGROUNDDOWN va
  let last := PGROUNDDOWN ((va + size + 2 ^ 32 - 1) % 2 ^ 32)
  mapLoop perm ((last + 2 ^ 32 - a) % 2 ^ 32 / PGSIZE) a pa d

/-- The loop of `deallocuvm` from `a` on; `fuel` rounds are enough. -/
def deallocLoop (oldsz : Nat) : Nat → Nat → Pgdir → Routine Page Pgdir
  | 0, _, d => .ret d
  | fuel + 1, a, d =>
    if a < oldsz then
      match d.pde (PDX a) with
      | none => deallocLoop oldsz fuel ((a / 2 ^ 22 + 1) * 2 ^ 22) d
      | some t =>
        match t.pte (PTX a) with
        | none => deallocLoop oldsz fuel (a + PGSIZE) d
        | some e =>
          if e.ppn = 0 then .panic "kfree"
          else do
            kfree e.ppn
            deallocLoop oldsz fuel (a + PGSIZE) (d.setPte t a none)
    else .ret d

def deallocuvm (d : Pgdir) (oldsz newsz : Nat) : Routine Page (Pgdir × Nat) :=
  if newsz ≥ oldsz then .ret (d, oldsz)
  else do
    let a := PGROUNDUP newsz
    let d ← deallocLoop oldsz ((oldsz - a) / PGSIZE + 1) a d
    .ret (d, newsz)

/-- The loop of `freevm` over the page tables. -/
def freeTables (d : Pgdir) : List (Fin NPDENTRIES) → Routine Page Unit
  | [] => .ret ()
  | i :: is =>
    match d.pde i with
    | none => freeTables d is
    | some t => do
      kfree t.page
      freeTables d is

def freevm (d : Pgdir) : Routine Page Unit := do
  let (d, _) ← deallocuvm d KERNBASE 0
  freeTables d (List.finRange NPDENTRIES)
  kfree d.page

structure Kmap where
  virt : Nat
  phys_start : Nat
  phys_end : Nat
  perm : Nat

/-- Where the linker has put the kernel's data. -/
structure Layout where
  data : Nat
  text : KERNLINK < data
  memory : data < KERNBASE + PHYSTOP
  aligned : data % PGSIZE = 0

def kmap (l : Layout) : List Kmap :=
  [⟨KERNBASE, 0, EXTMEM, PTE_W⟩,
    ⟨KERNLINK, KERNLINK - KERNBASE, l.data - KERNBASE, 0⟩,
    ⟨l.data, l.data - KERNBASE, PHYSTOP, PTE_W⟩,
    ⟨DEVSPACE, DEVSPACE, 0, PTE_W⟩]

/-- The loop of `setupkvm`. -/
def mapKernel : List Kmap → Pgdir → Routine Page (Option Pgdir)
  | [], d => .ret (some d)
  | k :: ks, d => do
    let (d, ok) ← mappages d k.virt ((k.phys_end + 2 ^ 32 - k.phys_start) % 2 ^ 32)
      k.phys_start k.perm
    if ok then mapKernel ks d
    else do
      freevm d
      .ret none

def setupkvm (l : Layout) : Routine Page (Option Pgdir) := do
  match ← kalloc with
  | none => .ret none
  | some p => mapKernel (kmap l) ⟨p, fun _ => none⟩

/-- `inituvm`; a `kalloc` that fails makes `memset` fault. -/
def inituvm (d : Pgdir) : Routine Page Pgdir := do
  match ← kalloc with
  | none => .panic "trap"
  | some mem =>
    let (d, _) ← mappages d 0 PGSIZE (mem * PGSIZE) (PTE_W + PTE_U)
    .ret d

/-- A round of the loop of `allocuvm`: the directory, and whether there was a page. -/
def allocRound (oldsz newsz a : Nat) (d : Pgdir) : Routine Page (Pgdir × Bool) := do
  match ← kalloc with
  | none =>
    let (d, _) ← deallocuvm d newsz oldsz
    .ret (d, false)
  | some mem =>
    memset mem
    let (d, ok) ← mappages d a PGSIZE (mem * PGSIZE) (PTE_W + PTE_U)
    if ok then .ret (d, true)
    else do
      let (d, _) ← deallocuvm d newsz oldsz
      kfree mem
      .ret (d, false)

/-- The loop of `allocuvm` from `a` on; `fuel` rounds are enough. -/
def allocLoop (oldsz newsz : Nat) : Nat → Nat → Pgdir → Routine Page (Pgdir × Nat)
  | 0, _, d => .ret (d, newsz)
  | fuel + 1, a, d =>
    if a < newsz then do
      let (d, ok) ← allocRound oldsz newsz a d
      if ok then allocLoop oldsz newsz fuel (a + PGSIZE) d else .ret (d, 0)
    else .ret (d, newsz)

/-- The directory, and the new size or 0. -/
def allocuvm (d : Pgdir) (oldsz newsz : Nat) : Routine Page (Pgdir × Nat) :=
  if newsz ≥ KERNBASE then .ret (d, 0)
  else if newsz < oldsz then .ret (d, oldsz)
  else
    let a := PGROUNDUP oldsz
    allocLoop oldsz newsz ((newsz - a) / PGSIZE + 1) a d

/-- The part of a round of the loop of `copyuvm` that copies the page of `e` to address `i`. -/
def copyRound (e : Pte) (i : Nat) (d : Pgdir) : Routine Page (Option Pgdir) := do
  match ← kalloc with
  | none => do
    freevm d
    .ret none
  | some mem =>
    memmove mem e.ppn
    let (d, ok) ← mappages d i PGSIZE (mem * PGSIZE) e.perm
    if ok then .ret (some d)
    else do
      kfree mem
      freevm d
      .ret none

/-- The loop of `copyuvm` from `i` on, into `d`; `fuel` rounds are enough. -/
def copyLoop (pgdir : Pgdir) (sz : Nat) : Nat → Nat → Pgdir → Routine Page (Option Pgdir)
  | 0, _, d => .ret (some d)
  | fuel + 1, i, d =>
    if i < sz then
      match pgdir.pde (PDX i) with
      | none => .panic "copyuvm: pte should exist"
      | some t =>
        match t.pte (PTX i) with
        | none => .panic "copyuvm: page not present"
        | some e => do
          match ← copyRound e i d with
          | none => .ret none
          | some d => copyLoop pgdir sz fuel (i + PGSIZE) d
    else .ret (some d)

def copyuvm (l : Layout) (pgdir : Pgdir) (sz : Nat) : Routine Page (Option Pgdir) := do
  match ← setupkvm l with
  | none => .ret none
  | some d => copyLoop pgdir sz (sz / PGSIZE + 1) 0 d

/-- `clearpteu` -/
def clearpteu (d : Pgdir) (uva : Nat) : Routine Page Pgdir :=
  match d.pde (PDX uva) with
  | none => .panic "clearpteu"
  | some t =>
    .ret (d.setPte t uva ((t.pte (PTX uva)).map (fun e => ⟨e.ppn, e.perm - (e.perm &&& PTE_U)⟩)))

end Xv6.Vm
