import Xv6.Copyout

/-!
# exec

`exec` with the memory that it builds. The file is given by what `readi` returns for it; `null` is what
a read of address zero gives while the old address space is in use. `goto bad` is `bad`.
-/

namespace Xv6.Exec

open Vm

abbrev MAXARG : Nat := 32

abbrev ELF_MAGIC : Nat := 0x464C457F

abbrev ELF_PROG_LOAD : Nat := 1

/-- A file that is read: the bytes that `readi` stores, or `none` if it fails. -/
structure Inode where
  readi : (off n : Nat) → Option (List UInt8)
  short : ∀ off n bs, readi off n = some bs → bs.length ≤ n

/-- A regular file with the given bytes. -/
def Inode.file (content : List UInt8) : Inode where
  readi off n :=
    if off > content.length ∨ 2 ^ 32 ≤ off + n then none else some ((content.drop off).take n)
  short off n bs h := by
    split_ifs at h
    cases h
    rw [List.length_take]
    exact Nat.min_le_left _ _

/-- The word of `k` bytes at offset `off` of a structure that has been read. -/
def field (bs : List UInt8) (off k : Nat) : Nat := leWord (fun i => bs.getD i 0) off k

structure Elfhdr where
  magic : Nat
  entry : Nat
  phoff : Nat
  phnum : Nat

structure Proghdr where
  type : Nat
  off : Nat
  vaddr : Nat
  filesz : Nat
  memsz : Nat

/-- Read `n` bytes at `off`; `none` if `readi` does not return `n`. -/
def Inode.readn (ip : Inode) (off n : Nat) : Option (List UInt8) :=
  (ip.readi off n).filter (fun bs => bs.length = n)

def Inode.elfhdr (ip : Inode) : Option Elfhdr :=
  (ip.readn 0 52).map (fun bs => ⟨field bs 0 4, field bs 24 4, field bs 28 4, field bs 44 2⟩)

def Inode.proghdr (ip : Inode) (off : Nat) : Option Proghdr :=
  (ip.readn off 32).map (fun bs =>
    ⟨field bs 0 4, field bs 4 4, field bs 8 4, field bs 16 4, field bs 20 4⟩)

/-! ### Loading the file -/

/-- A round of `loaduvm` for the page at offset `i` of the segment; whether `readi` read it all. -/
def loadRound (d : Pgdir) (addr : Nat) (ip : Inode) (offset sz i : Nat) : Prog Mem Bool :=
  match d.pde (PDX ((addr + i) % 2 ^ 32)) with
  | none => Prog.panicWith "loaduvm: address should exist"
  | some t => do
    -- the entry is not checked to be present
    let pa := ((t.pte (PTX ((addr + i) % 2 ^ 32))).map Pte.ppn).getD 0
    let n := min (sz - i) PGSIZE
    match ip.readi ((offset + i) % 2 ^ 32) n with
    | none => pure false
    | some bs => do
      Mem.memmove pa 0 bs bs.length
      pure (bs.length = n)

/-- The loop of `loaduvm`; `fuel` rounds are enough. -/
def loadLoop (d : Pgdir) (addr : Nat) (ip : Inode) (offset sz : Nat) : Nat → Nat → Prog Mem Bool
  | 0, _ => pure true
  | fuel + 1, i =>
    if i < sz then do
      let ok ← loadRound d addr ip offset sz i
      if ok then loadLoop d addr ip offset sz fuel (i + PGSIZE) else pure false
    else pure true

def loaduvm (d : Pgdir) (addr : Nat) (ip : Inode) (offset sz : Nat) : Prog Mem Bool :=
  if addr % PGSIZE ≠ 0 then Prog.panicWith "loaduvm: addr must be page aligned"
  else loadLoop d addr ip offset sz (sz / PGSIZE + 1) 0

/-- A round of the loop over the program headers: the directory and the size, `none` for `bad`. -/
def loadSegment (ip : Inode) (ph : Proghdr) (d : Pgdir) (sz : Nat) :
    Prog Mem (Pgdir × Option Nat) :=
  if ph.type ≠ ELF_PROG_LOAD then pure (d, some sz)
  else if ph.memsz < ph.filesz then pure (d, none)
  else if (ph.vaddr + ph.memsz) % 2 ^ 32 < ph.vaddr then pure (d, none)
  else do
    let r ← serve (allocuvm d sz ((ph.vaddr + ph.memsz) % 2 ^ 32))
    if r.2 = 0 then pure (r.1, none)
    else if ph.vaddr % PGSIZE ≠ 0 then pure (r.1, none)
    else do
      let ok ← loaduvm r.1 ph.vaddr ip ph.off ph.filesz
      pure (r.1, if ok then some r.2 else none)

/-- The loop over the program headers, with `n` of them left. -/
def loadSegments (ip : Inode) : Nat → Nat → Pgdir → Nat → Prog Mem (Pgdir × Option Nat)
  | 0, _, d, sz => pure (d, some sz)
  | n + 1, off, d, sz =>
    match ip.proghdr off with
    | none => pure (d, none)
    | some ph => do
      let r ← loadSegment ip ph d sz
      match r.2 with
      | none => pure (r.1, none)
      | some sz => loadSegments ip n ((off + 32) % 2 ^ 32) r.1 sz

/-- `exec` from the check of the header to the end of the loop over the program headers: the new
directory, `elf.entry` and the size, or what `pgdir` is at a `goto bad`. -/
def loadFile (l : Layout) (ip : Inode) : Prog Mem (Except (Option Pgdir) (Pgdir × Nat × Nat)) :=
  match ip.elfhdr with
  | none => pure (.error none)
  | some elf =>
    if elf.magic ≠ ELF_MAGIC then pure (.error none)
    else do
      match ← serve (setupkvm l) with
      | none => pure (.error none)
      | some d => do
        let r ← loadSegments ip elf.phnum elf.phoff d 0
        match r.2 with
        | none => pure (.error (some r.1))
        | some sz => pure (.ok (r.1, elf.entry, sz))

/-! ### The stack -/

/-- The stack page and the guard page below it. -/
@[irreducible] def allocStack (d : Pgdir) (sz : Nat) : Prog Mem (Pgdir × Option Nat) := do
  let sz := PGROUNDUP sz
  let r ← serve (allocuvm d sz ((sz + 2 * PGSIZE) % 2 ^ 32))
  if r.2 = 0 then pure (r.1, none)
  else do
    let d ← serve (clearpteu r.1 (r.2 - 2 * PGSIZE))
    pure (d, some r.2)

/-- `(sp - n) & ~3`, as a `uint`. -/
def below (sp n : Nat) : Nat := (sp + 2 ^ 32 - n % 2 ^ 32) % 2 ^ 32 / 4 * 4

/-- The loop that pushes the argument strings: the stack pointer and the addresses of the strings. -/
def pushStrings (null : Null) (d : Pgdir) :
    List (List UInt8) → Nat → List Nat → Prog Mem (Option (Nat × List Nat))
  | [], sp, ptrs => pure (some (sp, ptrs))
  | a :: argv, sp, ptrs =>
    if ptrs.length ≥ MAXARG then pure none
    else do
      let r ← copyout null d (below sp (a.length + 1)) (a ++ [0])
      if r < 0 then pure none
      else pushStrings null d argv (below sp (a.length + 1)) (ptrs ++ [below sp (a.length + 1)])

def wordBytes (w : Nat) : List UInt8 := (List.range 4).map (leByte w)

/-- The words of `ustack`. -/
def ustack (sp : Nat) (ptrs : List Nat) : List Nat :=
  0xffffffff :: ptrs.length :: ((sp + 2 ^ 32 - (ptrs.length + 1) * 4) % 2 ^ 32) :: ptrs ++ [0]

/-- Push the arguments on the stack that ends at `sz`: the new stack pointer. -/
def pushArgs (null : Null) (d : Pgdir) (sz : Nat) (argv : List (List UInt8)) :
    Prog Mem (Option Nat) := do
  match ← pushStrings null d argv sz [] with
  | none => pure none
  | some (sp, ptrs) => do
    let sp' := (sp + 2 ^ 32 - (3 + ptrs.length + 1) * 4) % 2 ^ 32
    let r ← copyout null d sp' ((ustack sp ptrs).flatMap wordBytes)
    if r < 0 then pure none else pure (some sp')

/-! ### The call -/

structure Proc where
  pgdir : Pgdir
  sz : Nat
  eip : Nat
  esp : Nat
  name : List UInt8

structure State where
  mem : Mem
  proc : Proc
  /-- How often `begin_op` and `end_op` have been called. -/
  begun : Nat
  ended : Nat
  /-- The lock and the reference count of the inode that `namei` finds. -/
  locked : Bool
  ref : Nat

def State.setMem (s : State) (m : Mem) : State := { s with mem := m }

def State.setProc (s : State) (p : Proc) : State := { s with proc := p }

def onMem {α : Type} (p : Prog Mem α) : Prog State α :=
  Prog.zoom State.mem (fun m s => s.setMem m) p

def begin_op : Prog State Unit := Prog.modify (fun s => { s with begun := s.begun + 1 })

def end_op : Prog State Unit := Prog.modify (fun s => { s with ended := s.ended + 1 })

/-- `namei` returns a reference, and `ilock` locks the inode. -/
def lockInode : Prog State Unit := Prog.modify (fun s => { s with ref := s.ref + 1, locked := true })

def iunlockput : Prog State Unit :=
  Prog.modify (fun s => { s with ref := s.ref - 1, locked := false })

/-- The part of `path` after its last slash. -/
def lastElement (path : List UInt8) : List UInt8 :=
  (path.reverse.takeWhile (fun c => c ≠ 47)).reverse

/-- The rest of `exec` after the label `bad`; `held` says whether `ip` is set. -/
def bad (pgdir : Option Pgdir) (held : Bool) : Prog State Int := do
  match pgdir with
  | none => pure ()
  | some d => onMem (serve (freevm d))
  if held then do
    iunlockput
    end_op
    pure (-1)
  else pure (-1)

/-- Commit to the user image. -/
def commit (d : Pgdir) (sz entry sp : Nat) (path : List UInt8) : Prog State Int := do
  let s ← Prog.get
  Prog.modify (fun s => s.setProc ⟨d, sz, entry, sp, (lastElement path).take 15⟩)
  onMem (serve (freevm s.proc.pgdir))
  pure 0

/-- `exec` after the file has been loaded to `d`. -/
def execStack (null : Null) (path : List UInt8) (argv : List (List UInt8)) (d : Pgdir)
    (entry sz : Nat) : Prog State Int := do
  let r ← onMem (allocStack d sz)
  match r.2 with
  | none => bad (some r.1) false
  | some sz => do
    match ← onMem (pushArgs null r.1 sz argv) with
    | none => bad (some r.1) false
    | some sp => commit r.1 sz entry sp path

/-- `exec`, where `ip` is what `namei` returns for `path`. -/
def exec (l : Layout) (null : Null) (ip : Option Inode) (path : List UInt8)
    (argv : List (List UInt8)) : Prog State Int := do
  begin_op
  match ip with
  | none => do
    end_op
    pure (-1)
  | some ip => do
    lockInode
    match ← onMem (loadFile l ip) with
    | .error pgdir => bad pgdir true
    | .ok (d, entry, sz) => do
      iunlockput
      end_op
      execStack null path argv d entry sz

end Xv6.Exec
