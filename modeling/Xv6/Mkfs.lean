import Xv6.FsDir

/-!
# Making a file system

`mkfs.c`. The image is a function from sector numbers to blocks; structures are stored in the byte
order of the kernel, which is what `xshort` and `xint` are for. An input file is its name on the
command line and the chunks in which the host's `read` returns its contents.
-/

namespace Xv6.Mkfs

open Prog Fs

abbrev NINODES : Nat := 200

def nbitmap : Nat := FSSIZE / (BSIZE * 8) + 1

def ninodeblocks : Nat := NINODES / IPB + 1

def nlog : Nat := LOGSIZE

def nmeta : Nat := 2 + nlog + ninodeblocks + nbitmap

def nblocks : Nat := FSSIZE - nmeta

def sb : Superblock where
  size := FSSIZE
  nblocks := nblocks
  ninodes := NINODES
  nlog := nlog
  logstart := 2
  inodestart := 2 + nlog
  bmapstart := 2 + nlog + ninodeblocks

structure MkState where
  img : Nat → Block
  freeinode : Nat
  freeblock : Nat

abbrev MkM (α : Type) := Prog MkState α

def assert (c : Bool) (msg : String) : MkM Unit := if c then pure () else panicWith msg

def wsect (sec : Nat) (buf : Block) : MkM Unit :=
  modify (fun s => { s with img := Function.update s.img sec buf })

def rsect (sec : Nat) : MkM Block := do
  let s ← get
  pure (s.img sec)

def winode (inum : Nat) (ip : Dinode) : MkM Unit := do
  let buf ← rsect (IBLOCK inum sb)
  wsect (IBLOCK inum sb) (writeDinode buf (inum % IPB) ip)

def rinode (inum : Nat) : MkM Dinode := do
  let buf ← rsect (IBLOCK inum sb)
  pure (readDinode buf (inum % IPB))

def ialloc (type : Nat) : MkM Nat := do
  let s ← get
  modify (fun s => { s with freeinode := s.freeinode + 1 })
  winode s.freeinode { Dinode.zero with type := type, nlink := 1, size := 0 }
  pure s.freeinode

/-- `freeblock++` -/
def nextBlock : MkM Nat := do
  let s ← get
  modify (fun s => { s with freeblock := s.freeblock + 1 })
  pure s.freeblock

def appendAddr (din : Dinode) (k : Nat) : MkM Dinode :=
  if din.addrs k = 0 then do
    let x ← nextBlock
    pure (din.setAddr k x)
  else pure din

def appendEntry (din : Dinode) (n : Nat) : MkM Nat := do
  let indirect ← rsect (din.addrs NDIRECT)
  if indirect.word (4 * n) 4 = 0 then
    let x ← nextBlock
    wsect (din.addrs NDIRECT) (indirect.setWord (4 * n) 4 x)
    pure x
  else pure (indirect.word (4 * n) 4)

/-- The sector of block `fbn` of the inode `din`, allocated if necessary. -/
def appendBlock (din : Dinode) (fbn : Nat) : MkM (Nat × Dinode) := do
  if fbn < NDIRECT then
    let din ← appendAddr din fbn
    pure (din.addrs fbn, din)
  else
    let din ← appendAddr din NDIRECT
    let x ← appendEntry din (fbn - NDIRECT)
    pure (x, din)

def iappendLoop : Nat → (Nat → UInt8) → Nat → Nat → Dinode → MkM Dinode
  | 0, _, _, _, din => pure din
  | fuel + 1, p, n, off, din => do
    if n = 0 then pure din
    else
      let fbn := off / BSIZE
      assert (fbn < MAXFILE) "fbn < MAXFILE"
      let (x, din) ← appendBlock din fbn
      let n1 := min n ((fbn + 1) * BSIZE - off)
      let buf ← rsect x
      wsect x (buf.write (off - fbn * BSIZE) p n1)
      iappendLoop fuel (fun i => p (i + n1)) (n - n1) (off + n1) din

def iappend (inum : Nat) (p : Nat → UInt8) (n : Nat) : MkM Unit := do
  let din ← rinode inum
  let off := din.size
  let din ← iappendLoop n p n off din
  winode inum (din.setSize (off + n))

def balloc (used : Nat) : MkM Unit := do
  assert (used < BSIZE * 8) "used < BSIZE*8"
  wsect sb.bmapstart (bitsBelow used)

structure InputFile where
  name : Name
  chunks : List (List UInt8)

/-- The name in the file system: a leading `_` is skipped. -/
def fsName (name : Name) : Name :=
  if name.head? = some 95 then name.tail else name

def appendChunks (inum : Nat) : List (List UInt8) → MkM Unit
  | [] => pure ()
  | c :: cs => do
    iappend inum (cstr c) c.length
    appendChunks inum cs

/-- One round of the loop of `main` over the files. -/
def addFile (rootino : Nat) (f : InputFile) : MkM Unit := do
  assert (slash ∉ f.name) "index(argv[i], '/') == 0"
  let inum ← ialloc T_FILE
  iappend rootino (direntBytes inum (fsName f.name)) 16
  appendChunks inum f.chunks

def addFiles (rootino : Nat) : List InputFile → MkM Unit
  | [] => pure ()
  | f :: fs => do
    addFile rootino f
    addFiles rootino fs

/-- The rounding of the root directory's size at the end of `main`. -/
def fixRoot (rootino : Nat) : MkM Unit := do
  let din ← rinode rootino
  winode rootino (din.setSize ((din.size / BSIZE + 1) * BSIZE))

def main (files : List InputFile) : MkM Unit := do
  wsect 1 ((Bytes.zero : Block).write 0 (sbBytes sb) 28)
  let rootino ← ialloc T_DIR
  assert (rootino = ROOTINO) "rootino == ROOTINO"
  iappend rootino (direntBytes rootino [46]) 16
  iappend rootino (direntBytes rootino [46, 46]) 16
  addFiles rootino files
  fixRoot rootino
  let s ← get
  balloc s.freeblock

/-- The image after `main` has zeroed all sectors. -/
def blank : MkState := ⟨fun _ => Bytes.zero, 1, nmeta⟩

end Xv6.Mkfs
