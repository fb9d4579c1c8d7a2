import Xv6.FsLayout
import Xv6.Prog

/-!
# Blocks and inodes

The functions of `fs.c` on blocks and inodes, from `balloc` to `writei`. Blocks are seen through
the buffer cache: `disk b` is the data that `bread` of block `b` returns, and `logWrite` replaces
it and records the block in the running transaction. There is one disk, so device numbers are left
out. An inode pointer is the index of an entry of the inode cache. System calls run one at a time
here, so a lock that is found taken is held by the process that asks for it.
-/

namespace Xv6.Fs

open Function

/-- `struct inode`; `din` is the copy of the disk inode. -/
structure Inode where
  inum : Nat
  ref : Nat
  locked : Bool
  valid : Bool
  din : Dinode

structure FsState where
  sb : Superblock
  disk : Nat → Block
  icache : Nat → Inode
  /-- The blocks logged by the running operation. -/
  logged : List Nat
  /-- `devsw[major].read` and `.write`, which do not touch the file system. -/
  devread : Nat → Option (Nat → List UInt8)
  devwrite : Nat → Option (Nat → Int)

abbrev FsM (α : Type) := Prog FsState α

open Prog

abbrev NDEV : Nat := 10

/-! ### Blocks -/

def bread (b : Nat) : FsM Block := do
  let s ← get
  pure (s.disk b)

def FsState.put (s : FsState) (b : Nat) (data : Block) : FsState :=
  { s with
    disk := update s.disk b data
    logged := if b ∈ s.logged then s.logged else s.logged ++ [b] }

def logWrite (b : Nat) (data : Block) : FsM Unit := modify (fun s => s.put b data)

def getSb : FsM Superblock := do
  let s ← get
  pure s.sb

def bzero (bno : Nat) : FsM Unit := logWrite bno Bytes.zero

/-- `1 << (bi % 8)` -/
def bitMask (bi : Nat) : UInt8 := 1 <<< UInt8.ofNat (bi % 8)

def isFree (data : Block) (bi : Nat) : Bool := data.get (bi / 8) &&& bitMask bi == 0

def setBit (data : Block) (bi : Nat) : Block :=
  data.write (bi / 8) (fun _ => data.get (bi / 8) ||| bitMask bi) 1

def clearBit (data : Block) (bi : Nat) : Block :=
  data.write (bi / 8) (fun _ => data.get (bi / 8) &&& ~~~ bitMask bi) 1

/-- The bits `0 .. used - 1`, set one after the other. -/
def bitsBelow (used : Nat) : Block := (List.range used).foldl setBit Bytes.zero

/-- The loop of `balloc` from bitmap block `b / BPB` on; the inner loop is a search for the first
free bit. -/
def ballocFrom : Nat → Nat → FsM Nat
  | 0, _ => panicWith "balloc: out of blocks"
  | fuel + 1, b => do
    let sb ← getSb
    if b < sb.size then
      let data ← bread (BBLOCK b sb)
      match (List.range (min BPB (sb.size - b))).find? (isFree data) with
      | some bi =>
        logWrite (BBLOCK b sb) (setBit data bi)
        bzero (b + bi)
        pure (b + bi)
      | none => ballocFrom fuel (b + BPB)
    else panicWith "balloc: out of blocks"

def balloc : FsM Nat := do
  let sb ← getSb
  ballocFrom (sb.size / BPB + 1) 0

def bfree (b : Nat) : FsM Unit := do
  let sbdata ← bread 1
  modify (fun s => { s with sb := readsb sbdata })
  let sb ← getSb
  let data ← bread (BBLOCK b sb)
  if isFree data (b % BPB) then panicWith "freeing free block"
  else logWrite (BBLOCK b sb) (clearBit data (b % BPB))

/-! ### Inodes -/

def getInode (ip : Nat) : FsM Inode := do
  let s ← get
  pure (s.icache ip)

def FsState.putInode (s : FsState) (ip : Nat) (i : Inode) : FsState :=
  { s with icache := update s.icache ip i }

def setInode (ip : Nat) (i : Inode) : FsM Unit := modify (fun s => s.putInode ip i)

def iget (inum : Nat) : FsM Nat := do
  let s ← get
  match (List.range NINODE).find? (fun k => (s.icache k).ref > 0 ∧ (s.icache k).inum = inum) with
  | some k => do
    setInode k { s.icache k with ref := (s.icache k).ref + 1 }
    pure k
  | none =>
    match (List.range NINODE).find? (fun k => (s.icache k).ref = 0) with
    | some k => do
      setInode k { s.icache k with inum := inum, ref := 1, valid := false }
      pure k
    | none => panicWith "iget: no inodes"

def ialloc (type : Nat) : FsM Nat := do
  let s ← get
  match (List.range' 1 (s.sb.ninodes - 1)).find?
      (fun inum => (readDinode (s.disk (IBLOCK inum s.sb)) (inum % IPB)).type = 0) with
  | some inum => do
    let data ← bread (IBLOCK inum s.sb)
    logWrite (IBLOCK inum s.sb) (writeDinode data (inum % IPB) { Dinode.zero with type := type })
    iget inum
  | none => panicWith "ialloc: no inodes"

def iupdate (ip : Nat) : FsM Unit := do
  let i ← getInode ip
  let sb ← getSb
  let data ← bread (IBLOCK i.inum sb)
  logWrite (IBLOCK i.inum sb) (writeDinode data (i.inum % IPB) i.din)

def idup (ip : Nat) : FsM Nat := do
  let i ← getInode ip
  setInode ip { i with ref := i.ref + 1 }
  pure ip

def acquiresleep (ip : Nat) : FsM Unit := do
  let i ← getInode ip
  if i.locked then sleepForever ip else setInode ip { i with locked := true }

def releasesleep (ip : Nat) : FsM Unit := do
  let i ← getInode ip
  setInode ip { i with locked := false }

def ilock (ip : Nat) : FsM Unit := do
  let i ← getInode ip
  if i.ref < 1 then panicWith "ilock"
  else
    acquiresleep ip
    let i ← getInode ip
    if i.valid then pure ()
    else
      let sb ← getSb
      let data ← bread (IBLOCK i.inum sb)
      let din := readDinode data (i.inum % IPB)
      setInode ip { i with din := din, valid := true }
      if din.type = 0 then panicWith "ilock: no type" else pure ()

def iunlock (ip : Nat) : FsM Unit := do
  let i ← getInode ip
  if !i.locked || i.ref < 1 then panicWith "iunlock" else releasesleep ip

/-! ### Inode content -/

def setAddr (ip k addr : Nat) : FsM Unit := do
  let i ← getInode ip
  setInode ip { i with din := i.din.setAddr k addr }

/-- The indirect block of `ip`, allocated if necessary. -/
def loadIndirect (ip : Nat) : FsM Nat := do
  let i ← getInode ip
  if i.din.addrs NDIRECT = 0 then
    let addr ← balloc
    setAddr ip NDIRECT addr
    pure addr
  else pure (i.din.addrs NDIRECT)

def bmap (ip bn : Nat) : FsM Nat := do
  let i ← getInode ip
  if bn < NDIRECT then
    if i.din.addrs bn = 0 then
      let addr ← balloc
      setAddr ip bn addr
      pure addr
    else pure (i.din.addrs bn)
  else if bn - NDIRECT < NINDIRECT then
    let ind ← loadIndirect ip
    let a ← bread ind
    if a.word (4 * (bn - NDIRECT)) 4 = 0 then
      let addr ← balloc
      let a ← bread ind
      logWrite ind (a.setWord (4 * (bn - NDIRECT)) 4 addr)
      pure addr
    else pure (a.word (4 * (bn - NDIRECT)) 4)
  else panicWith "bmap: out of range"

/-- The first loop of `itrunc`. -/
def truncDirect (ip : Nat) : List Nat → FsM Unit
  | [] => pure ()
  | k :: ks => do
    let i ← getInode ip
    if i.din.addrs k ≠ 0 then
      bfree (i.din.addrs k)
      setAddr ip k 0
      truncDirect ip ks
    else truncDirect ip ks

/-- The second loop of `itrunc`, over the data `a` of the indirect block. -/
def truncIndirect (a : Block) : List Nat → FsM Unit
  | [] => pure ()
  | j :: js => do
    if a.word (4 * j) 4 ≠ 0 then
      bfree (a.word (4 * j) 4)
      truncIndirect a js
    else truncIndirect a js

def setSize (ip size : Nat) : FsM Unit := do
  let i ← getInode ip
  setInode ip { i with din := i.din.setSize size }

def itrunc (ip : Nat) : FsM Unit := do
  truncDirect ip (List.range NDIRECT)
  let i ← getInode ip
  if i.din.addrs NDIRECT ≠ 0 then
    let a ← bread (i.din.addrs NDIRECT)
    truncIndirect a (List.range NINDIRECT)
    bfree (i.din.addrs NDIRECT)
    setAddr ip NDIRECT 0
  else pure ()
  setSize ip 0
  iupdate ip

def iput (ip : Nat) : FsM Unit := do
  acquiresleep ip
  let i ← getInode ip
  if i.valid ∧ i.din.nlink = 0 ∧ i.ref = 1 then
    itrunc ip
    let i ← getInode ip
    setInode ip { i with din := i.din.setType 0 }
    iupdate ip
    let i ← getInode ip
    setInode ip { i with valid := false }
  else pure ()
  releasesleep ip
  let i ← getInode ip
  setInode ip { i with ref := i.ref - 1 }

def iunlockput (ip : Nat) : FsM Unit := do
  iunlock ip
  iput ip

/-- The loop of `readi`: `n` bytes from offset `off` on. -/
def readiLoop (ip : Nat) : Nat → Nat → Nat → FsM (List UInt8)
  | 0, _, _ => pure []
  | fuel + 1, off, n => do
    if n = 0 then pure []
    else
      let b ← bmap ip (off / BSIZE)
      let data ← bread b
      let m := min n (BSIZE - off % BSIZE)
      let rest ← readiLoop ip fuel (off + m) (n - m)
      pure ((List.range m).map (fun i => data.get (off % BSIZE + i)) ++ rest)

/-- The bytes read, or `none` for a return of -1. -/
def readi (ip off n : Nat) : FsM (Option (List UInt8)) := do
  let i ← getInode ip
  let s ← get
  if i.din.type = T_DEV then
    if i.din.major ≥ NDEV then pure none
    else pure ((s.devread i.din.major).map (fun read => read n))
  else if off > i.din.size ∨ (off + n) % 2 ^ 32 < off then pure none
  else
    let n := if off + n > i.din.size then i.din.size - off else n
    let data ← readiLoop ip n off n
    pure (some data)

/-- The loop of `writei`: the bytes `src 0 .. src (n - 1)` to offset `off`. -/
def writeiLoop (ip : Nat) : Nat → (Nat → UInt8) → Nat → Nat → FsM Unit
  | 0, _, _, _ => pure ()
  | fuel + 1, src, off, n => do
    if n = 0 then pure ()
    else
      let b ← bmap ip (off / BSIZE)
      let data ← bread b
      let m := min n (BSIZE - off % BSIZE)
      logWrite b (data.write (off % BSIZE) src m)
      writeiLoop ip fuel (fun i => src (i + m)) (off + m) (n - m)

def writei (ip : Nat) (src : Nat → UInt8) (off n : Nat) : FsM Int := do
  let i ← getInode ip
  let s ← get
  if i.din.type = T_DEV then
    if i.din.major ≥ NDEV then pure (-1)
    else
      match s.devwrite i.din.major with
      | some write => pure (write n)
      | none => pure (-1)
  else if off > i.din.size ∨ (off + n) % 2 ^ 32 < off then pure (-1)
  else if off + n > MAXFILE * BSIZE then pure (-1)
  else
    writeiLoop ip n src off n
    let i ← getInode ip
    if n > 0 ∧ off + n > i.din.size then
      setSize ip (off + n)
      iupdate ip
    else pure ()
    pure n

/-! ### The primitive programs -/

section Primitives

variable {s : FsState} {E : Fault → Prop}

@[simp] theorem put_disk (s : FsState) (b : Nat) (data : Block) :
    (s.put b data).disk = update s.disk b data := rfl

@[simp] theorem put_sb (s : FsState) (b : Nat) (data : Block) : (s.put b data).sb = s.sb := rfl

@[simp] theorem put_icache (s : FsState) (b : Nat) (data : Block) :
    (s.put b data).icache = s.icache := rfl

@[simp] theorem putInode_disk (s : FsState) (ip : Nat) (i : Inode) :
    (s.putInode ip i).disk = s.disk := rfl

@[simp] theorem putInode_sb (s : FsState) (ip : Nat) (i : Inode) :
    (s.putInode ip i).sb = s.sb := rfl

@[simp] theorem putInode_icache (s : FsState) (ip : Nat) (i : Inode) :
    (s.putInode ip i).icache = update s.icache ip i := rfl

@[simp] theorem wp_bread (b : Nat) {Q : Block → FsState → Prop} :
    wp (bread b) s Q E ↔ Q (s.disk b) s := Iff.rfl

@[simp] theorem wp_logWrite (b : Nat) (data : Block) {Q : Unit → FsState → Prop} :
    wp (logWrite b data) s Q E ↔ Q () (s.put b data) := Iff.rfl

@[simp] theorem wp_getSb {Q : Superblock → FsState → Prop} :
    wp getSb s Q E ↔ Q s.sb s := Iff.rfl

@[simp] theorem wp_getInode (ip : Nat) {Q : Inode → FsState → Prop} :
    wp (getInode ip) s Q E ↔ Q (s.icache ip) s := Iff.rfl

@[simp] theorem wp_setInode (ip : Nat) (i : Inode) {Q : Unit → FsState → Prop} :
    wp (setInode ip i) s Q E ↔ Q () (s.putInode ip i) := Iff.rfl

end Primitives

end Xv6.Fs
