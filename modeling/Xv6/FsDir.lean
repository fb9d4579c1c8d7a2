import Xv6.FsInode

/-!
# Directories and path names

The functions of `fs.c` on directories and paths, with the string functions of `string.c` that
they use. A name is a list of bytes without NUL, a directory entry holds its first `DIRSIZ` bytes
padded with NULs.
-/

namespace Xv6.Fs

open Prog

abbrev Name := List UInt8

/-- `strncmp(p + i, q + i, n)` -/
def strncmp (p q : Nat → UInt8) : Nat → Nat → Int
  | _, 0 => 0
  | i, n + 1 =>
    if p i ≠ 0 ∧ p i = q i then strncmp p q (i + 1) n
    else (p i).toNat - (q i).toNat

/-- Byte `i` that `strncpy` of the string `t` writes: the string up to its end, then NULs. -/
def strncpy (t : Nat → UInt8) (i : Nat) : UInt8 :=
  if ∀ j < i, t j ≠ 0 then t i else 0

def namecmp (s t : Nat → UInt8) : Int := strncmp s t 0 DIRSIZ

structure Dirent where
  inum : Nat
  name : Nat → UInt8

def readDirent (data : List UInt8) : Dirent where
  inum := leWord (fun i => data.getD i 0) 0 2
  name i := data.getD (2 + i) 0

/-- The 16 bytes of a `struct dirent`. -/
def direntBytes (inum : Nat) (name : Name) (i : Nat) : UInt8 :=
  if i < 2 then leByte inum i else strncpy (cstr name) (i - 2)

/-- `readi(dp, (char*)&de, off, sizeof(de))`, with the panic `msg` if it reads less. -/
def readEntry (dp off : Nat) (msg : String) : FsM Dirent := do
  match ← readi dp off 16 with
  | some data => if data.length = 16 then pure (readDirent data) else panicWith msg
  | none => panicWith msg

def dirlookupLoop (dp : Nat) (name : Name) : Nat → Nat → FsM (Option (Nat × Nat))
  | 0, _ => pure none
  | fuel + 1, off => do
    let i ← getInode dp
    if off < i.din.size then
      let de ← readEntry dp off "dirlookup read"
      if de.inum = 0 then dirlookupLoop dp name fuel (off + 16)
      else if namecmp (cstr name) de.name = 0 then
        let ip ← iget de.inum
        pure (some (ip, off))
      else dirlookupLoop dp name fuel (off + 16)
    else pure none

/-- The inode that `name` names in directory `dp` and the offset of its entry. -/
def dirlookup (dp : Nat) (name : Name) : FsM (Option (Nat × Nat)) := do
  let i ← getInode dp
  if i.din.type ≠ T_DIR then panicWith "dirlookup not DIR"
  else dirlookupLoop dp name (i.din.size / 16 + 1) 0

/-- The loop of `dirlink`: the offset of an empty entry, or the end of the directory. -/
def emptyEntry (dp : Nat) : Nat → Nat → FsM Nat
  | 0, off => pure off
  | fuel + 1, off => do
    let i ← getInode dp
    if off < i.din.size then
      let de ← readEntry dp off "dirlink read"
      if de.inum = 0 then pure off else emptyEntry dp fuel (off + 16)
    else pure off

def dirlink (dp : Nat) (name : Name) (inum : Nat) : FsM Int := do
  match ← dirlookup dp name with
  | some (ip, _) =>
    iput ip
    pure (-1)
  | none =>
    let i ← getInode dp
    let off ← emptyEntry dp (i.din.size / 16 + 1) 0
    let r ← writei dp (direntBytes inum name) off 16
    if r ≠ 16 then panicWith "dirlink" else pure 0

/-! ### Paths -/

def slash : UInt8 := 47

/-- The next path element, cut to `DIRSIZ` bytes, and what follows it. -/
def skipelem (path : List UInt8) : Option (Name × List UInt8) :=
  let path := path.dropWhile (· = slash)
  if path = [] then none
  else
    some ((path.takeWhile (· ≠ slash)).take DIRSIZ,
      (path.dropWhile (· ≠ slash)).dropWhile (· = slash))

def namexLoop (nameiparent : Bool) : Nat → List UInt8 → Nat → FsM (Option (Nat × Name))
  | 0, _, _ => pure none
  | fuel + 1, path, ip =>
    match skipelem path with
    | none =>
      if nameiparent then do
        iput ip
        pure none
      else pure (some (ip, []))
    | some (name, path) => do
      ilock ip
      let i ← getInode ip
      if i.din.type ≠ T_DIR then
        iunlockput ip
        pure none
      else if nameiparent ∧ path = [] then
        iunlock ip
        pure (some (ip, name))
      else
        match ← dirlookup ip name with
        | none =>
          iunlockput ip
          pure none
        | some (next, _) =>
          iunlockput ip
          namexLoop nameiparent fuel path next

/-- Every round of the loop takes at least one byte off the path. -/
def namex (path : List UInt8) (nameiparent : Bool) (cwd : Nat) : FsM (Option (Nat × Name)) := do
  let ip ← (if path.head? = some slash then iget ROOTINO else idup cwd)
  namexLoop nameiparent (path.length + 1) path ip

def namei (path : List UInt8) (cwd : Nat) : FsM (Option Nat) := do
  let r ← namex path false cwd
  pure (r.map Prod.fst)

def nameiparent (path : List UInt8) (cwd : Nat) : FsM (Option (Nat × Name)) :=
  namex path true cwd

end Xv6.Fs
