import Xv6.FsDir

/-!
# File system calls

The system calls of `sysfile.c` on the file system, with the file table of `file.c` and the file
related part of `fork` and `exit`. A process has a current directory and open files; calls run one
after the other. `begin_op` and `end_op` are left out, they only delimit the transactions.
-/

namespace Xv6.Fs

open Prog

/-! ### Calls on inodes -/

def setNlink (ip nlink : Nat) : FsM Unit := do
  let i ← getInode ip
  setInode ip { i with din := i.din.setNlink nlink }

/-- `ip->nlink++` on a short. -/
def incNlink (ip : Nat) : FsM Unit := do
  let i ← getInode ip
  setNlink ip ((i.din.nlink + 1) % 2 ^ 16)

/-- `ip->nlink--` on a short. -/
def decNlink (ip : Nat) : FsM Unit := do
  let i ← getInode ip
  setNlink ip ((i.din.nlink + (2 ^ 16 - 1)) % 2 ^ 16)

def dot : Name := [46]

def dotdot : Name := [46, 46]

/-- The new inode of `create`, locked, with its first link count on disk. -/
def createInode (type major minor : Nat) : FsM Nat := do
  let ip ← ialloc type
  ilock ip
  let i ← getInode ip
  setInode ip { i with din := { i.din with major := major, minor := minor, nlink := 1 } }
  iupdate ip
  pure ip

/-- The `.` and `..` entries of a new directory `ip` in `dp`. -/
def createDots (ip dp : Nat) : FsM Unit := do
  incNlink dp
  iupdate dp
  let i ← getInode ip
  let d ← getInode dp
  let r ← dirlink ip dot i.inum
  if r < 0 then panicWith "create dots"
  else
    let r ← dirlink ip dotdot d.inum
    if r < 0 then panicWith "create dots" else pure ()

def create (path : List UInt8) (type major minor cwd : Nat) : FsM (Option Nat) := do
  match ← nameiparent path cwd with
  | none => pure none
  | some (dp, name) =>
    ilock dp
    match ← dirlookup dp name with
    | some (ip, _) =>
      iunlockput dp
      ilock ip
      let i ← getInode ip
      if type = T_FILE ∧ i.din.type = T_FILE then pure (some ip)
      else
        iunlockput ip
        pure none
    | none =>
      let ip ← createInode type major minor
      if type = T_DIR then createDots ip dp else pure ()
      let i ← getInode ip
      let r ← dirlink dp name i.inum
      if r < 0 then panicWith "create: dirlink"
      else
        iunlockput dp
        pure (some ip)

/-- The label `bad` of `sys_link`. -/
def linkBad (ip : Nat) : FsM Int := do
  ilock ip
  decNlink ip
  iupdate ip
  iunlockput ip
  pure (-1)

def sysLink (old new : List UInt8) (cwd : Nat) : FsM Int := do
  match ← namei old cwd with
  | none => pure (-1)
  | some ip =>
    ilock ip
    let i ← getInode ip
    if i.din.type = T_DIR then
      iunlockput ip
      pure (-1)
    else
      incNlink ip
      iupdate ip
      iunlock ip
      match ← nameiparent new cwd with
      | none => linkBad ip
      | some (dp, name) =>
        ilock dp
        let i ← getInode ip
        let r ← dirlink dp name i.inum
        if r < 0 then
          iunlockput dp
          linkBad ip
        else
          iunlockput dp
          iput ip
          pure 0

def isdiremptyLoop (dp : Nat) : Nat → Nat → FsM Bool
  | 0, _ => pure true
  | fuel + 1, off => do
    let i ← getInode dp
    if off < i.din.size then
      let de ← readEntry dp off "isdirempty: readi"
      if de.inum ≠ 0 then pure false else isdiremptyLoop dp fuel (off + 16)
    else pure true

/-- Is the directory empty except for `.` and `..`? -/
def isdirempty (dp : Nat) : FsM Bool := do
  let i ← getInode dp
  isdiremptyLoop dp (i.din.size / 16 + 1) (2 * 16)

/-- The entry at `off` of `dp` is cleared and the links of `ip` and `dp` are dropped. -/
def unlinkEntry (dp ip off : Nat) (type : Nat) : FsM Int := do
  let r ← writei dp (fun _ => 0) off 16
  if r ≠ 16 then panicWith "unlink: writei"
  else
    if type = T_DIR then
      decNlink dp
      iupdate dp
    else pure ()
    iunlockput dp
    decNlink ip
    iupdate ip
    iunlockput ip
    pure 0

def sysUnlink (path : List UInt8) (cwd : Nat) : FsM Int := do
  match ← nameiparent path cwd with
  | none => pure (-1)
  | some (dp, name) =>
    ilock dp
    if namecmp (cstr name) (cstr dot) = 0 ∨ namecmp (cstr name) (cstr dotdot) = 0 then
      iunlockput dp
      pure (-1)
    else
      match ← dirlookup dp name with
      | none =>
        iunlockput dp
        pure (-1)
      | some (ip, off) =>
        ilock ip
        let i ← getInode ip
        -- as a short, `nlink` is below 1 when it is zero or has its sign bit set
        if i.din.nlink = 0 ∨ i.din.nlink ≥ 2 ^ 15 then panicWith "unlink: nlink < 1"
        else
          let empty ← (if i.din.type = T_DIR then isdirempty ip else pure true)
          if !empty then
            iunlockput ip
            iunlockput dp
            pure (-1)
          else unlinkEntry dp ip off i.din.type

def sysMkdir (path : List UInt8) (cwd : Nat) : FsM Int := do
  match ← create path T_DIR 0 0 cwd with
  | none => pure (-1)
  | some ip =>
    iunlockput ip
    pure 0

def sysMknod (path : List UInt8) (major minor : Nat) (cwd : Nat) : FsM Int := do
  match ← create path T_DEV (major % 2 ^ 16) (minor % 2 ^ 16) cwd with
  | none => pure (-1)
  | some ip =>
    iunlockput ip
    pure 0

/-- The new current directory, or `none` for a return of -1. -/
def sysChdir (path : List UInt8) (cwd : Nat) : FsM (Option Nat) := do
  match ← namei path cwd with
  | none => pure none
  | some ip =>
    ilock ip
    let i ← getInode ip
    if i.din.type ≠ T_DIR then
      iunlockput ip
      pure none
    else
      iunlock ip
      iput cwd
      pure (some ip)

/-- The first half of `sys_open`: the inode, locked. -/
def openInode (path : List UInt8) (omode cwd : Nat) : FsM (Option Nat) := do
  if omode &&& O_CREATE ≠ 0 then create path T_FILE 0 0 cwd
  else
    match ← namei path cwd with
    | none => pure none
    | some ip =>
      ilock ip
      let i ← getInode ip
      if i.din.type = T_DIR ∧ omode ≠ 0 then
        iunlockput ip
        pure none
      else pure (some ip)

def execReads (ip : Nat) : List (Nat × Nat) → FsM Unit
  | [] => pure ()
  | (off, n) :: rs => do
    let _ ← readi ip off n
    execReads ip rs

/-- `exec` as far as it concerns the file system: which reads are made, and whether the call
succeeds, depends on the contents of the file and on memory. -/
def execInode (path : List UInt8) (reads : List (Nat × Nat)) (cwd : Nat) : FsM Int := do
  match ← namei path cwd with
  | none => pure (-1)
  | some ip =>
    ilock ip
    execReads ip reads
    iunlockput ip
    pure 0

end Xv6.Fs
