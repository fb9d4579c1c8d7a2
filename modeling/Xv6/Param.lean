import Xv6.Bytes

/-!
# Constants of `param.h`, `fs.h`, `fcntl.h` and `memlayout.h`

Sizes in bytes are those of the 32-bit target: `struct dinode` takes 64 bytes, `struct dirent` 16
and `uint` 4.
-/

namespace Xv6

abbrev NOFILE : Nat := 16

abbrev NFILE : Nat := 100

abbrev NINODE : Nat := 50

abbrev MAXOPBLOCKS : Nat := 10

abbrev LOGSIZE : Nat := MAXOPBLOCKS * 3

abbrev NBUF : Nat := MAXOPBLOCKS * 3

abbrev FSSIZE : Nat := 1000

abbrev ROOTINO : Nat := 1

abbrev BSIZE : Nat := 512

abbrev NDIRECT : Nat := 12

abbrev NINDIRECT : Nat := BSIZE / 4

abbrev MAXFILE : Nat := NDIRECT + NINDIRECT

/-- Inodes per block. -/
abbrev IPB : Nat := BSIZE / 64

/-- Bitmap bits per block. -/
abbrev BPB : Nat := BSIZE * 8

abbrev DIRSIZ : Nat := 14

abbrev O_WRONLY : Nat := 1

abbrev O_RDWR : Nat := 2

abbrev O_CREATE : Nat := 512

abbrev KERNBASE : Nat := 0x80000000

/-- The data of one disk block. -/
abbrev Block := Bytes BSIZE

end Xv6
