import Mathlib.Logic.Function.Basic
import Mathlib.Tactic.IntervalCases
import Xv6.Param

/-!
# On-disk formats

The structures of `fs.h` and their place in the bytes of a block: the superblock in block 1, eight
64-byte inodes in an inode block, little-endian block numbers in an indirect block, 16-byte
directory entries, one bit per block in the free map.
-/

namespace Xv6.Fs

structure Superblock where
  size : Nat
  nblocks : Nat
  ninodes : Nat
  nlog : Nat
  logstart : Nat
  inodestart : Nat
  bmapstart : Nat
  deriving DecidableEq, Repr

def readsb (data : Block) : Superblock where
  size := data.word 0 4
  nblocks := data.word 4 4
  ninodes := data.word 8 4
  nlog := data.word 12 4
  logstart := data.word 16 4
  inodestart := data.word 20 4
  bmapstart := data.word 24 4

/-- The 28 bytes of a superblock. -/
def sbBytes (sb : Superblock) (i : Nat) : UInt8 :=
  if i < 4 then leByte sb.size i
  else if i < 8 then leByte sb.nblocks (i - 4)
  else if i < 12 then leByte sb.ninodes (i - 8)
  else if i < 16 then leByte sb.nlog (i - 12)
  else if i < 20 then leByte sb.logstart (i - 16)
  else if i < 24 then leByte sb.inodestart (i - 20)
  else leByte sb.bmapstart (i - 24)

abbrev T_DIR : Nat := 1

abbrev T_FILE : Nat := 2

abbrev T_DEV : Nat := 3

/-- `struct dinode`. The short fields are kept as unsigned 16-bit words, and `addrs` is zero from
`NDIRECT + 1` on. -/
structure Dinode where
  type : Nat
  major : Nat
  minor : Nat
  nlink : Nat
  size : Nat
  addrs : Nat → Nat

def Dinode.zero : Dinode := ⟨0, 0, 0, 0, 0, fun _ => 0⟩

def Dinode.setAddr (d : Dinode) (k addr : Nat) : Dinode :=
  { d with addrs := Function.update d.addrs k addr }

def Dinode.setSize (d : Dinode) (size : Nat) : Dinode := { d with size := size }

def Dinode.setType (d : Dinode) (type : Nat) : Dinode := { d with type := type }

def Dinode.setNlink (d : Dinode) (nlink : Nat) : Dinode := { d with nlink := nlink }

/-- Block containing inode `i`. -/
def IBLOCK (i : Nat) (sb : Superblock) : Nat := i / IPB + sb.inodestart

/-- Block of the free map containing the bit for block `b`. -/
def BBLOCK (b : Nat) (sb : Superblock) : Nat := b / BPB + sb.bmapstart

/-- Inode number `k` of an inode block. -/
def readDinode (data : Block) (k : Nat) : Dinode where
  type := data.word (64 * k) 2
  major := data.word (64 * k + 2) 2
  minor := data.word (64 * k + 4) 2
  nlink := data.word (64 * k + 6) 2
  size := data.word (64 * k + 8) 4
  addrs j := if j < NDIRECT + 1 then data.word (64 * k + 12 + 4 * j) 4 else 0

/-- The 64 bytes of a `struct dinode`. -/
def dinodeBytes (d : Dinode) (i : Nat) : UInt8 :=
  if i < 2 then leByte d.type i
  else if i < 4 then leByte d.major (i - 2)
  else if i < 6 then leByte d.minor (i - 4)
  else if i < 8 then leByte d.nlink (i - 6)
  else if i < 12 then leByte d.size (i - 8)
  else leByte (d.addrs ((i - 12) / 4)) ((i - 12) % 4)

def writeDinode (data : Block) (k : Nat) (d : Dinode) : Block :=
  data.write (64 * k) (dinodeBytes d) 64

/-- The fields of an in-memory inode fit their types. -/
structure Dinode.Wf (d : Dinode) : Prop where
  type : d.type < 2 ^ 16
  major : d.major < 2 ^ 16
  minor : d.minor < 2 ^ 16
  nlink : d.nlink < 2 ^ 16
  size : d.size < 2 ^ 32
  addrs : ∀ j, d.addrs j < 2 ^ 32
  short : ∀ j, NDIRECT + 1 ≤ j → d.addrs j = 0

theorem Dinode.ext' {a b : Dinode} (h₁ : a.type = b.type) (h₂ : a.major = b.major)
    (h₃ : a.minor = b.minor) (h₄ : a.nlink = b.nlink) (h₅ : a.size = b.size)
    (h₆ : ∀ j, a.addrs j = b.addrs j) : a = b := by
  cases a
  cases b
  simp only at *
  subst h₁ h₂ h₃ h₄ h₅
  rw [funext h₆]

theorem Dinode.setAddr_eq_self {d : Dinode} {k addr : Nat} (h : d.addrs k = addr) :
    d.setAddr k addr = d := by
  subst h
  simp [Dinode.setAddr]

theorem Dinode.wf_zero : Dinode.zero.Wf := by
  constructor <;> simp [Dinode.zero]

theorem Dinode.Wf.setAddr {d : Dinode} (h : d.Wf) {k addr : Nat} (hk : k ≤ NDIRECT)
    (haddr : addr < 2 ^ 32) : (d.setAddr k addr).Wf where
  type := h.type
  major := h.major
  minor := h.minor
  nlink := h.nlink
  size := h.size
  addrs j := by
    by_cases hj : j = k
    · simpa [Dinode.setAddr, hj] using haddr
    · simpa [Dinode.setAddr, hj] using h.addrs j
  short j hj := by
    have hjk : j ≠ k := by omega
    simpa [Dinode.setAddr, hjk] using h.short j hj

theorem readDinode_wf (data : Block) (k : Nat) : (readDinode data k).Wf where
  type := data.word_lt _ 2
  major := data.word_lt _ 2
  minor := data.word_lt _ 2
  nlink := data.word_lt _ 2
  size := data.word_lt _ 4
  addrs j := by
    simp only [readDinode]
    split_ifs
    · exact data.word_lt _ 4
    · decide
  short j hj := by
    simp only [readDinode]
    rw [if_neg (by omega)]

theorem readDinode_zero (k : Nat) : readDinode Bytes.zero k = Dinode.zero := by
  simp [readDinode, Dinode.zero, Bytes.word_zero]

theorem readDinode_writeDinode_ne (data : Block) {k l : Nat} (d : Dinode) (h : k ≠ l) :
    readDinode (writeDinode data k d) l = readDinode data l := by
  have hout : ∀ off len, 64 * l ≤ off → off + len ≤ 64 * l + 64 →
      (writeDinode data k d).word off len = data.word off len := by
    intro off len h₁ h₂
    apply Bytes.word_write_out
    omega
  apply Dinode.ext'
  case h₆ =>
    intro j
    simp only [readDinode]
    split_ifs with hj
    · have hj' : j < 13 := hj
      exact hout _ _ (by omega) (by omega)
    · rfl
  all_goals exact hout _ _ (by omega) (by omega)

theorem word_writeDinode (data : Block) {k off len v : Nat} (d : Dinode) (hk : k < IPB)
    (hfit : off + len ≤ 64) (hv : v < 256 ^ len)
    (h : ∀ i < len, dinodeBytes d (off + i) = leByte v i) :
    (writeDinode data k d).word (64 * k + off) len = v := by
  have hk' : k < 8 := hk
  rw [writeDinode, Bytes.word_write_in _ _ (by simp only [BSIZE]; omega) hfit h,
    Nat.mod_eq_of_lt hv]

theorem readDinode_writeDinode_same (data : Block) {k : Nat} {d : Dinode} (hk : k < IPB)
    (hd : d.Wf) : readDinode (writeDinode data k d) k = d := by
  refine Dinode.ext' (@word_writeDinode data k 0 2 d.type d hk (by decide) hd.type ?_)
    (word_writeDinode data d hk (by decide) hd.major ?_)
    (word_writeDinode data d hk (by decide) hd.minor ?_)
    (word_writeDinode data d hk (by decide) hd.nlink ?_)
    (word_writeDinode data d hk (by decide) hd.size ?_) ?_
  case refine_6 =>
    intro j
    simp only [readDinode]
    split_ifs with hj
    · have hj' : j < 13 := hj
      rw [Nat.add_assoc]
      exact word_writeDinode data d hk (by omega) (hd.addrs j) (fun i hi => by
        simp only [dinodeBytes]
        rw [if_neg (by omega), if_neg (by omega), if_neg (by omega), if_neg (by omega),
          if_neg (by omega), show (12 + 4 * j + i - 12) / 4 = j by omega,
          show (12 + 4 * j + i - 12) % 4 = i by omega])
    · exact (hd.short j (by omega)).symm
  -- each byte of the five fields before the addresses
  all_goals
    intro i hi
    interval_cases i <;> rfl

theorem readsb_write (data : Block) {sb : Superblock} (h₁ : sb.size < 2 ^ 32)
    (h₂ : sb.nblocks < 2 ^ 32) (h₃ : sb.ninodes < 2 ^ 32) (h₄ : sb.nlog < 2 ^ 32)
    (h₅ : sb.logstart < 2 ^ 32) (h₆ : sb.inodestart < 2 ^ 32) (h₇ : sb.bmapstart < 2 ^ 32) :
    readsb (data.write 0 (sbBytes sb) 28) = sb := by
  have hword : ∀ off v, off + 4 ≤ 28 → v < 2 ^ 32 →
      (∀ i < 4, sbBytes sb (off + i) = leByte v i) →
      (data.write 0 (sbBytes sb) 28).word off 4 = v := by
    intro off v hoff hv h
    have hw := Bytes.word_write_in data (sbBytes sb) (by decide : 0 + 28 ≤ BSIZE) hoff h
    rw [Nat.zero_add] at hw
    rw [hw]
    exact Nat.mod_eq_of_lt hv
  cases sb
  simp only [readsb, Superblock.mk.injEq]
  refine ⟨hword _ _ (by decide) h₁ ?_, hword _ _ (by decide) h₂ ?_, hword _ _ (by decide) h₃ ?_,
    hword _ _ (by decide) h₄ ?_, hword _ _ (by decide) h₅ ?_, hword _ _ (by decide) h₆ ?_,
    hword _ _ (by decide) h₇ ?_⟩
  all_goals
    intro i hi
    interval_cases i <;> rfl

end Xv6.Fs
