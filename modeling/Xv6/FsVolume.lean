import Xv6.FsBitmap

/-!
# Volumes

The blocks that the inodes of a disk hold, and the files they make up. A block number is stored in
a place of an inode: its direct addresses are places 0 to 11, the address of its indirect block is
place 12 and the entries of the indirect block are the places from 13 on. A `Volume` is a disk
together with a table of inodes in which every place holds a block of its own; the table need not
be the one on the disk, so that it can contain an inode that is being changed in memory.
-/

namespace Xv6.Fs

open Function

/-- The block number in place `k` of inode `d`, 0 if there is none. -/
def ptr (disk : Nat → Block) (d : Dinode) (k : Nat) : Nat :=
  if k ≤ NDIRECT then d.addrs k
  else if k ≤ MAXFILE ∧ d.addrs NDIRECT ≠ 0 then
    (disk (d.addrs NDIRECT)).word (4 * (k - (NDIRECT + 1))) 4
  else 0

/-- The place of block `bn` of the contents. -/
def place (bn : Nat) : Nat := if bn < NDIRECT then bn else bn + 1

def addrOf (disk : Nat → Block) (d : Dinode) (bn : Nat) : Nat := ptr disk d (place bn)

/-- Byte `x` of the contents; a block without address reads as zeros. -/
def byteAt (disk : Nat → Block) (d : Dinode) (x : Nat) : UInt8 :=
  if addrOf disk d (x / BSIZE) = 0 then 0 else (disk (addrOf disk d (x / BSIZE))).get (x % BSIZE)

/-- The inodes on the disk; numbers outside the table count as free inodes. -/
def dinodes (sb : Superblock) (disk : Nat → Block) (i : Nat) : Dinode :=
  if 0 < i ∧ i < sb.ninodes then readDinode (disk (IBLOCK i sb)) (i % IPB) else Dinode.zero

/-- The blocks held by the allocated inodes of a table. -/
def held (disk : Nat → Block) (tbl : Nat → Dinode) (x : Nat × Nat) : Nat :=
  if (tbl x.1).type = 0 then 0 else ptr disk (tbl x.1) x.2

/-- The first data block. -/
def dataStart (sb : Superblock) : Nat := sb.size - sb.nblocks

/-- Boot block, superblock, log, inode blocks, free map and data blocks follow each other. -/
structure Layout (sb : Superblock) : Prop where
  inodes : 2 ≤ sb.inodestart
  bitmap : sb.inodestart + (sb.ninodes / IPB + 1) ≤ sb.bmapstart
  data : sb.bmapstart + (sb.size / BPB + 1) ≤ dataStart sb
  size : sb.size < 2 ^ 31

structure Volume (used : Nat → Bool) (sb : Superblock) (disk : Nat → Block)
    (tbl : Nat → Dinode) : Prop where
  layout : Layout sb
  super : readsb (disk 1) = sb
  owns : Owns (dataStart sb) sb.size used (held disk tbl)

/-! ### Files -/

/-- What an inode stands for. -/
structure File where
  type : Nat
  major : Nat
  minor : Nat
  nlink : Nat
  size : Nat
  bytes : Nat → UInt8

def File.free : File := ⟨0, 0, 0, 0, 0, fun _ => 0⟩

def fileOf (disk : Nat → Block) (d : Dinode) : File :=
  if d.type = 0 then File.free
  else ⟨d.type, d.major, d.minor, d.nlink, d.size, byteAt disk d⟩

/-- The files of a table. -/
def view (disk : Nat → Block) (tbl : Nat → Dinode) (i : Nat) : File := fileOf disk (tbl i)

section

variable {used : Nat → Bool} {sb : Superblock} {disk disk' : Nat → Block} {tbl : Nat → Dinode}
  {d : Dinode} {i j k b : Nat}

theorem fileOf_free (h : d.type = 0) : fileOf disk d = File.free := if_pos h

theorem fileOf_live (h : d.type ≠ 0) :
    fileOf disk d = ⟨d.type, d.major, d.minor, d.nlink, d.size, byteAt disk d⟩ := if_neg h

theorem fileOf_type : (fileOf disk d).type = d.type := by
  by_cases h : d.type = 0
  · rw [fileOf_free h, h]
    rfl
  · rw [fileOf_live h]

theorem held_live (h : (tbl i).type ≠ 0) : held disk tbl (i, k) = ptr disk (tbl i) k := if_neg h

theorem held_free (h : (tbl i).type = 0) : held disk tbl (i, k) = 0 := if_pos h

theorem place_ne (bn : Nat) : place bn ≠ NDIRECT := by
  simp only [place, NDIRECT]
  split_ifs <;> omega

theorem place_inj {m n : Nat} (h : place m = place n) : m = n := by
  simp only [place, NDIRECT] at h
  split_ifs at h <;> omega

theorem ptr_of_gt (h : MAXFILE < k) : ptr disk d k = 0 := by
  have hk : ¬ k ≤ NDIRECT := by
    simp only [MAXFILE, NDIRECT, NINDIRECT, BSIZE] at *
    omega
  rw [ptr, if_neg hk, if_neg (by omega)]

theorem ptr_congr {d' : Dinode} (ha : d'.addrs = d.addrs)
    (hb : d.addrs NDIRECT ≠ 0 → disk' (d.addrs NDIRECT) = disk (d.addrs NDIRECT)) :
    ptr disk' d' k = ptr disk d k := by
  simp only [ptr, ha]
  split_ifs with h₁ h₂
  · rfl
  · rw [hb h₂.2]
  · rfl

theorem byteAt_of_eq {x : Nat} (h : addrOf disk d (x / BSIZE) = 0) : byteAt disk d x = 0 := if_pos h

theorem byteAt_of_ne {x : Nat} (h : addrOf disk d (x / BSIZE) ≠ 0) :
    byteAt disk d x = (disk (addrOf disk d (x / BSIZE))).get (x % BSIZE) := if_neg h

theorem byteAt_congr {d' : Dinode} (hp : ∀ bn, addrOf disk' d' bn = addrOf disk d bn)
    (hb : ∀ bn, addrOf disk d bn ≠ 0 → disk' (addrOf disk d bn) = disk (addrOf disk d bn)) :
    byteAt disk' d' = byteAt disk d := by
  funext x
  by_cases h : addrOf disk d (x / BSIZE) = 0
  · rw [byteAt_of_eq h, byteAt_of_eq (by rw [hp, h])]
  · rw [byteAt_of_ne h, byteAt_of_ne (by rwa [hp]), hp, hb _ h]

/-! ### Metadata blocks -/

namespace Layout

variable (h : Layout sb)
include h

theorem IBLOCK_lt (hi : i < sb.ninodes) : IBLOCK i sb < sb.bmapstart := by
  have hb := h.bitmap
  simp only [IBLOCK, IPB, BSIZE] at *
  omega

theorem IBLOCK_ne_one : IBLOCK i sb ≠ 1 := by
  have hi := h.inodes
  simp only [IBLOCK, IPB, BSIZE]
  omega

theorem BBLOCK_lt (hb : b < sb.size) : BBLOCK b sb < dataStart sb := by
  have hd := h.data
  simp only [BBLOCK, BPB, BSIZE] at *
  omega

theorem one_lt_bmapstart : 1 < sb.bmapstart := by
  have hi := h.inodes
  have hb := h.bitmap
  simp only [IPB, BSIZE] at *
  omega

theorem bmapstart_lt : sb.bmapstart < dataStart sb := by
  have hd := h.data
  simp only [BPB, BSIZE] at *
  omega

end Layout

theorem bmapstart_le : sb.bmapstart ≤ BBLOCK b sb := Nat.le_add_left _ _

theorem dinodes_update {data : Block} (hL : Layout sb) (hb : sb.bmapstart ≤ b) :
    dinodes sb (update disk b data) = dinodes sb disk := by
  funext i
  simp only [dinodes]
  split_ifs with hi
  · have := hL.IBLOCK_lt hi.2
    rw [update_of_ne (by omega)]
  · rfl

theorem bitUsed_update_of_ne {data : Block} {c : Nat} (h : b ≠ BBLOCK c sb) :
    bitUsed sb (update disk b data) c = bitUsed sb disk c := by
  rw [bitUsed, update_of_ne (Ne.symm h), bitUsed]

/-! ### Changing the places of an inode -/

theorem held_congr {tbl' : Nat → Dinode} {l : Nat} (ht : tbl' j = tbl j)
    (hsame : held disk tbl (j, NDIRECT) ≠ 0 → disk' (held disk tbl (j, NDIRECT)) = disk (held disk
      tbl (j, NDIRECT))) : held disk' tbl' (j, l) = held disk tbl (j, l) := by
  by_cases hj : (tbl j).type = 0
  · rw [held_free hj, held_free (by rw [ht, hj])]
  · rw [held_live hj, held_live (by rwa [ht]), ht]
    exact ptr_congr rfl (by simpa only [held_live hj, ptr, le_refl, if_true] using hsame)

theorem held_update_addr (hd : d.type ≠ 0) (ht : tbl i = d) (hk : k ≤ NDIRECT)
    (hfree : d.addrs k = 0) (hzero : disk' b = Bytes.zero)
    (hsame : ∀ j, held disk tbl (j, NDIRECT) ≠ 0 → disk' (held disk tbl (j, NDIRECT)) = disk (held
      disk tbl (j, NDIRECT))) :
    held disk' (update tbl i (d.setAddr k b)) = update (held disk tbl) (i, k) b := by
  funext ⟨j, l⟩
  by_cases hj : j = i
  · subst hj
    have hlive : (tbl j).type ≠ 0 := by rwa [ht]
    have hi := hsame j
    simp only [held_live hlive, ht, ptr, le_refl, if_true] at hi
    have hset : (d.setAddr k b).addrs = update d.addrs k b := rfl
    rw [held_live (by rwa [update_self]), update_self]
    by_cases hl : l = k
    · subst hl
      rw [update_self, ptr, if_pos hk, hset, update_self]
    · rw [update_of_ne (by simpa using hl), held_live hlive, ht]
      by_cases hl12 : l ≤ NDIRECT
      · rw [ptr, if_pos hl12, hset, update_of_ne hl, ptr, if_pos hl12]
      · rw [ptr, if_neg hl12, ptr, if_neg hl12, hset]
        by_cases hk12 : k = NDIRECT
        · -- a new indirect block has no entries yet
          subst hk12
          simp [hfree, hzero, Bytes.word_zero]
        · rw [update_of_ne (Ne.symm hk12)]
          split_ifs with hmax
          · rw [hi hmax.2]
          · rfl
  · rw [update_of_ne (by simp [hj])]
    exact held_congr (update_of_ne hj _ _) (hsame j)

theorem held_update_entry {n : Nat} (ht : (tbl i).type ≠ 0) (hn : n < NINDIRECT)
    (hind : (tbl i).addrs NDIRECT ≠ 0) (hb : b < 2 ^ 32)
    (hset : disk' ((tbl i).addrs NDIRECT) = (disk ((tbl i).addrs NDIRECT)).setWord (4 * n) 4 b)
    (hsame : ∀ j ≠ i, held disk tbl (j, NDIRECT) ≠ 0 →
      disk' (held disk tbl (j, NDIRECT)) = disk (held disk tbl (j, NDIRECT))) :
    held disk' tbl = update (held disk tbl) (i, NDIRECT + 1 + n) b := by
  have hn' : n < 128 := hn
  funext ⟨j, l⟩
  by_cases hj : j = i
  · subst hj
    rw [held_live ht]
    by_cases hl : l = NDIRECT + 1 + n
    · subst hl
      rw [update_self, ptr, if_neg (by omega),
        if_pos ⟨by simp only [MAXFILE, NINDIRECT, BSIZE]; omega, hind⟩, hset,
        Nat.add_sub_cancel_left, Bytes.word_setWord_same _ _ (by simp only [BSIZE]; omega)]
      exact Nat.mod_eq_of_lt hb
    · rw [update_of_ne (by simpa using hl), held_live ht]
      by_cases hl12 : l ≤ NDIRECT
      · rw [ptr, if_pos hl12, ptr, if_pos hl12]
      · rw [ptr, if_neg hl12, ptr, if_neg hl12, hset,
          Bytes.word_setWord_out _ _ (by simp only [NDIRECT] at *; omega)]
  · rw [update_of_ne (by simp [hj])]
    exact held_congr rfl (hsame j hj)

/-! ### What the files see of it -/

/-- The fields that `bmap` leaves alone. -/
structure SameMeta (d d' : Dinode) : Prop where
  type : d'.type = d.type
  major : d'.major = d.major
  minor : d'.minor = d.minor
  nlink : d'.nlink = d.nlink
  size : d'.size = d.size

theorem fileOf_congr {d' : Dinode} (hm : SameMeta d d')
    (hb : d.type ≠ 0 → byteAt disk' d' = byteAt disk d) : fileOf disk' d' = fileOf disk d := by
  by_cases h : d.type = 0
  · rw [fileOf_free h, fileOf_free (by rw [hm.type, h])]
  · rw [fileOf_live h, fileOf_live (by rwa [hm.type]), hm.type, hm.major, hm.minor, hm.nlink,
      hm.size, hb h]

/-- Filling a place with a zeroed block changes no file. -/
theorem view_alloc {tbl' : Nat → Dinode} (hm : ∀ j, SameMeta (tbl j) (tbl' j))
    (hx : held disk tbl (i, k) = 0) (hheld : held disk' tbl' = update (held disk tbl) (i, k) b)
    (hzero : disk' b = Bytes.zero)
    (hsame : ∀ j l, l ≠ NDIRECT → held disk tbl (j, l) ≠ 0 → disk' (held disk tbl (j, l)) = disk
      (held disk tbl (j, l))) : view disk' tbl' = view disk tbl := by
  funext j
  apply fileOf_congr (hm j)
  intro hj
  have hj' : (tbl' j).type ≠ 0 := by rwa [(hm j).type]
  have hnew : ∀ l, ptr disk' (tbl' j) l = update (held disk tbl) (i, k) b (j, l) := by
    intro l
    rw [← held_live hj', hheld]
  funext x
  by_cases hik : (j, place (x / BSIZE)) = (i, k)
  · rw [byteAt_of_eq (d := tbl j) (by rw [addrOf, ← held_live hj, hik, hx])]
    have haddr : addrOf disk' (tbl' j) (x / BSIZE) = b := by
      rw [addrOf, hnew, hik, update_self]
    by_cases hb : b = 0
    · rw [byteAt_of_eq (by rw [haddr, hb])]
    · rw [byteAt_of_ne (by rwa [haddr]), haddr, hzero, Bytes.get_zero]
  · have haddr : addrOf disk' (tbl' j) (x / BSIZE) = addrOf disk (tbl j) (x / BSIZE) := by
      rw [addrOf, hnew, update_of_ne hik, held_live hj, addrOf]
    by_cases h : addrOf disk (tbl j) (x / BSIZE) = 0
    · rw [byteAt_of_eq h, byteAt_of_eq (by rw [haddr, h])]
    · have hs := hsame j _ (place_ne (x / BSIZE)) (by rwa [held_live hj])
      rw [held_live hj] at hs
      rw [byteAt_of_ne h, byteAt_of_ne (by rwa [haddr]), haddr]
      exact congrArg (fun data : Block => data.get (x % BSIZE)) hs

namespace Volume

variable (hV : Volume used sb disk tbl)
include hV

theorem one_lt (hb : dataStart sb ≤ b) : 1 < b := by
  have h₁ := hV.layout.one_lt_bmapstart
  have h₂ := hV.layout.bmapstart_lt
  omega

theorem alloc {tbl' : Nat → Dinode} (hb : b < sb.size) (hf : used b = false)
    (hx : held disk tbl (i, k) = 0)
    (hheld : held disk' tbl' = update (held disk tbl) (i, k) b)
    (hsuper : disk' 1 = disk 1) : Volume (update used b true) sb disk' tbl' where
  layout := hV.layout
  super := by rw [hsuper, hV.super]
  owns := by
    rw [hheld]
    exact hV.owns.alloc hb hf hx

theorem held_update_low (data : Block) (hb : b < dataStart sb) :
    held (update disk b data) tbl = held disk tbl := by
  funext ⟨j, l⟩
  apply held_congr rfl
  intro hj
  have := (hV.owns.bounds hj).1
  rw [update_of_ne (by omega)]

theorem view_update_low (data : Block) (hb : b < dataStart sb) :
    view (update disk b data) tbl = view disk tbl := by
  funext j
  refine fileOf_congr ⟨rfl, rfl, rfl, rfl, rfl⟩ (fun hj => byteAt_congr ?_ ?_)
  · intro bn
    rw [addrOf, ← held_live hj, hV.held_update_low data hb, held_live hj, addrOf]
  · intro bn hbn
    rw [addrOf, ← held_live hj] at hbn ⊢
    have := (hV.owns.bounds hbn).1
    rw [update_of_ne (by omega)]

variable {bn : Nat} (hi : (tbl i).type ≠ 0) (hb : addrOf disk (tbl i) bn = b) (hb0 : b ≠ 0)
  (data : Block)
include hi hb hb0

theorem held_ne {x : Nat × Nat} (hx : x ≠ (i, place bn)) : held disk tbl x ≠ b := by
  have hbn : held disk tbl (i, place bn) = b := by rw [held_live hi, ← hb, addrOf]
  intro h
  exact hx (hV.owns.inj (by rwa [h]) (by rw [h, hbn]))

theorem held_write : held (update disk b data) tbl = held disk tbl := by
  funext ⟨j, l⟩
  apply held_congr rfl
  intro _
  rw [update_of_ne]
  apply hV.held_ne hi hb hb0
  intro h
  exact place_ne bn (Prod.mk.inj h).2.symm

theorem write : Volume used sb (update disk b data) tbl where
  layout := hV.layout
  super := by
    have hbn : held disk tbl (i, place bn) = b := by rw [held_live hi, ← hb, addrOf]
    have h1 := hV.one_lt (hV.owns.bounds (by rwa [hbn])).1
    rw [update_of_ne (by omega), hV.super]
  owns := by
    rw [hV.held_write hi hb hb0]
    exact hV.owns

/-- The write is seen in block `bn` of file `i` and nowhere else. -/
theorem view_write : view (update disk b data) tbl =
    update (view disk tbl) i { view disk tbl i with
      bytes := fun x => if x / BSIZE = bn then data.get (x % BSIZE)
        else byteAt disk (tbl i) x } := by
  have hptr : ∀ j, (tbl j).type ≠ 0 → ∀ c,
      addrOf (update disk b data) (tbl j) c = addrOf disk (tbl j) c := by
    intro j hj c
    rw [addrOf, ← held_live hj, hV.held_write hi hb hb0, held_live hj, addrOf]
  funext j
  by_cases hji : j = i
  · subst hji
    rw [update_self, view, fileOf_live hi, view, fileOf_live hi]
    congr 1
    funext x
    by_cases hx : x / BSIZE = bn
    · rw [if_pos hx, byteAt_of_ne (by rw [hptr j hi, hx, hb]; exact hb0), hptr j hi, hx, hb,
        update_self]
    · rw [if_neg hx]
      by_cases h : addrOf disk (tbl j) (x / BSIZE) = 0
      · rw [byteAt_of_eq h, byteAt_of_eq (by rw [hptr j hi, h])]
      · have hne : addrOf disk (tbl j) (x / BSIZE) ≠ b := by
          rw [addrOf, ← held_live hi]
          exact hV.held_ne hi hb hb0 (fun h => hx (place_inj (Prod.mk.inj h).2))
        rw [byteAt_of_ne h, byteAt_of_ne (by rwa [hptr j hi]), hptr j hi, update_of_ne hne]
  · rw [update_of_ne hji]
    refine fileOf_congr ⟨rfl, rfl, rfl, rfl, rfl⟩ (fun hj => byteAt_congr (hptr j hj) ?_)
    intro c _
    rw [update_of_ne]
    rw [addrOf, ← held_live hj]
    exact hV.held_ne hi hb hb0 (fun h => hji (Prod.mk.inj h).1)

end Volume

end

end Xv6.Fs
