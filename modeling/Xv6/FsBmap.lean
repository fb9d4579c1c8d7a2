import Xv6.FsVolume

/-!
# Addresses of file blocks

`bmap` on an inode in memory. The table of inodes that counts while inode `ip` is being changed is
the one on the disk with the copy in memory in its place. A call of `bmap` allocates the blocks
that are missing on the way to the block it is asked for, at most the indirect block and the block
itself; it changes the contents of no file.
-/

namespace Xv6.Fs

open Function

open Prog

/-- The inodes on the disk, except that inode `ip` is as in memory. -/
def tblOf (s : FsState) (ip : Nat) : Nat → Dinode :=
  update (dinodes s.sb s.disk) (s.icache ip).inum (s.icache ip).din

/-- Inode `ip` is allocated and its copy in memory is ahead of the disk at most. -/
structure Active (s : FsState) (ip : Nat) : Prop where
  vol : Volume (bitUsed s.sb s.disk) s.sb s.disk (tblOf s ip)
  wf : (s.icache ip).din.Wf
  live : (s.icache ip).din.type ≠ 0
  range : 0 < (s.icache ip).inum ∧ (s.icache ip).inum < s.sb.ninodes

def freeBlocks (s : FsState) : Nat := freeCount s.sb.size (bitUsed s.sb s.disk)

/-- `s'` differs from `s` in the copy of inode `ip` in memory, in blocks that `ip` holds and in
blocks that were free. -/
structure Pending (s s' : FsState) (ip : Nat) : Prop where
  active : Active s' ip
  sb : s'.sb = s.sb
  table : dinodes s'.sb s'.disk = dinodes s.sb s.disk
  others : ∀ l ≠ ip, s'.icache l = s.icache l
  inode : s'.icache ip = { s.icache ip with din := (s'.icache ip).din }
  apart : ∀ j l, j ≠ (s.icache ip).inum →
    held s'.disk (tblOf s' ip) (j, l) = held s.disk (tblOf s ip) (j, l)

/-- The changes that `bmap` makes. -/
structure Grown (s s' : FsState) (ip : Nat) : Prop extends Pending s s' ip where
  sameMeta : SameMeta (s.icache ip).din (s'.icache ip).din

/-- `s'` arises from `s` by storing the free block `b` in place `k` of inode `ip`. -/
structure AllocAt (s s' : FsState) (ip k b : Nat) : Prop where
  grown : Grown s s' ip
  ptr : ∀ l, ptr s'.disk (s'.icache ip).din l =
    if l = k then b else ptr s.disk (s.icache ip).din l
  view : view s'.disk (tblOf s' ip) = view s.disk (tblOf s ip)
  free : freeBlocks s' + 1 = freeBlocks s

variable {s s' s'' : FsState} {ip k b : Nat}

theorem Active.tbl_self (ip : Nat) : tblOf s ip (s.icache ip).inum = (s.icache ip).din :=
  update_self _ _ _

theorem Active.held_eq (h : Active s ip) :
    held s.disk (tblOf s ip) ((s.icache ip).inum, k) = ptr s.disk (s.icache ip).din k := by
  rw [held_live (by rw [Active.tbl_self]; exact h.live), Active.tbl_self]

theorem Pending.refl (h : Active s ip) : Pending s s ip :=
  ⟨h, rfl, rfl, fun _ _ => rfl, rfl, fun _ _ _ => rfl⟩

theorem Pending.inum (h : Pending s s' ip) : (s'.icache ip).inum = (s.icache ip).inum := by
  rw [h.inode]

theorem Pending.trans (h : Pending s s' ip) (h' : Pending s' s'' ip) : Pending s s'' ip where
  active := h'.active
  sb := h'.sb.trans h.sb
  table := h'.table.trans h.table
  others l hl := (h'.others l hl).trans (h.others l hl)
  inode := by rw [h'.inode, h.inode]
  apart j l hj := (h'.apart j l (by rwa [h.inum])).trans (h.apart j l hj)

theorem SameMeta.trans {d d' d'' : Dinode} (h : SameMeta d d') (h' : SameMeta d' d'') :
    SameMeta d d'' :=
  ⟨h'.type.trans h.type, h'.major.trans h.major, h'.minor.trans h.minor, h'.nlink.trans h.nlink,
    h'.size.trans h.size⟩

theorem Grown.refl (h : Active s ip) : Grown s s ip := ⟨Pending.refl h, rfl, rfl, rfl, rfl, rfl⟩

theorem Grown.trans (h : Grown s s' ip) (h' : Grown s' s'' ip) : Grown s s'' ip :=
  ⟨h.toPending.trans h'.toPending, h.sameMeta.trans h'.sameMeta⟩

/-! ### The disk after `balloc` -/

section AllocBlock

theorem allocBlock_disk_of_ne {c : Nat} (hcb : c ≠ b) (hc : c ≠ BBLOCK b s.sb) :
    (allocBlock s b).disk c = s.disk c := by
  rw [allocBlock, put_disk, update_of_ne hcb, put_disk, update_of_ne hc]

variable {tbl : Nat → Dinode} (hV : Volume (bitUsed s.sb s.disk) s.sb s.disk tbl)
  (hb : b < s.sb.size) (hf : bitUsed s.sb s.disk b = false)
include hV hb hf

theorem bitUsed_allocBlock {c : Nat} (hc : c < s.sb.size) :
    bitUsed s.sb (allocBlock s b).disk c = update (bitUsed s.sb s.disk) b true c := by
  have hlo := hV.owns.le_of_free hb hf
  have hbc := hV.layout.BBLOCK_lt hc
  rw [allocBlock, put_disk, bitUsed_update_of_ne (by omega), put_disk,
    bitUsed_update (v := true) b (fun data i j hj => isFree_setBit data hj)]

theorem dinodes_allocBlock : dinodes s.sb (allocBlock s b).disk = dinodes s.sb s.disk := by
  have hlo := hV.owns.le_of_free hb hf
  have hmap := hV.layout.bmapstart_lt
  rw [allocBlock, put_disk, dinodes_update hV.layout (by omega), put_disk,
    dinodes_update hV.layout bmapstart_le]

theorem allocBlock_disk_held {x : Nat × Nat} (hx : held s.disk tbl x ≠ 0) :
    (allocBlock s b).disk (held s.disk tbl x) = s.disk (held s.disk tbl x) := by
  have hlo := (hV.owns.bounds hx).1
  have hmap := hV.layout.BBLOCK_lt hb
  exact allocBlock_disk_of_ne (hV.owns.ne_of_free hb hf x) (by omega)

theorem allocBlock_disk_one : (allocBlock s b).disk 1 = s.disk 1 := by
  have h1 := hV.one_lt (hV.owns.le_of_free hb hf)
  have hmap := hV.layout.one_lt_bmapstart
  have hle : s.sb.bmapstart ≤ BBLOCK b s.sb := bmapstart_le
  exact allocBlock_disk_of_ne (by omega) (by omega)

end AllocBlock

theorem allocAt_of_held {d' : Dinode} (h : Active s ip) (hb : b < s.sb.size)
    (hf : bitUsed s.sb s.disk b = false) (hk : ptr s.disk (s.icache ip).din k = 0)
    (hsb : s'.sb = s.sb) (htable : dinodes s.sb s'.disk = dinodes s.sb s.disk)
    (hothers : ∀ l ≠ ip, s'.icache l = s.icache l)
    (hinode : s'.icache ip = { s.icache ip with din := d' })
    (hmeta : SameMeta (s.icache ip).din d') (hwf : d'.Wf)
    (hheld : held s'.disk (tblOf s' ip) =
      update (held s.disk (tblOf s ip)) ((s.icache ip).inum, k) b)
    (hone : s'.disk 1 = s.disk 1) (hzero : s'.disk b = Bytes.zero)
    (hsame : ∀ j l, l ≠ NDIRECT → held s.disk (tblOf s ip) (j, l) ≠ 0 →
      s'.disk (held s.disk (tblOf s ip) (j, l)) = s.disk (held s.disk (tblOf s ip) (j, l)))
    (hbits : ∀ c < s.sb.size, bitUsed s.sb s'.disk c = bitUsed s.sb (allocBlock s b).disk c) :
    AllocAt s s' ip k b := by
  have hx : held s.disk (tblOf s ip) ((s.icache ip).inum, k) = 0 := by rw [h.held_eq, hk]
  have hdin : (s'.icache ip).din = d' := by rw [hinode]
  have hinum : (s'.icache ip).inum = (s.icache ip).inum := by rw [hinode]
  have hmetas : ∀ j, SameMeta (tblOf s ip j) (tblOf s' ip j) := by
    intro j
    simp only [tblOf, hsb, htable, hinum, hdin]
    by_cases hj : j = (s.icache ip).inum
    · rw [hj, update_self, update_self]
      exact hmeta
    · rw [update_of_ne hj, update_of_ne hj]
      exact ⟨rfl, rfl, rfl, rfl, rfl⟩
  have hvol : Volume (update (bitUsed s.sb s.disk) b true) s.sb s'.disk (tblOf s' ip) :=
    h.vol.alloc hb hf hx hheld hone
  have hlive : (s'.icache ip).din.type ≠ 0 := by
    rw [hdin, hmeta.type]
    exact h.live
  have hused : ∀ c < s.sb.size, bitUsed s.sb s'.disk c =
      update (bitUsed s.sb s.disk) b true c := fun c hc =>
    (hbits c hc).trans (bitUsed_allocBlock h.vol hb hf hc)
  have hactive : Active s' ip := by
    refine ⟨?_, by rwa [hdin], hlive, by rw [hinum, hsb]; exact h.range⟩
    rw [hsb]
    exact ⟨hvol.layout, hvol.super, hvol.owns.congr hused⟩
  refine ⟨⟨⟨hactive, hsb, by rw [hsb, htable], hothers, by rw [hdin, hinode], ?_⟩, by rwa [hdin]⟩,
    ?_, ?_, ?_⟩
  · intro j l hj
    rw [hheld, update_of_ne (by simp [hj])]
  · intro l
    rw [← hactive.held_eq, hheld, hinum]
    by_cases hl : l = k
    · rw [hl, update_self, if_pos rfl]
    · rw [update_of_ne (by simpa using hl), if_neg hl, h.held_eq]
  · exact view_alloc hmetas hx hheld hzero hsame
  · rw [freeBlocks, hsb, freeCount_congr hused]
    exact freeCount_update_true hb hf

theorem allocAt_addr (h : Active s ip) (hb : b < s.sb.size)
    (hf : bitUsed s.sb s.disk b = false) (hk : k ≤ NDIRECT) (h0 : (s.icache ip).din.addrs k = 0)
    (hs : s' = (allocBlock s b).putInode ip
      { s.icache ip with din := (s.icache ip).din.setAddr k b }) : AllocAt s s' ip k b := by
  have hsize := h.vol.layout.size
  have hsb : s'.sb = s.sb := by rw [hs]; rfl
  have hdisk : s'.disk = (allocBlock s b).disk := by rw [hs]; rfl
  have hic : s'.icache = update s.icache ip
      { s.icache ip with din := (s.icache ip).din.setAddr k b } := by rw [hs]; rfl
  have htable : dinodes s.sb s'.disk = dinodes s.sb s.disk := by
    rw [hdisk, dinodes_allocBlock h.vol hb hf]
  have htbl : tblOf s' ip =
      update (tblOf s ip) (s.icache ip).inum ((s.icache ip).din.setAddr k b) := by
    simp only [tblOf, hsb, htable, hic, update_self, update_idem]
  have hzero : s'.disk b = Bytes.zero := by
    rw [hdisk, allocBlock, put_disk, update_self]
  have hsame : ∀ x, held s.disk (tblOf s ip) x ≠ 0 →
      s'.disk (held s.disk (tblOf s ip) x) = s.disk (held s.disk (tblOf s ip) x) := by
    intro x hx
    rw [hdisk, allocBlock_disk_held h.vol hb hf hx]
  have hptr : ptr s.disk (s.icache ip).din k = 0 := by rw [ptr, if_pos hk, h0]
  have hheld : held s'.disk (tblOf s' ip) =
      update (held s.disk (tblOf s ip)) ((s.icache ip).inum, k) b := by
    rw [htbl]
    exact held_update_addr h.live (Active.tbl_self ip) hk h0 hzero (fun j => hsame _)
  have hinode : s'.icache ip = { s.icache ip with din := (s.icache ip).din.setAddr k b } := by
    rw [hic, update_self]
  have hmeta : SameMeta (s.icache ip).din ((s.icache ip).din.setAddr k b) :=
    ⟨rfl, rfl, rfl, rfl, rfl⟩
  exact allocAt_of_held h hb hf hptr hsb htable (fun l hl => by rw [hic, update_of_ne hl])
    hinode hmeta (h.wf.setAddr hk (by omega)) hheld
    (by rw [hdisk, allocBlock_disk_one h.vol hb hf]) hzero (fun j l _ => hsame _)
    (fun c _ => by rw [hdisk])

theorem allocAt_entry {n ind : Nat} (h : Active s ip) (hb : b < s.sb.size)
    (hf : bitUsed s.sb s.disk b = false) (hn : n < NINDIRECT)
    (hind : (s.icache ip).din.addrs NDIRECT = ind) (hne : ind ≠ 0)
    (h0 : (s.disk ind).word (4 * n) 4 = 0)
    (hs : s' = (allocBlock s b).put ind (((allocBlock s b).disk ind).setWord (4 * n) 4 b)) :
    AllocAt s s' ip (NDIRECT + 1 + n) b := by
  have hn' : n < 128 := hn
  have hsize := h.vol.layout.size
  have hi : held s.disk (tblOf s ip) ((s.icache ip).inum, NDIRECT) = ind := by
    rw [h.held_eq, ptr, if_pos le_rfl, hind]
  have hlo := (h.vol.owns.bounds (by rwa [hi])).1
  rw [hi] at hlo
  have hmap := h.vol.layout.bmapstart_lt
  have hone := h.vol.layout.one_lt_bmapstart
  have hindb : b ≠ ind := by
    rw [← hi]
    exact (h.vol.owns.ne_of_free hb hf _).symm
  have hdiff : ∀ x, x ≠ ((s.icache ip).inum, NDIRECT) → held s.disk (tblOf s ip) x ≠ ind := by
    intro x hx hc
    exact hx (h.vol.owns.inj (by rwa [hc]) (by rw [hc, hi]))
  have hindsame : (allocBlock s b).disk ind = s.disk ind := by
    rw [← hi]
    exact allocBlock_disk_held h.vol hb hf (by rwa [hi])
  have hsb : s'.sb = s.sb := by rw [hs]; rfl
  have hic : s'.icache = s.icache := by rw [hs]; rfl
  have hdisk : s'.disk = update (allocBlock s b).disk ind
      ((s.disk ind).setWord (4 * n) 4 b) := by rw [hs, hindsame]; rfl
  have hsame : ∀ x, x ≠ ((s.icache ip).inum, NDIRECT) → held s.disk (tblOf s ip) x ≠ 0 →
      s'.disk (held s.disk (tblOf s ip) x) = s.disk (held s.disk (tblOf s ip) x) := by
    intro x hx hx0
    rw [hdisk, update_of_ne (hdiff x hx), allocBlock_disk_held h.vol hb hf hx0]
  have htable : dinodes s.sb s'.disk = dinodes s.sb s.disk := by
    rw [hdisk, dinodes_update h.vol.layout (by omega), dinodes_allocBlock h.vol hb hf]
  have htbl : tblOf s' ip = tblOf s ip := by simp only [tblOf, hsb, htable, hic]
  have hptr : ptr s.disk (s.icache ip).din (NDIRECT + 1 + n) = 0 := by
    rw [ptr, if_neg (by omega),
      if_pos ⟨by simp only [MAXFILE, NINDIRECT, BSIZE]; omega, by rwa [hind]⟩,
      Nat.add_sub_cancel_left, hind, h0]
  have hheld : held s'.disk (tblOf s' ip) =
      update (held s.disk (tblOf s ip)) ((s.icache ip).inum, NDIRECT + 1 + n) b := by
    rw [htbl]
    apply held_update_entry (by rw [Active.tbl_self]; exact h.live) hn
      (by rw [Active.tbl_self, hind]; exact hne) (by omega)
    · rw [Active.tbl_self, hind, hdisk, update_self]
    · intro j hj
      exact hsame _ (by simp [hj])
  refine allocAt_of_held h hb hf hptr hsb htable (fun l _ => by rw [hic]) (by rw [hic])
    ⟨rfl, rfl, rfl, rfl, rfl⟩ h.wf hheld ?_ ?_ (fun j l hl => hsame _ (by simp [hl])) ?_
  · rw [hdisk, update_of_ne (by omega), allocBlock_disk_one h.vol hb hf]
  · rw [hdisk, update_of_ne hindb, allocBlock, put_disk, update_self]
  · intro c hc
    have := h.vol.layout.BBLOCK_lt hc
    rw [hdisk, bitUsed_update_of_ne (by omega)]

/-! ### `bmap` -/

/-- The places that lead to block `bn`. -/
def path (bn : Nat) : Finset Nat := if bn < NDIRECT then {bn} else {NDIRECT, bn + 1}

/-- The empty places among `S`. -/
def missing (s : FsState) (ip : Nat) (S : Finset Nat) : Finset Nat :=
  S.filter (fun k => ptr s.disk (s.icache ip).din k = 0)

/-- `s'` arises from `s` by filling the empty places of `ip` among `S`. -/
structure Mapped (s s' : FsState) (ip : Nat) (S : Finset Nat) : Prop where
  grown : Grown s s' ip
  filled : ∀ k ∈ S, ptr s'.disk (s'.icache ip).din k ≠ 0
  keep : ∀ k, (k ∈ S → ptr s.disk (s.icache ip).din k ≠ 0) →
    ptr s'.disk (s'.icache ip).din k = ptr s.disk (s.icache ip).din k
  free : freeBlocks s' + (missing s ip S).card = freeBlocks s

theorem mapped_of_filled {S : Finset Nat} (h : Active s ip)
    (hS : ∀ k ∈ S, ptr s.disk (s.icache ip).din k ≠ 0) : Mapped s s ip S where
  grown := Grown.refl h
  filled := hS
  keep _ _ := rfl
  free := by
    rw [missing, Finset.filter_eq_empty_iff.mpr hS]
    rfl

theorem mapped_of_allocAt (h : AllocAt s s' ip k b) (hb : b ≠ 0)
    (hk : ptr s.disk (s.icache ip).din k = 0) :
    b = ptr s'.disk (s'.icache ip).din k ∧ Mapped s s' ip {k} ∧
      view s'.disk (tblOf s' ip) = view s.disk (tblOf s ip) := by
  refine ⟨by rw [h.ptr, if_pos rfl], ⟨h.grown, ?_, ?_, ?_⟩, h.view⟩
  · intro l hl
    rw [h.ptr, if_pos (Finset.mem_singleton.mp hl)]
    exact hb
  · intro l hl
    rw [h.ptr]
    split_ifs with hlk
    · subst hlk
      exact absurd hk (hl (Finset.mem_singleton_self _))
    · rfl
  · rw [missing, Finset.filter_singleton, if_pos hk, Finset.card_singleton]
    exact h.free

namespace Mapped

variable {S T : Finset Nat}

theorem missing_union (h : Mapped s s' ip S) :
    (missing s ip (S ∪ T)).card = (missing s ip S).card + (missing s' ip T).card := by
  have hdisj : Disjoint (missing s ip S) (missing s' ip T) := by
    rw [Finset.disjoint_left]
    intro k hk hk'
    exact h.filled k (Finset.mem_filter.mp hk).1 (Finset.mem_filter.mp hk').2
  rw [← Finset.card_union_of_disjoint hdisj]
  congr 1
  ext k
  simp only [missing, Finset.mem_filter, Finset.mem_union]
  by_cases hS : k ∈ S
  · have hne := h.filled k hS
    simp [hS, hne]
  · rw [h.keep k (fun hk => absurd hk hS)]
    simp [hS]

theorem trans (h : Mapped s s' ip S) (h' : Mapped s' s'' ip T) : Mapped s s'' ip (S ∪ T) where
  grown := h.grown.trans h'.grown
  filled k hk := by
    by_cases hS : k ∈ S
    · rw [h'.keep k (fun _ => h.filled k hS)]
      exact h.filled k hS
    · exact h'.filled k ((Finset.mem_union.mp hk).resolve_left hS)
  keep k hk := by
    have hk₁ : ptr s'.disk (s'.icache ip).din k = ptr s.disk (s.icache ip).din k :=
      h.keep k (fun hS => hk (Finset.mem_union_left _ hS))
    rw [h'.keep k (fun hT => by rw [hk₁]; exact hk (Finset.mem_union_right _ hT)), hk₁]
  free := by
    have h₁ := h.free
    have h₂ := h'.free
    rw [h.missing_union]
    omega

end Mapped

theorem allocAddr_spec (h : Active s ip) (hk : k ≤ NDIRECT)
    (h0 : (s.icache ip).din.addrs k = 0) :
    wp (do let addr ← balloc; setAddr ip k addr; pure addr) s
      (fun b s' => b = ptr s'.disk (s'.icache ip).din k ∧ Mapped s s' ip {k} ∧
        view s'.disk (tblOf s' ip) = view s.disk (tblOf s ip))
      (fun e => e = outOfBlocks ∧ freeBlocks s < (missing s ip {k}).card) := by
  have hptr : ptr s.disk (s.icache ip).din k = 0 := by rw [ptr, if_pos hk, h0]
  refine wp_chain (balloc_spec s) ?_ ?_
  · rintro b s₁ ⟨hb, hf, -, hs₁⟩
    have hb0 : b ≠ 0 := by
      have := h.vol.one_lt (h.vol.owns.le_of_free hb hf)
      omega
    have halloc := allocAt_addr h hb hf hk h0 rfl
    rw [hs₁]
    exact mapped_of_allocAt halloc hb0 hptr
  · rintro e ⟨he, hall⟩
    refine ⟨he, ?_⟩
    rw [freeBlocks, freeCount_eq_zero hall, missing, Finset.filter_singleton, if_pos hptr]
    exact Nat.one_pos

theorem ptr_indirect {disk : Nat → Block} {d : Dinode} : ptr disk d NDIRECT = d.addrs NDIRECT := by
  rw [ptr, if_pos le_rfl]

theorem loadIndirect_spec (h : Active s ip) :
    wp (loadIndirect ip) s
      (fun ind s' => ind = ptr s'.disk (s'.icache ip).din NDIRECT ∧ Mapped s s' ip {NDIRECT} ∧
        view s'.disk (tblOf s' ip) = view s.disk (tblOf s ip))
      (fun e => e = outOfBlocks ∧ freeBlocks s < (missing s ip {NDIRECT}).card) := by
  simp only [loadIndirect, wp_bind, wp_getInode]
  by_cases h0 : (s.icache ip).din.addrs NDIRECT = 0
  · rw [if_pos h0]
    exact allocAddr_spec h le_rfl h0
  · rw [if_neg h0]
    refine ⟨ptr_indirect.symm, mapped_of_filled h (fun k hk => ?_), rfl⟩
    rw [Finset.mem_singleton.mp hk, ptr_indirect]
    exact h0

theorem Mapped.indirect_ne (hm : Mapped s s' ip {NDIRECT}) :
    (s'.icache ip).din.addrs NDIRECT ≠ 0 := by
  rw [← ptr_indirect]
  exact hm.filled _ (Finset.mem_singleton_self _)

theorem ptr_entry (disk : Nat → Block) {d : Dinode} {bn : Nat} (hbn : NDIRECT ≤ bn)
    (hmax : bn < MAXFILE) (h : d.addrs NDIRECT ≠ 0) :
    ptr disk d (bn + 1) = (disk (d.addrs NDIRECT)).word (4 * (bn - NDIRECT)) 4 := by
  rw [ptr, if_neg (by omega), if_pos ⟨by omega, h⟩, Nat.add_sub_add_right]

theorem allocEntry_spec {bn : Nat} (h : Active s ip) (hbn : NDIRECT ≤ bn) (hmax : bn < MAXFILE)
    (hne : (s.icache ip).din.addrs NDIRECT ≠ 0)
    (h0 : ptr s.disk (s.icache ip).din (bn + 1) = 0) :
    wp (do
        let addr ← balloc
        let a ← bread ((s.icache ip).din.addrs NDIRECT)
        logWrite ((s.icache ip).din.addrs NDIRECT) (a.setWord (4 * (bn - NDIRECT)) 4 addr)
        pure addr) s
      (fun b s' => b = ptr s'.disk (s'.icache ip).din (bn + 1) ∧ Mapped s s' ip {bn + 1} ∧
        view s'.disk (tblOf s' ip) = view s.disk (tblOf s ip))
      (fun e => e = outOfBlocks ∧ freeBlocks s < (missing s ip {bn + 1}).card) := by
  have hn : bn - NDIRECT < NINDIRECT := by
    simp only [MAXFILE] at hmax
    omega
  have hk : NDIRECT + 1 + (bn - NDIRECT) = bn + 1 := by omega
  refine wp_chain (balloc_spec s) ?_ ?_
  · rintro b s₁ ⟨hb, hf, -, hs₁⟩
    have hb0 : b ≠ 0 := by
      have := h.vol.one_lt (h.vol.owns.le_of_free hb hf)
      omega
    have hword := h0
    rw [ptr_entry _ hbn hmax hne] at hword
    have halloc := allocAt_entry h hb hf hn rfl hne hword rfl
    rw [hk] at halloc
    rw [hs₁]
    exact mapped_of_allocAt halloc hb0 h0
  · rintro e ⟨he, hall⟩
    refine ⟨he, ?_⟩
    rw [freeBlocks, freeCount_eq_zero hall, missing, Finset.filter_singleton, if_pos h0]
    exact Nat.one_pos

/-- `bmap` finds the block of an address that is there, and does nothing else. -/
theorem bmap_of_ne {bn : Nat} {E : Fault → Prop} (h : addrOf s.disk (s.icache ip).din bn ≠ 0) :
    wp (bmap ip bn) s (fun b s' => b = addrOf s.disk (s.icache ip).din bn ∧ s' = s) E := by
  simp only [bmap, wp_bind, wp_getInode]
  by_cases hbn : bn < NDIRECT
  · have haddr : addrOf s.disk (s.icache ip).din bn = (s.icache ip).din.addrs bn := by
      rw [addrOf, place, if_pos hbn, ptr, if_pos (by omega)]
    rw [haddr] at h ⊢
    rw [if_pos hbn, if_neg h]
    exact ⟨rfl, rfl⟩
  · have haddr : addrOf s.disk (s.icache ip).din bn = ptr s.disk (s.icache ip).din (bn + 1) := by
      rw [addrOf, place, if_neg hbn]
    rw [haddr] at h ⊢
    have hmax : bn < MAXFILE := by
      by_contra hmax
      exact h (ptr_of_gt (by omega))
    have hn : bn - NDIRECT < NINDIRECT := by
      simp only [MAXFILE] at hmax
      omega
    have hne : (s.icache ip).din.addrs NDIRECT ≠ 0 := by
      intro h0
      rw [ptr, if_neg (by omega), if_neg (by simp [h0])] at h
      exact h rfl
    rw [ptr_entry _ (by omega) hmax hne] at h ⊢
    rw [if_neg hbn, if_pos hn]
    simp [loadIndirect, hne, h]

theorem bmap_spec {bn : Nat} (h : Active s ip) (hmax : bn < MAXFILE) :
    wp (bmap ip bn) s
      (fun b s' => b = addrOf s'.disk (s'.icache ip).din bn ∧ Mapped s s' ip (path bn) ∧
        view s'.disk (tblOf s' ip) = view s.disk (tblOf s ip))
      (fun e => e = outOfBlocks ∧ freeBlocks s < (missing s ip (path bn)).card) := by
  simp only [bmap, wp_bind, wp_getInode]
  by_cases hbn : bn < NDIRECT
  · rw [if_pos hbn]
    simp only [addrOf, place, if_pos hbn, path]
    by_cases h0 : (s.icache ip).din.addrs bn = 0
    · rw [if_pos h0]
      exact allocAddr_spec h (by omega) h0
    · rw [if_neg h0]
      have hptr : ptr s.disk (s.icache ip).din bn = (s.icache ip).din.addrs bn := by
        rw [ptr, if_pos (by omega)]
      refine ⟨hptr.symm, mapped_of_filled h (fun k hk => ?_), rfl⟩
      rw [Finset.mem_singleton.mp hk, hptr]
      exact h0
  · have hn : bn - NDIRECT < NINDIRECT := by
      simp only [MAXFILE] at hmax
      omega
    have hpath : path bn = {NDIRECT} ∪ {bn + 1} := by
      rw [path, if_neg hbn]
      rfl
    rw [if_neg hbn, if_pos hn, wp_bind, hpath]
    simp only [addrOf, place, if_neg hbn]
    refine wp_conseq (loadIndirect_spec h) ?_ ?_
    · intro ind s₁ hload
      have hm := hload.2.1
      have hact := hm.grown.active
      have hne := hm.indirect_ne
      have hentry := ptr_entry s₁.disk (Nat.not_lt.mp hbn) hmax hne
      rw [hload.1, ptr_indirect]
      simp only [wp_bind, wp_bread, ← hentry]
      by_cases h0 : ptr s₁.disk (s₁.icache ip).din (bn + 1) = 0
      · rw [if_pos h0]
        refine wp_conseq (allocEntry_spec hact (Nat.not_lt.mp hbn) hmax hne h0) ?_ ?_
        · rintro b s₂ ⟨hb, hm', hv'⟩
          exact ⟨hb, hm.trans hm', hv'.trans hload.2.2⟩
        · rintro e ⟨he, hlt⟩
          refine ⟨he, ?_⟩
          have hfree := hm.free
          rw [hm.missing_union]
          omega
      · rw [if_neg h0]
        refine ⟨rfl, hm.trans (mapped_of_filled hact (fun k hk => ?_)), hload.2.2⟩
        rwa [Finset.mem_singleton.mp hk]
    · rintro e ⟨he, hlt⟩
      refine ⟨he, lt_of_lt_of_le hlt (Finset.card_le_card ?_)⟩
      exact Finset.filter_subset_filter _ Finset.subset_union_left

end Xv6.Fs
