import Xv6.FsContent

/-!
# Good file system states

A state between operations is good when every block on the disk has one owner, the blocks below
the size of each allocated inode are all there, and the inodes in the cache agree with the disk.
`files` is what such a state stands for.
-/

namespace Xv6.Fs

open Function

open Prog

/-- The file of each inode number. -/
def files (s : FsState) : Nat → File := view s.disk (dinodes s.sb s.disk)

structure Good (s : FsState) : Prop where
  /-- Blocks stored in allocated inodes are data blocks and are stored once; the free map marks
  exactly them and the metadata. -/
  vol : Volume (bitUsed s.sb s.disk) s.sb s.disk (dinodes s.sb s.disk)
  covered : ∀ i, (dinodes s.sb s.disk i).type ≠ 0 → Covered s.disk (dinodes s.sb s.disk i)
  cache : ∀ k < NINODE, 0 < (s.icache k).ref → (s.icache k).valid = true →
    (s.icache k).din = dinodes s.sb s.disk (s.icache k).inum ∧ (s.icache k).din.type ≠ 0
  unique : ∀ k < NINODE, ∀ l < NINODE, 0 < (s.icache k).ref → 0 < (s.icache l).ref →
    (s.icache k).inum = (s.icache l).inum → k = l

/-- Entry `ip` of the inode cache is in use and has been read from the disk. -/
structure Loaded (s : FsState) (ip : Nat) : Prop where
  lt : ip < NINODE
  ref : 0 < (s.icache ip).ref
  valid : (s.icache ip).valid = true

variable {s s' : FsState} {ip i : Nat}

variable {sb : Superblock} {d : Dinode}

theorem dinodes_range {disk : Nat → Block}
    (h : (dinodes sb disk i).type ≠ 0) : 0 < i ∧ i < sb.ninodes := by
  by_contra hr
  rw [dinodes, if_neg hr] at h
  exact h rfl

theorem dinodes_wf (sb : Superblock) (disk : Nat → Block) (i : Nat) : (dinodes sb disk i).Wf := by
  rw [dinodes]
  split_ifs
  · exact readDinode_wf _ _
  · exact Dinode.wf_zero

namespace Good

variable (h : Good s) (hl : Loaded s ip)
include h hl

theorem din_eq : (s.icache ip).din = dinodes s.sb s.disk (s.icache ip).inum :=
  (h.cache ip hl.lt hl.ref hl.valid).1

theorem live : (s.icache ip).din.type ≠ 0 := (h.cache ip hl.lt hl.ref hl.valid).2

theorem tblOf_eq : tblOf s ip = dinodes s.sb s.disk := by
  rw [tblOf, h.din_eq hl, update_eq_self]

theorem active : Active s ip where
  vol := by
    rw [h.tblOf_eq hl]
    exact h.vol
  wf := by
    rw [h.din_eq hl]
    exact dinodes_wf _ _ _
  live := h.live hl
  range := dinodes_range (by rw [← h.din_eq hl]; exact h.live hl)

theorem covered_din : Covered s.disk (s.icache ip).din := by
  rw [h.din_eq hl]
  apply h.covered
  rw [← h.din_eq hl]
  exact h.live hl

theorem files_eq : files s = view s.disk (tblOf s ip) := by rw [files, h.tblOf_eq hl]

theorem file_eq : files s (s.icache ip).inum =
    ⟨(s.icache ip).din.type, (s.icache ip).din.major, (s.icache ip).din.minor,
      (s.icache ip).din.nlink, (s.icache ip).din.size, byteAt s.disk (s.icache ip).din⟩ := by
  rw [h.files_eq hl, (h.active hl).view_self]

end Good

/-! ### `iupdate` -/

/-- `s'` arises from `s` by writing inode `ip` to the disk. -/
structure Flushed (s s' : FsState) (ip : Nat) : Prop where
  sb : s'.sb = s.sb
  icache : s'.icache = s.icache
  table : dinodes s'.sb s'.disk = tblOf s ip
  vol : Volume (bitUsed s'.sb s'.disk) s'.sb s'.disk (tblOf s ip)
  held : held s'.disk (tblOf s ip) = held s.disk (tblOf s ip)
  view : view s'.disk (tblOf s ip) = view s.disk (tblOf s ip)
  free : freeBlocks s' = freeBlocks s

theorem IBLOCK_inj {j : Nat} : IBLOCK j sb = IBLOCK i sb ↔ j / IPB = i / IPB := by
  simp [IBLOCK]

theorem dinodes_writeDinode {disk : Nat → Block} (hd : d.Wf) (hi : 0 < i ∧ i < sb.ninodes) :
    dinodes sb (update disk (IBLOCK i sb)
      (writeDinode (disk (IBLOCK i sb)) (i % IPB) d)) = update (dinodes sb disk) i d := by
  funext j
  by_cases hj : j = i
  · subst hj
    rw [update_self, dinodes, if_pos hi, update_self,
      readDinode_writeDinode_same _ (Nat.mod_lt _ (by decide)) hd]
  · rw [update_of_ne hj, dinodes, dinodes]
    split_ifs with hr
    · by_cases hblk : j / IPB = i / IPB
      · have hmod : i % IPB ≠ j % IPB := by
          simp only [IPB, BSIZE] at *
          omega
        rw [IBLOCK_inj.mpr hblk, update_self, readDinode_writeDinode_ne _ _ hmod]
      · rw [update_of_ne (fun hc => hblk (IBLOCK_inj.mp hc))]
    · rfl

theorem iupdate_spec {E : Fault → Prop}
    (hvol : Volume (bitUsed s.sb s.disk) s.sb s.disk (tblOf s ip))
    (hwf : (s.icache ip).din.Wf) (hr : 0 < (s.icache ip).inum ∧ (s.icache ip).inum < s.sb.ninodes) :
    wp (iupdate ip) s (fun _ s' => Flushed s s' ip) E := by
  have hmap := hvol.layout.bmapstart_lt
  have hib := hvol.layout.IBLOCK_lt hr.2
  have hbits : ∀ (data : Block), ∀ c < s.sb.size, bitUsed s.sb
      (update s.disk (IBLOCK (s.icache ip).inum s.sb) data) c = bitUsed s.sb s.disk c := by
    intro data c _
    have hle : s.sb.bmapstart ≤ BBLOCK c s.sb := bmapstart_le
    exact bitUsed_update_of_ne (by omega)
  simp only [iupdate, wp_bind, wp_getInode, wp_getSb, wp_bread, wp_logWrite]
  refine ⟨rfl, rfl, ?_, ⟨hvol.layout, ?_, ?_⟩, ?_, ?_, ?_⟩
  · rw [put_sb, put_disk, dinodes_writeDinode hwf hr, tblOf]
  · rw [put_disk, update_of_ne (Ne.symm hvol.layout.IBLOCK_ne_one), hvol.super, put_sb]
  · rw [put_disk, put_sb, hvol.held_update_low _ (by omega)]
    exact hvol.owns.congr (hbits _)
  · rw [put_disk, hvol.held_update_low _ (by omega)]
  · rw [put_disk, hvol.view_update_low _ (by omega)]
  · rw [freeBlocks, put_sb, put_disk, freeCount_congr (hbits _)]
    rfl

theorem Flushed.refl (h : Active s ip) (ht : tblOf s ip = dinodes s.sb s.disk) : Flushed s s ip :=
  ⟨rfl, rfl, ht.symm, h.vol, rfl, rfl, rfl⟩

/-! ### Changing an inode in memory -/

/-- The state with another copy of inode `ip` in memory. -/
def FsState.setDin (s : FsState) (ip : Nat) (d : Dinode) : FsState :=
  s.putInode ip { s.icache ip with din := d }

theorem setDin_icache_self (d : Dinode) :
    (s.setDin ip d).icache ip = { s.icache ip with din := d } := update_self _ _ _

theorem setDin_icache_ne {l : Nat} (d : Dinode) (hl : l ≠ ip) :
    (s.setDin ip d).icache l = s.icache l := update_of_ne hl _ _

@[simp] theorem wp_setSize (n : Nat) {Q : Unit → FsState → Prop} {E : Fault → Prop} :
    wp (setSize ip n) s Q E ↔ Q () (s.setDin ip ((s.icache ip).din.setSize n)) := Iff.rfl

theorem pending_setDin (h : Active s ip) (ha : d.addrs = (s.icache ip).din.addrs)
    (hwf : d.Wf) (hd : d.type ≠ 0) :
    Pending s (s.setDin ip d) ip ∧ view s.disk (tblOf (s.setDin ip d) ip) =
      update (view s.disk (tblOf s ip)) (s.icache ip).inum
        ⟨d.type, d.major, d.minor, d.nlink, d.size, byteAt s.disk (s.icache ip).din⟩ := by
  have hself : (s.setDin ip d).icache ip = { s.icache ip with din := d } := setDin_icache_self d
  have htbl : tblOf (s.setDin ip d) ip = update (tblOf s ip) (s.icache ip).inum d := by
    simp only [tblOf, hself, update_idem]
    rfl
  have hptr : ∀ k, ptr s.disk d k = ptr s.disk (s.icache ip).din k :=
    fun k => ptr_congr ha (fun _ => rfl)
  have hheld : held s.disk (tblOf (s.setDin ip d) ip) = held s.disk (tblOf s ip) := by
    funext x
    obtain ⟨j, l⟩ := x
    by_cases hj : j = (s.icache ip).inum
    · rw [hj, h.held_eq, held_live (by rw [htbl, update_self]; exact hd), htbl,
        update_self, hptr]
    · exact held_congr (by rw [htbl, update_of_ne hj]) (fun _ => rfl)
  have hactive : Active (s.setDin ip d) ip := by
    refine ⟨⟨h.vol.layout, h.vol.super, ?_⟩, by rwa [hself], by rwa [hself], by rw [hself]; exact h.range⟩
    change Owns _ _ _ (held s.disk (tblOf (s.setDin ip d) ip))
    rw [hheld]
    exact h.vol.owns
  refine ⟨⟨hactive, rfl, rfl, fun l hl => setDin_icache_ne d hl, by rw [hself], ?_⟩, ?_⟩
  · intro j l _
    change held s.disk (tblOf (s.setDin ip d) ip) (j, l) = _
    rw [hheld]
  · funext j
    rw [view, htbl]
    by_cases hj : j = (s.icache ip).inum
    · rw [hj, update_self, update_self, fileOf_live hd]
      congr 1
      exact byteAt_congr (fun bn => hptr _) (fun _ _ => rfl)
    · rw [update_of_ne hj, update_of_ne hj, view]

theorem Good.covered_update (h : Good s)
    (htable : dinodes s'.sb s'.disk = update (dinodes s.sb s.disk) i d)
    (hheld : ∀ j l, j ≠ i → held s'.disk (dinodes s'.sb s'.disk) (j, l) = held s.disk (dinodes s.sb
      s.disk) (j, l)) (hd : d.type ≠ 0 → Covered s'.disk d) (j : Nat)
    (hj : (dinodes s'.sb s'.disk j).type ≠ 0) : Covered s'.disk (dinodes s'.sb s'.disk j) := by
  by_cases hji : j = i
  · subst hji
    rw [htable, update_self] at hj ⊢
    exact hd hj
  · have hjs : dinodes s'.sb s'.disk j = dinodes s.sb s.disk j := by
      rw [htable, update_of_ne hji]
    intro bn hbn
    have ha := hheld j (place bn) hji
    rw [held_live hj, held_live (by rwa [← hjs])] at ha
    rw [addrOf, ha]
    rw [hjs] at hj hbn
    exact h.covered j hj bn hbn

theorem Good.flush {s₁ s₂ : FsState} (h : Good s) (hl : Loaded s ip) (hp : Pending s s₁ ip)
    (hc : Covered s₁.disk (s₁.icache ip).din) (hf : Flushed s₁ s₂ ip) :
    Good s₂ ∧ files s₂ = view s₁.disk (tblOf s₁ ip) := by
  have hvol := hf.vol
  rw [← hf.table] at hvol
  have htbl : dinodes s₂.sb s₂.disk =
      update (dinodes s.sb s.disk) (s.icache ip).inum (s₁.icache ip).din := by
    rw [hf.table, tblOf, hp.table, hp.inum]
  refine ⟨⟨hvol, ?_, ?_, ?_⟩, by rw [files, hf.table, hf.view]⟩
  · apply h.covered_update htbl
    · intro j l hj
      rw [hf.table, hf.held, hp.apart j l hj, h.tblOf_eq hl]
    · intro _ bn hbn
      have ha := congrFun hf.held ((s₁.icache ip).inum, place bn)
      rw [hp.active.held_eq, held_live (by rw [Active.tbl_self]; exact hp.active.live),
        Active.tbl_self] at ha
      rw [addrOf, ha]
      exact hc bn hbn
  · intro k hk hr hv
    rw [hf.icache] at hr hv ⊢
    by_cases hki : k = ip
    · rw [hki]
      refine ⟨?_, hp.active.live⟩
      rw [htbl, hp.inum, update_self]
    · rw [hp.others k hki] at hr hv ⊢
      have hne : (s.icache k).inum ≠ (s.icache ip).inum := fun hc =>
        hki (h.unique k hk ip hl.lt hr hl.ref hc)
      rw [htbl, update_of_ne hne]
      exact h.cache k hk hr hv
  · have hcore : ∀ k, (s₂.icache k).ref = (s.icache k).ref ∧ (s₂.icache k).inum = (s.icache k).inum := by
      intro k
      rw [hf.icache]
      by_cases hki : k = ip
      · rw [hki, hp.inode]
        exact ⟨rfl, rfl⟩
      · rw [hp.others k hki]
        exact ⟨rfl, rfl⟩
    intro k hk l hl' hrk hrl hkl
    rw [(hcore k).1] at hrk
    rw [(hcore l).1] at hrl
    rw [(hcore k).2, (hcore l).2] at hkl
    exact h.unique k hk l hl' hrk hrl hkl

end Xv6.Fs
