import Xv6.FsEntries
import Xv6.MkfsConsistent

/-!
# Lookups in the root directory of an image

Looking up names in the root directory of a finished image. The kernel finds the entry of every
input file. A name that is not there is looked up to the end of the directory, where the block
that the rounded size covers may be missing: then `readi` allocates it, and panics on a full disk.
-/

namespace Xv6.Mkfs

open Function

open Prog Fs

/-- The kernel's file system state after `iinit`. -/
def iinit (img : Nat → Block) (devread : Nat → Option (Nat → List UInt8))
    (devwrite : Nat → Option (Nat → Int)) : FsState where
  sb := readsb (img 1)
  disk := img
  icache _ := ⟨0, 0, false, false, Dinode.zero⟩
  logged := []
  devread := devread
  devwrite := devwrite

def rootLookup (name : Name) : FsM (Option (Nat × Nat)) := do
  let dp ← iget ROOTINO
  ilock dp
  dirlookup dp name

variable {s : MkState} {fs : List InputFile} {E : Fault → Prop}

/-! ### Entries of the root directory -/

variable {n : Nat} {name : Name}

theorem dirFile_entry {es : List (Nat × Name)} {e : Nat × Name} (hn : es[n]? = some e) :
    (dirFile es).inumAt n = e.1 % 2 ^ 16 ∧ (dirFile es).keyAt n = key (cstr e.2) := by
  apply File.entry_of_bytes
  intro i hi
  simp only [dirFile, dirBytes]
  rw [show (16 * n + i) / 16 = n by omega, show (16 * n + i) % 16 = i by omega, hn]

theorem dirFile_inumAt_of_le {es : List (Nat × Name)} (hn : es.length ≤ n) :
    (dirFile es).inumAt n = 0 := by
  have hnull : ∀ i < 16, direntBytes 0 [] i = 0 := by decide
  have hzero : ∀ i < 16, (dirFile es).bytes (16 * n + i) = direntBytes 0 [] i := by
    intro i hi
    simp only [dirFile, dirBytes]
    rw [show (16 * n + i) / 16 = n by omega, List.getElem?_eq_none hn, hnull i hi]
  exact (File.entry_of_bytes hzero).1

/-- The keys that the entries of the root directory have. -/
def rootKeys (fs : List InputFile) : List (List UInt8) :=
  (rootEntries fs).map (fun e => key (cstr e.2))

theorem rootEntries_inum {e : Nat × Name} (hn : (rootEntries fs)[n]? = some e) :
    e.1 = if n < 2 then ROOTINO else n := by
  match n with
  | 0 =>
    obtain rfl : (ROOTINO, [46]) = e := by simpa [rootEntries] using hn
    rfl
  | 1 =>
    obtain rfl : (ROOTINO, [46, 46]) = e := by simpa [rootEntries] using hn
    rfl
  | n + 2 =>
    rw [rootEntries, List.getElem?_append_right (by simp)] at hn
    simp only [List.length_cons, List.length_nil, Nat.zero_add, Nat.add_sub_cancel,
      List.getElem?_mapIdx, Option.map_eq_some_iff] at hn
    obtain ⟨f, -, rfl⟩ := hn
    rw [if_neg (by omega)]

theorem rootFile_matches (hlen : fs.length < 2 ^ 15) {k : List UInt8} :
    (rootFile fs).Matches k n ↔ (rootKeys fs)[n]? = some k := by
  change (dirFile (rootEntries fs)).Matches k n ↔ _
  rw [rootKeys, List.getElem?_map]
  cases hn : (rootEntries fs)[n]? with
  | none =>
    rw [File.Matches, dirFile_inumAt_of_le (List.getElem?_eq_none_iff.mp hn)]
    simp
  | some e =>
    obtain ⟨hi, hk⟩ := dirFile_entry hn
    have hlt : n < (rootEntries fs).length := (List.getElem?_eq_some_iff.mp hn).1
    rw [rootEntries_length] at hlt
    have hnum : e.1 % 2 ^ 16 ≠ 0 := by
      rw [rootEntries_inum hn]
      simp only [ROOTINO]
      split_ifs <;> omega
    rw [File.Matches, hi, hk, Option.map_some, Option.some_inj]
    exact ⟨fun h => h.2, fun h => ⟨hnum, h⟩⟩

/-! ### Locking the root directory -/

/-- The kernel runs on the image `s` and has locked the root directory, in entry `dp`. -/
structure RootLocked (s : MkState) (t : FsState) (dp : Nat) : Prop where
  disk : t.disk = s.img
  super : t.sb = sb
  lt : dp < NINODE
  root : t.icache dp = ⟨ROOTINO, 1, true, true, dinodes sb s.img ROOTINO⟩
  others : ∀ l ≠ dp, (t.icache l).ref = 0 ∧ (t.icache l).locked = false

variable {t : FsState} {dp : Nat} {devread : Nat → Option (Nat → List UInt8)}
  {devwrite : Nat → Option (Nat → Int)}

theorem readDinode_eq {img : Nat → Block} {i : Nat} (hi : 0 < i ∧ i < NINODES) :
    readDinode (img (IBLOCK i sb)) (i % IPB) = dinodes sb img i := (if_pos hi).symm

theorem cache_not_full (h : ∀ l ≠ dp, (t.icache l).ref = 0) :
    ¬ ∀ l < NINODE, 0 < (t.icache l).ref := by
  intro hall
  by_cases h0 : dp = 0
  · exact (hall 1 (by decide)).ne' (h 1 (by omega))
  · exact (hall 0 (by decide)).ne' (h 0 (Ne.symm h0))

theorem lockRoot_spec {α : Type} {k : Nat → FsM α} {Q : α → FsState → Prop} (h : Finished s fs)
    (hk : ∀ dp t, RootLocked s t dp → wp (k dp) t Q E) :
    wp (do
      let dp ← iget ROOTINO
      ilock dp
      k dp) (iinit s.img devread devwrite) Q E := by
  have hsb : (iinit s.img devread devwrite).sb = sb := h.vol.super
  have hget : wp (iget ROOTINO) (iinit s.img devread devwrite) (fun dp t => dp = 0 ∧
      t = (iinit s.img devread devwrite).putInode 0 ⟨ROOTINO, 1, false, false, Dinode.zero⟩) E :=
    ⟨rfl, rfl⟩
  have hd : FsState.fetched ((iinit s.img devread devwrite).putInode 0
      ⟨ROOTINO, 1, false, false, Dinode.zero⟩) 0 = dinodes sb s.img ROOTINO := by
    simp only [FsState.fetched, putInode_icache, update_self, Bool.false_eq_true, if_false,
      putInode_disk, putInode_sb, hsb]
    exact readDinode_eq (by decide)
  refine wp_seq hget ?_
  rintro _ t₁ ⟨rfl, rfl⟩
  refine wp_chain (ilock_spec (by simp) (by simp)) ?_ ?_
  · rintro _ t ⟨rfl, -⟩
    apply hk
    refine ⟨rfl, hsb, by decide, ?_, ?_⟩
    · rw [hd]
      simp
    · intro l hl
      simp [update_of_ne hl, iinit]
  · rintro e ⟨-, -, h0⟩
    rw [hd] at h0
    exact absurd h0 h.root_live

namespace RootLocked

variable (hr : RootLocked s t dp) (h : Finished s fs)
include hr h

theorem active : Active t dp := by
  have htbl : tblOf t dp = dinodes sb s.img := by
    rw [tblOf, hr.root, hr.disk, hr.super]
    exact update_eq_self ROOTINO _
  refine ⟨?_, ?_, ?_, ?_⟩
  · rw [htbl, hr.disk, hr.super]
    exact h.vol
  · rw [hr.root]
    exact dinodes_wf sb s.img ROOTINO
  · rw [hr.root]
    exact h.root_live
  · rw [hr.root, hr.super]
    exact (by decide : 0 < ROOTINO ∧ ROOTINO < NINODES)

theorem file_eq : fileOf t.disk (t.icache dp).din = rootFile fs := by
  have hf := congrFun h.files ROOTINO
  rw [update_self, imgFiles, view] at hf
  rw [hr.disk, hr.root, hf]

theorem entries (hfit : Fits fs) {m : Nat} (hm : m ≤ rootSize fs / 16)
    (hblocks : ∀ bn, bn * BSIZE < 16 * m → bn * BSIZE < 16 * (fs.length + 2)) :
    Entries t dp (rootFile fs) m := by
  have hsize : (rootFile fs).size = rootSize fs := rfl
  have hinodes := hfit.inodes
  have htype : (t.icache dp).din.type = T_DIR := by
    have ht := congrArg File.type (hr.file_eq h)
    rwa [fileOf_type] at ht
  apply entries_of_blocks htype (hr.file_eq h) _ (by rwa [hsize]) _ _
  · rw [hsize, rootSize, BSIZE]
    omega
  · rw [hsize, rootSize]
    simp only [NINODES, BSIZE] at *
    omega
  · intro bn hbn
    rw [hr.disk, hr.root, h.addrOf_ne_zero h.root_live, Finished.imageFiles_root_size]
    exact hblocks bn hbn

theorem type_eq : (t.icache dp).din.type = T_DIR := by
  have ht := congrArg File.type (hr.file_eq h)
  rwa [fileOf_type] at ht

omit h in
theorem not_full : ¬ ∀ l < NINODE, 0 < (t.icache l).ref :=
  cache_not_full (fun l hl => (hr.others l hl).1)

theorem ptr_ne_zero {bn : Nat} (hbn : bn < NDIRECT) :
    ptr t.disk (t.icache dp).din bn ≠ 0 ↔ bn * BSIZE < 16 * (fs.length + 2) := by
  have haddr := @Finished.addrOf_ne_zero s fs h ROOTINO bn h.root_live
  rw [Finished.imageFiles_root_size, addrOf, place, if_pos hbn] at haddr
  rw [hr.disk, hr.root]
  exact haddr

theorem size_eq : (t.icache dp).din.size = rootSize fs := by
  have hs := congrArg File.size (hr.file_eq h)
  rwa [fileOf_live (by rw [hr.type_eq h]; decide)] at hs

theorem wp_dirlookup {name : Name} {Q : Option (Nat × Nat) → FsState → Prop} :
    wp (dirlookup dp name) t Q E ↔
      wp (dirlookupLoop dp name (rootSize fs / 16 + 1) (16 * 0)) t Q E := by
  simp only [dirlookup, wp_bind, wp_getInode, hr.size_eq h]
  rw [if_neg (not_not.mpr (hr.type_eq h))]

theorem dirlookup_found (hfit : Fits fs) (hnd : (rootKeys fs).Nodup) {m : Nat} {name : Name}
    (hm : (rootKeys fs)[m]? = some (key (cstr name))) :
    wp (dirlookup dp name) t (fun r t' => ∃ k, r = some (k, 16 * m) ∧
      Got t (if m < 2 then ROOTINO else m) k t') (fun _ => False) := by
  have hinodes := hfit.inodes
  simp only [NINODES] at hinodes
  have hlen : fs.length < 2 ^ 15 := by omega
  obtain ⟨hlt, -⟩ := List.getElem?_eq_some_iff.mp hm
  rw [rootKeys, List.length_map, rootEntries_length] at hlt
  have hmsize : m + 1 ≤ rootSize fs / 16 := by
    simp only [rootSize, BSIZE]
    omega
  have hent : Entries t dp (rootFile fs) (0 + (m + 1)) := by
    rw [Nat.zero_add]
    exact hr.entries h hfit hmsize (fun bn hbn => by omega)
  rw [hr.wp_dirlookup h, show rootSize fs / 16 + 1 = rootSize fs / 16 - m + (m + 1) by omega]
  refine dirlookupLoop_scan hent (fun _ _ hall => hr.not_full hall) ?_ ?_
  · intro l hl k t' hg
    have hsat := List.find?_some hl
    rw [decide_eq_true_eq] at hsat
    have hmatch := (rootFile_matches hlen).mp hsat
    have hlm : l = m := by
      have hlt' := (List.getElem?_eq_some_iff.mp hmatch).1
      exact (List.getElem?_inj hlt' hnd).mp (hmatch.trans hm.symm)
    subst hlm
    refine ⟨k, rfl, ?_⟩
    obtain ⟨e, he⟩ : ∃ e, (rootEntries fs)[l]? = some e := by
      rw [rootKeys, List.getElem?_map] at hm
      exact (Option.map_eq_some_iff.mp hm).imp (fun e he => he.1)
    have hinum : (rootFile fs).inumAt l = if l < 2 then ROOTINO else l := by
      change (dirFile (rootEntries fs)).inumAt l = _
      rw [(dirFile_entry he).1, rootEntries_inum he]
      simp only [ROOTINO]
      split_ifs <;> omega
    rwa [← hinum]
  · intro hnone
    have hfound := List.find?_eq_none.mp hnone m (List.mem_range'_1.mpr (by omega))
    rw [decide_eq_true_eq] at hfound
    exact absurd ((rootFile_matches hlen).mpr hm) hfound

end RootLocked

theorem dirlookupLoop_end {fuel off : Nat} {Q : Option (Nat × Nat) → FsState → Prop}
    (hoff : (t.icache dp).din.size ≤ off) (hQ : Q none t) :
    wp (dirlookupLoop dp name (fuel + 1) off) t Q E := by
  simp only [dirlookupLoop, wp_bind, wp_getInode]
  rw [if_neg (by omega)]
  exact hQ

theorem find_absent (hlen : fs.length < 2 ^ 15)
    (hname : key (cstr name) ∉ rootKeys fs) (n c : Nat) :
    (List.range' n c).find? (fun m => (rootFile fs).Matches (key (cstr name)) m) = none := by
  rw [List.find?_eq_none]
  intro m _ hm
  exact hname (List.mem_of_getElem? ((rootFile_matches hlen).mp (of_decide_eq_true hm)))

/-- Whether a lookup to the end of the root directory succeeds. -/
def EndReadable (fs : List InputFile) : Prop :=
  (fs.length + 2) % 32 ≠ 0 ∨ nmeta + blocksOf fs < FSSIZE

theorem RootLocked.freeBlocks_eq (hr : RootLocked s t dp) (h : Finished s fs) :
    freeBlocks t = FSSIZE - (nmeta + blocksOf fs) := by
  rw [freeBlocks, hr.super, hr.disk]
  exact h.free

theorem RootLocked.tail_absent (hr : RootLocked s t dp) (h : Finished s fs) (hfit : Fits fs)
    {t₁ : FsState} {q : Nat} (hq : fs.length + 2 = 32 * q) (hm : Mapped t t₁ dp (path q))
    (hv : view t₁.disk (tblOf t₁ dp) = view t.disk (tblOf t dp))
    (hname : key (cstr name) ∉ rootKeys fs) {Q : Option (Nat × Nat) → FsState → Prop}
    (hQ : Q none t₁) : wp (dirlookupLoop dp name (1 + 31) (16 * (32 * q + 1))) t₁ Q E := by
  have hinodes := hfit.inodes
  simp only [NINODES] at hinodes
  have hq12 : q < NDIRECT := by
    simp only [NDIRECT]
    omega
  have hrs : (rootFile fs).size = 512 * (q + 1) := by
    change rootSize fs = _
    simp only [rootSize, BSIZE]
    omega
  have hfile : fileOf t₁.disk (t₁.icache dp).din = rootFile fs := by
    have hi := congrFun hv (t.icache dp).inum
    rwa [← hm.grown.inum, view, Active.tbl_self, hm.grown.inum, view, Active.tbl_self,
      hr.file_eq h] at hi
  have hcov : ∀ bn, bn * BSIZE < 16 * (32 * q + 1 + 31) →
      addrOf t₁.disk (t₁.icache dp).din bn ≠ 0 := by
    intro bn hbn
    simp only [BSIZE, NDIRECT] at hbn hq12
    have hbn12 : bn < NDIRECT := by
      simp only [NDIRECT]
      omega
    rw [addrOf, place, if_pos hbn12]
    by_cases hbq : bn = q
    · subst hbq
      exact hm.filled bn (by rw [path, if_pos hbn12]; exact Finset.mem_singleton_self _)
    · have hold := (hr.ptr_ne_zero h hbn12).mpr (by simp only [BSIZE]; omega)
      rw [hm.keep bn (fun _ => hold)]
      exact hold
  have hent : Entries t₁ dp (rootFile fs) (32 * q + 1 + 31) := by
    refine entries_of_blocks ?_ hfile (by omega) (by omega) (by omega) hcov
    rw [hm.grown.sameMeta.type, hr.type_eq h]
  have hnone := find_absent (by omega) hname (32 * q + 1) 31
  refine dirlookupLoop_scan hent ?_ (fun m hm => by rw [hnone] at hm; cases hm) (fun _ => ?_)
  · intro _ _ hall
    have hothers : ∀ l ≠ dp, (t₁.icache l).ref = 0 := by
      intro l hl
      rw [hm.grown.others l hl]
      exact (hr.others l hl).1
    exact absurd hall (cache_not_full hothers)
  · refine dirlookupLoop_end ?_ hQ
    rw [hent.size, hrs]
    omega

theorem RootLocked.dirlookup_absent (hr : RootLocked s t dp) (h : Finished s fs) (hfit : Fits fs)
    (hname : key (cstr name) ∉ rootKeys fs) :
    wp (dirlookup dp name) t (fun r _ => r = none ∧ EndReadable fs)
      (fun e => e = outOfBlocks ∧ ¬ EndReadable fs) := by
  have hinodes := hfit.inodes
  simp only [NINODES] at hinodes
  have hfind := find_absent (by omega) hname 0
  have hfits := hfit.blocks
  have hfree := hr.freeBlocks_eq h
  rw [hr.wp_dirlookup h]
  by_cases hmod : (fs.length + 2) % 32 = 0
  · obtain ⟨q, hq⟩ : ∃ q, fs.length + 2 = 32 * q := ⟨(fs.length + 2) / 32, by omega⟩
    have hrs : rootSize fs = 512 * (q + 1) := by
      simp only [rootSize, BSIZE]
      omega
    have hsize : (rootFile fs).size = 512 * (q + 1) := hrs
    have hq12 : q < NDIRECT := by
      simp only [NDIRECT]
      omega
    have hptr : ptr t.disk (t.icache dp).din q = 0 := by
      by_contra hne
      have hlt := (hr.ptr_ne_zero h hq12).mp hne
      simp only [BSIZE] at hlt
      omega
    have hmissing : (missing t dp (path q)).card = 1 := by
      rw [missing, path, if_pos hq12, Finset.filter_singleton, if_pos hptr, Finset.card_singleton]
    have hent : Entries t dp (rootFile fs) (0 + 32 * q) := by
      rw [Nat.zero_add]
      exact hr.entries h hfit (by omega) (fun bn hbn => by omega)
    rw [hrs, show 512 * (q + 1) / 16 + 1 = 33 + 32 * q by omega]
    refine dirlookupLoop_scan hent (fun _ _ hall => absurd hall hr.not_full)
      (fun m hm => by rw [hfind] at hm; cases hm) (fun _ => ?_)
    -- the first entry of the block that is not there
    rw [Nat.zero_add, dirlookupLoop, wp_bind, wp_getInode, hr.size_eq h, hrs,
      if_pos (by omega), wp_bind]
    have hdev : (t.icache dp).din.type ≠ T_DEV := by
      rw [hr.type_eq h]
      decide
    have hbn : 16 * (32 * q) / BSIZE = q := by
      simp only [BSIZE]
      omega
    have halloc := readEntry_alloc (hr.active h) hdev (hr.file_eq h) (n := 32 * q)
      (by omega) (by rw [hsize]; simp only [MAXFILE, NDIRECT, NINDIRECT, BSIZE]; omega)
      "dirlookup read"
    rw [hbn] at halloc
    refine wp_conseq halloc ?_ ?_
    · rintro de t₁ ⟨rfl, hm, hv⟩
      have hz : ((rootFile fs).entry (32 * q)).inum = 0 :=
        dirFile_inumAt_of_le (by rw [rootEntries_length, hq])
      have hcount := hm.free
      rw [hmissing, hfree] at hcount
      rw [if_pos hz, show 16 * (32 * q) + 16 = 16 * (32 * q + 1) by omega]
      exact hr.tail_absent h hfit hq hm hv hname ⟨rfl, Or.inr (by omega)⟩
    · rintro e ⟨he, hlt⟩
      rw [hmissing, hfree] at hlt
      refine ⟨he, ?_⟩
      rintro (hne | hlt')
      · exact hne hmod
      · omega
  · have hent : Entries t dp (rootFile fs) (0 + rootSize fs / 16) := by
      rw [Nat.zero_add]
      refine hr.entries h hfit le_rfl (fun bn hbn => ?_)
      simp only [rootSize, BSIZE] at *
      omega
    rw [Nat.add_comm]
    refine dirlookupLoop_scan hent (fun _ _ hall => absurd hall hr.not_full)
      (fun m hm => by rw [hfind] at hm; cases hm) (fun _ => ?_)
    refine dirlookupLoop_end ?_ ⟨rfl, Or.inl hmod⟩
    rw [hr.size_eq h, rootSize, BSIZE]
    omega

end Xv6.Mkfs
