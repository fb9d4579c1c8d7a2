import Mathlib.Data.List.Nodup
import Mathlib.Data.Finset.Card
import Xv6.MkfsLookup

/-!
# mkfs and the kernel agree on the format

The kernel, started on a finished image, finds every input file with its contents and the root
directory under `.` and `..`. Other names are not found, unless the lookup runs into the block that
the root directory lacks and the disk is full.
-/

namespace Xv6.Mkfs

open Function

open Prog Fs

variable {s : MkState} {fs : List InputFile} {E : Fault → Prop} {t : FsState} {dp : Nat}
  {devread : Nat → Option (Nat → List UInt8)} {devwrite : Nat → Option (Nat → Int)}

/-! ### Reading a file that was found -/

def readWhole (ip : Nat) : FsM (Option (List UInt8)) := do
  ilock ip
  let i ← getInode ip
  readi ip 0 i.din.size

def lookupFile (name : Name) : FsM (Option (List UInt8)) := do
  match ← rootLookup name with
  | none => pure none
  | some (ip, _) => readWhole ip

theorem map_cstr_range (c : List UInt8) : (List.range c.length).map (cstr c) = c := by
  apply List.ext_getElem?
  intro i
  rw [List.getElem?_map]
  by_cases hi : i < c.length
  · rw [List.getElem?_range hi, Option.map_some, cstr, List.getD_eq_getElem?_getD,
      List.getElem?_eq_getElem hi, Option.getD_some]
  · rw [List.getElem?_eq_none (by simpa using hi), List.getElem?_eq_none (by omega)]
    rfl

variable {f : InputFile} {j : Nat}

theorem Finished.file_eq (h : Finished s fs) (hj : fs[j]? = some f) :
    fileOf s.img (dinodes sb s.img (j + 2)) = dataFile f.data := by
  have hf := congrFun h.files (j + 2)
  rw [update_of_ne (by simp [ROOTINO]), imageFiles, hj] at hf
  exact hf

theorem Finished.file_live (h : Finished s fs) (hj : fs[j]? = some f) :
    (dinodes sb s.img (j + 2)).type ≠ 0 := by
  have ht := congrArg File.type (h.file_eq hj)
  rw [fileOf_type] at ht
  rw [ht]
  exact (by decide : T_FILE ≠ 0)

theorem RootLocked.readWhole_found (hr : RootLocked s t dp) (h : Finished s fs) (hfit : Fits fs)
    {j k : Nat} {t' : FsState} (hj : fs[j]? = some f) (hg : Got t (j + 2) k t') :
    wp (readWhole k) t' (fun r _ => r = some f.data) E := by
  have hinodes := hfit.inodes
  have hjlt := (List.getElem?_eq_some_iff.mp hj).1
  have hrange : 0 < j + 2 ∧ j + 2 < NINODES := by
    simp only [NINODES] at *
    omega
  -- the inode is not in the cache yet
  obtain ⟨-, ⟨href, hinum, -⟩ | ⟨-, href, rfl⟩⟩ := hg
  · by_cases hk : k = dp
    · rw [hk, hr.root] at hinum
      simp only [ROOTINO] at hinum
      omega
    · rw [(hr.others k hk).1] at href
      omega
  have hk : k ≠ dp := by
    rintro rfl
    rw [hr.root] at href
    cases href
  obtain ⟨t₁, ht₁⟩ : ∃ t₁, t₁ = t.putInode k
    { t.icache k with inum := j + 2, ref := 1, valid := false } := ⟨_, rfl⟩
  rw [← ht₁]
  have hself : t₁.icache k = { t.icache k with inum := j + 2, ref := 1, valid := false } := by
    rw [ht₁, putInode_icache, update_self]
  have hdisk : t₁.disk = s.img := by
    rw [ht₁]
    exact hr.disk
  have hd : t₁.fetched k = dinodes sb s.img (j + 2) := by
    rw [FsState.fetched, hself, hdisk, ht₁, putInode_sb, hr.super, if_neg (by simp)]
    exact readDinode_eq hrange
  have hlive := h.file_live hj
  have hfile := h.file_eq hj
  rw [fileOf_live hlive] at hfile
  simp only [dataFile, File.mk.injEq] at hfile
  rw [readWhole]
  refine wp_chain (ilock_spec (by rw [hself]; exact Nat.one_pos)
    (by rw [hself]; exact (hr.others k hk).2)) ?_ ?_
  · rintro _ t₂ ⟨rfl, -⟩
    simp only [wp_bind, wp_getInode, putInode_icache, update_self, hd]
    have hdin : ((t₁.putInode k { t₁.icache k with
        locked := true, valid := true, din := dinodes sb s.img (j + 2) }).icache k).din =
          dinodes sb s.img (j + 2) := by
      rw [putInode_icache, update_self]
    refine wp_mono (readi_spec ?_ ?_) ?_
    · rw [hdin, putInode_disk, hdisk]
      intro bn hbn
      rw [h.addrOf_ne_zero hlive, imageFiles, hj]
      change bn * BSIZE < f.data.length
      omega
    · rw [hdin, hfile.1]
      decide
    · rintro r _ ⟨-, rfl⟩
      rw [hdin, putInode_disk, hdisk, hfile.2.2.2.2.1, hfile.2.2.2.2.2]
      have hsize := hfit.size f (List.mem_of_getElem? hj)
      simp only [MAXFILE, NDIRECT, NINDIRECT, BSIZE] at hsize
      rw [if_neg (by omega), Nat.sub_zero, Nat.min_self]
      simp only [Nat.zero_add, map_cstr_range]
  · rintro e ⟨-, -, h0⟩
    rw [hd] at h0
    exact absurd h0 hlive

/-! ### The whole directory -/

/-- The kernel sees the input files `fs` in state `t`. -/
structure Agrees (t : FsState) (fs : List InputFile) : Prop where
  file : ∀ f ∈ fs, ∃ t', lookupFile (fsName f.name) t = .ok (some f.data, t')
  dots : ∀ name, name = [46] ∨ name = [46, 46] →
    ∃ k off t', rootLookup name t = .ok (some (k, off), t') ∧ (t'.icache k).inum = ROOTINO
  others : ∀ name, name ≠ [] → key (cstr name) ∉ rootKeys fs →
    ∃ t', rootLookup name t = .ok (none, t')

theorem rootKeys_file (hj : fs[j]? = some f) :
    (rootKeys fs)[j + 2]? = some (key (cstr (fsName f.name))) := by
  rw [rootKeys, List.getElem?_map, rootEntries, List.getElem?_append_right (by simp)]
  simp [hj]

theorem lookupFile_spec (h : Finished s fs) (hfit : Fits fs) (hnd : (rootKeys fs).Nodup)
    (hj : fs[j]? = some f) :
    wp (lookupFile (fsName f.name)) (iinit s.img devread devwrite) (fun r _ => r = some f.data)
      (fun _ => False) := by
  rw [lookupFile, wp_bind]
  refine lockRoot_spec h (fun dp t hr => ?_)
  refine wp_mono (hr.dirlookup_found h hfit hnd (rootKeys_file hj)) ?_
  rintro _ t' ⟨k, rfl, hg⟩
  rw [if_neg (by omega)] at hg
  exact hr.readWhole_found h hfit hj hg

theorem Got.inum_eq {i k : Nat} {t t' : FsState} (hg : Got t i k t') : (t'.icache k).inum = i := by
  obtain ⟨-, ⟨-, hi, rfl⟩ | ⟨-, -, rfl⟩⟩ := hg
  · rw [putInode_icache, update_self]
    exact hi
  · rw [putInode_icache, update_self]

theorem rootLookup_dots (h : Finished s fs) (hfit : Fits fs) (hnd : (rootKeys fs).Nodup)
    {name : Name} (hname : name = [46] ∨ name = [46, 46]) :
    wp (rootLookup name) (iinit s.img devread devwrite)
      (fun r t' => ∃ k off, r = some (k, off) ∧ (t'.icache k).inum = ROOTINO) (fun _ => False) := by
  refine lockRoot_spec h (fun dp t hr => ?_)
  obtain ⟨m, hm, hm2⟩ : ∃ m, (rootKeys fs)[m]? = some (key (cstr name)) ∧ m < 2 := by
    rcases hname with rfl | rfl
    · exact ⟨0, rfl, by decide⟩
    · exact ⟨1, rfl, by decide⟩
  refine wp_mono (hr.dirlookup_found h hfit hnd hm) ?_
  rintro _ t' ⟨k, rfl, hg⟩
  rw [if_pos hm2] at hg
  exact ⟨k, _, rfl, Got.inum_eq hg⟩

theorem rootLookup_absent (h : Finished s fs) (hfit : Fits fs) {name : Name}
    (hname : key (cstr name) ∉ rootKeys fs) :
    wp (rootLookup name) (iinit s.img devread devwrite) (fun r _ => r = none ∧ EndReadable fs)
      (fun e => e = outOfBlocks ∧ ¬ EndReadable fs) :=
  lockRoot_spec h (fun _ _ hr => hr.dirlookup_absent h hfit hname)

theorem exists_absent (hfit : Fits fs) : ∃ name : Name, name ≠ [] ∧ key (cstr name) ∉ rootKeys fs := by
  have hinj : Set.InjOn (fun b : Nat => key (cstr [UInt8.ofNat b])) (Finset.range 256) := by
    intro a ha b hb hab
    have h0 := key_inj.mp hab 0 (by decide)
    have hstore : ∀ c : UInt8, strncpy (cstr [c]) 0 = c := fun c => by simp [strncpy, cstr]
    rw [hstore, hstore] at h0
    have hnat := congrArg UInt8.toNat h0
    rw [UInt8.toNat_ofNat', UInt8.toNat_ofNat'] at hnat
    have ha' := Finset.mem_range.mp ha
    have hb' := Finset.mem_range.mp hb
    omega
  have hcard : (rootKeys fs).toFinset.card <
      ((Finset.range 256).image (fun b : Nat => key (cstr [UInt8.ofNat b]))).card := by
    rw [Finset.card_image_of_injOn hinj, Finset.card_range]
    refine lt_of_le_of_lt (List.toFinset_card_le _) ?_
    have hinodes := hfit.inodes
    rw [rootKeys, List.length_map, rootEntries_length]
    simp only [NINODES] at hinodes
    omega
  obtain ⟨k, hk, hnot⟩ := Finset.exists_mem_notMem_of_card_lt_card hcard
  obtain ⟨b, -, rfl⟩ := Finset.mem_image.mp hk
  exact ⟨[UInt8.ofNat b], by simp, fun hc => hnot (List.mem_toFinset.mpr hc)⟩

/-- For input files that fit, with names that differ from each other and from `.` and `..` in what
a directory entry stores of them, the kernel agrees with `mkfs` about the image, unless the root
directory lacks its last block and the disk is full. -/
theorem main_agrees_iff (fs : List InputFile) (hfit : Fits fs) (hslash : ∀ f ∈ fs, slash ∉ f.name)
    (hnd : (rootKeys fs).Nodup) :
    ∃ s, main fs blank = .ok ((), s) ∧ ∀ devread devwrite,
      (Agrees (iinit s.img devread devwrite) fs ↔
        (fs.length + 2) % 32 ≠ 0 ∨ nmeta + blocksOf fs < FSSIZE) := by
  obtain ⟨s, hrun, h⟩ := main_finished fs hfit hslash
  refine ⟨s, hrun, fun devread devwrite => ⟨?_, ?_⟩⟩
  · intro hag
    by_contra hend
    obtain ⟨name, hne, hname⟩ := exists_absent hfit
    obtain ⟨t', hok⟩ := hag.others name hne hname
    exact hend (wp_ok (rootLookup_absent h hfit hname) hok).2
  · intro hend
    refine ⟨?_, ?_, ?_⟩
    · intro f hf
      obtain ⟨j, hj⟩ := List.getElem?_of_mem hf
      obtain ⟨_, t', hok, rfl⟩ := wp_returns (lookupFile_spec h hfit hnd hj) (fun _ he => he)
      exact ⟨t', hok⟩
    · intro name hname
      obtain ⟨_, t', hok, k, off, rfl, hinum⟩ :=
        wp_returns (rootLookup_dots h hfit hnd hname) (fun _ he => he)
      exact ⟨k, off, t', hok, hinum⟩
    · intro name _ hname
      obtain ⟨_, t', hok, rfl, -⟩ :=
        wp_returns (rootLookup_absent h hfit hname) (fun _ he => he.2 hend)
      exact ⟨t', hok⟩

def oneFile : List InputFile := [⟨[95, 99, 97, 116], [[1, 2], [3]]⟩]

theorem oneFile_agrees : ∃ s, main oneFile blank = .ok ((), s) ∧
    Agrees (iinit s.img (fun _ => none) (fun _ => none)) oneFile := by
  obtain ⟨s, hrun, hag⟩ := main_agrees_iff oneFile ⟨by decide, by decide, by decide⟩ (by decide)
    (by decide)
  exact ⟨s, hrun, (hag _ _).mpr (Or.inl (by decide))⟩

/-- A file of `n` zeros. -/
def zeroFile (i n : Nat) : InputFile := ⟨[UInt8.ofNat (97 + i)], [List.replicate n 0]⟩

theorem zeroFile_length (i n : Nat) : (zeroFile i n).data.length = n := by
  simp [zeroFile, InputFile.data]

theorem blocksOf_zeroFiles (l : List (Nat × Nat)) :
    blocksOf (l.map (fun p => zeroFile p.1 p.2)) =
      fileBlocks (16 * (l.length + 2)) + (l.map (fun p => fileBlocks p.2)).sum := by
  simp only [blocksOf, List.map_map, Function.comp_def, zeroFile_length, List.length_map]

/-- Numbers and sizes of thirty files that fill the disk. -/
def fullSizes : List (Nat × Nat) :=
  (List.range 30).zip (List.replicate 6 (140 * 512) ++ [93 * 512] ++ List.replicate 23 0)

def fullDisk : List InputFile := fullSizes.map (fun p => zeroFile p.1 p.2)

theorem fullDisk_blocks : blocksOf fullDisk = 941 := by
  rw [fullDisk, blocksOf_zeroFiles]
  decide

theorem fullDisk_fits : Fits fullDisk := by
  refine ⟨by decide, ?_, by rw [fullDisk_blocks]; decide⟩
  intro f hf
  obtain ⟨⟨i, n⟩, hp, rfl⟩ := List.mem_map.mp hf
  rw [zeroFile_length]
  exact (by decide : ∀ p ∈ fullSizes, p.2 ≤ MAXFILE * BSIZE) _ hp

/-- On a full disk whose root directory has 32 entries, the lookup of a name that is not there
panics. -/
theorem fullDisk_lookup_panics : ∃ s, main fullDisk blank = .ok ((), s) ∧
    (rootKeys fullDisk).Nodup ∧ key (cstr [33]) ∉ rootKeys fullDisk ∧
    rootLookup [33] (iinit s.img (fun _ => none) (fun _ => none)) = .error outOfBlocks := by
  obtain ⟨s, hrun, h⟩ := main_finished fullDisk fullDisk_fits (by decide)
  have hname : key (cstr [33]) ∉ rootKeys fullDisk := by decide +kernel
  have hend : ¬ EndReadable fullDisk := by
    rw [EndReadable, fullDisk_blocks]
    decide
  refine ⟨s, hrun, by decide +kernel, hname, ?_⟩
  cases hres : rootLookup [33] (iinit s.img (fun _ => none) (fun _ => none)) with
  | ok r => exact absurd (wp_ok (rootLookup_absent h fullDisk_fits hname) hres).2 hend
  | error e => rw [(wp_error (rootLookup_absent h fullDisk_fits hname) hres).1]

end Xv6.Mkfs
