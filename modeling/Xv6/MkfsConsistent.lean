import Mathlib.Order.Interval.Finset.Nat
import Xv6.MkfsMain

/-!
# The finished image is consistent

After the last file `main` rounds up the size of the root directory and writes the free map. Block
ownership is exact in every finished image. All blocks below the sizes are there, except when the
entries of the root directory fill its last block: then the rounded size covers one more block,
which was never allocated.
-/

namespace Xv6.Mkfs

open Function

open Prog Fs

variable {s s' : MkState} {E : Fault → Prop} {fs : List InputFile}

theorem makeRoot_spec {Q : Unit → MkState → Prop} {k : Nat → MkM Unit}
    (hk : ∀ s, Holds s [] → wp (k ROOTINO) s Q E) :
    wp (do
      wsect 1 ((Bytes.zero : Block).write 0 (sbBytes sb) 28)
      let rootino ← ialloc T_DIR
      assert (rootino = ROOTINO) "rootino == ROOTINO"
      iappend rootino (direntBytes rootino [46]) 16
      iappend rootino (direntBytes rootino [46, 46]) 16
      k rootino) blank Q E := by
  obtain ⟨himage, hfiles⟩ := image_start
  simp only [wp_bind, wp_wsect]
  refine wp_mono (ialloc_spec himage (by rw [hfiles]; rfl) (by decide) (by decide) (by decide)) ?_
  rintro i s₁ ⟨hi, hfi₁, hfb₁, hw₁⟩
  have hi' : i = ROOTINO := hi
  subst hi'
  rw [wp_assert (by decide)]
  have hroot₁ : imgFiles s₁ ROOTINO = dirFile [] := by
    rw [hw₁.files]
    rfl
  have hfb₁' : s₁.freeblock = nmeta := hfb₁
  have hmeta : nmeta = 59 := rfl
  refine wp_mono (iappend_root (ROOTINO, [46]) hw₁.image hroot₁ (by decide)
    (by rw [hfb₁']; decide)) ?_
  rintro _ s₂ ⟨hw₂, hfi₂, hfb₂⟩
  have hroot₂ : imgFiles s₂ ROOTINO = dirFile [(ROOTINO, [46])] := by
    rw [hw₂.files, update_self, List.nil_append]
  have hfb₂' : s₂.freeblock = nmeta + 1 := by
    rw [← hfb₁']
    exact hfb₂
  refine wp_mono (iappend_root (ROOTINO, [46, 46]) hw₂.image hroot₂ (by decide)
    (by rw [hfb₂']; decide)) ?_
  rintro _ s₃ ⟨hw₃, hfi₃, hfb₃⟩
  have hfb₃' : s₃.freeblock + 1 = s₂.freeblock + 1 := hfb₃
  apply hk
  refine ⟨hw₃.image, by rw [hfi₃, hfi₂, hfi₁]; rfl, ?_, ?_⟩
  · have hblocks : blocksOf [] = 1 := by decide
    omega
  · rw [hw₃.files, hw₂.files, update_idem, hw₁.files, hfiles]
    funext j
    rcases j with _ | _ | j <;> rfl

/-! ### The end of the run -/

/-- The root directory's size after rounding. -/
def rootSize (fs : List InputFile) : Nat := (16 * (fs.length + 2) / BSIZE + 1) * BSIZE

def rootFile (fs : List InputFile) : File :=
  { dirFile (rootEntries fs) with size := rootSize fs }

/-- The image that `mkfs` leaves for the input files `fs`. -/
structure Finished (s : MkState) (fs : List InputFile) : Prop where
  vol : Volume (bitUsed sb s.img) sb s.img (dinodes sb s.img)
  exact : ∀ i, (dinodes sb s.img i).type ≠ 0 →
    Exact s.img (dinodes sb s.img i) (fileBlocks (imageFiles fs i).size)
  files : imgFiles s = update (imageFiles fs) ROOTINO (rootFile fs)
  free : freeCount FSSIZE (bitUsed sb s.img) = FSSIZE - (nmeta + blocksOf fs)

theorem bitUsed_bitsBelow (img : Nat → Block) (m : Nat) {b : Nat} (hb : b < FSSIZE) :
    bitUsed sb (update img sb.bmapstart (bitsBelow m)) b = decide (b < m) := by
  have hblk : BBLOCK b sb = sb.bmapstart := by
    simp only [BBLOCK, BPB, BSIZE, FSSIZE] at *
    omega
  have hmod : b % BPB = b := Nat.mod_eq_of_lt (by simp only [BPB, BSIZE, FSSIZE] at *; omega)
  rw [bitUsed, hblk, hmod, update_self,
    isFree_bitsBelow m (by simp only [BPB, BSIZE, FSSIZE] at *; omega)]
  by_cases h : b < m
  · simp [h, Nat.not_le.mpr h]
  · simp [h, Nat.not_lt.mp h]

theorem freeCount_below {hi m : Nat} : freeCount hi (fun b => decide (b < m)) = hi - m := by
  have hset : (Finset.range hi).filter (fun b => decide (b < m) = false) = Finset.Ico m hi := by
    ext b
    simp only [Finset.mem_filter, Finset.mem_range, Finset.mem_Ico, decide_eq_false_iff_not]
    omega
  rw [freeCount, hset, Nat.card_Ico]

theorem finish_spec (h : Holds s fs) (hfit : Fits fs) :
    wp (do
      fixRoot ROOTINO
      let s ← get
      balloc s.freeblock) s (fun _ s' => Finished s' fs) E := by
  have hr : 0 < ROOTINO ∧ ROOTINO < NINODES := by decide
  obtain ⟨d, hd⟩ : ∃ d, d = dinodes sb s.img ROOTINO := ⟨_, rfl⟩
  have hroot : fileOf s.img d = dirFile (rootEntries fs) := by
    rw [hd]
    exact congrFun h.files ROOTINO
  have hlive : d.type ≠ 0 := by
    rw [← fileOf_type, hroot]
    exact (by decide : T_DIR ≠ 0)
  have hsize : d.size = 16 * (fs.length + 2) := by
    have hs := congrArg File.size hroot
    rwa [fileOf_live hlive, dirFile, rootEntries_length] at hs
  have hself : update (dinodes sb s.img) ROOTINO d = dinodes sb s.img := by
    rw [hd, update_eq_self]
  have hvol : Volume (fun b => decide (b < s.freeblock)) sb s.img
      (update (dinodes sb s.img) ROOTINO (d.setSize (rootSize fs))) := by
    refine ⟨h.image.vol.layout, h.image.vol.super, ?_⟩
    rw [held_setSize, hself]
    exact h.image.vol.owns
  have hinodes := hfit.inodes
  have hbound : rootSize fs < 2 ^ 32 := by
    simp only [rootSize, NINODES, BSIZE] at *
    omega
  have hwf : (d.setSize (rootSize fs)).Wf := by
    rw [hd]
    exact { dinodes_wf sb s.img ROOTINO with size := hbound }
  simp only [fixRoot, wp_bind]
  apply rinode_spec hr
  rw [← hd, hsize]
  refine wp_mono (winode_spec hvol hwf hr h.image.fresh) ?_
  intro _ s₁ hst
  rw [wp_get, balloc, wp_bind]
  have hused : s₁.freeblock = nmeta + blocksOf fs := by rw [hst.freeblock, h.freeblock]
  have hfits := hfit.blocks
  rw [wp_assert (decide_eq_true (by simp only [BSIZE, FSSIZE] at *; omega)), wp_wsect]
  have hbits : ∀ b < FSSIZE, bitUsed sb
      (update s₁.img sb.bmapstart (bitsBelow s₁.freeblock)) b =
        decide (b < s₁.freeblock) := fun b hb => bitUsed_bitsBelow _ _ hb
  have hlow : sb.bmapstart < dataStart sb := layout_sb.bmapstart_lt
  have htable : dinodes sb (update s₁.img sb.bmapstart (bitsBelow s₁.freeblock)) =
      dinodes sb s₁.img := dinodes_update layout_sb le_rfl
  have hheld := hst.vol.held_update_low (bitsBelow s₁.freeblock) hlow
  refine ⟨⟨layout_sb, ?_, ?_⟩, ?_, ?_, ?_⟩
  · have hne := layout_sb.one_lt_bmapstart
    have hsuper := hst.vol.super
    simpa only [update_of_ne (by omega : 1 ≠ sb.bmapstart)] using hsuper
  · simp only [htable, hheld]
    exact hst.vol.owns.congr hbits
  · intro i hi k
    simp only [htable] at hi ⊢
    rw [← held_live hi, hheld, hst.held, held_setSize, hself]
    have hi' : (dinodes sb s.img i).type ≠ 0 := by
      rw [hst.table] at hi
      by_cases hir : i = ROOTINO
      · rw [hir, ← hd]
        exact hlive
      · rwa [update_of_ne hir] at hi
    have hsz : (dinodes sb s.img i).size = (imageFiles fs i).size := by
      have hf := congrArg File.size (congrFun h.files i)
      rwa [imgFiles, view, fileOf_live hi'] at hf
    rw [held_live hi', ← hsz]
    exact h.image.exact i hi' k
  · simp only [imgFiles, htable, hst.vol.view_update_low (bitsBelow s₁.freeblock) hlow]
    have hview := hst.view
    rw [imgFiles] at hview
    rw [hview, viewOf, view_setSize _ _ _ _ hlive, hself, hroot, ← imgFiles, h.files, rootFile]
    rfl
  · rw [← hused, ← freeCount_below]
    exact freeCount_congr hbits

theorem main_spec (hfit : Fits fs) :
    wp (main fs) blank (fun _ s => (∀ f ∈ fs, slash ∉ f.name) ∧ Finished s fs)
      (fun e => e = slashInName ∧ ∃ f ∈ fs, slash ∈ f.name) := by
  refine makeRoot_spec (k := fun rootino => do
    addFiles rootino fs
    fixRoot rootino
    let s ← get
    balloc s.freeblock) ?_
  intro s₁ h₁
  refine wp_seq (addFiles_spec h₁ hfit) ?_
  rintro _ s₂ ⟨hnames, h₂⟩
  exact wp_mono (finish_spec h₂ hfit) (fun _ _ hs => ⟨hnames, hs⟩)

theorem main_finished (fs : List InputFile) (hfit : Fits fs) (hnames : ∀ f ∈ fs, slash ∉ f.name) :
    ∃ s, main fs blank = .ok ((), s) ∧ Finished s fs := by
  have hnone : ∀ e, ¬ (e = slashInName ∧ ∃ f ∈ fs, slash ∈ f.name) := by
    rintro e ⟨-, f, hf, hslash⟩
    exact hnames f hf hslash
  obtain ⟨_, s, hrun, -, hfin⟩ := wp_returns (main_spec hfit) hnone
  exact ⟨s, hrun, hfin⟩

/-! ### Which blocks are there -/

theorem place_lt_fileBlocks {bn n : Nat} : place bn < fileBlocks n ↔ bn * BSIZE < n := by
  simp only [place, fileBlocks, BSIZE, NDIRECT]
  split_ifs <;> omega

namespace Finished

variable (h : Finished s fs)
include h

theorem size_eq {i : Nat} (hi : (dinodes sb s.img i).type ≠ 0) :
    (dinodes sb s.img i).size = if i = ROOTINO then rootSize fs else (imageFiles fs i).size := by
  have hs := congrArg File.size (congrFun h.files i)
  rw [imgFiles, view, fileOf_live hi] at hs
  split_ifs with hir
  · subst hir
    rwa [update_self] at hs
  · rwa [update_of_ne hir] at hs

theorem addrOf_ne_zero {i bn : Nat} (hi : (dinodes sb s.img i).type ≠ 0) :
    addrOf s.img (dinodes sb s.img i) bn ≠ 0 ↔ bn * BSIZE < (imageFiles fs i).size := by
  rw [addrOf, h.exact i hi, place_lt_fileBlocks]

theorem root_live : (dinodes sb s.img ROOTINO).type ≠ 0 := by
  have ht := congrArg File.type (congrFun h.files ROOTINO)
  rw [imgFiles, view, fileOf_type, update_self] at ht
  rw [ht]
  exact (by decide : T_DIR ≠ 0)

omit h in
theorem imageFiles_root_size (fs : List InputFile) :
    (imageFiles fs ROOTINO).size = 16 * (fs.length + 2) := by
  change 16 * (rootEntries fs).length = _
  rw [rootEntries_length]

theorem covered_iff : (∀ i, (dinodes sb s.img i).type ≠ 0 →
    Covered s.img (dinodes sb s.img i)) ↔ (fs.length + 2) % 32 ≠ 0 := by
  have hlen := imageFiles_root_size fs
  constructor
  · intro hall hmod
    -- the block after the last entry
    have hc := hall ROOTINO h.root_live ((fs.length + 2) / 32)
    rw [h.addrOf_ne_zero h.root_live, hlen, h.size_eq h.root_live, if_pos rfl] at hc
    simp only [rootSize, BSIZE] at hc
    omega
  · intro hmod i hi bn hbn
    rw [h.addrOf_ne_zero hi]
    rw [h.size_eq hi] at hbn
    split_ifs at hbn with hir
    · rw [hir, hlen]
      simp only [rootSize, BSIZE] at *
      omega
    · exact hbn

end Finished

/-- For input files that fit, `mkfs` stops at a name with a slash or finishes an image. In the
image, block numbers are in range and stored once and the free map marks exactly them and the
metadata; every block below the size of every inode is there, unless the entries of the root
directory end at the end of a block. -/
theorem main_consistent_iff (fs : List InputFile) (hfit : Fits fs) :
    (∃ f ∈ fs, slash ∈ f.name) ∧ main fs blank = .error slashInName ∨
    (∀ f ∈ fs, slash ∉ f.name) ∧ ∃ s, main fs blank = .ok ((), s) ∧
      Volume (bitUsed sb s.img) sb s.img (dinodes sb s.img) ∧
      ((∀ i, (dinodes sb s.img i).type ≠ 0 → Covered s.img (dinodes sb s.img i)) ↔
        (fs.length + 2) % 32 ≠ 0) := by
  have hspec := main_spec hfit
  cases hrun : main fs blank with
  | error e =>
    obtain ⟨rfl, hslash⟩ := wp_error hspec hrun
    exact Or.inl ⟨hslash, rfl⟩
  | ok r =>
    obtain ⟨hnames, hfin⟩ := wp_ok hspec hrun
    exact Or.inr ⟨hnames, r.2, rfl, hfin.vol, hfin.covered_iff⟩

/-- `n` empty files. -/
def emptyFiles (n : Nat) : List InputFile := List.replicate n ⟨[97], []⟩

theorem emptyFiles_consistent : ∃ s, main (emptyFiles 29) blank = .ok ((), s) ∧
    ∀ i, (dinodes sb s.img i).type ≠ 0 → Covered s.img (dinodes sb s.img i) := by
  rcases main_consistent_iff (emptyFiles 29) ⟨by decide, by decide, by decide⟩ with
    ⟨hslash, -⟩ | ⟨-, s, hrun, -, hcov⟩
  · exact absurd hslash (by decide)
  · exact ⟨s, hrun, hcov.mpr (by decide)⟩

/-- With 30 files the root directory has 32 entries, and its size is rounded up to a second block
that it does not have. -/
theorem thirtyFiles_root_uncovered : ∃ s, main (emptyFiles 30) blank = .ok ((), s) ∧
    (dinodes sb s.img ROOTINO).type ≠ 0 ∧ ¬ Covered s.img (dinodes sb s.img ROOTINO) := by
  obtain ⟨s, hrun, hfin⟩ := main_finished (emptyFiles 30) ⟨by decide, by decide, by decide⟩
    (by decide)
  refine ⟨s, hrun, hfin.root_live, fun hc => ?_⟩
  have hsize : rootSize (emptyFiles 30) = 1024 := by decide
  have hlen : (emptyFiles 30).length = 30 := List.length_replicate
  have hone := hc 1
  rw [hfin.addrOf_ne_zero hfin.root_live, hfin.size_eq hfin.root_live, if_pos rfl, hsize,
    Finished.imageFiles_root_size, hlen] at hone
  exact absurd (hone (by decide)) (by decide)

end Xv6.Mkfs
