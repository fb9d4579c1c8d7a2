import Mathlib.Algebra.Order.BigOperators.Group.List
import Xv6.MkfsImage

/-!
# The image that mkfs makes

A run of `main` adds the input files one after the other. `imageFiles` is what is on the disk
after some of them: a root directory with the entries `.`, `..` and one for each file, and the
contents of the files under the inode numbers from 2 on.
-/

namespace Xv6.Mkfs

open Function

open Prog Fs

variable {s s' : MkState} {E : Fault → Prop}

/-! ### Contents -/

/-- The contents of an input file, however it is read. -/
def InputFile.data (f : InputFile) : List UInt8 := f.chunks.flatten

def dataFile (c : List UInt8) : File := ⟨T_FILE, 0, 0, 1, c.length, cstr c⟩

/-- The bytes of a list of directory entries. -/
def dirBytes (es : List (Nat × Name)) (x : Nat) : UInt8 :=
  match es[x / 16]? with
  | some e => direntBytes e.1 e.2 (x % 16)
  | none => 0

def dirFile (es : List (Nat × Name)) : File := ⟨T_DIR, 0, 0, 1, 16 * es.length, dirBytes es⟩

/-- The entries of the root directory for the input files `fs`. -/
def rootEntries (fs : List InputFile) : List (Nat × Name) :=
  [(ROOTINO, [46]), (ROOTINO, [46, 46])] ++ fs.mapIdx (fun j f => (j + 2, fsName f.name))

def imageFiles (fs : List InputFile) : Nat → File
  | 0 => File.free
  | 1 => dirFile (rootEntries fs)
  | i + 2 =>
    match fs[i]? with
    | some f => dataFile f.data
    | none => File.free

theorem dataFile_append (a c : List UInt8) :
    File.append (dataFile a) c.length (cstr c) = dataFile (a ++ c) := by
  simp only [File.append, dataFile, List.length_append, File.mk.injEq, true_and]
  funext x
  simp only [Fs.patch, cstr, List.getD_eq_getElem?_getD]
  by_cases hx : a.length ≤ x
  · rw [List.getElem?_append_right hx]
    by_cases hc : x < a.length + c.length
    · rw [if_pos ⟨hx, hc⟩]
    · rw [if_neg (by omega), List.getElem?_eq_none hx, List.getElem?_eq_none (by omega)]
  · rw [if_neg (by omega), List.getElem?_append_left (by omega)]

theorem dirFile_append (es : List (Nat × Name)) (e : Nat × Name) :
    File.append (dirFile es) 16 (direntBytes e.1 e.2) = dirFile (es ++ [e]) := by
  have hlen : 16 * es.length + 16 = 16 * (es ++ [e]).length := by
    rw [List.length_append, List.length_singleton]
    omega
  simp only [File.append, dirFile, hlen, File.mk.injEq, true_and]
  funext x
  simp only [Fs.patch, dirBytes]
  by_cases hx : x / 16 < es.length
  · rw [if_neg (by omega), List.getElem?_append_left hx]
  · rw [List.getElem?_append_right (by omega)]
    by_cases hlast : x < 16 * es.length + 16
    · rw [if_pos (by omega), show x / 16 - es.length = 0 by omega,
        show x - 16 * es.length = x % 16 by omega]
      rfl
    · rw [if_neg (by omega), List.getElem?_eq_none (by omega), List.getElem?_eq_none (by simp; omega)]

theorem rootEntries_append (fs : List InputFile) (f : InputFile) :
    rootEntries (fs ++ [f]) = rootEntries fs ++ [(fs.length + 2, fsName f.name)] := by
  simp [rootEntries, List.mapIdx_append]

theorem rootEntries_length (fs : List InputFile) : (rootEntries fs).length = fs.length + 2 := by
  simp [rootEntries]

theorem imageFiles_append (fs : List InputFile) (f : InputFile) :
    imageFiles (fs ++ [f]) = update
      (update (imageFiles fs) ROOTINO (dirFile (rootEntries (fs ++ [f]))))
      (fs.length + 2) (dataFile f.data) := by
  funext i
  by_cases hi : i = fs.length + 2
  · subst hi
    rw [update_self, imageFiles, List.getElem?_append_right le_rfl, Nat.sub_self]
    rfl
  · rw [update_of_ne hi]
    match i with
    | 0 => rfl
    | 1 => rw [update_self, imageFiles]
    | i + 2 =>
      rw [update_of_ne (by simp [ROOTINO]), imageFiles, imageFiles]
      by_cases hlt : i < fs.length
      · rw [List.getElem?_append_left hlt]
      · rw [List.getElem?_eq_none (by simp; omega), List.getElem?_eq_none (by omega)]

/-! ### Fitting on the disk -/

def blocksOf (fs : List InputFile) : Nat :=
  fileBlocks (16 * (fs.length + 2)) + (fs.map (fun f => fileBlocks f.data.length)).sum

structure Fits (fs : List InputFile) : Prop where
  inodes : fs.length + 1 ≤ NINODES - 1
  size : ∀ f ∈ fs, f.data.length ≤ MAXFILE * BSIZE
  blocks : nmeta + blocksOf fs ≤ FSSIZE

theorem fileBlocks_mono {m n : Nat} (h : m ≤ n) : fileBlocks m ≤ fileBlocks n := by
  simp only [fileBlocks, BSIZE, NDIRECT]
  split_ifs <;> omega

theorem blocksOf_append (fs gs : List InputFile) : blocksOf fs ≤ blocksOf (fs ++ gs) := by
  have hroot : fileBlocks (16 * (fs.length + 2)) ≤ fileBlocks (16 * ((fs ++ gs).length + 2)) :=
    fileBlocks_mono (by rw [List.length_append]; omega)
  simp only [blocksOf, List.map_append, List.sum_append]
  omega

theorem Fits.of_append {fs gs : List InputFile} (h : Fits (fs ++ gs)) : Fits fs where
  inodes := by
    have := h.inodes
    rw [List.length_append] at this
    omega
  size f hf := h.size f (List.mem_append_left _ hf)
  blocks := le_trans (Nat.add_le_add_left (blocksOf_append fs gs) _) h.blocks

/-! ### The run -/

theorem appendChunks_spec {i : Nat} {c : List UInt8} {cs : List (List UInt8)} (h : Image s)
    (hi : imgFiles s i = dataFile c) (hmax : (c ++ cs.flatten).length ≤ MAXFILE * BSIZE)
    (hroom : s.freeblock + fileBlocks (c ++ cs.flatten).length ≤ FSSIZE + fileBlocks c.length) :
    wp (appendChunks i cs) s (fun _ s' => Wrote s s' i (dataFile (c ++ cs.flatten)) ∧
      s'.freeinode = s.freeinode ∧
      s'.freeblock + fileBlocks c.length = s.freeblock + fileBlocks (c ++ cs.flatten).length) E := by
  induction cs generalizing c s with
  | nil =>
    rw [List.flatten_nil, List.append_nil]
    exact ⟨⟨h, by rw [← hi, update_eq_self]⟩, rfl, rfl⟩
  | cons b cs ih =>
    rw [List.flatten_cons, ← List.append_assoc] at hmax hroom ⊢
    have hlen : (c ++ b).length = c.length + b.length := List.length_append
    have hle : (c ++ b).length ≤ (c ++ b ++ cs.flatten).length := by
      simp only [List.length_append]
      omega
    have hblocks := fileBlocks_mono hle
    have hlive : (imgFiles s i).type ≠ 0 := by
      rw [hi]
      exact (by decide : T_FILE ≠ 0)
    have hsize : (imgFiles s i).size = c.length := by rw [hi]; rfl
    rw [hlen] at hle hblocks
    rw [appendChunks]
    refine wp_seq (iappend_spec h hlive hsize (by omega) (by omega)) ?_
    rintro _ s₁ ⟨hw, hfi, hfb⟩
    have hi₁ : imgFiles s₁ i = dataFile (c ++ b) := by
      rw [hw.files, update_self, hi, dataFile_append]
    refine wp_mono (ih hw.image hi₁ hmax (by rw [hlen]; omega)) ?_
    rintro _ s₂ ⟨hw₂, hfi₂, hfb₂⟩
    rw [hlen] at hfb₂
    refine ⟨⟨hw₂.image, ?_⟩, hfi₂.trans hfi, by omega⟩
    rw [hw₂.files, hw.files, update_idem]

theorem iappend_root {es : List (Nat × Name)} (e : Nat × Name) (h : Image s)
    (hroot : imgFiles s ROOTINO = dirFile es) (hlen : es.length < NINODES)
    (hroom : s.freeblock + fileBlocks (16 * es.length + 16) ≤
      FSSIZE + fileBlocks (16 * es.length)) :
    wp (iappend ROOTINO (direntBytes e.1 e.2) 16) s
      (fun _ s' => Wrote s s' ROOTINO (dirFile (es ++ [e])) ∧ s'.freeinode = s.freeinode ∧
        s'.freeblock + fileBlocks (16 * es.length) =
          s.freeblock + fileBlocks (16 * es.length + 16)) E := by
  have hlive : (imgFiles s ROOTINO).type ≠ 0 := by
    rw [hroot]
    exact (by decide : T_DIR ≠ 0)
  have hsize : (imgFiles s ROOTINO).size = 16 * es.length := by
    rw [hroot]
    rfl
  have happ := iappend_spec (p := direntBytes e.1 e.2) (E := E) h hlive hsize ?_ hroom
  · rwa [hroot, dirFile_append] at happ
  · simp only [NINODES, MAXFILE, NDIRECT, NINDIRECT, BSIZE] at *
    omega

/-- The image contains the input files `fs`. -/
structure Holds (s : MkState) (fs : List InputFile) : Prop where
  image : Image s
  freeinode : s.freeinode = fs.length + 2
  freeblock : s.freeblock = nmeta + blocksOf fs
  files : imgFiles s = imageFiles fs

def slashInName : Fault := .panic "index(argv[i], '/') == 0"

theorem imageFiles_of_length (fs : List InputFile) : imageFiles fs (fs.length + 2) = File.free := by
  rw [imageFiles, List.getElem?_eq_none le_rfl]

theorem addFile_spec {fs : List InputFile} {f : InputFile} (h : Holds s fs)
    (hfit : Fits (fs ++ [f])) :
    wp (addFile ROOTINO f) s (fun _ s' => slash ∉ f.name ∧ Holds s' (fs ++ [f]))
      (fun e => e = slashInName ∧ slash ∈ f.name) := by
  by_cases hslash : slash ∈ f.name
  · rw [addFile, wp_bind, wp_assert_false (decide_eq_false (not_not.mpr hslash))]
    exact ⟨rfl, hslash⟩
  · have hinodes := hfit.inodes
    have hsize := hfit.size f (by simp)
    have hblocks := hfit.blocks
    have hlen : (fs ++ [f]).length = fs.length + 1 := by simp
    have hnew : blocksOf (fs ++ [f]) = fileBlocks (16 * (fs.length + 2) + 16) +
        (fs.map (fun f => fileBlocks f.data.length)).sum + fileBlocks f.data.length := by
      simp only [blocksOf, List.map_append, List.sum_append, hlen]
      rw [show 16 * (fs.length + 1 + 2) = 16 * (fs.length + 2) + 16 by omega]
      simp [Nat.add_assoc]
    have hold : s.freeblock = nmeta + (fileBlocks (16 * (fs.length + 2)) +
        (fs.map (fun f => fileBlocks f.data.length)).sum) := h.freeblock
    have hmono : fileBlocks (16 * (fs.length + 2)) ≤ fileBlocks (16 * (fs.length + 2) + 16) :=
      fileBlocks_mono (by omega)
    rw [hlen] at hinodes
    simp only [addFile, wp_bind, wp_assert (decide_eq_true hslash)]
    have hfree : (imgFiles s s.freeinode).type = 0 := by
      rw [h.files, h.freeinode, imageFiles_of_length]
      rfl
    have hnext := h.freeinode
    simp only [NINODES] at hinodes
    refine wp_mono (ialloc_spec h.image hfree (by simp only [NINODES]; omega) (by decide)
      (by decide)) ?_
    rintro i s₁ ⟨rfl, hfi₁, hfb₁, hw₁⟩
    rw [hnext] at hw₁ hfi₁ ⊢
    have hne : ROOTINO ≠ fs.length + 2 := by simp only [ROOTINO]; omega
    have hroot₁ : imgFiles s₁ ROOTINO = dirFile (rootEntries fs) := by
      rw [hw₁.files, update_of_ne hne, h.files]
      rfl
    have hentries := rootEntries_length fs
    refine wp_mono (iappend_root (fs.length + 2, fsName f.name) hw₁.image hroot₁
      (by simp only [NINODES]; omega) (by rw [hentries]; omega)) ?_
    rintro _ s₂ ⟨hw₂, hfi₂, hfb₂⟩
    rw [← rootEntries_append] at hw₂
    rw [hentries] at hfb₂
    have hfile₂ : imgFiles s₂ (fs.length + 2) = dataFile [] := by
      rw [hw₂.files, update_of_ne hne.symm, hw₁.files, update_self]
      rfl
    have hzero : fileBlocks ([] : List UInt8).length = 0 := by decide
    refine wp_mono (appendChunks_spec hw₂.image hfile₂ (by exact hsize) ?_) ?_
    · rw [hzero, List.nil_append]
      change s₂.freeblock + fileBlocks f.data.length ≤ _
      omega
    · rintro _ s₃ ⟨hw₃, hfi₃, hfb₃⟩
      rw [hzero, List.nil_append] at hfb₃
      change _ = s₂.freeblock + fileBlocks f.data.length at hfb₃
      refine ⟨hslash, hw₃.image, ?_, by omega, ?_⟩
      · rw [hfi₃, hfi₂, hfi₁, hlen]
      · rw [hw₃.files, hw₂.files, hw₁.files, h.files, imageFiles_append, List.nil_append,
          update_comm hne.symm, update_idem]
        rfl

theorem addFiles_spec {fs gs : List InputFile} (h : Holds s fs) (hfit : Fits (fs ++ gs)) :
    wp (addFiles ROOTINO gs) s (fun _ s' => (∀ f ∈ gs, slash ∉ f.name) ∧ Holds s' (fs ++ gs))
      (fun e => e = slashInName ∧ ∃ f ∈ gs, slash ∈ f.name) := by
  induction gs generalizing fs s with
  | nil =>
    rw [List.append_nil]
    exact ⟨by simp, h⟩
  | cons f gs ih =>
    have hassoc : fs ++ f :: gs = fs ++ [f] ++ gs := by simp
    rw [hassoc] at hfit ⊢
    rw [addFiles]
    refine wp_chain (addFile_spec h hfit.of_append) ?_ ?_
    · rintro _ s₁ ⟨hf, h₁⟩
      refine wp_conseq (ih h₁ hfit) ?_ ?_
      · rintro _ s₂ ⟨hgs, h₂⟩
        exact ⟨List.forall_mem_cons.mpr ⟨hf, hgs⟩, h₂⟩
      · rintro e ⟨he, g, hg, hs⟩
        exact ⟨he, g, List.mem_cons_of_mem _ hg, hs⟩
    · rintro e ⟨he, hs⟩
      exact ⟨he, f, List.mem_cons_self, hs⟩

theorem image_start : Image { blank with
      img := update blank.img 1 ((Bytes.zero : Block).write 0 (sbBytes sb) 28) } ∧
    imgFiles { blank with
      img := update blank.img 1 ((Bytes.zero : Block).write 0 (sbBytes sb) 28) } =
        fun _ => File.free := by
  obtain ⟨img, himg⟩ : ∃ img, img = update blank.img 1
    ((Bytes.zero : Block).write 0 (sbBytes sb) 28) := ⟨_, rfl⟩
  have htable : ∀ i, dinodes sb img i = Dinode.zero := by
    intro i
    rw [dinodes]
    split_ifs
    · rw [himg, update_of_ne layout_sb.IBLOCK_ne_one]
      exact readDinode_zero _
    · rfl
  have hfree : ∀ i, (dinodes sb img i).type = 0 := fun i => by rw [htable]; rfl
  have hheld : ∀ x, held img (dinodes sb img) x = 0 := fun x => held_free (hfree x.1)
  rw [← himg]
  refine ⟨⟨⟨layout_sb, ?_, ?_⟩, ?_, fun i hi => absurd (hfree i) hi⟩, ?_⟩
  · change readsb (img 1) = sb
    rw [himg, update_self]
    apply readsb_write <;> decide
  · refine ⟨by decide, fun hx => absurd (hheld _) hx, fun hx => absurd (hheld _) hx, ?_, ?_⟩
    · intro b _ hb
      exact decide_eq_true hb
    · intro b hlo _
      have hpos : 0 < dataStart sb := by decide
      have hb : nmeta ≤ b := hlo
      constructor
      · intro hlt
        have hlt' : b < nmeta := of_decide_eq_true hlt
        omega
      · rintro ⟨x, hx⟩
        rw [hheld] at hx
        omega
  · intro b hb
    have hb' : nmeta ≤ b := hb
    have hmeta : nmeta = 59 := rfl
    change img b = _
    rw [himg, update_of_ne (by omega)]
    rfl
  · funext i
    exact fileOf_free (hfree i)

end Xv6.Mkfs
