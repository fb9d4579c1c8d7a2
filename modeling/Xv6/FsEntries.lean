import Xv6.FsCache
import Xv6.FsDir

/-!
# Directory entries

A directory is a file of 16-byte entries. Two names are the same to `namecmp` when their keys, the
bytes that an entry stores of them, are equal. `dirlookup` finds the first entry in use with the
key of a name; `dirlink` fills the first empty entry or adds one at the end.
-/

namespace Xv6.Fs

open Prog

/-! ### Names -/

/-- The `DIRSIZ` bytes that an entry stores of a name. -/
def key (t : Nat → UInt8) : List UInt8 := (List.range DIRSIZ).map (strncpy t)

theorem strncmp_eq_zero {p q : Nat → UInt8} {i n : Nat} : strncmp p q i n = 0 ↔
    ∀ j < n, (∀ l < j, p (i + l) ≠ 0) → p (i + j) = q (i + j) := by
  induction n generalizing i with
  | zero => simp [strncmp]
  | succ n ih =>
    rw [strncmp]
    split_ifs with h
    · rw [ih]
      constructor
      · intro hall j hj hnz
        cases j with
        | zero => exact h.2
        | succ j =>
          have hj' := hall j (by omega) (fun l hl => by
            have := hnz (l + 1) (by omega)
            rwa [← Nat.add_assoc, Nat.add_right_comm] at this)
          rwa [Nat.add_right_comm] at hj'
      · intro hall j hj hnz
        have hj' := hall (j + 1) (by omega) (fun l hl => by
          cases l with
          | zero => exact h.1
          | succ l =>
            have := hnz l (by omega)
            rwa [Nat.add_right_comm] at this)
        rwa [Nat.add_right_comm]
    · have hdiff : ((p i).toNat : Int) - (q i).toNat = 0 ↔ p i = q i := by
        rw [sub_eq_zero, Int.ofNat_inj, UInt8.toNat_inj]
      rw [hdiff]
      constructor
      · intro heq j hj hnz
        cases j with
        | zero => exact heq
        | succ j => exact absurd ⟨hnz 0 (by omega), heq⟩ h
      · intro hall
        exact hall 0 (by omega) (fun l hl => by omega)

theorem key_inj {s t : Nat → UInt8} : key s = key t ↔ ∀ j < DIRSIZ, strncpy s j = strncpy t j := by
  simp only [key, List.map_inj_left, List.mem_range]

theorem namecmp_eq_zero {s t : Nat → UInt8} : namecmp s t = 0 ↔ key s = key t := by
  rw [namecmp, strncmp_eq_zero, key_inj]
  simp only [Nat.zero_add]
  constructor
  · intro h j hj
    by_cases hnz : ∀ l < j, s l ≠ 0
    · have hsame : ∀ l ≤ j, s l = t l := fun l hl =>
        h l (by omega) (fun m hm => hnz m (by omega))
      have hnz' : ∀ l < j, t l ≠ 0 := by
        intro l hl
        rw [← hsame l (by omega)]
        exact hnz l hl
      rw [strncpy, if_pos hnz, strncpy, if_pos hnz', hsame j le_rfl]
    · -- the first NUL of `s` is one of `t`
      have hz : ∃ l, l < j ∧ s l = 0 := by
        by_contra hc
        exact hnz (fun l hl h0 => hc ⟨l, hl, h0⟩)
      have hfirst := Nat.find_spec hz
      have hbefore : ∀ m < Nat.find hz, s m ≠ 0 := fun m hm h0 =>
        Nat.find_min hz hm ⟨by omega, h0⟩
      have ht := h (Nat.find hz) (by omega) hbefore
      rw [strncpy, if_neg hnz, strncpy, if_neg]
      intro hnz'
      exact hnz' (Nat.find hz) hfirst.1 (by rw [← ht, hfirst.2])
  · intro h j
    induction j using Nat.strong_induction_on with
    | _ j ih =>
      intro hj hnz
      have hnz' : ∀ l < j, t l ≠ 0 := by
        intro l hl
        rw [← ih l hl (by omega) (fun m hm => hnz m (by omega))]
        exact hnz l hl
      have hk := h j hj
      rwa [strncpy, if_pos hnz, strncpy, if_pos hnz'] at hk

/-! ### Reading entries -/

/-- Entry `n` of a directory. -/
def File.entry (f : File) (n : Nat) : Dirent :=
  readDirent ((List.range 16).map (fun i => f.bytes (16 * n + i)))

def File.inumAt (f : File) (n : Nat) : Nat := (f.entry n).inum

def File.keyAt (f : File) (n : Nat) : List UInt8 := key (f.entry n).name

/-- A directory of whole entries. -/
structure File.IsDir (f : File) : Prop where
  type : f.type = T_DIR
  whole : f.size % 16 = 0

/-- Entry `n` is in use and has key `k`. -/
def File.Matches (f : File) (k : List UInt8) (n : Nat) : Prop :=
  f.inumAt n ≠ 0 ∧ f.keyAt n = k

instance (f : File) (k : List UInt8) (n : Nat) : Decidable (f.Matches k n) :=
  inferInstanceAs (Decidable (_ ∧ _))

/-- The index of the entry that `dirlookup` finds. -/
def File.lookup (f : File) (k : List UInt8) : Option Nat :=
  (List.range (f.size / 16)).find? (fun n => f.Matches k n)

/-- The index of the first empty entry, or the number of entries. -/
def File.emptySlot (f : File) : Nat :=
  ((List.range (f.size / 16)).find? (fun n => f.inumAt n = 0)).getD (f.size / 16)

variable {s s' : FsState} {dp n : Nat} {E : Fault → Prop} {f : File}

/-- A name is compared through the bytes that an entry stores of it. -/
theorem key_of_stored {t t' : Nat → UInt8} (h : ∀ i < DIRSIZ, t' i = strncpy t i) :
    key t' = key t := by
  rw [key_inj]
  intro j hj
  by_cases hnz : ∀ l < j, t l ≠ 0
  · have hsame : ∀ l ≤ j, t' l = t l := by
      intro l hl
      rw [h l (by omega), strncpy, if_pos (fun m hm => hnz m (by omega))]
    have hnz' : ∀ l < j, t' l ≠ 0 := by
      intro l hl
      rw [hsame l hl.le]
      exact hnz l hl
    rw [strncpy, if_pos hnz', strncpy, if_pos hnz, hsame j le_rfl]
  · have hz : ∃ l < j, t l = 0 := by
      by_contra hc
      exact hnz (fun l hl h0 => hc ⟨l, hl, h0⟩)
    obtain ⟨l, hl, h0⟩ := hz
    have h0' : t' l = 0 := by
      rw [h l (by omega), strncpy, h0, ite_self]
    rw [strncpy, if_neg (fun hc => hc l hl h0'), strncpy, if_neg hnz]

variable {name : Name} {inum : Nat}

theorem File.entry_of_bytes (h : ∀ i < 16, f.bytes (16 * n + i) = direntBytes inum name i) :
    f.inumAt n = inum % 2 ^ 16 ∧ f.keyAt n = key (cstr name) := by
  have hget : ∀ i < 16, ((List.range 16).map (fun i => f.bytes (16 * n + i))).getD i 0 =
      direntBytes inum name i := by
    intro i hi
    rw [List.getD_eq_getElem?_getD, List.getElem?_map, List.getElem?_range hi]
    exact h i hi
  constructor
  · refine leWord_leByte (fun i hi => ?_)
    rw [Nat.zero_add, hget i (by omega), direntBytes, if_pos hi]
  · apply key_of_stored
    intro i hi
    have hi' : i < 14 := hi
    change List.getD _ (2 + i) 0 = _
    rw [hget (2 + i) (by omega), direntBytes, if_neg (by omega), Nat.add_sub_cancel_left]

/-- Entry `dp` of the cache holds the directory `f`. -/
structure DirAt (s : FsState) (dp : Nat) (f : File) : Prop where
  good : Good s
  loaded : Loaded s dp
  file : files s (s.icache dp).inum = f
  dir : f.IsDir

theorem DirAt.type (h : DirAt s dp f) : (s.icache dp).din.type = T_DIR := by
  have ht := congrArg File.type h.file
  rw [h.good.file_eq h.loaded, h.dir.type] at ht
  exact ht

theorem DirAt.size (h : DirAt s dp f) : (s.icache dp).din.size = f.size := by
  have hs := congrArg File.size h.file
  rwa [h.good.file_eq h.loaded] at hs

theorem DirAt.size_le (h : DirAt s dp f) : f.size ≤ MAXFILE * BSIZE := by
  rw [← h.size]
  exact h.good.size_le h.loaded

theorem readEntry_spec (hdev : (s.icache dp).din.type ≠ T_DEV)
    (hf : fileOf s.disk (s.icache dp).din = f) (hlive : (s.icache dp).din.type ≠ 0)
    (hn : n < f.size / 16) (hsize : f.size < 2 ^ 32)
    (hc : ∀ bn, bn * BSIZE < 16 * n + 16 → addrOf s.disk (s.icache dp).din bn ≠ 0) (msg : String) :
    wp (readEntry dp (16 * n) msg) s (fun de s' => de = f.entry n ∧ s' = s) E := by
  rw [fileOf_live hlive] at hf
  subst hf
  simp only at hn hsize
  simp only [readEntry, wp_bind]
  refine wp_mono (readi_spec (fun bn hbn => hc bn (by omega)) hdev) ?_
  rintro r s₁ ⟨rfl, hr⟩
  rw [if_neg (by omega), Nat.min_eq_left (by omega)] at hr
  subst hr
  simp only [List.length_map, List.length_range, if_true]
  exact ⟨rfl, rfl⟩

theorem readEntry_alloc (h : Active s dp) (hdev : (s.icache dp).din.type ≠ T_DEV)
    (hf : fileOf s.disk (s.icache dp).din = f) (hn : n < f.size / 16)
    (hsize : f.size ≤ MAXFILE * BSIZE) (msg : String) :
    wp (readEntry dp (16 * n) msg) s
      (fun de s' => de = f.entry n ∧ Mapped s s' dp (path (16 * n / BSIZE)) ∧
        view s'.disk (tblOf s' dp) = view s.disk (tblOf s dp))
      (fun e => e = outOfBlocks ∧ freeBlocks s < (missing s dp (path (16 * n / BSIZE))).card) := by
  rw [fileOf_live h.live] at hf
  subst hf
  simp only [MAXFILE, NDIRECT, NINDIRECT, BSIZE] at hn hsize
  simp only [readEntry, readi, wp_bind, wp_getInode, wp_get, if_neg hdev]
  rw [if_neg (by omega), if_neg (by omega)]
  refine wp_seq (readiLoop_block h ?_ (by omega) ?_) ?_
  · simp only [MAXFILE, NDIRECT, NINDIRECT, BSIZE]
    omega
  · simp only [BSIZE]
    omega
  · rintro data s₁ ⟨rfl, hm, hv⟩
    simp only [wp_pure, List.length_map, List.length_range, if_true]
    exact ⟨rfl, hm, hv⟩

/-- The first `m` entries of `dp` can be read, and are those of `f`. -/
structure Entries (s : FsState) (dp : Nat) (f : File) (m : Nat) : Prop where
  size : (s.icache dp).din.size = f.size
  whole : f.size % 16 = 0
  le : m ≤ f.size / 16
  read : ∀ n < m, ∀ msg, wp (readEntry dp (16 * n) msg) s
    (fun de s' => de = f.entry n ∧ s' = s) (fun _ => False)

theorem entries_of_blocks {m : Nat} (htype : (s.icache dp).din.type = T_DIR)
    (hf : fileOf s.disk (s.icache dp).din = f) (hwhole : f.size % 16 = 0) (hm : m ≤ f.size / 16)
    (hsize : f.size < 2 ^ 32)
    (hc : ∀ bn, bn * BSIZE < 16 * m → addrOf s.disk (s.icache dp).din bn ≠ 0) :
    Entries s dp f m := by
  have hlive : (s.icache dp).din.type ≠ 0 := by
    rw [htype]
    decide
  have hdev : (s.icache dp).din.type ≠ T_DEV := by
    rw [htype]
    decide
  refine ⟨?_, hwhole, hm, ?_⟩
  · rw [← hf, fileOf_live hlive]
  · intro n hn msg
    exact readEntry_spec hdev hf hlive (by omega) hsize (fun bn hbn => hc bn (by omega)) msg

theorem DirAt.entries (h : DirAt s dp f) : Entries s dp f (f.size / 16) := by
  have hle := h.size_le
  have hwhole := h.dir.whole
  apply entries_of_blocks h.type _ hwhole le_rfl
  · simp only [MAXFILE, NDIRECT, NINDIRECT, BSIZE] at hle
    omega
  · intro bn hbn
    apply h.good.covered_din h.loaded
    rw [h.size]
    omega
  · rw [← h.file, files, view, h.good.din_eq h.loaded]

theorem lt_size_iff (h : f.size % 16 = 0) : 16 * n < f.size ↔ n < f.size / 16 := by omega

/-- The loop of `dirlookup` passes `c` entries or stops at the first that matches. -/
theorem dirlookupLoop_scan {fuel c : Nat} {Q : Option (Nat × Nat) → FsState → Prop}
    (h : Entries s dp f (n + c))
    (hE : ∀ m, (List.range' n c).find? (fun m => f.Matches (key (cstr name)) m) = some m →
      (∀ l < NINODE, 0 < (s.icache l).ref) → E noCacheEntry)
    (hsome : ∀ m, (List.range' n c).find? (fun m => f.Matches (key (cstr name)) m) = some m →
      ∀ k s', Got s (f.inumAt m) k s' → Q (some (k, 16 * m)) s')
    (hnone : (List.range' n c).find? (fun m => f.Matches (key (cstr name)) m) = none →
      wp (dirlookupLoop dp name fuel (16 * (n + c))) s Q E) :
    wp (dirlookupLoop dp name (fuel + c) (16 * n)) s Q E := by
  induction c generalizing n with
  | zero => exact hnone rfl
  | succ c ih =>
    have hle := h.le
    have hnext : 16 * n + 16 = 16 * (n + 1) := by omega
    have hcount : n + (c + 1) = n + 1 + c := by omega
    rw [hcount] at h hnone
    rw [List.range'_succ] at hE hsome hnone
    simp only [List.find?_cons] at hE hsome hnone
    rw [← Nat.add_assoc]
    simp only [dirlookupLoop, wp_bind, wp_getInode, h.size]
    rw [if_pos ((lt_size_iff h.whole).mpr (by omega))]
    refine wp_chain (h.read n (by omega) _) ?_ (fun e he => he.elim)
    rintro de s₁ ⟨rfl, rfl⟩
    by_cases h0 : (f.entry n).inum = 0
    · have hm : ¬ f.Matches (key (cstr name)) n := fun hm => hm.1 h0
      simp only [hm, decide_false] at hE hsome hnone
      rw [if_pos h0, hnext]
      exact ih h hE hsome hnone
    · rw [if_neg h0]
      by_cases hname : namecmp (cstr name) (f.entry n).name = 0
      · have hm : f.Matches (key (cstr name)) n := ⟨h0, (namecmp_eq_zero.mp hname).symm⟩
        simp only [hm, decide_true] at hE hsome
        rw [if_pos hname]
        refine wp_chain (iget_spec _ _) ?_ (fun e he => by rw [he.1]; exact hE n rfl he.2)
        intro k s₂ hg
        exact hsome n rfl k s₂ hg
      · have hm : ¬ f.Matches (key (cstr name)) n :=
          fun hm => hname (namecmp_eq_zero.mpr hm.2.symm)
        simp only [hm, decide_false] at hE hsome hnone
        rw [if_neg hname, hnext]
        exact ih h hE hsome hnone

/-- `dirlookup` fails only for a name that is there, when every entry of the cache is in use. -/
theorem dirlookup_cases (name : Name) (h : DirAt s dp f) :
    wp (dirlookup dp name) s
      (fun r s' => match f.lookup (key (cstr name)) with
        | none => r = none ∧ s' = s
        | some m => ∃ k, r = some (k, 16 * m) ∧ Got s (f.inumAt m) k s')
      (fun e => e = noCacheEntry ∧ f.lookup (key (cstr name)) ≠ none ∧
        ∀ l < NINODE, 0 < (s.icache l).ref) := by
  simp only [dirlookup, wp_bind, wp_getInode, h.size]
  rw [if_neg (not_not.mpr h.type), Nat.add_comm, File.lookup, List.range_eq_range']
  refine dirlookupLoop_scan (n := 0) (by rw [Nat.zero_add]; exact h.entries) ?_ ?_ ?_
  · intro m hm hfull
    refine ⟨rfl, ?_, hfull⟩
    rw [hm]
    simp
  · intro m hm k s₁ hg
    rw [hm]
    exact ⟨k, rfl, hg⟩
  · intro hm
    rw [hm, Nat.zero_add]
    simp only [dirlookupLoop, wp_bind, wp_getInode, h.size]
    rw [if_neg (fun hc => absurd ((lt_size_iff h.dir.whole).mp hc) (Nat.lt_irrefl _))]
    exact ⟨rfl, rfl⟩

theorem dirlookup_spec (name : Name) (h : DirAt s dp f) :
    wp (dirlookup dp name) s
      (fun r s' => match f.lookup (key (cstr name)) with
        | none => r = none ∧ s' = s
        | some m => ∃ k, r = some (k, 16 * m) ∧ Got s (f.inumAt m) k s')
      (fun e => e = noCacheEntry) :=
  wp_conseq (dirlookup_cases name h) (fun _ _ hq => hq) (fun _ he => he.1)

/-! ### Writing entries -/

theorem emptyEntry_spec {fuel : Nat} (h : DirAt s dp f) (hfuel : f.size / 16 < fuel + n)
    (hle : n ≤ f.size / 16) :
    wp (emptyEntry dp fuel (16 * n)) s
      (fun off s' => off = 16 * ((List.range' n (f.size / 16 - n)).find?
        (fun m => f.inumAt m = 0)).getD (f.size / 16) ∧ s' = s) E := by
  induction fuel generalizing n with
  | zero => omega
  | succ fuel ih =>
    simp only [emptyEntry, wp_bind, wp_getInode, h.size]
    by_cases hn : n < f.size / 16
    · have hsplit : f.size / 16 - n = (f.size / 16 - (n + 1)) + 1 := by omega
      rw [if_pos ((lt_size_iff h.dir.whole).mpr hn), wp_bind, hsplit, List.range'_succ]
      refine wp_conseq (h.entries.read n hn _) ?_ (fun e he => he.elim)
      rintro de s₁ ⟨rfl, rfl⟩
      by_cases h0 : (f.entry n).inum = 0
      · have hm : f.inumAt n = 0 := h0
        rw [if_pos h0]
        simp only [List.find?_cons, hm, decide_true, Option.getD_some]
        exact ⟨rfl, rfl⟩
      · have hm : ¬ f.inumAt n = 0 := h0
        rw [if_neg h0, show 16 * n + 16 = 16 * (n + 1) by omega]
        simpa only [List.find?_cons, hm, decide_false] using ih (by omega) (by omega)
    · have heq : n = f.size / 16 := by omega
      rw [if_neg (fun hc => hn ((lt_size_iff h.dir.whole).mp hc)), Nat.sub_eq_zero_of_le (by omega)]
      exact ⟨by rw [heq]; rfl, rfl⟩

theorem File.emptySlot_le (f : File) : f.emptySlot ≤ f.size / 16 := by
  rw [File.emptySlot]
  cases hf : (List.range (f.size / 16)).find? (fun n => f.inumAt n = 0) with
  | none => exact le_rfl
  | some m => exact (List.mem_range.mp (List.mem_of_find?_eq_some hf)).le

/-- The directory with the entry at `e` overwritten. -/
def File.setEntry (f : File) (e inum : Nat) (name : Name) : File :=
  f.write (16 * e) 16 (direntBytes inum name)

/-- A directory is full when it has no empty entry and cannot grow. -/
def File.Full (f : File) : Prop := MAXFILE * BSIZE < 16 * f.emptySlot + 16

def dirFull : Fault := .panic "dirlink"

theorem dirlink_add (h : DirAt s dp f) (hlook : f.lookup (key (cstr name)) = none) :
    wp (dirlink dp name inum) s
      (fun r s' => r = 0 ∧ Changed s s' dp (f.setEntry f.emptySlot inum name))
      (fun e => e = outOfBlocks ∧
          freeBlocks s < (missing s dp (span (16 * f.emptySlot) 16)).card ∨
        e = dirFull ∧ f.Full) := by
  have hdev : (s.icache dp).din.type ≠ T_DEV := by
    rw [h.type]
    decide
  have hlook' := dirlookup_cases name h
  simp only [hlook] at hlook'
  simp only [dirlink, wp_bind]
  refine wp_conseq hlook' ?_ (fun e he => absurd rfl he.2.1)
  rintro r s₁ ⟨rfl, rfl⟩
  simp only [wp_bind, wp_getInode, h.size]
  refine wp_mono (emptyEntry_spec (n := 0) h (Nat.lt_succ_self _) (Nat.zero_le _)) ?_
  rintro off s₂ ⟨hoff, rfl⟩
  rw [Nat.sub_zero, ← List.range_eq_range', ← File.emptySlot] at hoff
  subst hoff
  refine wp_conseq (writei_spec h.good h.loaded hdev) ?_ (fun e he => Or.inl he)
  rintro r s₃ (⟨hbad, rfl, -⟩ | ⟨-, rfl, hch⟩)
  · rw [if_pos (by decide)]
    refine Or.inr ⟨rfl, ?_⟩
    have hslot := f.emptySlot_le
    have hmax := h.size_le
    have hwhole := h.dir.whole
    simp only [WriteFails, h.size] at hbad
    simp only [File.Full, MAXFILE, NDIRECT, NINDIRECT, BSIZE] at *
    omega
  · rw [if_neg (by decide)]
    rw [h.file] at hch
    exact ⟨rfl, hch⟩

theorem dirlink_none (h : DirAt s dp f) (hlook : f.lookup (key (cstr name)) = none) :
    wp (dirlink dp name inum) s
      (fun r s' => r = 0 ∧ Changed s s' dp (f.setEntry f.emptySlot inum name))
      (fun e => e = noCacheEntry ∨ e = outOfBlocks ∨ e = dirFull ∧ f.Full) := by
  refine wp_conseq (dirlink_add h hlook) (fun _ _ hq => hq) ?_
  rintro e (⟨he, -⟩ | he)
  · exact Or.inr (Or.inl he)
  · exact Or.inr (Or.inr he)

theorem dirlink_some {inum m : Nat} {Q : Int → FsState → Prop} (h : DirAt s dp f)
    (hlook : f.lookup (key (cstr name)) = some m) (hE : E noCacheEntry)
    (hput : ∀ k s₁, Got s (f.inumAt m) k s₁ → wp (iput k) s₁ (fun _ s₂ => Q (-1) s₂) E) :
    wp (dirlink dp name inum) s Q E := by
  have hlook' := dirlookup_spec name h
  simp only [hlook] at hlook'
  simp only [dirlink, wp_bind]
  refine wp_conseq hlook' ?_ (fun e he => by rw [he]; exact hE)
  rintro r s₁ ⟨k, rfl, hg⟩
  simp only [wp_bind, wp_pure]
  exact hput k s₁ hg

end Xv6.Fs
