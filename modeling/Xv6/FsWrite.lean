import Xv6.FsGood

/-!
# Files are byte arrays

`writei` and `readi` on good states. `writei` replaces the file of one inode by a longer or patched
one and leaves all other files and the rest of the inode cache alone.
-/

namespace Xv6.Fs

open Function

open Prog

variable {s s' : FsState} {ip off n : Nat} {src : Nat → UInt8}

/-- `s'` is the good state `s` with `f` for the file of `ip`. -/
structure Changed (s s' : FsState) (ip : Nat) (f : File) : Prop where
  good : Good s'
  files : files s' = update (files s) (s.icache ip).inum f
  sb : s'.sb = s.sb
  others : ∀ l ≠ ip, s'.icache l = s.icache l
  inode : s'.icache ip = { s.icache ip with din := (s'.icache ip).din }

variable {f : File} {d : Dinode}

theorem Changed.inum (h : Changed s s' ip f) : (s'.icache ip).inum = (s.icache ip).inum := by
  rw [h.inode]

theorem Changed.loaded (h : Changed s s' ip f) (hl : Loaded s ip) : Loaded s' ip where
  lt := hl.lt
  ref := by
    rw [h.inode]
    exact hl.ref
  valid := by
    rw [h.inode]
    exact hl.valid

theorem Good.changed {s₁ s₂ : FsState} (h : Good s) (hl : Loaded s ip) (hp : Pending s s₁ ip)
    (hc : Covered s₁.disk (s₁.icache ip).din) (hf : Flushed s₁ s₂ ip)
    (hv : view s₁.disk (tblOf s₁ ip) = update (Fs.files s) (s.icache ip).inum f) :
    Changed s s₂ ip f := by
  obtain ⟨hgood, hfiles⟩ := h.flush hl hp hc hf
  refine ⟨hgood, hfiles.trans hv, hf.sb.trans hp.sb, ?_, ?_⟩
  · intro l hne
    rw [hf.icache, hp.others l hne]
  · rw [hf.icache]
    exact hp.inode

theorem iupdate_setDin {E : Fault → Prop} (h : Good s) (hl : Loaded s ip)
    (ha : d.addrs = (s.icache ip).din.addrs) (hs : d.size = (s.icache ip).din.size) (hwf : d.Wf)
    (hd : d.type ≠ 0) :
    wp (iupdate ip) (s.setDin ip d) (fun _ s' => Changed s s' ip
      ⟨d.type, d.major, d.minor, d.nlink, d.size, byteAt s.disk (s.icache ip).din⟩) E := by
  obtain ⟨hp, hv⟩ := pending_setDin (h.active hl) ha hwf hd
  refine wp_mono (iupdate_spec hp.active.vol hp.active.wf hp.active.range) ?_
  intro _ s₂ hf
  refine h.changed hl hp ?_ hf (by rw [h.files_eq hl]; exact hv)
  intro bn hbn
  rw [setDin_icache_self] at hbn ⊢
  rw [addrOf, ptr_congr ha (fun _ => rfl), ← addrOf]
  exact h.covered_din hl bn (by rwa [← hs])

/-! ### `writei` -/

theorem path_filled {disk : Nat → Block} {bn : Nat} (h : addrOf disk d bn ≠ 0) :
    ∀ k ∈ path bn, ptr disk d k ≠ 0 := by
  intro k hk
  rw [addrOf, place] at h
  rw [path] at hk
  split_ifs at h hk with hbn
  · rwa [Finset.mem_singleton.mp hk]
  · rcases Finset.mem_insert.mp hk with hk | hk
    · intro h0
      rw [hk, ptr, if_pos le_rfl] at h0
      rw [ptr, if_neg (by omega), if_neg (by simp [h0])] at h
      exact h rfl
    · rwa [Finset.mem_singleton.mp hk]

theorem place_mem_path (bn : Nat) : place bn ∈ path bn := by
  rw [place, path]
  split_ifs <;> simp

theorem mem_span {bn k : Nat} (hk : k ∈ path bn) (h₁ : off ≤ bn * BSIZE) (h₂ : bn * BSIZE < off + n) :
    k ∈ span off n := by
  refine Finset.mem_biUnion.mpr ⟨bn * BSIZE - off, Finset.mem_range.mpr (by omega), ?_⟩
  rwa [show off + (bn * BSIZE - off) = bn * BSIZE by omega, Nat.mul_div_cancel _ (by decide)]

theorem span_filled {disk : Nat → Block} (hc : Covered disk d)
    (hn : off + n ≤ d.size) : ∀ k ∈ span off n, ptr disk d k ≠ 0 := by
  intro k hk
  obtain ⟨i, hi, hk⟩ := Finset.mem_biUnion.mp hk
  refine path_filled (hc _ ?_) k hk
  have hi' := Finset.mem_range.mp hi
  have := Nat.div_mul_le_self (off + i) BSIZE
  omega

theorem Good.missing_span (h : Good s) (hl : Loaded s ip)
    (hn : off + n ≤ (s.icache ip).din.size) : missing s ip (span off n) = ∅ :=
  Finset.filter_eq_empty_iff.mpr (fun k hk => span_filled (h.covered_din hl) hn k hk)

/-- When nothing is missing, the copy of the inode in memory stays as it is. -/
theorem Mapped.din_eq {S : Finset Nat} (h : Mapped s s' ip S) (hs : Active s ip)
    (hS : ∀ k ∈ S, ptr s.disk (s.icache ip).din k ≠ 0) :
    (s'.icache ip).din = (s.icache ip).din := by
  have hm := h.grown.sameMeta
  refine Dinode.ext' hm.type hm.major hm.minor hm.nlink hm.size (fun j => ?_)
  by_cases hj : j ≤ NDIRECT
  · have hk := h.keep j (hS j)
    rwa [ptr, if_pos hj, ptr, if_pos hj] at hk
  · rw [h.grown.active.wf.short j (by omega), hs.wf.short j (by omega)]

/-- The arguments for which `writei` returns -1. -/
def WriteFails (size off n : Nat) : Prop :=
  off > size ∨ (off + n) % 2 ^ 32 < off ∨ off + n > MAXFILE * BSIZE

/-- The file after `n` bytes of `src` are written at `off`. -/
def File.write (f : File) (off n : Nat) (src : Nat → UInt8) : File :=
  { f with
    size := if n = 0 then f.size else max f.size (off + n)
    bytes := Fs.patch f.bytes off n src }

theorem Good.size_le (h : Good s) (hl : Loaded s ip) :
    (s.icache ip).din.size ≤ MAXFILE * BSIZE := by
  by_contra hlt
  refine h.covered_din hl MAXFILE (by omega) ?_
  rw [addrOf, place, if_neg (by decide)]
  exact ptr_of_gt (by omega)

theorem changed_of_mapped {s₁ : FsState} (h : Good s) (hl : Loaded s ip)
    (hn : n = 0 ∨ off + n ≤ (s.icache ip).din.size) (hm : Mapped s s₁ ip (span off n))
    (hv : view s₁.disk (tblOf s₁ ip) = update (view s.disk (tblOf s ip))
      (s.icache ip).inum ((view s.disk (tblOf s ip) (s.icache ip).inum).patch off n src)) :
    Changed s s₁ ip ((files s (s.icache ip).inum).write off n src) := by
  have hS : ∀ k ∈ span off n, ptr s.disk (s.icache ip).din k ≠ 0 := by
    rcases hn with hn | hn
    · subst hn
      simp [span]
    · exact span_filled (h.covered_din hl) hn
  have hdin := hm.din_eq (h.active hl) hS
  have htbl : tblOf s₁ ip = dinodes s₁.sb s₁.disk := by
    rw [tblOf, hm.grown.table, hm.grown.inum, hdin, h.din_eq hl, update_eq_self]
  refine h.changed hl hm.grown.toPending ?_ (Flushed.refl hm.grown.active htbl) ?_
  · intro bn hbn
    rw [hm.grown.sameMeta.size] at hbn
    rw [addrOf, hm.keep _ (hS _), ← addrOf]
    exact h.covered_din hl bn hbn
  · rw [hv, ← h.files_eq hl]
    congr 1
    rw [File.patch, File.write, h.file_eq hl]
    congr 1
    split_ifs with h0
    · rfl
    · simp only
      omega

theorem pending_grow {s₁ : FsState} (h : Good s) (hl : Loaded s ip) (h0 : n ≠ 0)
    (hlt : (s.icache ip).din.size < off + n) (hmax : off + n ≤ MAXFILE * BSIZE)
    (hoff : off ≤ (s.icache ip).din.size) (hm : Mapped s s₁ ip (span off n))
    (hv : view s₁.disk (tblOf s₁ ip) = update (view s.disk (tblOf s ip))
      (s.icache ip).inum ((view s.disk (tblOf s ip) (s.icache ip).inum).patch off n src)) :
    Pending s (s₁.setDin ip ((s₁.icache ip).din.setSize (off + n))) ip ∧
      Covered s₁.disk ((s₁.icache ip).din.setSize (off + n)) ∧
      view s₁.disk (tblOf (s₁.setDin ip ((s₁.icache ip).din.setSize (off + n))) ip) =
        update (files s) (s.icache ip).inum
          ((files s (s.icache ip).inum).write off n src) := by
  have hact := hm.grown.active
  have hwf : ((s₁.icache ip).din.setSize (off + n)).Wf := by
    have hsz : off + n < 2 ^ 32 := by
      simp only [MAXFILE, NDIRECT, NINDIRECT, BSIZE] at hmax
      omega
    exact ⟨hact.wf.type, hact.wf.major, hact.wf.minor, hact.wf.nlink, hsz, hact.wf.addrs,
      hact.wf.short⟩
  obtain ⟨hp, hv'⟩ := pending_setDin (d := (s₁.icache ip).din.setSize (off + n)) hact rfl hwf hact.live
  refine ⟨hm.grown.toPending.trans hp, ?_, ?_⟩
  · intro bn hbn
    change addrOf s₁.disk (s₁.icache ip).din bn ≠ 0
    by_cases hold : bn * BSIZE < (s.icache ip).din.size
    · have hne := h.covered_din hl bn hold
      rw [addrOf, hm.keep _ (fun _ => hne)]
      exact hne
    · exact hm.filled _ (mem_span (place_mem_path bn) (by omega) hbn)
  · have hbytes : byteAt s₁.disk (s₁.icache ip).din =
        Fs.patch (byteAt s.disk (s.icache ip).din) off n src := by
      have hb := congrArg File.bytes (congrFun hv (s₁.icache ip).inum)
      rwa [hact.view_self, hm.grown.inum, update_self, (h.active hl).view_self] at hb
    have hm' := hm.grown.sameMeta
    have hsize : max (s.icache ip).din.size (off + n) = off + n := by omega
    rw [hv', hv, hm.grown.inum, update_idem, ← h.files_eq hl, File.write, h.file_eq hl,
      hbytes, if_neg h0]
    simp only [Dinode.setSize, hm'.type, hm'.major, hm'.minor, hm'.nlink, hsize]

/-- Such a range is refused before a block is looked for. -/
theorem writei_refused (hdev : (s.icache ip).din.type ≠ T_DEV)
    (hbad : WriteFails (s.icache ip).din.size off n) : writei ip src off n s = .ok (-1, s) := by
  have hspec : wp (writei ip src off n) s (fun r s' => r = -1 ∧ s' = s) (fun _ => False) := by
    simp only [writei, wp_bind, wp_getInode, wp_get, if_neg hdev]
    by_cases h₁ : off > (s.icache ip).din.size ∨ (off + n) % 2 ^ 32 < off
    · rw [if_pos h₁]
      exact ⟨rfl, rfl⟩
    · rw [WriteFails, ← or_assoc] at hbad
      rw [if_neg h₁, if_pos (hbad.resolve_left h₁)]
      exact ⟨rfl, rfl⟩
  obtain ⟨r, s', heq, rfl, rfl⟩ := wp_returns hspec (fun _ he => he)
  exact heq

theorem writei_spec (h : Good s) (hl : Loaded s ip) (hdev : (s.icache ip).din.type ≠ T_DEV) :
    wp (writei ip src off n) s
      (fun r s' => WriteFails (s.icache ip).din.size off n ∧ r = -1 ∧ s' = s ∨
        ¬ WriteFails (s.icache ip).din.size off n ∧ r = n ∧
          Changed s s' ip ((files s (s.icache ip).inum).write off n src))
      (fun e => e = outOfBlocks ∧ freeBlocks s < (missing s ip (span off n)).card) := by
  by_cases hok : WriteFails (s.icache ip).din.size off n
  · exact wp_of_ok (writei_refused hdev hok) (Or.inl ⟨hok, rfl, rfl⟩)
  have hargs := hok
  rw [WriteFails, ← or_assoc, not_or] at hargs
  simp only [writei, wp_bind, wp_getInode, wp_get, if_neg hdev, if_neg hargs.1, if_neg hargs.2]
  refine wp_mono (writeiLoop_spec (h.active hl) (by omega) le_rfl) ?_
  rintro _ s₁ ⟨hm, hv⟩
  simp only [hm.grown.sameMeta.size]
  by_cases hgrow : n > 0 ∧ off + n > (s.icache ip).din.size
  · obtain ⟨hp, hc, hv'⟩ := pending_grow h hl (by omega) hgrow.2 (by omega) (by omega) hm hv
    rw [if_pos hgrow]
    simp only [wp_bind, wp_setSize]
    refine wp_mono (iupdate_spec hp.active.vol hp.active.wf hp.active.range) ?_
    intro _ s₂ hf
    refine Or.inr ⟨hok, rfl, h.changed hl hp ?_ hf hv'⟩
    rw [setDin_icache_self]
    exact hc
  · rw [if_neg hgrow]
    exact Or.inr ⟨hok, rfl, changed_of_mapped h hl (by omega) hm hv⟩

theorem writei_returns (h : Good s) (hl : Loaded s ip) (hdev : (s.icache ip).din.type ≠ T_DEV)
    (hok : ¬ WriteFails (s.icache ip).din.size off n)
    (hroom : (missing s ip (span off n)).card ≤ freeBlocks s) :
    ∃ s', writei ip src off n s = .ok ((n : Int), s') ∧
      Changed s s' ip ((files s (s.icache ip).inum).write off n src) := by
  obtain ⟨r, s', heq, ⟨hbad, -⟩ | ⟨-, rfl, hch⟩⟩ := wp_returns (writei_spec h hl hdev)
    (fun e he => absurd he.2 (Nat.not_lt.mpr hroom))
  · exact absurd hbad hok
  · exact ⟨s', heq, hch⟩

/-! ### Reading and writing files -/

/-- What `readi` of `n` bytes at `off` returns of a file. -/
def File.read (f : File) (off n : Nat) : Option (List UInt8) :=
  if off > f.size ∨ (off + n) % 2 ^ 32 < off then none
  else some ((List.range (min n (f.size - off))).map (fun i => f.bytes (off + i)))

theorem readi_file {E : Fault → Prop} (h : Good s) (hl : Loaded s ip)
    (hdev : (s.icache ip).din.type ≠ T_DEV) :
    wp (readi ip off n) s (fun r s' => r = (files s (s.icache ip).inum).read off n ∧ s' = s) E := by
  refine wp_mono (readi_spec (fun bn hbn => h.covered_din hl bn (by omega)) hdev) ?_
  rintro r s₁ ⟨hs, hr⟩
  refine ⟨?_, hs⟩
  rw [hr, File.read, h.file_eq hl]

theorem readi_eq (h : Good s) (hl : Loaded s ip) (hdev : (s.icache ip).din.type ≠ T_DEV)
    (off n : Nat) : readi ip off n s = .ok ((files s (s.icache ip).inum).read off n, s) := by
  obtain ⟨r, s₁, heq, hr, hs⟩ := wp_returns (E := fun _ => False) (readi_file h hl hdev)
    (fun _ he => he)
  rw [heq, hr, hs]

/-- `writei` refuses the arguments that `WriteFails` lists. With room for the blocks that are
missing it takes all others, and the file is a byte array to `writei` and `readi`. -/
theorem writei_byteArray (src : Nat → UInt8) (h : Good s) (hl : Loaded s ip)
    (hdev : (s.icache ip).din.type ≠ T_DEV) :
    (∀ off' n', readi ip off' n' s = .ok ((files s (s.icache ip).inum).read off' n', s)) ∧
    (WriteFails (files s (s.icache ip).inum).size off n → writei ip src off n s = .ok (-1, s)) ∧
    (¬ WriteFails (files s (s.icache ip).inum).size off n →
      (missing s ip (span off n)).card ≤ freeBlocks s →
      ∃ s', writei ip src off n s = .ok ((n : Int), s') ∧
        (∀ off' n', readi ip off' n' s' =
          .ok (((files s (s.icache ip).inum).write off n src).read off' n', s')) ∧
        files s' = update (files s) (s.icache ip).inum
          ((files s (s.icache ip).inum).write off n src) ∧
        ∀ ip' ≠ ip, Loaded s ip' → (s.icache ip').din.type ≠ T_DEV → ∀ off' n',
          readi ip' off' n' s = .ok ((files s (s.icache ip').inum).read off' n', s) ∧
          readi ip' off' n' s' = .ok ((files s (s.icache ip').inum).read off' n', s')) := by
  refine ⟨readi_eq h hl hdev, ?_⟩
  have hsize : (files s (s.icache ip).inum).size = (s.icache ip).din.size := by
    rw [h.file_eq hl]
  rw [hsize]
  refine ⟨writei_refused hdev, ?_⟩
  intro hok hroom
  obtain ⟨s₁, heq, hch⟩ := writei_returns h hl hdev hok hroom
  refine ⟨s₁, heq, ?_, hch.files, ?_⟩
  · have hinum := hch.inum
    have hfile : files s₁ (s₁.icache ip).inum =
        (files s (s.icache ip).inum).write off n src := by
      rw [hch.files, hinum, update_self]
    have hdev₁ : (s₁.icache ip).din.type ≠ T_DEV := by
      have ht := congrArg File.type hfile
      rw [hch.good.file_eq (hch.loaded hl), h.file_eq hl] at ht
      rw [show (s₁.icache ip).din.type = (s.icache ip).din.type from ht]
      exact hdev
    intro off' n'
    rw [readi_eq hch.good (hch.loaded hl) hdev₁, hfile]
  · intro ip' hne hl' hdev' off' n'
    refine ⟨readi_eq h hl' hdev' off' n', ?_⟩
    have hsame := hch.others ip' hne
    have hdisj : (s.icache ip').inum ≠ (s.icache ip).inum := fun hc =>
      hne (h.unique ip' hl'.lt ip hl.lt hl'.ref hl.ref hc)
    have hl₁ : Loaded s₁ ip' := ⟨hl'.lt, by rw [hsame]; exact hl'.ref, by rw [hsame]; exact hl'.valid⟩
    rw [readi_eq hch.good hl₁ (by rwa [hsame]), hsame, hch.files, update_of_ne hdisj]

/-! ### A small file system -/

def tinySb : Superblock := ⟨5, 1, 2, 0, 2, 2, 3⟩

def tinyFile : Dinode := { Dinode.zero with type := T_FILE, nlink := 1 }

/-- Inode block 2, free map in block 3, data block 4 free. -/
def tinyBase : Nat → Block :=
  update (update (fun _ => Bytes.zero) 1
    (Bytes.zero.write 0 (sbBytes tinySb) 28)) 3 (bitsBelow 4)

/-- Inode 1 is an empty file. -/
def tinyDisk : Nat → Block :=
  update tinyBase (IBLOCK 1 tinySb)
    (writeDinode (tinyBase (IBLOCK 1 tinySb)) (1 % IPB) tinyFile)

/-- The file is cached in entry 0. -/
def tiny : FsState where
  sb := tinySb
  disk := tinyDisk
  icache := update (fun _ => ⟨0, 0, false, false, Dinode.zero⟩) 0
    ⟨1, 1, true, true, tinyFile⟩
  logged := []
  devread := fun _ => none
  devwrite := fun _ => none

theorem tiny_dinodes : dinodes tiny.sb tiny.disk = update (fun _ => Dinode.zero) 1 tinyFile := by
  have hwf : tinyFile.Wf := by constructor <;> simp [tinyFile, Dinode.zero, T_FILE]
  have hbase : dinodes tinySb tinyBase = fun _ => Dinode.zero := by
    funext i
    rw [dinodes]
    split_ifs with hi
    · have h1 : i = 1 := by
        have : i < 2 := hi.2
        omega
      subst h1
      exact readDinode_zero 1
    · rfl
  have hrange : 0 < 1 ∧ 1 < tinySb.ninodes := by decide
  rw [← hbase]
  exact dinodes_writeDinode hwf hrange

theorem tiny_bitUsed : ∀ {b}, b < 5 → bitUsed tiny.sb tiny.disk b = decide (b < 4) := by
  decide +kernel

theorem tiny_held (x : Nat × Nat) : held tiny.disk (dinodes tiny.sb tiny.disk) x = 0 := by
  obtain ⟨i, k⟩ := x
  rw [tiny_dinodes]
  by_cases hi : i = 1
  · subst hi
    rw [held_live (by rw [update_self]; decide), update_self, ptr]
    simp [tinyFile, Dinode.zero]
  · exact held_free (by rw [update_of_ne hi]; rfl)

theorem tiny_ref {k : Nat} (h : 0 < (tiny.icache k).ref) : k = 0 := by
  by_contra h0
  simp [tiny, h0] at h

theorem tiny_good : Good tiny where
  vol := by
    refine ⟨⟨by decide, by decide, by decide, by decide⟩, by decide +kernel, by decide, ?_, ?_, ?_,
      ?_⟩
    · intro x hx
      exact absurd (tiny_held x) hx
    · intro x y hx
      exact absurd (tiny_held x) hx
    · intro b hb hlo
      rw [tiny_bitUsed hb]
      exact decide_eq_true hlo
    · intro b hlo hb
      have h4 : dataStart tiny.sb = 4 := rfl
      rw [tiny_bitUsed hb, decide_eq_false (by omega)]
      constructor
      · intro hc
        cases hc
      · rintro ⟨x, hx⟩
        rw [tiny_held] at hx
        omega
  covered := by
    intro i hi bn hbn
    rw [tiny_dinodes] at hi hbn
    by_cases h1 : i = 1
    · subst h1
      rw [update_self] at hbn
      exact absurd hbn (Nat.not_lt_zero _)
    · rw [update_of_ne h1] at hi
      exact absurd rfl hi
  cache := by
    intro k _ hr _
    have h0 := tiny_ref hr
    subst h0
    rw [tiny_dinodes]
    exact ⟨rfl, by decide⟩
  unique := by
    intro k _ l _ hk hl _
    rw [tiny_ref hk, tiny_ref hl]

theorem tiny_loaded : Loaded tiny 0 := ⟨by decide, by decide, by decide⟩

theorem tiny_room : (missing tiny 0 (span 0 3)).card ≤ freeBlocks tiny := by decide +kernel

/-- Three bytes written to the empty file are read back. -/
theorem tiny_writei_readi : ∃ s', writei 0 (fun _ => 7) 0 3 tiny = .ok (3, s') ∧
    readi 0 0 3 s' = .ok (some [7, 7, 7], s') := by
  obtain ⟨-, -, hok⟩ := @writei_byteArray tiny 0 0 3 (fun _ => 7) tiny_good tiny_loaded
    (by decide)
  rw [tiny_good.file_eq tiny_loaded] at hok
  obtain ⟨s', hw, hread, -⟩ := hok (by unfold WriteFails; decide) tiny_room
  refine ⟨s', hw, ?_⟩
  rw [hread 0 3]
  rfl

end Xv6.Fs
