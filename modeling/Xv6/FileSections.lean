import Xv6.FileAppends
import Xv6.FsLogged

/-!
# The transactions of a write

`filewrite` writes a few blocks at a time, each piece in a `begin_op` .. `end_op` section of its own.
Every section fits into what `begin_op` reserves for it, and all of them together do what one call
of `writei` does.
-/

namespace Xv6.Fs

open Function

open Prog

/-- `begin_op`, after which the operation has logged nothing. -/
def beginOp : FsM Unit := modify (fun s => { s with logged := [] })

/-- `end_op`, with the blocks that the operation has logged. -/
def endOp : FsM (List Nat) := do
  let s ← get
  pure s.logged

/-- The body of the loop of `filewrite`: what `writei` returned, the file and the logged blocks. -/
def writeSection (f : Ftable.File) (src : Nat → UInt8) (n1 : Nat) :
    FsM (Int × Ftable.File × List Nat) := do
  beginOp
  ilock f.ip
  let r ← writei f.ip src f.off n1
  let off := if r > 0 then (f.off + r.toNat) % 2 ^ 32 else f.off
  iunlock f.ip
  let blocks ← endOp
  pure (r, { f with off := off }, blocks)

/-- What `filewrite` leaves and returns. -/
structure Written where
  file : Ftable.File
  ret : Int
  /-- The blocks logged in each section. -/
  sections : List (List Nat)

/-- The loop of `filewrite` from `i` on. -/
def filewriteLoop (addr : Nat → UInt8) (n : Nat) : Nat → Nat → Ftable.File → FsM Written
  | 0, i, f => pure ⟨f, if i = n then n else -1, []⟩
  | fuel + 1, i, f =>
    if i < n then do
      let n1 := min (n - i) chunkMax
      let (r, f, blocks) ← writeSection f (fun j => addr (i + j)) n1
      if r < 0 then pure ⟨f, if i = n then n else -1, [blocks]⟩
      else if r ≠ n1 then panicWith "short filewrite"
      else do
        let w ← filewriteLoop addr n fuel (i + r.toNat) f
        pure { w with sections := blocks :: w.sections }
    else pure ⟨f, if i = n then n else -1, []⟩

/-- `filewrite` for a file that is an inode. -/
def filewriteInode (f : Ftable.File) (addr : Nat → UInt8) (n : Nat) : FsM Written :=
  filewriteLoop addr n n 0 f

/-- No process has the inode of `f` locked. It is a file, and the offset is not past its end. -/
structure Writable (s : FsState) (f : Ftable.File) : Prop where
  good : Good s
  loaded : Loaded s f.ip
  unlocked : (s.icache f.ip).locked = false
  type : (files s (s.icache f.ip).inum).type = T_FILE
  off : f.off ≤ (files s (s.icache f.ip).inum).size

variable {s s' : FsState} {f f' : Ftable.File} {addr src : Nat → UInt8} {ip off m n i : Nat}

/-! ### One section -/

/-- The state in which a section calls `writei`. -/
def FsState.opened (s : FsState) (ip : Nat) : FsState := { s with logged := [] }.setLock ip true

theorem opened_icache : (s.opened ip).icache ip = { s.icache ip with locked := true } :=
  setLock_icache _ ip true

theorem opened_setLock (h : (s.icache ip).locked = false) :
    (s.opened ip).setLock ip false = { s with logged := [] } := by
  have hself : { s.icache ip with locked := false } = s.icache ip := by
    rw [← h]
  rw [FsState.setLock, opened_icache, FsState.opened, FsState.setLock, FsState.putInode,
    FsState.putInode, update_idem, hself, update_eq_self]

theorem missing_opened (S : Finset Nat) : missing (s.opened ip) ip S = missing s ip S := by
  simp only [missing, opened_icache]
  rfl

theorem Good.opened (h : Good s) (hl : Loaded s ip) : Good (s.opened ip) := by
  have hclear : Good { s with logged := [] } := ⟨h.vol, h.covered, h.cache, h.unique⟩
  exact hclear.setLock ⟨hl.lt, hl.ref, hl.valid⟩ true

theorem Loaded.opened (hl : Loaded s ip) : Loaded (s.opened ip) ip := by
  have hclear : Loaded { s with logged := [] } ip := ⟨hl.lt, hl.ref, hl.valid⟩
  exact hclear.setLock true

/-- Writing at the offset fails only beyond the largest size of a file. -/
theorem Writable.fails_iff (h : Writable s f) :
    WriteFails (files s (s.icache f.ip).inum).size f.off n ↔ f.off + n > MAXFILE * BSIZE := by
  have hoff := h.off
  simp only [WriteFails, MAXFILE, NDIRECT, NINDIRECT, BSIZE]
  omega

/-- What a section does: nothing, or what `writei` does to the file and its offset. -/
structure Section (s s' : FsState) (f : Ftable.File) (src : Nat → UInt8) (n1 : Nat)
    (r : Int) (f' : Ftable.File) (blocks : List Nat) : Prop where
  writable : Writable s' f'
  inum : (s'.icache f.ip).inum = (s.icache f.ip).inum
  fits : n1 ≤ 3 * BSIZE → blocks.Nodup ∧ blocks.length ≤ MAXOPBLOCKS
  bad : f.off + n1 > MAXFILE * BSIZE → r = -1
  ok : f.off + n1 ≤ MAXFILE * BSIZE → r = n1 ∧ f' = { f with off := f.off + n1 } ∧
    files s' = update (files s) (s.icache f.ip).inum
      ((files s (s.icache f.ip).inum).write f.off n1 src) ∧
    (n1 ≤ 3 * BSIZE → Spent s s' f.ip (span f.off n1))

theorem Writable.writei (h : Writable s f) (src : Nat → UInt8) (n1 : Nat) :
    wp (writei f.ip src f.off n1) (s.opened f.ip)
      (fun r s' => (f.off + n1 > MAXFILE * BSIZE ∧ r = -1 ∧ s' = s.opened f.ip ∨
          f.off + n1 ≤ MAXFILE * BSIZE ∧ r = n1 ∧ Changed (s.opened f.ip) s' f.ip
            ((files s (s.icache f.ip).inum).write f.off n1 src)) ∧
        (n1 ≤ 3 * BSIZE → s'.logged.Nodup ∧ s'.logged.length ≤ MAXOPBLOCKS ∧
          (f.off + n1 ≤ MAXFILE * BSIZE → Spent (s.opened f.ip) s' f.ip (span f.off n1))))
      (fun e => e = outOfBlocks ∧ f.off + n1 ≤ MAXFILE * BSIZE ∧
        freeBlocks s < (missing s f.ip (span f.off n1)).card) := by
  have hgood := h.good.opened h.loaded
  have hl := h.loaded.opened
  have hfile : files s (s.icache f.ip).inum = _ := h.good.file_eq h.loaded
  have htype := h.type
  have hfails := h.fails_iff (n := n1)
  rw [hfile] at htype hfails
  have hdev : ((s.opened f.ip).icache f.ip).din.type ≠ T_DEV := by
    rw [opened_icache]
    change (s.icache f.ip).din.type ≠ T_DEV
    rw [show (s.icache f.ip).din.type = T_FILE from htype]
    decide
  have hsize : ((s.opened f.ip).icache f.ip).din.size = (s.icache f.ip).din.size := by
    rw [opened_icache]
  have hfiles : files (s.opened f.ip) ((s.opened f.ip).icache f.ip).inum =
      files s (s.icache f.ip).inum := by
    rw [opened_icache]
    rfl
  by_cases hmax : f.off + n1 > MAXFILE * BSIZE
  · refine wp_of_ok (writei_refused hdev ?_) ⟨Or.inl ⟨hmax, rfl, rfl⟩, fun _ =>
      ⟨List.nodup_nil, Nat.zero_le _, fun hle => absurd hmax (Nat.not_lt.mpr hle)⟩⟩
    rw [hsize]
    exact hfails.mpr hmax
  have hspec : wp (Fs.writei f.ip src f.off n1) (s.opened f.ip) _ _ := writei_spec hgood hl hdev
  rw [hsize, hfiles, missing_opened] at hspec
  have hlogs : wp (Fs.writei f.ip src f.off n1) (s.opened f.ip) (fun _ s' => n1 ≤ 3 * BSIZE →
      s'.logged.Nodup ∧ s'.logged.length ≤ MAXOPBLOCKS ∧
        (f.off + n1 ≤ MAXFILE * BSIZE → Spent (s.opened f.ip) s' f.ip (span f.off n1)))
      (fun _ => True) := by
    by_cases hn : n1 ≤ 3 * BSIZE
    · refine wp_mono (writei_logs hgood hl hdev rfl hn) ?_
      rintro r s' ⟨hnodup, hlen, hspent⟩ -
      rw [hsize, hfails, Nat.not_lt] at hspent
      exact ⟨hnodup, hlen, hspent⟩
    · exact wp_conseq hspec (fun _ _ _ hle => absurd hle hn) (fun _ _ => trivial)
  refine wp_conseq (wp_and hspec hlogs) ?_ (fun e he => ⟨he.1.1, Nat.not_lt.mp hmax, he.1.2⟩)
  rintro r s' ⟨hpost, hlog⟩
  rw [hfails, Nat.not_lt] at hpost
  exact ⟨hpost, hlog⟩

theorem Spent.close {S : Finset Nat} (h : Spent (s.opened ip) s' ip S) :
    Spent s (s'.setLock ip false) ip S := by
  have hfree := h.free
  have hrest := h.rest
  simp only [missing_opened] at hfree hrest
  exact ⟨hfree, fun T => by rw [missing_setLock, hrest]⟩

theorem Writable.changed (h : Writable s f) {n1 : Nat} (hch : Changed (s.opened f.ip) s' f.ip
    ((files s (s.icache f.ip).inum).write f.off n1 src)) :
    Writable (s'.setLock f.ip false) { f with off := f.off + n1 } ∧
      (s'.icache f.ip).inum = (s.icache f.ip).inum ∧
      files s' = update (files s) (s.icache f.ip).inum
        ((files s (s.icache f.ip).inum).write f.off n1 src) := by
  have hinum : (s'.icache f.ip).inum = (s.icache f.ip).inum := by
    rw [hch.inum, opened_icache]
  have hfiles : files s' = update (files s) (s.icache f.ip).inum
      ((files s (s.icache f.ip).inum).write f.off n1 src) := by
    rw [hch.files, opened_icache]
    rfl
  have hl := hch.loaded h.loaded.opened
  have hnew : files (s'.setLock f.ip false) ((s'.setLock f.ip false).icache f.ip).inum =
      (files s (s.icache f.ip).inum).write f.off n1 src := by
    rw [setLock_icache]
    change files s' (s'.icache f.ip).inum = _
    rw [hinum, hfiles, update_self]
  refine ⟨⟨hch.good.setLock hl false, hl.setLock false, by rw [setLock_icache], ?_, ?_⟩, hinum,
    hfiles⟩
  · rw [hnew]
    exact h.type
  · rw [hnew]
    have hoff := h.off
    change f.off + n1 ≤ if n1 = 0 then (files s (s.icache f.ip).inum).size
      else max (files s (s.icache f.ip).inum).size (f.off + n1)
    split_ifs
    · omega
    · exact le_max_right _ _

theorem Writable.writeSection (h : Writable s f) (src : Nat → UInt8) (n1 : Nat) :
    wp (writeSection f src n1) s
      (fun r s' => Section s s' f src n1 r.1 r.2.1 r.2.2)
      (fun e => e = outOfBlocks ∧ f.off + n1 ≤ MAXFILE * BSIZE ∧
        freeBlocks s < (missing s f.ip (span f.off n1)).card) := by
  have hl : Loaded { s with logged := [] } f.ip := ⟨h.loaded.lt, h.loaded.ref, h.loaded.valid⟩
  simp only [Fs.writeSection, beginOp, endOp, wp_bind, wp_modify, wp_get, wp_pure]
  refine wp_conseq (ilock_loaded hl) ?_ ?_
  · rintro _ _ ⟨-, rfl⟩
    refine wp_mono (h.writei src n1) ?_
    rintro r s₁ ⟨hpost, hlog⟩
    rcases hpost with ⟨hbad, rfl, rfl⟩ | ⟨hok, rfl, hch⟩
    · refine wp_mono (iunlock_loaded h.loaded.opened (by rw [opened_icache])) ?_
      rintro _ _ rfl
      rw [opened_setLock h.unlocked]
      refine ⟨⟨⟨h.good.vol, h.good.covered, h.good.cache, h.good.unique⟩, hl, h.unlocked, h.type,
        h.off⟩, rfl, fun hn => ⟨(hlog hn).1, (hlog hn).2.1⟩, fun _ => rfl, fun hle => ?_⟩
      omega
    · obtain ⟨hw, hinum, hfiles⟩ := h.changed hch
      have hlock : (s₁.icache f.ip).locked = true := by rw [hch.inode, opened_icache]
      refine wp_mono (iunlock_loaded (hch.loaded h.loaded.opened) hlock) ?_
      rintro _ _ rfl
      have hoff : (if (n1 : Int) > 0 then (f.off + (n1 : Int).toNat) % 2 ^ 32 else f.off) =
          f.off + n1 := by
        simp only [MAXFILE, NDIRECT, NINDIRECT, BSIZE] at hok
        split_ifs <;> omega
      rw [hoff]
      refine ⟨hw, by rw [setLock_icache, hinum], fun hn => ⟨(hlog hn).1, (hlog hn).2.1⟩,
        fun hbad => ?_, fun _ => ⟨rfl, rfl, hfiles, fun hn => ?_⟩⟩
      · omega
      · exact ((hlog hn).2.2 hok).close
  · rintro e ⟨-, hlocked⟩
    exact absurd (h.unlocked.symm.trans hlocked) Bool.false_ne_true

/-! ### All sections -/

theorem span_add (h : m ≤ n) : span off n = span off m ∪ span (off + m) (n - m) := by
  ext k
  simp only [span, Finset.mem_biUnion, Finset.mem_range, Finset.mem_union]
  constructor
  · rintro ⟨j, hj, hk⟩
    by_cases hjm : j < m
    · exact Or.inl ⟨j, hjm, hk⟩
    · refine Or.inr ⟨j - m, by omega, ?_⟩
      rwa [show off + m + (j - m) = off + j by omega]
  · rintro (⟨j, hj, hk⟩ | ⟨j, hj, hk⟩)
    · exact ⟨j, by omega, hk⟩
    · exact ⟨m + j, by omega, by rwa [← Nat.add_assoc]⟩

theorem File.write_write (g : File) (src : Nat → UInt8) (h0 : 0 < m) (h : m ≤ n) :
    (g.write off m src).write (off + m) (n - m) (fun j => src (m + j)) = g.write off n src := by
  have hsrc : (fun j => src (m + j)) = fun j => src (j + m) := by
    funext j
    rw [Nat.add_comm]
  simp only [File.write]
  rw [hsrc, Fs.patch_patch _ _ h]
  congr 1
  split_ifs <;> omega

/-- If the sections after one run out of blocks, so does the whole in one piece. -/
theorem Spent.outOfBlocks (h : Spent s s' ip (span off m)) (hle : m ≤ n)
    (hlt : freeBlocks s' < (missing s' ip (span (off + m) (n - m))).card) :
    freeBlocks s < (missing s ip (span off n)).card := by
  have hfree := h.free
  rw [span_add hle, h.rest]
  omega

/-- The bytes that a write of `n` bytes at `off` can store before the file has its largest size. -/
def within (off n : Nat) : Nat := min n (MAXFILE * BSIZE - off)

/-- What is left after the sections for the bytes `src 0 .. src (m - 1)`. -/
structure Sections (s s' : FsState) (f : Ftable.File) (src : Nat → UInt8) (m : Nat) (ret : Int)
    (w : Written) : Prop where
  fits : ∀ blocks ∈ w.sections, blocks.Nodup ∧ blocks.length ≤ MAXOPBLOCKS
  ok : f.off + m ≤ MAXFILE * BSIZE → w.ret = ret ∧ w.file = { f with off := f.off + m } ∧
    files s' = update (files s) (s.icache f.ip).inum
      ((files s (s.icache f.ip).inum).write f.off m src)

theorem sections_nil (s : FsState) (f : Ftable.File) (src : Nat → UInt8) (h : m = 0) (ret : Int) :
    Sections s s f src m ret ⟨f, ret, []⟩ := by
  subst h
  refine ⟨fun _ hb => absurd hb List.not_mem_nil, fun _ => ⟨rfl, rfl, ?_⟩⟩
  have hwrite : (files s (s.icache f.ip).inum).write f.off 0 src = files s (s.icache f.ip).inum :=
    File.patch_zero _ src
  rw [hwrite, update_eq_self]

theorem Section.cons {ret r : Int} {n1 : Nat} {blocks : List Nat} {s'' : FsState} {w : Written}
    (h : Section s s' f src n1 r f' blocks) (h0 : 0 < n1) (hn1 : n1 ≤ 3 * BSIZE) (hle : n1 ≤ m)
    (hmax : f.off + n1 ≤ MAXFILE * BSIZE)
    (hw : Sections s' s'' f' (fun j => src (n1 + j)) (m - n1) ret w) :
    Sections s s'' f src m ret { w with sections := blocks :: w.sections } := by
  obtain ⟨-, rfl, hfiles, -⟩ := h.ok hmax
  refine ⟨fun b hb => ?_, fun hall => ?_⟩
  · rcases List.mem_cons.mp hb with rfl | hb
    · exact h.fits hn1
    · exact hw.fits b hb
  · obtain ⟨hret, hfile, hfiles'⟩ := hw.ok (by simp only; omega)
    refine ⟨hret, ?_, ?_⟩
    · rw [hfile]
      simp only [Nat.add_assoc, Nat.add_sub_cancel' hle]
    · rw [hfiles', h.inum, hfiles, update_self, update_idem,
        File.write_write _ _ h0 hle]

theorem Writable.filewriteLoop {fuel : Nat} (h : Writable s f) (hi : i ≤ n) (hfuel : n - i ≤ fuel) :
    wp (filewriteLoop addr n fuel i f) s
      (fun w s' => Sections s s' f (fun j => addr (i + j)) (n - i) n w)
      (fun e => e = outOfBlocks ∧
        freeBlocks s < (missing s f.ip (span f.off (within f.off (n - i)))).card) := by
  induction fuel generalizing s f i with
  | zero =>
    have hin : i = n := by omega
    rw [Fs.filewriteLoop, wp_pure, if_pos hin]
    exact sections_nil s f _ (by omega) n
  | succ fuel ih =>
    rw [Fs.filewriteLoop]
    by_cases hlt : i < n
    · rw [if_pos hlt, wp_bind]
      generalize hn1 : min (n - i) chunkMax = n1
      have hchunk : n1 ≤ 3 * BSIZE := by
        rw [← hn1]
        exact Nat.min_le_right _ _
      have hle : n1 ≤ n - i := by
        rw [← hn1]
        exact Nat.min_le_left _ _
      have h0 : 0 < n1 := by
        rw [← hn1]
        exact Nat.lt_min.mpr ⟨by omega, by decide⟩
      have hwithin : f.off + n1 ≤ MAXFILE * BSIZE → n1 ≤ within f.off (n - i) := by
        intro hmax
        exact Nat.le_min.mpr ⟨hle, by omega⟩
      refine wp_conseq (h.writeSection _ n1) ?_ ?_
      · rintro ⟨r, f', blocks⟩ s₁ hsec
        simp only
        by_cases hmax : f.off + n1 ≤ MAXFILE * BSIZE
        · obtain ⟨rfl, hf', -, hspent⟩ := hsec.ok hmax
          have hstep : i + (n1 : Int).toNat = i + n1 := rfl
          have hsrc : (fun j => addr (i + n1 + j)) = fun j => addr (i + (n1 + j)) := by
            funext j
            rw [Nat.add_assoc]
          have hrest : n - (i + n1) = n - i - n1 := Nat.sub_add_eq n i n1
          rw [if_neg (by omega), if_neg (by simp), wp_bind, hstep]
          have hih := ih hsec.writable (i := i + n1) (by omega) (by omega)
          rw [hsrc, hrest] at hih
          refine wp_conseq hih (fun w s₂ hw => ?_) ?_
          · exact hsec.cons h0 hchunk hle hmax hw
          · rintro e ⟨he, hfree⟩
            refine ⟨he, (hspent hchunk).outOfBlocks (hwithin hmax) ?_⟩
            rwa [hf', within, Nat.sub_add_eq, Nat.sub_min_sub_right] at hfree
        · have hr : r = -1 := hsec.bad (Nat.not_le.mp hmax)
          rw [hr, if_pos (by decide)]
          refine ⟨fun b hb => ?_, fun hok => absurd hok (by omega)⟩
          rw [List.mem_singleton.mp hb]
          exact hsec.fits hchunk
      · rintro e ⟨he, hmax, hfree⟩
        refine ⟨he, lt_of_lt_of_le hfree (Finset.card_le_card ?_)⟩
        rw [span_add (hwithin hmax)]
        exact Finset.filter_subset_filter _ Finset.subset_union_left
    · have hin : i = n := by omega
      rw [if_neg hlt, wp_pure, if_pos hin]
      exact sections_nil s f _ (by omega) n

/-- Every section of `filewrite` logs at most `MAXOPBLOCKS` blocks. Below the largest size of a
file, the sections together change the file and its offset as one section with the whole length
does. -/
theorem filewrite_sections (h : Writable s f) (addr : Nat → UInt8)
    (hroom : (missing s f.ip (span f.off (within f.off n))).card ≤ freeBlocks s) :
    ∃ w s', filewriteInode f addr n s = .ok (w, s') ∧
      (∀ blocks ∈ w.sections, blocks.Nodup ∧ blocks.length ≤ MAXOPBLOCKS) ∧
      (f.off + n ≤ MAXFILE * BSIZE → w.ret = n ∧ w.file.off = f.off + n ∧
        ∃ blocks s₁, writeSection f addr n s = .ok ((n, w.file, blocks), s₁) ∧
          files s' = files s₁ ∧
          files s₁ (s.icache f.ip).inum =
            (files s (s.icache f.ip).inum).write f.off n addr) := by
  have hloop : wp (filewriteInode f addr n) s (fun w s' => Sections s s' f addr n n w)
      (fun e => e = outOfBlocks ∧
        freeBlocks s < (missing s f.ip (span f.off (within f.off n))).card) := by
    have hspec : wp (Fs.filewriteLoop addr n n 0 f) s _ _ :=
      h.filewriteLoop (Nat.zero_le n) le_rfl
    simp only [Nat.zero_add, Nat.sub_zero] at hspec
    exact hspec
  obtain ⟨w, s', heq, hw⟩ := wp_returns hloop (fun e he => absurd he.2 (Nat.not_lt.mpr hroom))
  refine ⟨w, s', heq, hw.fits, fun hmax => ?_⟩
  obtain ⟨hret, hfile, hfiles⟩ := hw.ok hmax
  have hall : within f.off n = n := Nat.min_eq_left (by omega)
  rw [hall] at hroom
  obtain ⟨⟨r, f', blocks⟩, s₁, heq₁, hone⟩ := wp_returns (h.writeSection addr n)
    (fun e he => absurd he.2.2 (Nat.not_lt.mpr hroom))
  obtain ⟨hr, hf', hfiles₁, -⟩ := hone.ok hmax
  simp only at hr hf'
  refine ⟨hret, by rw [hfile], blocks, s₁, ?_, ?_, ?_⟩
  · rw [heq₁, hr, hf', hfile]
  · rw [hfiles, hfiles₁]
  · rw [hfiles₁, update_self]

/-- Three bytes written to an empty file. -/
theorem tiny_sections : ∃ w s', filewriteInode ⟨.inode, 1, true, true, 0, 0, 0⟩ (fun _ => 7) 3
      (tiny.setLock 0 false) = .ok (w, s') ∧ w.ret = 3 ∧ w.file.off = 3 ∧
      ∀ blocks ∈ w.sections, blocks.Nodup ∧ blocks.length ≤ MAXOPBLOCKS := by
  have hfile : files tiny (tiny.icache 0).inum = _ := tiny_good.file_eq tiny_loaded
  have hw : Writable (tiny.setLock 0 false) ⟨.inode, 1, true, true, 0, 0, 0⟩ :=
    ⟨tiny_good.setLock tiny_loaded false, tiny_loaded.setLock false, rfl,
      congrArg File.type hfile, Nat.zero_le _⟩
  have hroom : (missing (tiny.setLock 0 false) 0 (span 0 (within 0 3))).card ≤
      freeBlocks (tiny.setLock 0 false) := by decide +kernel
  obtain ⟨w, s', heq, hfits, hok⟩ := filewrite_sections hw (fun _ => 7) hroom
  obtain ⟨hret, hoff, -⟩ := hok (by decide)
  exact ⟨w, s', heq, hret, hoff, hfits⟩

end Xv6.Fs
