import Xv6.LogCommit

/-!
# Crash atomicity of the log

A disk is `Clean` when its header records no transaction, and `Committed` when the header and the
log hold the whole transaction. Every crash point of `commit` leaves one of the two, every crash
point of `recover_from_log` leaves one of the two again, and a completed recovery is clean.
-/

namespace Xv6.Log

open Function

/-! ### The header block -/

theorem word_putBlocks_below {i off k : Nat} (bs : List Nat) (data : Block)
    (h : off + k ≤ 4 + 4 * i) : (putBlocks i bs data).word off k = data.word off k := by
  induction bs generalizing i data with
  | nil => rfl
  | cons b bs ih =>
    rw [putBlocks, ih _ (by omega), Bytes.word_setWord_out _ _ (Or.inl h)]

theorem word_putBlocks {i j : Nat} (bs : List Nat) (data : Block) (hj : j < bs.length)
    (hfit : 4 + 4 * (i + bs.length) ≤ BSIZE) :
    (putBlocks i bs data).word (4 + 4 * (i + j)) 4 = bs[j] % 256 ^ 4 := by
  induction bs generalizing i j data with
  | nil => simp at hj
  | cons b bs ih =>
    simp only [List.length_cons] at hfit hj
    rw [putBlocks]
    cases j with
    | zero =>
      rw [word_putBlocks_below _ _ (by omega), Nat.add_zero,
        Bytes.word_setWord_same _ _ (by omega)]
      simp
    | succ j =>
      have h := ih (i := i + 1) (j := j) (data.setWord (4 + 4 * i) 4 b) (by omega) (by omega)
      rw [show i + (j + 1) = i + 1 + j by omega, h]
      simp

theorem headN_of_word {data : Block} {n : Nat} (h : data.word 0 4 = n) (hn : n < 2 ^ 31) :
    headN data = n := by
  unfold headN
  rw [h, wrap32_of_range (by omega) (by exact_mod_cast hn)]
  simp

theorem word_header (block : List Nat) (data : Block) (h : block.length ≤ LOGSIZE) :
    (putBlocks 0 block (data.setWord 0 4 block.length)).word 0 4 = block.length := by
  rw [word_putBlocks_below _ _ (by omega), Bytes.word_setWord_same _ _ (by decide)]
  exact Nat.mod_eq_of_lt (by simp only [LOGSIZE, MAXOPBLOCKS] at h; omega)

variable {s : Dev} {start size : Nat}

/-- `read_head` reads back the transaction that `write_head` wrote. -/
theorem readHead_header {start : Nat} {lh : LogHeader} {data : Block}
    (h : s.buf start = putBlocks 0 lh.block (data.setWord 0 4 lh.block.length)) :
    readHead start s = lh.block := by
  have hfit : lh.block.length ≤ 30 := lh.fits
  unfold readHead
  rw [h, headN_of_word (word_header _ _ lh.fits) (by omega)]
  apply List.ext_getElem
  · simp
  · intro i h₁ h₂
    have hw := word_putBlocks (i := 0) lh.block (data.setWord 0 4 lh.block.length) h₂
      (by simp only [BSIZE]; omega)
    rw [Nat.zero_add] at hw
    rw [List.getElem_map, List.getElem_range, hw]
    exact Nat.mod_eq_of_lt (lh.isInt _ (List.getElem_mem h₂))

theorem writeHead_nil_trace (start : Nat) (s : Dev) : ∃ head : Block, head.word 0 4 = 0 ∧
    (writeHead start [] s).trace = s.trace ++ [(start, head)] :=
  ⟨_, word_header [] _ (Nat.zero_le _), rfl⟩

theorem readHead_nil {start : Nat} (h : (s.buf start).word 0 4 = 0) : readHead start s = [] := by
  simp [readHead, headN_of_word h (by decide)]

/-! ### The disk under the trace -/

/-- The disk of `s` is `d` with the writes of the trace performed. -/
def Dev.Traces (d : Nat → Block) (s : Dev) : Prop := s.disk = applyWrites d s.trace

theorem bwrite_traces {d : Nat → Block} (h : s.Traces d) (b : Nat) (data : Block) :
    (bwrite b data s).Traces d := by
  change update s.disk b data = applyWrites d (s.trace ++ [(b, data)])
  rw [applyWrites_append, ← show s.disk = applyWrites d s.trace from h]
  rfl

theorem installFrom_traces {start tail : Nat} {bs : List Nat} {d : Nat → Block}
    (h : s.Traces d) : (installFrom start tail bs s).Traces d := by
  induction bs generalizing tail s with
  | nil => exact h
  | cons b bs ih => exact ih (bwrite_traces h _ _)

theorem recoverFromLog_traces (start : Nat) (d : Nat → Block) :
    (recoverFromLog start (reboot d)).Traces d := by
  have h : (reboot d).Traces d := rfl
  exact bwrite_traces (installFrom_traces h) _ _

/-! ### Crashes -/

/-- The disk after a crash that let the first `k` writes of a recovery through. -/
def recoverCut (start : Nat) (d : Nat → Block) (k : Nat) : Nat → Block :=
  applyWrites d ((recoverFromLog start (reboot d)).trace.take k)

/-- Recovery from disk `d` ends with disk `d'`, after any number of crashes on the way. -/
inductive Recovers (start : Nat) : (Nat → Block) → (Nat → Block) → Prop
  | complete (d : Nat → Block) : Recovers start d (recoverFromLog start (reboot d)).disk
  | crash {d d' : Nat → Block} (k : Nat) (h : Recovers start (recoverCut start d k) d') :
      Recovers start d d'

def OutsideLog (start size b : Nat) : Prop := b < start ∨ start + size ≤ b

/-- No transaction is recorded and outside the log the disk holds `home`. -/
structure Clean (start size : Nat) (home d : Nat → Block) : Prop where
  head : (d start).word 0 4 = 0
  same : ∀ b, OutsideLog start size b → d b = home b

/-- The transaction `lh` with contents `data` is recorded; home blocks may hold anything. -/
structure Committed (start size : Nat) (lh : LogHeader) (data home d : Nat → Block) : Prop where
  head : readHead start (reboot d) = lh.block
  log : ∀ i (h : i < lh.block.length), d (start + i + 1) = data lh.block[i]
  same : ∀ b, OutsideLog start size b → b ∉ lh.block → d b = home b

def installed (lh : LogHeader) (data home : Nat → Block) (b : Nat) : Block :=
  if b ∈ lh.block then data b else home b

theorem recoverCut_clean {home d : Nat → Block} (hsize : 0 < size)
    (h : Clean start size home d) (k : Nat) : Clean start size home (recoverCut start d k) := by
  have htrace : (recoverFromLog start (reboot d)).trace = [(start, (d start).setWord 0 4 0)] := by
    rw [recoverFromLog, readHead_nil h.head]
    rfl
  unfold recoverCut
  rw [htrace]
  cases k with
  | zero => exact h
  | succ k =>
    simp only [List.take_succ_cons, List.take_nil, applyWrites_cons, applyWrites_nil]
    refine ⟨?_, ?_⟩
    · rw [update_self, Bytes.word_setWord_same _ _ (by decide), Nat.zero_mod]
    · intro b hb
      rw [update_of_ne (by unfold OutsideLog at hb; omega), h.same b hb]

section Transaction

variable {start size : Nat} {lh : LogHeader} {data home d : Nat → Block}

theorem applyWrites_homeCopies_take (k : Nat) {b : Nat} (hb : b ∉ lh.block) :
    applyWrites d ((homeCopies data lh.block).take k) b = d b := by
  apply applyWrites_of_not_mem
  intro h
  obtain ⟨w, hw, rfl⟩ := List.mem_map.mp h
  obtain ⟨c, hc, rfl⟩ := List.mem_map.mp (List.mem_of_mem_take hw)
  exact hb hc

theorem applyWrites_homeCopies (hn : lh.block.Nodup) {b : Nat} (hb : b ∈ lh.block) :
    applyWrites d (homeCopies data lh.block) b = data b := by
  have hkeys : (homeCopies data lh.block).map Prod.fst = lh.block := by
    simp [homeCopies, Function.comp_def]
  have hmem : (b, data b) ∈ homeCopies data lh.block := List.mem_map.mpr ⟨b, hb, rfl⟩
  exact applyWrites_of_mem (by rwa [hkeys]) hmem

/-- The assumptions on a transaction: its home blocks are distinct, lie outside the log, and the
log has room for all of them. -/
structure Fits (start size : Nat) (lh : LogHeader) : Prop where
  nodup : lh.block.Nodup
  outside : ∀ b ∈ lh.block, OutsideLog start size b
  room : lh.n < size

section

variable (hf : Fits start size lh)
include hf

theorem Fits.not_mem {i : Nat} (hi : i < size) :
    start + i ∉ lh.block := by
  intro h
  have := hf.outside _ h
  unfold OutsideLog at this
  omega

theorem Fits.away :
    ∀ b ∈ lh.block, b ≤ start + 0 ∨ start + 0 + lh.block.length < b := by
  intro b hb
  have := hf.outside b hb
  have := hf.room
  unfold OutsideLog at *
  unfold LogHeader.n at *
  omega

theorem Committed.install_take (h : Committed start size lh data home d)
    (k : Nat) :
    Committed start size lh data home (applyWrites d ((homeCopies data lh.block).take k)) := by
  have hroom := hf.room
  have hhead : applyWrites d ((homeCopies data lh.block).take k) start = d start :=
    applyWrites_homeCopies_take k (hf.not_mem (i := 0) (by omega))
  refine ⟨?_, ?_, ?_⟩
  · refine Eq.trans ?_ h.head
    simp only [readHead, reboot, hhead]
  · intro i hi
    unfold LogHeader.n at hroom
    rw [← h.log i hi]
    exact applyWrites_homeCopies_take k (hf.not_mem (i := i + 1) (by omega))
  · intro b hb hnot
    rw [applyWrites_homeCopies_take k hnot, h.same b hb hnot]

theorem Committed.install_clear
    (h : Committed start size lh data home d) {head : Block} (hhead : head.word 0 4 = 0) :
    Clean start size (installed lh data home)
      (update (applyWrites d (homeCopies data lh.block)) start head) := by
  refine ⟨by rw [update_self, hhead], ?_⟩
  intro b hb
  have hroom := hf.room
  rw [update_of_ne (by unfold OutsideLog at hb; omega)]
  by_cases hm : b ∈ lh.block
  · rw [applyWrites_homeCopies hf.nodup hm, installed, if_pos hm]
  · have hall : applyWrites d ((homeCopies data lh.block).take (homeCopies data lh.block).length) b
        = d b := applyWrites_homeCopies_take _ hm
    rw [List.take_length] at hall
    rw [hall, installed, if_neg hm, h.same b hb hm]

theorem recoverFromLog_trace (h : Committed start size lh data home d) :
    ∃ head : Block, head.word 0 4 = 0 ∧ (recoverFromLog start (reboot d)).trace =
      homeCopies data lh.block ++ [(start, head)] := by
  have hlog : ∀ i (hi : i < lh.block.length),
      (reboot d).buf (start + (0 + i) + 1) = data lh.block[i] := by
    intro i hi
    rw [Nat.zero_add]
    exact h.log i hi
  have hi := installFrom_eq hf.away hlog
  obtain ⟨head, hz, ht⟩ := writeHead_nil_trace start (installTrans start lh.block (reboot d))
  refine ⟨head, hz, ?_⟩
  rw [recoverFromLog, h.head, ht, installTrans, hi.1]
  rfl

/-- A crash during recovery leaves the transaction committed or installed. -/
theorem recoverCut_committed
    (h : Committed start size lh data home d) (k : Nat) :
    Committed start size lh data home (recoverCut start d k) ∨
      Clean start size (installed lh data home) (recoverCut start d k) := by
  obtain ⟨head, hz, htrace⟩ := recoverFromLog_trace hf h
  unfold recoverCut
  rw [htrace]
  by_cases hk : k ≤ (homeCopies data lh.block).length
  · rw [List.take_append_of_le_length hk]
    exact Or.inl (h.install_take hf k)
  · rw [List.take_of_length_le (by simp only [List.length_append, List.length_singleton]; omega),
      applyWrites_append]
    exact Or.inr (h.install_clear hf hz)

end

end Transaction

theorem recoverFromLog_disk (start : Nat) (d : Nat → Block) :
    (recoverFromLog start (reboot d)).disk =
      recoverCut start d (recoverFromLog start (reboot d)).trace.length := by
  rw [recoverCut, List.take_length]
  exact recoverFromLog_traces start d

theorem Recovers.clean {home d d' : Nat → Block} (hr : Recovers start d d')
    (hsize : 0 < size) (h : Clean start size home d) : Clean start size home d' := by
  induction hr with
  | complete d =>
    rw [recoverFromLog_disk]
    exact recoverCut_clean hsize h _
  | crash k _ ih => exact ih (recoverCut_clean hsize h k)

/-- However often recovery is cut off, once it completes a committed transaction is installed. -/
theorem Recovers.committed {lh : LogHeader} {data home d d' : Nat → Block}
    (hr : Recovers start d d') (hf : Fits start size lh) (h : Committed start size lh data home d) :
    Clean start size (installed lh data home) d' := by
  induction hr with
  | complete d =>
    obtain ⟨head, hz, htrace⟩ := recoverFromLog_trace hf h
    rw [show (recoverFromLog start (reboot d)).disk = _ from recoverFromLog_traces start d,
      htrace, applyWrites_append]
    exact h.install_clear hf hz
  | crash k hrest ih =>
    rcases recoverCut_committed hf h k with hc | hc
    · exact ih hc
    · exact hrest.clean (Nat.zero_lt_of_lt hf.room) hc

/-! ### Crashes during `commit` -/

section Commit

variable {start size : Nat} {lh : LogHeader} {s : Dev}

variable {d : Nat → Block}

theorem applyWrites_logCopies_get (ds : List Block) {i : Nat}
    (hi : i < ds.length) : applyWrites d (logCopies start 0 ds) (start + i + 1) = ds[i] := by
  have hmem : (start + i + 1, ds[i]) ∈ logCopies start 0 ds :=
    mem_logCopies.mpr ⟨i, hi, by simp⟩
  exact applyWrites_of_mem (nodup_logCopies start 0 ds) hmem

theorem applyWrites_logCopies_take (ds : List Block) (k : Nat) {b : Nat}
    (hb : b ≤ start ∨ start + ds.length < b) :
    applyWrites d ((logCopies start 0 ds).take k) b = d b := by
  apply applyWrites_of_not_mem
  intro h
  obtain ⟨w, hw, rfl⟩ := List.mem_map.mp h
  obtain ⟨i, hi, rfl⟩ := mem_logCopies.mp (List.mem_of_mem_take hw)
  simp only at hb
  omega

theorem applyWrites_logCopies_out (ds : List Block) {b : Nat}
    (hb : b ≤ start ∨ start + ds.length < b) : applyWrites d (logCopies start 0 ds) b = d b := by
  have h := applyWrites_logCopies_take (d := d) ds (logCopies start 0 ds).length hb
  rwa [List.take_length] at h

/-- The block that `write_head` writes for the transaction. -/
def headBlock (start : Nat) (lh : LogHeader) (s : Dev) : Block :=
  putBlocks 0 lh.block ((s.buf start).setWord 0 4 lh.block.length)

section

variable (hf : Fits start size lh)
include hf

/-- The writes of a commit: the log blocks, the header, the home blocks, the cleared header. -/
theorem commit_trace (ht : s.trace = []) (hpos : 0 < lh.n) :
    ∃ head : Block, head.word 0 4 = 0 ∧ (commit start lh s).trace =
      logCopies start 0 (lh.block.map s.buf) ++
        ((start, headBlock start lh s) :: (homeCopies s.buf lh.block ++ [(start, head)])) := by
  obtain ⟨ht₁, hb₁⟩ := writeLogFrom_eq (s := s) hf.away
  have hb₂ : (writeHead start lh.block (writeLog start lh.block s)).buf =
      update (applyWrites s.buf (logCopies start 0 (lh.block.map s.buf))) start
        (headBlock start lh s) := by
    rw [writeHead, bwrite_buf, writeLog, hb₁, applyWrites_logCopies_out _ (Or.inl le_rfl)]
    rfl
  have hlog : ∀ i (h : i < lh.block.length),
      (writeHead start lh.block (writeLog start lh.block s)).buf (start + (0 + i) + 1) =
        s.buf lh.block[i] := by
    intro i hi
    rw [hb₂, Nat.zero_add, update_of_ne (by omega),
      applyWrites_logCopies_get _ (by simpa using hi)]
    simp
  obtain ⟨ht₃, _⟩ := installFrom_eq hf.away hlog
  obtain ⟨head, hz, ht₄⟩ := writeHead_nil_trace start
    (installTrans start lh.block (writeHead start lh.block (writeLog start lh.block s)))
  refine ⟨head, hz, ?_⟩
  rw [commit, if_pos hpos, ht₄, installTrans, ht₃, writeHead, bwrite_trace, writeLog, ht₁, hb₁,
    applyWrites_logCopies_out _ (Or.inl le_rfl), ht]
  simp [headBlock]

/-- Before the header is written the disk is still clean. -/
theorem clean_logCopies_take (hclean : (s.disk start).word 0 4 = 0)
    (k : Nat) : Clean start size s.disk
      (applyWrites s.disk ((logCopies start 0 (lh.block.map s.buf)).take k)) := by
  have hroom : lh.block.length < size := hf.room
  refine ⟨?_, ?_⟩
  · rw [applyWrites_logCopies_take _ _ (Or.inl le_rfl), hclean]
  · intro b hb
    unfold OutsideLog at hb
    exact applyWrites_logCopies_take _ _ (by rw [List.length_map]; omega)

/-- The header write makes the transaction committed. -/
theorem committed_header :
    Committed start size lh s.buf s.disk
      (update (applyWrites s.disk (logCopies start 0 (lh.block.map s.buf))) start
        (headBlock start lh s)) := by
  have hroom : lh.block.length < size := hf.room
  refine ⟨?_, ?_, ?_⟩
  · exact @readHead_header _ start lh (s.buf start) (update_self _ _ _)
  · intro i hi
    rw [update_of_ne (by omega), applyWrites_logCopies_get _ (by simpa using hi)]
    simp
  · intro b hb _
    unfold OutsideLog at hb
    rw [update_of_ne (by omega),
      applyWrites_logCopies_out _ (by rw [List.length_map]; omega)]

theorem commit_cut (ht : s.trace = []) (hpos : 0 < lh.n)
    (hclean : (s.disk start).word 0 4 = 0) (k : Nat) :
    (k ≤ lh.n ∧ Clean start size s.disk
        (applyWrites s.disk ((commit start lh s).trace.take k))) ∨
      Committed start size lh s.buf s.disk
        (applyWrites s.disk ((commit start lh s).trace.take k)) ∨
      Clean start size (installed lh s.buf s.disk)
        (applyWrites s.disk ((commit start lh s).trace.take k)) := by
  obtain ⟨head, hz, htrace⟩ := commit_trace hf ht hpos
  have hlen : (logCopies start 0 (lh.block.map s.buf)).length = lh.n := by
    rw [length_logCopies, List.length_map]
    rfl
  rw [htrace]
  by_cases hk : k ≤ lh.n
  · rw [List.take_append_of_le_length (by omega)]
    exact Or.inl ⟨hk, clean_logCopies_take hf hclean k⟩
  · obtain ⟨j, rfl⟩ : ∃ j, k = lh.n + (j + 1) := ⟨k - lh.n - 1, by omega⟩
    rw [← hlen, List.take_length_add_append, applyWrites_append, List.take_succ_cons,
      applyWrites_cons]
    by_cases hj : j ≤ (homeCopies s.buf lh.block).length
    · rw [List.take_append_of_le_length hj]
      exact Or.inr (Or.inl ((committed_header hf).install_take hf j))
    · rw [List.take_of_length_le
        (by simp only [List.length_append, List.length_singleton]; omega), applyWrites_append]
      exact Or.inr (Or.inr ((committed_header hf).install_clear hf hz))

theorem Clean.installed_home
    (h : Clean start size (installed lh s.buf s.disk) d) :
    (∀ b ∈ lh.block, d b = s.buf b) ∧
      ∀ b, OutsideLog start size b → b ∉ lh.block → d b = s.disk b := by
  constructor
  · intro b hb
    rw [h.same b (hf.outside b hb), installed, if_pos hb]
  · intro b hb hnot
    rw [h.same b hb, installed, if_neg hnot]

end

/-- Crash atomicity. The new contents of the home blocks are those of the buffer cache. `commit`
is cut off after any number `k` of its writes, recovery any number of times at any point. -/
theorem commit_crash_atomic (hf : Fits start size lh) (ht : s.trace = [])
    (hclean : (s.disk start).word 0 4 = 0) (k : Nat) (d : Nat → Block)
    (hr : Recovers start (applyWrites s.disk ((commit start lh s).trace.take k)) d) :
    ((∀ b ∈ lh.block, d b = s.disk b) ∨ (∀ b ∈ lh.block, d b = s.buf b)) ∧
      (∀ b, OutsideLog start size b → b ∉ lh.block → d b = s.disk b) ∧
      (d start).word 0 4 = 0 ∧
      ((writeLog start lh.block s).trace.length < k → ∀ b ∈ lh.block, d b = s.buf b) := by
  have hsize : 0 < size := Nat.zero_lt_of_lt hf.room
  have hlen : (writeLog start lh.block s).trace.length = lh.n := by
    rw [writeLog, (writeLogFrom_eq hf.away).1, ht, List.nil_append, length_logCopies,
      List.length_map]
    rfl
  rw [hlen]
  by_cases hpos : 0 < lh.n
  · rcases commit_cut hf ht hpos hclean k with ⟨hk, hc⟩ | hc | hc
    · have hd := hr.clean hsize hc
      exact ⟨Or.inl (fun b hb => hd.same b (hf.outside b hb)), fun b hb _ => hd.same b hb, hd.head,
        fun hlt => absurd hlt (by omega)⟩
    · have hd := hr.committed hf hc
      obtain ⟨hnew, hsame⟩ := hd.installed_home hf
      exact ⟨Or.inr hnew, hsame, hd.head, fun _ => hnew⟩
    · have hd := hr.clean hsize hc
      obtain ⟨hnew, hsame⟩ := hd.installed_home hf
      exact ⟨Or.inr hnew, hsame, hd.head, fun _ => hnew⟩
  · -- an empty transaction writes nothing
    have hnil : lh.block = [] := List.eq_nil_of_length_eq_zero (Nat.eq_zero_of_not_pos hpos)
    rw [commit, if_neg hpos, ht, List.take_nil, applyWrites_nil] at hr
    have hd := hr.clean hsize ⟨hclean, fun _ _ => rfl⟩
    exact ⟨Or.inl (fun b hb => hd.same b (hf.outside b hb)), fun b hb _ => hd.same b hb, hd.head,
      fun _ b hb => absurd hb (by simp [hnil])⟩

end Commit

/-- A transaction of two blocks, on a disk of zeros whose log takes blocks 2 to 31. -/
def twoBlocks : LogHeader := ⟨[60, 61], by decide, by decide⟩

def twoBlocksDev : Dev where
  disk _ := Bytes.zero
  buf b := Bytes.ofFn (fun _ => b.toUInt8)
  trace := []

theorem twoBlocks_fits : Fits 2 30 twoBlocks :=
  ⟨by decide, by simp [twoBlocks, OutsideLog], by decide⟩

/-- The commit is cut off when it has installed one block, and the recovery after its first write. -/
def twoBlocksCut : Nat → Block :=
  recoverCut 2 (applyWrites twoBlocksDev.disk ((commit 2 twoBlocks twoBlocksDev).trace.take 4)) 1

theorem twoBlocks_recovered :
    (recoverFromLog 2 (reboot twoBlocksCut)).disk 60 = twoBlocksDev.buf 60 ∧
      (recoverFromLog 2 (reboot twoBlocksCut)).disk 61 = twoBlocksDev.buf 61 := by
  have hnew := (commit_crash_atomic (s := twoBlocksDev) twoBlocks_fits rfl (Bytes.word_zero 0 4) 4 _
    (.crash 1 (.complete twoBlocksCut))).2.2.2 (by decide)
  exact ⟨hnew 60 (by decide), hnew 61 (by decide)⟩

end Xv6.Log
