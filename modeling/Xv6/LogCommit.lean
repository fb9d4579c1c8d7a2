import Xv6.DiskWrites
import Xv6.MachineInt
import Xv6.Param

/-!
# Committing and recovering the log

The part of `log.c` that touches the disk. `Dev.buf b` is the data that `bread` of block `b`
returns, `Dev.disk` what the disk holds, and `Dev.trace` lists the single-block writes performed
so far in program order, so that a crash after `k` of them leaves the disk with the first `k`.
-/

namespace Xv6.Log

open Function

/-- `struct logheader`, of which only the first `n` block numbers are meaningful. -/
structure LogHeader where
  block : List Nat
  fits : block.length ≤ LOGSIZE
  isInt : ∀ b ∈ block, b < 2 ^ 32

def LogHeader.n (lh : LogHeader) : Nat := lh.block.length

structure Dev where
  disk : Nat → Block
  buf : Nat → Block
  trace : List (Nat × Block)

/-- The machine after a reboot: the buffer cache is cold. -/
def reboot (disk : Nat → Block) : Dev := ⟨disk, disk, []⟩

def bwrite (b : Nat) (data : Block) (s : Dev) : Dev where
  disk := update s.disk b data
  buf := update s.buf b data
  trace := s.trace ++ [(b, data)]

/-- The loop of `write_log` from `tail` on. -/
def writeLogFrom (start : Nat) : Nat → List Nat → Dev → Dev
  | _, [], s => s
  | tail, b :: bs, s =>
    writeLogFrom start (tail + 1) bs (bwrite (start + tail + 1) (s.buf b) s)

def writeLog (start : Nat) (block : List Nat) (s : Dev) : Dev := writeLogFrom start 0 block s

/-- The loop of `install_trans` from `tail` on. -/
def installFrom (start : Nat) : Nat → List Nat → Dev → Dev
  | _, [], s => s
  | tail, b :: bs, s =>
    installFrom start (tail + 1) bs (bwrite b (s.buf (start + tail + 1)) s)

def installTrans (start : Nat) (block : List Nat) (s : Dev) : Dev := installFrom start 0 block s

/-- The loop of `write_head` from `i` on. -/
def putBlocks : Nat → List Nat → Block → Block
  | _, [], data => data
  | i, b :: bs, data => putBlocks (i + 1) bs (data.setWord (4 + 4 * i) 4 b)

def writeHead (start : Nat) (block : List Nat) (s : Dev) : Dev :=
  bwrite start (putBlocks 0 block ((s.buf start).setWord 0 4 block.length)) s

/-- The field `n` of the header block; the loops run zero times when it is negative. -/
def headN (data : Block) : Nat := (wrap32 (data.word 0 4)).toNat

def readHead (start : Nat) (s : Dev) : List Nat :=
  (List.range (headN (s.buf start))).map (fun i => (s.buf start).word (4 + 4 * i) 4)

def recoverFromLog (start : Nat) (s : Dev) : Dev :=
  writeHead start [] (installTrans start (readHead start s) s)

def commit (start : Nat) (lh : LogHeader) (s : Dev) : Dev :=
  if lh.n > 0 then
    let s := writeLog start lh.block s
    let s := writeHead start lh.block s
    let s := installTrans start lh.block s
    writeHead start [] s
  else s

@[simp] theorem bwrite_trace (b : Nat) (data : Block) (s : Dev) :
    (bwrite b data s).trace = s.trace ++ [(b, data)] := rfl

@[simp] theorem bwrite_buf (b : Nat) (data : Block) (s : Dev) :
    (bwrite b data s).buf = update s.buf b data := rfl

/-! ### What the loops write -/

/-- The writes of `write_log` for blocks with data `ds`. -/
def logCopies (start : Nat) : Nat → List Block → List (Nat × Block)
  | _, [] => []
  | tail, d :: ds => (start + tail + 1, d) :: logCopies start (tail + 1) ds

variable {start tail : Nat}

theorem mem_logCopies {ds : List Block} {w : Nat × Block} :
    w ∈ logCopies start tail ds ↔
      ∃ i, ∃ h : i < ds.length, w = (start + (tail + i) + 1, ds[i]) := by
  induction ds generalizing tail with
  | nil => simp [logCopies]
  | cons d ds ih =>
    rw [logCopies, List.mem_cons, ih]
    constructor
    · rintro (rfl | ⟨i, hi, rfl⟩)
      · exact ⟨0, by simp, by simp⟩
      · exact ⟨i + 1, by simpa using hi, by simp [Nat.add_assoc, Nat.add_comm 1]⟩
    · rintro ⟨i, hi, rfl⟩
      cases i with
      | zero => exact Or.inl (by simp)
      | succ i => exact Or.inr ⟨i, by simpa using hi, by simp [Nat.add_assoc, Nat.add_comm 1]⟩

@[simp] theorem length_logCopies (start tail : Nat) (ds : List Block) :
    (logCopies start tail ds).length = ds.length := by
  induction ds generalizing tail with
  | nil => rfl
  | cons d ds ih => simp [logCopies, ih]

theorem nodup_logCopies (start tail : Nat) (ds : List Block) :
    ((logCopies start tail ds).map Prod.fst).Nodup := by
  induction ds generalizing tail with
  | nil => simp [logCopies]
  | cons d ds ih =>
    rw [logCopies, List.map_cons, List.nodup_cons]
    refine ⟨?_, ih (tail + 1)⟩
    intro h
    obtain ⟨w, hw, he⟩ := List.mem_map.mp h
    obtain ⟨i, _, rfl⟩ := mem_logCopies.mp hw
    simp at he
    omega

/-- `write_log` copies the buffers of the logged blocks, which it does not change, to the log. -/
theorem writeLogFrom_eq {bs : List Nat} {s : Dev}
    (hout : ∀ b ∈ bs, b ≤ start + tail ∨ start + tail + bs.length < b) :
    (writeLogFrom start tail bs s).trace = s.trace ++ logCopies start tail (bs.map s.buf) ∧
      (writeLogFrom start tail bs s).buf =
        applyWrites s.buf (logCopies start tail (bs.map s.buf)) := by
  induction bs generalizing tail s with
  | nil => simp [writeLogFrom, logCopies]
  | cons b bs ih =>
    have hout' : ∀ c ∈ bs, c ≤ start + (tail + 1) ∨ start + (tail + 1) + bs.length < c := by
      intro c hc
      have := hout c (List.mem_cons_of_mem _ hc)
      simp only [List.length_cons] at this
      omega
    have hsame : bs.map (update s.buf (start + tail + 1) (s.buf b)) =
        bs.map s.buf := by
      apply List.map_congr_left
      intro c hc
      have := hout c (List.mem_cons_of_mem _ hc)
      simp only [List.length_cons] at this
      exact Function.update_of_ne (by omega) _ _
    obtain ⟨ht, hb⟩ := ih (s := bwrite (start + tail + 1) (s.buf b) s) hout'
    rw [bwrite_buf, hsame] at ht hb
    constructor
    · rw [writeLogFrom, ht]
      simp [logCopies]
    · rw [writeLogFrom, hb]
      simp [logCopies]

/-- The writes of `install_trans` for home blocks `bs`. -/
def homeCopies (data : Nat → Block) (bs : List Nat) : List (Nat × Block) :=
  bs.map (fun b => (b, data b))

theorem installFrom_eq {bs : List Nat} {data : Nat → Block} {s : Dev}
    (hout : ∀ b ∈ bs, b ≤ start + tail ∨ start + tail + bs.length < b)
    (hlog : ∀ i (h : i < bs.length), s.buf (start + (tail + i) + 1) = data bs[i]) :
    (installFrom start tail bs s).trace = s.trace ++ homeCopies data bs ∧
      (installFrom start tail bs s).buf = applyWrites s.buf (homeCopies data bs) := by
  induction bs generalizing tail s with
  | nil => simp [installFrom, homeCopies]
  | cons b bs ih =>
    have hhead : s.buf (start + tail + 1) = data b := hlog 0 (by simp)
    have hb := hout b List.mem_cons_self
    simp only [List.length_cons] at hb
    have hout' : ∀ c ∈ bs, c ≤ start + (tail + 1) ∨ start + (tail + 1) + bs.length < c := by
      intro c hc
      have := hout c (List.mem_cons_of_mem _ hc)
      simp only [List.length_cons] at this
      omega
    have hlog' : ∀ i (h : i < bs.length),
        (bwrite b (data b) s).buf (start + (tail + 1 + i) + 1) = data bs[i] := by
      intro i hi
      have := hlog (i + 1) (by simpa using hi)
      rw [bwrite_buf, Function.update_of_ne (by omega),
        show start + (tail + 1 + i) + 1 = start + (tail + (i + 1)) + 1 by omega, this]
      simp
    obtain ⟨ht, hbuf⟩ := ih hout' hlog'
    constructor
    · rw [installFrom, hhead, ht]
      simp [homeCopies]
    · rw [installFrom, hhead, hbuf]
      simp [homeCopies]

end Xv6.Log
