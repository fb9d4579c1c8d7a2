import Xv6.FsCreate
import Xv6.FsPreserve

/-!
# Calls that create or open

What `mkdir`, `mknod`, `open`, `chdir` and `exec` do to the files and the references, from a state
between calls. `open` and `chdir` return with one reference more, to the inode that they return;
`chdir` has dropped the one to the old current directory.
-/

namespace Xv6.Fs

open Prog

variable {sb : Superblock} {s s' s₁ : FsState} {F : Nat → File} {B : Nat → Nat}
  {l cwd : Nat} {path : List UInt8}

theorem Ready.iunlockput_new {E : Fault → Prop} (h : Ready sb s F B)
    (h₁ : Running sb s₁ F (inc B l) {l}) (hkeep : Keep B s s₁) :
    wp (iunlockput l) s₁ (fun _ s' => Ran sb s F B .none s' F B ∅) E := by
  refine wp_mono (h₁.toAbs.iunlockput_temp (h.toAbs.anchored.keep hkeep)
    (Finset.mem_singleton_self l)) ?_
  rintro _ s₂ ⟨h₂, hk₂⟩
  rw [Finset.erase_singleton] at h₂
  have hkeep₂ := hkeep.trans hk₂
  exact h.ran (h.same h₂ hkeep₂).toRunning hkeep₂

/-- A call is over that added at most the entry `o`. -/
def Added (sb : Superblock) (s : FsState) (F : Nat → File) (B : Nat → Nat) (o : Option Nat)
    (s' : FsState) : Prop :=
  ∃ a F', Adds o a ∧ Ran sb s F B a s' F' B ∅

theorem Ready.create_put (h : Ready sb s F B) (hc : 0 < B cwd) {type major minor : Nat}
    (h0 : type ≠ 0) (ht : type < 2 ^ 16) (hmaj : major < 2 ^ 16) (hmin : minor < 2 ^ 16)
    (hdev : type = T_DIR → major = 0 ∧ minor = 0) :
    wp (do
      match ← Fs.create path type major minor cwd with
      | none => pure (-1)
      | some ip =>
        iunlockput ip
        pure 0) s
      (fun (_ : Int) => Added sb s F B (newEntry F path (s.icache cwd).inum))
      (Halts (Dangling F (s.icache cwd).inum)) := by
  refine wp_seq (h.create hc path h0 ht hmaj hmin hdev) ?_
  intro r s₁ hr
  cases r with
  | none => exact ⟨.none, F, Adds.none, hr⟩
  | some ip =>
    obtain ⟨a, F₁, hadds, hran⟩ := hr
    simp only [wp_bind, wp_pure]
    refine wp_mono (hran.iunlockput (Finset.mem_singleton_self ip)) ?_
    intro _ s₂ h₂
    rw [dec_inc, Finset.erase_singleton] at h₂
    exact ⟨a, _, hadds, h₂⟩

theorem Ready.sysMkdir (h : Ready sb s F B) (hc : 0 < B cwd) :
    wp (sysMkdir path cwd) s (fun _ => Added sb s F B (newEntry F path (s.icache cwd).inum))
      (Halts (Dangling F (s.icache cwd).inum)) :=
  h.create_put hc (by decide) (by decide) (by decide) (by decide) (fun _ => ⟨rfl, rfl⟩)

theorem Ready.sysMknod (h : Ready sb s F B) (hc : 0 < B cwd) (major minor : Nat) :
    wp (sysMknod path major minor cwd) s
      (fun _ => Added sb s F B (newEntry F path (s.icache cwd).inum))
      (Halts (Dangling F (s.icache cwd).inum)) :=
  h.create_put hc (by decide) (by decide) (Nat.mod_lt _ (by decide)) (Nat.mod_lt _ (by decide))
    (fun hd => absurd hd (by decide))

/-- The entry that `open` may add. -/
def openEntry (F : Nat → File) (path : List UInt8) (omode c : Nat) : Option Nat :=
  if omode &&& O_CREATE ≠ 0 then newEntry F path c else none

theorem Ready.openInode (h : Ready sb s F B) (hc : 0 < B cwd) (omode : Nat) :
    wp (openInode path omode cwd) s
      (fun r s' => match r with
        | none => Ran sb s F B .none s' F B ∅
        | some l => ∃ a F', Adds (openEntry F path omode (s.icache cwd).inum) a ∧
            Ran sb s F B a s' F' (inc B l) {l})
      (Halts (Dangling F (s.icache cwd).inum)) := by
  rw [Fs.openInode, openEntry]
  by_cases hcreate : omode &&& O_CREATE ≠ 0
  · rw [if_pos hcreate, if_pos hcreate]
    exact h.create hc path (by decide) (by decide) (by decide) (by decide)
      (fun hd => absurd hd (by decide))
  · rw [if_neg hcreate, if_neg hcreate]
    refine h.namei_ilock hc path (fun _ he => he) (fun s₁ _ h₁ hk₁ => h.ran h₁.toRunning hk₁) ?_
    intro l i name s₁ _ h₁ hk₁ _
    rw [wp_bind, wp_getInode]
    split_ifs
    · rw [wp_bind]
      exact h.iunlockput_new h₁ hk₁
    · exact ⟨.none, F, Adds.none, h.ran h₁ hk₁⟩

theorem Ready.sysChdir (h : Ready sb s F B) (hc : 0 < B cwd) :
    wp (sysChdir path cwd) s
      (fun r s' => match r with
        | none => Ran sb s F B .none s' F B ∅
        | some l => ∃ i name F', walkPath F false path (s.icache cwd).inum = some (i, name) ∧
            (F i).type = T_DIR ∧ (s'.icache l).inum = i ∧
            Ran sb s F B .none s' F' (dec (inc B l) cwd) ∅)
      (Halts (Dangling F (s.icache cwd).inum)) := by
  refine h.namei_ilock hc path (fun _ he => he) (fun s₁ _ h₁ hk₁ => h.ran h₁.toRunning hk₁) ?_
  intro l i name s₁ hw h₁ hk₁ hi
  have hl : l ∈ ({l} : Finset Nat) := Finset.mem_singleton_self l
  rw [wp_bind, wp_getInode, h₁.toAbs.type_eq hl, hi]
  by_cases hdir : (F i).type ≠ T_DIR
  · rw [if_pos hdir, wp_bind]
    exact h.iunlockput_new h₁ hk₁
  rw [if_neg hdir]
  refine wp_seq (h₁.iunlock hl) ?_
  rintro _ s₂ ⟨h₂, hk₂⟩
  rw [Finset.erase_singleton] at h₂
  have hkeep₂ : Keep B s s₂ := hk₁.trans (hk₂.mono (le_inc B l))
  have hcwd : 0 < inc B l cwd := lt_of_lt_of_le hc (le_inc B l cwd)
  refine wp_seq (h₂.toAbs.iput hcwd (Finset.notMem_empty cwd)) ?_
  rintro _ s₃ ⟨h₃, hk₃⟩
  refine ⟨i, name, _, hw, not_not.mp hdir, ?_, (h.ran h₂ hkeep₂).of_drop hcwd h₃ hk₃⟩
  have hpos : 0 < dec (inc B l) cwd l := by
    by_cases hlc : l = cwd
    · rw [hlc, dec_inc]
      exact hc
    · rw [dec_of_ne hlc, inc_self]
      omega
  rw [hk₃ l hpos, hk₂ l inc_pos, hi]

/-! ### `exec` -/

theorem execReads_same {E : Fault → Prop} {ip : Nat} (reads : List (Nat × Nat)) (h : Good s)
    (hl : Loaded s ip) : wp (execReads ip reads) s (fun _ s' => s' = s) E := by
  induction reads with
  | nil => exact rfl
  | cons r reads ih =>
    rw [execReads]
    refine wp_chain (readi_same h hl _ _) ?_ (fun _ he => he.elim)
    rintro _ s₁ rfl
    exact ih

theorem Ready.execInode (h : Ready sb s F B) (hc : 0 < B cwd) (reads : List (Nat × Nat)) :
    wp (execInode path reads cwd) s (fun _ s' => Ran sb s F B .none s' F B ∅)
      (Halts (Dangling F (s.icache cwd).inum)) := by
  refine h.namei_ilock hc path (fun _ he => he) (fun s₁ _ h₁ hk₁ => h.ran h₁.toRunning hk₁) ?_
  intro l i name s₁ _ h₁ hk₁ _
  refine wp_seq (execReads_same reads h₁.good (h₁.toAbs.loaded (Finset.mem_singleton_self l))) ?_
  rintro _ s₂ rfl
  rw [wp_bind]
  exact h.iunlockput_new h₁ hk₁

end Xv6.Fs
