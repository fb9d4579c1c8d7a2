import Xv6.Run
import Xv6.SyscallRefs

/-!
# Runs of calls

One specification for all calls: which entry a call can add or remove, which current directory it
can leave, how it moves the references to inodes, and on what it can stop. From it, by induction
over the calls, the references of the inode cache are balanced in every run, and an inode stays
what it is as long as something refers to it.
-/

namespace Xv6.Syscall

open Prog
open Fs
open Ptable (Slot)

variable {sb : Superblock} {k k' k₀ : Kernel} {F : Nat → File} {p : Slot} {cwd c : Nat} {x : Call}
  {e : Slot × Call} {es : List (Slot × Call)}

/-! ### What a call does -/

/-- The directory that a call of a process in directory `c` adds an entry to. -/
def addsTo (F : Nat → File) (c : Nat) : Call → Option Nat
  | .open path omode => openEntry F path omode c
  | .mkdir path => newEntry F path c
  | .mknod path _ _ => newEntry F path c
  | .link old new => linkEntry F old new c
  | _ => none

/-- The directory and the entry of it that a call removes. -/
def removes (F : Nat → File) (c : Nat) : Call → Option (Nat × Nat)
  | .unlink path => oldEntry F path c
  | _ => none

def Does (F : Nat → File) (c : Nat) (x : Call) (a : Act) : Prop :=
  Adds (addsTo F c x) a ∨ Removes (removes F c x) a

/-- The directory that `chdir` goes to. -/
def GoesTo (F : Nat → File) (c : Nat) (x : Call) (i : Nat) : Prop :=
  ∃ path name, x = .chdir path ∧ walkPath F false path c = some (i, name) ∧ (F i).type = T_DIR

/-- The calls that lock a directory twice. -/
def SelfLocks (F : Nat → File) (c : Nat) : Call → Prop
  | .link old new => SelfLink F old new c
  | _ => False

/-- A state between calls. -/
structure Balanced (sb : Superblock) (k : Kernel) (F : Nat → File) : Prop where
  closed : k.Closed
  ready : Ready sb k.fs F k.holders

/-- How a call ends. -/
structure Served (sb : Superblock) (k : Kernel) (F : Nat → File) (c : Nat) (x : Call)
    (k' : Kernel) : Prop where
  noLock : ¬ SelfLocks F c x
  done : ∃ a, Does F c x a ∧ Serves sb k.fs F k.holders a none k'
  cwds : CwdsFrom k k' (fun l => GoesTo F c x (k'.fs.icache l).inum)

/-- On what a call can stop. -/
def Stops (F : Nat → File) (c : Nat) (x : Call) (e : Fault) : Prop :=
  Halts (Dangling F c) e ∨ SelfLocks F c x ∧ ∃ lk, e = .deadlock lk

theorem Balanced.serves (h : Balanced sb k F) : Serves sb k.fs F k.holders .none none k :=
  ⟨h.closed, F, h.ready.ran h.ready.toRunning (Keep.refl _ _)⟩

theorem Does.none : Does F c x .none := Or.inl Adds.none

theorem served_of_fs {a : Act} {s' : FsState} {F' : Nat → File} (h : Balanced sb k F)
    (hno : ¬ SelfLocks F c x) (hdoes : Does F c x a)
    (hran : Ran sb k.fs F k.holders a s' F' k.holders ∅) : Served sb k F c x (k.setFs s') :=
  ⟨hno, ⟨a, hdoes, h.closed, F', hran⟩, fun q _ hl => Or.inl ⟨q, hl⟩⟩

theorem call_spec (h : Balanced sb k F) (hp : k.cwd p = some cwd) (hfits : x.Fits k) :
    wp (call p cwd x) k (fun _ => Served sb k F (k.fs.icache cwd).inum x)
      (Stops F (k.fs.icache cwd).inum x) := by
  have hc : 0 < k.holders cwd := holders_pos_cwd hp
  have hserve := h.serves
  have hold : ∀ {k'}, ¬ SelfLocks F (k.fs.icache cwd).inum x →
      Serves sb k.fs F k.holders .none none k' ∧ CwdsFrom k k' (fun _ => False) →
      Served sb k F (k.fs.icache cwd).inum x k' := fun hno hk' =>
    ⟨hno, ⟨.none, Does.none, hk'.1⟩, hk'.2.mono (fun _ => False.elim)⟩
  have hsame : ∀ {k'}, ¬ SelfLocks F (k.fs.icache cwd).inum x →
      Serves sb k.fs F k.holders .none none k' ∧ SameProcs k k' →
      Served sb k F (k.fs.icache cwd).inum x k' := fun hno hk' => hold hno ⟨hk'.1, hk'.2.cwdsFrom⟩
  cases x with
  | badArgs => exact hsame id ⟨hserve, SameProcs.refl k⟩
  | «open» path omode =>
    refine wp_conseq (sysOpen_spec h.closed h.ready hc) ?_ (fun _ he => Or.inl he)
    rintro _ k' ⟨a, hadds, hk', hprocs⟩
    exact ⟨id, ⟨a, Or.inl hadds, hk'⟩, hprocs.cwdsFrom⟩
  | close fd => exact wp_conseq (sysClose_spec hserve) (fun _ _ => hsame id) (fun _ he => Or.inl he)
  | dup fd => exact wp_conseq (sysDup_spec hserve) (fun _ _ => hsame id) (fun _ he => Or.inl he)
  | pipe page => exact wp_conseq (sysPipe_spec hserve) (fun _ _ => hsame id) (fun _ he => Or.inl he)
  | fork np =>
    have hnp : ∀ x ∈ np, k.cwd x.1 = none := by
      rintro ⟨q, pid⟩ rfl
      exact hfits q rfl
    exact wp_conseq (fork_spec hserve hp hnp) (fun _ _ => hold id)
      (fun _ he => Or.inl he)
  | exit =>
    exact wp_conseq (exit_spec hserve hp) (fun _ _ => hold id)
      (fun _ he => Or.inl he)
  | chdir path =>
    refine wp_conseq (sysChdir_spec h.closed h.ready hp) ?_ (fun _ he => Or.inl he)
    rintro _ k' ⟨hk', hcwds⟩
    refine ⟨id, ⟨.none, Does.none, hk'⟩, hcwds.mono ?_⟩
    rintro l ⟨i, name, hw, hdir, rfl⟩
    exact ⟨path, name, rfl, hw, hdir⟩
  | link old new =>
    rw [call, wp_onFs]
    refine wp_mono (h.ready.sysLink hc) ?_
    rintro _ s' ⟨hno, a, F', hadds, hran⟩
    exact served_of_fs h hno (Or.inl hadds) hran
  | unlink path =>
    rw [call, wp_onFs]
    refine wp_conseq (h.ready.sysUnlink hc) ?_ (fun _ he => Or.inl he)
    rintro _ s' ⟨a, F', hrem, hran⟩
    exact served_of_fs h id (Or.inr hrem) hran
  | mkdir path =>
    rw [call, wp_onFs]
    refine wp_conseq (h.ready.sysMkdir hc) ?_ (fun _ he => Or.inl he)
    rintro _ s' ⟨a, F', hadds, hran⟩
    exact served_of_fs h id (Or.inl hadds) hran
  | mknod path major minor =>
    rw [call, wp_onFs]
    refine wp_conseq (h.ready.sysMknod hc major minor) ?_ (fun _ he => Or.inl he)
    rintro _ s' ⟨a, F', hadds, hran⟩
    exact served_of_fs h id (Or.inl hadds) hran
  | exec path reads =>
    rw [call, wp_onFs]
    refine wp_conseq (h.ready.execInode hc reads) ?_ (fun _ he => Or.inl he)
    intro _ s' hran
    exact served_of_fs h id Does.none hran

/-! ### One step -/

theorem step_eq_some (h : step k e = some k') :
    ∃ cwd r, k.cwd e.1 = some cwd ∧ e.2.Fits k ∧ call e.1 cwd e.2 k = .ok (r, k') := by
  simp only [step] at h
  split at h
  · cases h
  next cwd hcwd =>
  split_ifs at h with hfits
  split at h
  · next r k'' heq =>
    cases h
    exact ⟨cwd, r, hcwd, hfits, heq⟩
  · cases h

theorem step_served (h : Balanced sb k F) (hs : step k e = some k') :
    ∃ cwd, k.cwd e.1 = some cwd ∧ Served sb k F (k.fs.icache cwd).inum e.2 k' := by
  obtain ⟨cwd, r, hcwd, hfits, heq⟩ := step_eq_some hs
  have hserved := wp_ok (call_spec h hcwd hfits) heq
  exact ⟨cwd, hcwd, hserved⟩

theorem Served.ran (hs : Served sb k F c x k') :
    ∃ a F', Does F c x a ∧ Ran sb k.fs F k.holders a k'.fs F' k'.holders ∅ := by
  obtain ⟨a, hdoes, -, F', hran⟩ := hs.done
  exact ⟨a, F', hdoes, hran⟩

theorem Balanced.ended {a : Act} {F' : Nat → File} (h : Balanced sb k F) (hs : Served sb k F c x k')
    (hran : Ran sb k.fs F k.holders a k'.fs F' k'.holders ∅) : Balanced sb k' F' := by
  obtain ⟨a', -, hclosed, -⟩ := hs.done
  exact ⟨hclosed, h.ready.ended hran⟩

theorem Balanced.next (h : Balanced sb k F) (hs : step k e = some k') :
    ∃ F', Balanced sb k' F' := by
  obtain ⟨cwd, -, hserved⟩ := step_served h hs
  obtain ⟨a, F', -, hran⟩ := hserved.ran
  exact ⟨F', h.ended hserved hran⟩

/-- The file behind entry `j` of the inode cache. -/
def Kernel.fileAt (k : Kernel) (j : Nat) : File := files k.fs (k.fs.icache j).inum

/-- An inode with a reference before and after a call is still there. -/
theorem Balanced.kept (h : Balanced sb k F) (hs : step k e = some k') {j : Nat}
    (hj : 0 < k.holders j) (hj' : 0 < k'.holders j) :
    (k'.fs.icache j).inum = (k.fs.icache j).inum ∧ Kept (k.fileAt j) (k'.fileAt j) := by
  obtain ⟨cwd, -, hserved⟩ := step_served h hs
  obtain ⟨a, F', -, hran⟩ := hserved.ran
  have hinum := hran.keep j hj hj'
  refine ⟨hinum, ?_⟩
  have hlive := h.ready.live j hj
  have hlive' := hran.run.live j hj'
  obtain ⟨F₁, heff, hrel⟩ := hran.outcome
  rw [Kernel.fileAt, Kernel.fileAt, h.ready.files, hran.run.files, hinum]
  rw [hinum] at hlive'
  rcases hrel (k.fs.icache j).inum with heq | ⟨-, hfree⟩
  · rw [heq]
    exact heff.kept hlive
  · rw [hfree] at hlive'
    exact absurd rfl hlive'

/-! ### All steps -/

theorem balanced_run (h : Balanced sb k F) (hrun : run step k es = some k') :
    ∃ F', Balanced sb k' F' :=
  run_invariant step (I := fun k => ∃ F, Balanced sb k F) (fun _ _ _ ⟨_, hb⟩ hs => hb.next hs)
    ⟨F, h⟩ hrun

theorem kept_run {j : Nat} (h : Balanced sb k F) (hrun : run step k es = some k')
    (halong : Along step (fun k _ => 0 < k.holders j) k es) (hj' : 0 < k'.holders j) :
    (k'.fs.icache j).inum = (k.fs.icache j).inum ∧ Kept (k.fileAt j) (k'.fileAt j) := by
  induction es generalizing k F with
  | nil =>
    cases hrun
    exact ⟨rfl, Kept.refl _⟩
  | cons e es ih =>
    obtain ⟨k₁, hs, hrest⟩ := (run_cons step).mp hrun
    obtain ⟨hj, hnext⟩ := halong
    obtain ⟨F₁, h₁⟩ := h.next hs
    obtain ⟨hinum, hkept⟩ := ih h₁ hrest (hnext k₁ hs)
    have hj₁ : 0 < k₁.holders j := by
      cases es with
      | nil =>
        cases hrest
        exact hj'
      | cons e' es => exact (hnext k₁ hs).1
    obtain ⟨hinum₁, hkept₁⟩ := h.kept hs hj hj₁
    exact ⟨hinum.trans hinum₁, hkept₁.trans hkept⟩

end Xv6.Syscall
