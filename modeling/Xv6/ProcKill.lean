import Xv6.ProcTreeRun

/-!
# What `kill` hits

`kill` takes the first slot whose field `pid` has the given value, whether or not the slot is in use. A slot
that was never used or has been reaped has pid 0, and a slot that `fork` has given back after a failure keeps
the pid of the process that was not made. So `kill` may return 0 without a process, and mark a slot for
the process that comes next.
-/

namespace Xv6.Ptable

open Function

variable {t : Table} {pid : Int} {i j : Slot}

/-- A process after `kill`. -/
def Proc.struck (p : Proc) : Proc :=
  { p with killed := true, state := if p.state = .sleeping then .runnable else p.state }

/-- `kill` hits a process with the given pid if there is one, and otherwise fails without any effect. -/
def Kills (t : Table) (pid : Int) : Prop :=
  (∃ i, (t.proc i).state ≠ .unused ∧ (t.proc i).pid = pid ∧
    kill pid t = (0, t.set i (t.proc i).struck)) ∨
  (∀ i, (t.proc i).pid = pid → (t.proc i).state = .unused) ∧ kill pid t = (-1, t)

/-- The slot that `kill` finds. -/
def victim (t : Table) (pid : Int) : Option Slot := slots.find? (fun i => (t.proc i).pid = pid)

theorem kill_of_victim (h : victim t pid = some i) :
    kill pid t = (0, t.set i (t.proc i).struck) := by
  rw [kill, show slots.find? (fun i => (t.proc i).pid = pid) = some i from h]
  rfl

theorem kill_of_none (h : victim t pid = none) : kill pid t = (-1, t) := by
  rw [kill, show slots.find? (fun i => (t.proc i).pid = pid) = none from h]

theorem victim_pid (h : victim t pid = some i) : (t.proc i).pid = pid := by
  rw [victim] at h
  simpa using List.find?_some h

theorem victim_eq_none_iff : victim t pid = none ↔ ∀ i, (t.proc i).pid ≠ pid := by
  simp [victim, List.find?_eq_none, mem_slots]

theorem set_injective {p q : Proc} (h : t.set i p = t.set j q) (hne : i ≠ j) :
    p = t.proc i ∧ q = t.proc j := by
  have hproc : update t.proc i p = update t.proc j q := congrArg Table.proc h
  have hi := congrFun hproc i
  have hj := congrFun hproc j
  rw [update_self, update_of_ne hne] at hi
  rw [update_self, update_of_ne (Ne.symm hne)] at hj
  exact ⟨hi, hj.symm⟩

theorem set_proc (t : Table) (i : Slot) : t.set i (t.proc i) = t := by
  rw [Table.set, update_eq_self]

/-- `kill` is right for a pid if the first slot that has it is in use. It is also right by chance when
there is a process of this pid further down and both have been marked before. -/
theorem kill_exact_iff (t : Table) (pid : Int) : Kills t pid ↔
    ∀ i, victim t pid = some i → (t.proc i).state ≠ .unused ∨
      (t.proc i).struck = t.proc i ∧
        ∃ j, (t.proc j).state ≠ .unused ∧ (t.proc j).pid = pid ∧ (t.proc j).struck = t.proc j := by
  constructor
  · rintro (⟨j, hlive, hpid, hkill⟩ | ⟨hnone, hkill⟩) i hi
    · rw [kill_of_victim hi] at hkill
      by_cases hij : i = j
      · exact .inl (hij ▸ hlive)
      · obtain ⟨hsi, hsj⟩ := set_injective (congrArg Prod.snd hkill) hij
        exact .inr ⟨hsi, j, hlive, hpid, hsj⟩
    · rw [kill_of_victim hi] at hkill
      cases congrArg Prod.fst hkill
  · intro h
    cases hv : victim t pid with
    | none =>
      refine .inr ⟨?_, kill_of_none hv⟩
      intro i hi
      exact absurd hi (victim_eq_none_iff.mp hv i)
    | some i =>
      rcases h i hv with hlive | ⟨hsi, j, hlive, hpid, hsj⟩
      · exact .inl ⟨i, hlive, victim_pid hv, kill_of_victim hv⟩
      · refine .inl ⟨j, hlive, hpid, ?_⟩
        rw [kill_of_victim hv, hsi, hsj, set_proc, set_proc]

/-- Init calls `fork`, which fails after `allocproc` has taken a slot. -/
def failedFork : List Event := [.userinit, .userinitDone, .schedule 0, .fork 0, .forkFail 0]

/-- After a failed `fork`, `kill` of the pid that the child would have had returns 0, and so does `kill` of
pid 0. There is no process with these pids; a slot that is not in use is marked. -/
theorem failedFork_killed : ∃ t, run step boot failedFork = some t ∧
    (kill 2 t).1 = 0 ∧ (kill 0 t).1 = 0 ∧
    (∀ i, (t.proc i).pid = 2 ∨ (t.proc i).pid = 0 → (t.proc i).state = .unused) ∧
    ¬ Kills t 2 ∧ ¬ Kills t 0 := by
  have h : (run step boot failedFork).isSome = true ∧ (run step boot failedFork).all (fun t =>
      (kill 2 t).1 = 0 ∧ (kill 0 t).1 = 0 ∧
        ∀ i, (t.proc i).pid = 2 ∨ (t.proc i).pid = 0 → (t.proc i).state = .unused) = true := by
    decide +kernel
  obtain ⟨t, ht⟩ := Option.isSome_iff_exists.mp h.1
  rw [ht, Option.all_some, decide_eq_true_eq] at h
  obtain ⟨-, htwo, hzero, hunused⟩ := h
  have hnot : ∀ pid, pid = 2 ∨ pid = 0 → (kill pid t).1 = 0 → ¬ Kills t pid := by
    rintro pid hpid hkill (⟨i, hlive, hi, -⟩ | ⟨-, hfail⟩)
    · exact hlive (hunused i (by rwa [hi]))
    · rw [hfail] at hkill
      cases hkill
  exact ⟨t, ht, htwo, hzero, hunused, hnot 2 (.inl rfl) htwo, hnot 0 (.inr rfl) hzero⟩

end Xv6.Ptable
