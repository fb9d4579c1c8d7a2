import Xv6.SleepRefines

/-!
# Sleepers and wakers of one condition

Sleepers run `acquire(lk); while(!cond) sleep(chan, lk); release(lk)` and wakers run
`acquire(lk); cond = 1; wakeup(chan); release(lk)`, as often as they like.
-/

namespace Xv6.Kern

open Monitor (Program Action Place)

variable {n : Nat}

inductive CondCall
  | sleeper
  | waker
  deriving DecidableEq, Repr

inductive CondLocal
  /-- `while(!cond)` -/
  | test
  /-- `cond = 1` -/
  | set
  /-- `wakeup(chan)` -/
  | wake
  | leave
  deriving DecidableEq, Repr

def condAct : CondLocal → Bool → Action Bool CondLocal Unit
  | .test, true => .release
  | .test, false => .sleep () .test
  | .set, _ => .step true .wake
  | .wake, _ => .wakeup () .leave
  | .leave, _ => .release

def condProgram (n : Nat) : Program (Fin n) Bool CondLocal Unit CondCall where
  start _
    | .sleeper => .test
    | .waker => .set
  act := condAct

theorem condAssertions : Monitor.Assertions (condProgram n) (fun _ _ _ => True)
    (fun _ _ _ => True) (fun _ => True) := by
  constructor <;> intros <;> simp

/-- A sleeper waits for the condition, and a waker that has set it owes a wakeup. -/
theorem condSignals : Monitor.Signals (condProgram n) (fun _ _ _ => True) (fun _ _ _ => True)
    (fun _ cond => cond = false) (fun _ t => t = .wake) := by
  refine ⟨?_, ?_, ?_, ?_, ?_⟩
  · intro i b t t' d d' _ _ ha c h
    cases t <;> cases d <;> simp_all [condProgram, condAct]
  · intro i b t yes no d _ _ ha
    cases t <;> cases d <;> simp [condProgram, condAct] at ha
  · intro i t t' c' d _ ha c hc
    exact absurd rfl hc
  · intro i t t' c' d _ ha
    cases t <;> cases d <;> simp_all [condProgram, condAct]
  · intro i t d _ ha c h
    cases t <;> cases d <;> simp_all [condProgram, condAct]

variable {k : Kernel n Bool CondLocal Unit}

/-- Process `i` has set the condition and `wakeup` is not over. -/
def MidWakeup (k : Kernel n Bool CondLocal Unit) (i : Fin n) : Prop :=
  k.pc i = .inside .wake ∨ (∃ t, k.pc i = .wakeAcquire () t) ∨ ∃ rest t, k.pc i = .wakeScan () rest t

/-- Process `i` is in `sleep` and has not marked itself SLEEPING yet. -/
def AboutToSleep (k : Kernel n Bool CondLocal Unit) (i : Fin n) : Prop :=
  ∃ t, k.pc i = .sleepAcquire () t ∨ k.pc i = .sleepRelease () t ∨ k.pc i = .sleepChan () t ∨
    k.pc i = .sleepState () t

theorem midWakeup_of_owes {i : Fin n}
    (h : (k.monitor.place i).owes (fun _ t => t = CondLocal.wake) ()) : MidWakeup k i := by
  have hp : ((k.pc i).place (k.state i)).owes (fun _ t => t = CondLocal.wake) () := h
  cases hpc : k.pc i with
  | inside t =>
    rw [hpc] at hp
    exact Or.inl (hpc.trans (congrArg Pc.inside hp))
  | wakeAcquire c t => exact Or.inr (Or.inl ⟨t, hpc⟩)
  | wakeScan c rest t => exact Or.inr (Or.inr ⟨rest, t, hpc⟩)
  | asleep c t =>
    rw [hpc] at hp
    simp only [Pc.place] at hp
    split_ifs at hp <;> cases hp
  | _ => simp [hpc, Pc.place, Place.owes] at hp

theorem run_cond {d : Bool} {es : List (Event n CondCall)}
    (hrun : run (step (condProgram n)) (Kernel.boot n d) es = some k) :
    (k.shared = true → (∀ i, ¬ MidWakeup k i) →
      ∀ i, ¬ (k.state i = .sleeping ∧ k.chan i = some ())) ∧
    ∀ i, AboutToSleep k i → k.lk = some i ∨ k.ptable = some (.process i) := by
  have halong : Along (step (condProgram n)) (Allowed (fun _ _ _ => True)) (Kernel.boot n d) es :=
    along_of_mem _ (fun _ _ _ _ _ _ _ _ _ => trivial)
  refine ⟨?_, ?_⟩
  · rintro hcond hmid i ⟨hs, hch⟩
    obtain ⟨-, hfalse | ⟨j, hj⟩⟩ := run_sleeping condAssertions condSignals (fun _ => trivial)
      trivial halong hrun hs hch
    · simp [hcond] at hfalse
    · exact hmid j (midWakeup_of_owes hj)
  · have hok := (run_refines halong hrun).1
    rintro i ⟨t, hpc | hpc | hpc | hpc⟩
    · exact Or.inl ((hok.lk i).mpr (by rw [hpc]; trivial))
    · exact Or.inl ((hok.lk i).mpr (by rw [hpc]; trivial))
    · exact Or.inr ((hok.ptable i).mpr (by rw [hpc]; trivial))
    · exact Or.inr ((hok.ptable i).mpr (by rw [hpc]; trivial))

local instance condTwo : NeZero 2 := ⟨by decide⟩

/-- Process 0 goes to sleep on the processor on which process 1 then wakes it up. -/
def condWake : List (Event 2 CondCall) :=
  ([.schedule 0, .dispatch 0 0, .exec 0, .start 0 .sleeper] : List (Event 2 CondCall)) ++
    List.replicate 7 (.exec 0 : Event 2 CondCall) ++
    ([.unschedule 0, .schedule 0, .dispatch 0 1, .exec 0, .start 0 .waker] :
      List (Event 2 CondCall)) ++ List.replicate 7 (.exec 0 : Event 2 CondCall)

theorem condWake_run : ∃ k, run (step (condProgram 2)) (Kernel.boot 2 false) condWake = some k ∧
    k.shared = true ∧ (∀ i, ¬ MidWakeup k i) ∧
    ∀ i, ¬ (k.state i = .sleeping ∧ k.chan i = some ()) := by
  have hsome : (run (step (condProgram 2)) (Kernel.boot 2 false) condWake).isSome = true := by
    decide +kernel
  obtain ⟨k, hk⟩ := Option.isSome_iff_exists.mp hsome
  have hstate : (run (step (condProgram 2)) (Kernel.boot 2 false) condWake).map
      (fun k => (k.shared, k.pc 0, k.pc 1)) = some (true, .asleep () .test, .inside .leave) := by
    decide +kernel
  rw [hk] at hstate
  simp only [Option.map_some, Option.some.injEq, Prod.mk.injEq] at hstate
  obtain ⟨hcond, hpc₀, hpc₁⟩ := hstate
  have hmid : ∀ i, ¬ MidWakeup k i := by
    intro i
    match i with
    | 0 => simp [MidWakeup, hpc₀]
    | 1 => simp [MidWakeup, hpc₁]
  exact ⟨k, hk, hcond, hmid, (run_cond hk).1 hcond hmid⟩

end Xv6.Kern
