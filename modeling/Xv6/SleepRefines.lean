import Xv6.SleepWakeup

/-!
# `sleep` and `wakeup` make a monitor

The kernel of `SleepWakeup` is a monitor: whatever the processes do, forgetting where exactly they
are inside of `sleep`, `wakeup` and `yield` leaves a run of the monitor. A process counts as asleep
from the moment it has released `lk` in `sleep`, when it holds `ptable.lock` already.
-/

namespace Xv6.Kern

open Function
open Monitor (Program Action Place)
open Relation (ReflTransGen)

variable {n : Nat} {σ τ χ κ : Type*} {k k' : Kernel n σ τ χ} {c : Nat} {i : Fin n}

def Pc.place : Pc n τ χ → Ptable.ProcState → Place τ χ
  | .user, _ | .yieldAcquire, _ | .yieldState, _ | .yieldSched, _ | .yielded, _
  | .yieldUnlock, _ => .out
  | .enter t, _ | .sleepTidy _ t, _ | .sleepUnlock t, _ => .ready t
  | .inside t, _ => .inside t
  | .wakeAcquire c t, _ | .wakeScan c _ t, _ => .waking c t
  | .sleepAcquire c t, _ | .sleepRelease c t, _ => .parking c t
  | .sleepChan c t, _ | .sleepState c t, _ | .sleepSched c t, _ => .asleep c t
  | .asleep c t, s => if s = .sleeping then .asleep c t else .ready t

def Kernel.monitor (k : Kernel n σ τ χ) : Monitor.State (Fin n) σ τ χ where
  shared := k.shared
  place i := (k.pc i).place (k.state i)
  killed := k.killed

theorem Pc.place_holds (p : Pc n τ χ) (s : Ptable.ProcState) : (p.place s).holds ↔ p.holdsLk := by
  cases p with
  | asleep c t =>
    simp only [Pc.place, Pc.holdsLk]
    split_ifs <;> simp
  | _ => simp [Pc.place, Pc.holdsLk]

theorem monitor_move (hpc : ∀ j, j ≠ i → k'.pc j = k.pc j)
    (hst : ∀ j, j ≠ i → k'.state j = k.state j) (hkilled : k'.killed = k.killed) :
    k'.monitor = { k.monitor.move i ((k'.pc i).place (k'.state i)) with shared := k'.shared } := by
  have hplace : (fun j => (k'.pc j).place (k'.state j)) =
      update (fun j => (k.pc j).place (k.state j)) i ((k'.pc i).place (k'.state i)) := by
    funext j
    rcases eq_or_ne j i with rfl | hj
    · rw [update_self]
    · rw [update_of_ne hj, hpc j hj, hst j hj]
  simp only [Kernel.monitor, Monitor.State.move, hplace, hkilled]

/-- Who is asleep in the monitor and does not hold `ptable.lock` is SLEEPING. -/
theorem place_asleep {ch : χ} {t : τ} (h : k.monitor.place i = .asleep ch t)
    (hpt : ¬ (k.pc i).holdsPtable) : k.pc i = .asleep ch t ∧ k.state i = .sleeping := by
  have hp : (k.pc i).place (k.state i) = .asleep ch t := h
  cases hpc : k.pc i with
  | asleep c' t' =>
    rw [hpc] at hp
    simp only [Pc.place] at hp
    split_ifs at hp with hs
    cases hp
    exact ⟨rfl, hs⟩
  | _ => simp_all [Pc.place, Pc.holdsPtable]

variable {pr : Program (Fin n) σ τ χ κ} {P : Bool → τ → σ → Prop}

theorem refines_same (i : Fin n) (hplace : (k'.pc i).place (k'.state i) = (k.pc i).place (k.state i))
    (hst : ∀ j, j ≠ i → k'.state j = k.state j := by exact fun _ _ => rfl)
    (hpc : ∀ j, j ≠ i → k'.pc j = k.pc j := by exact fun j hj => update_of_ne hj _ _)
    (hkilled : k'.killed = k.killed := by rfl) (hshared : k'.shared = k.shared := by rfl) :
    ReflTransGen (Monitor.Step pr P) k.monitor k'.monitor := by
  have hself : update k.monitor.place i ((k.pc i).place (k.state i)) = k.monitor.place :=
    update_eq_self i _
  rw [monitor_move hpc hst hkilled, hplace, hshared, Monitor.State.move, hself]
  exact .refl

/-- Process `i` goes to `p`. -/
theorem refines_goto {p : Pc n τ χ} {d : σ} (l : Option (Fin n)) (q : Option (Holder n))
    (h : Monitor.Step pr P k.monitor { k.monitor.move i (p.place (k.state i)) with shared := d }) :
    ReflTransGen (Monitor.Step pr P) k.monitor
      (Kernel.monitor { k.goto i p with shared := d, lk := l, ptable := q }) := by
  have hmove := @monitor_move n σ τ χ k { k.goto i p with shared := d, lk := l, ptable := q } i
    (fun j hj => update_of_ne hj _ _) (fun _ _ => rfl) rfl
  rw [hmove]
  simpa [Kernel.goto] using .single h

theorem monitor_wake (h : Ok k) (hpt : k.ptable ≠ some (.process i)) (hs : k.state i = .sleeping) :
    Monitor.Step pr P k.monitor (k.setState i .runnable).monitor := by
  obtain ⟨c, t, hpc⟩ := h.asleep hpt hs
  have hplace : k.monitor.place i = .asleep c t := by
    simp [Kernel.monitor, hpc, Pc.place, hs]
  have hmove := @monitor_move n σ τ χ k (k.setState i .runnable) i (fun _ _ => rfl)
    (fun j hj => update_of_ne hj _ _) rfl
  have hready : ((k.setState i .runnable).pc i).place ((k.setState i .runnable).state i) =
      .ready t := by
    simp [Kernel.setState, hpc, Pc.place]
  rw [hmove, hready]
  exact Monitor.Step.wake hplace

variable [DecidableEq χ]

theorem exec_refines (h : Ok k) (he : exec pr c i k = some k')
    (hP : ∀ t, k.pc i = .inside t → P (k.killed i) t k.shared) :
    ReflTransGen (Monitor.Step pr P) k.monitor k'.monitor := by
  have hat : k.monitor.place i = (k.pc i).place (k.state i) := rfl
  have hst := h.state i
  cases hpc : k.pc i with
    (rw [hpc] at hat hst; simp only [exec, hpc, Kernel.lockPtable, reduceCtorEq] at he)
  | enter t =>
    split_ifs at he with hfree
    cases he
    refine refines_goto _ _ (Monitor.Step.acquire hat (fun j hj => ?_))
    have := (h.lk j).mpr ((Pc.place_holds _ _).mp hj)
    simp [hfree] at this
  | inside t =>
    split at he <;> cases he
    · next d t' ha => exact refines_goto _ _ (Monitor.Step.step hat (hP t hpc) ha)
    · next yes no ha => exact refines_goto _ _ (Monitor.Step.testKilled hat (hP t hpc) ha)
    · next ch t' ha => exact refines_goto _ _ (Monitor.Step.wakeup hat ha)
    · next ch t' ha => exact refines_goto _ _ (Monitor.Step.sleep hat ha)
    · next ha => exact refines_goto _ _ (Monitor.Step.release hat ha)
  | wakeAcquire ch t | sleepAcquire ch t | yieldAcquire =>
    split_ifs at he with hfree
    cases he
    exact refines_same i (by simp [Kernel.goto, hpc, Pc.place])
  | wakeScan ch rest t =>
    have hpt := (h.ptable i).mpr (by rw [hpc]; trivial)
    cases rest with
    | nil =>
      cases he
      refine refines_goto _ _ (Monitor.Step.woken hat (fun j t' hj => ?_))
      -- nobody else is inside of `sleep`, and the scan has passed everybody
      have hji : ¬ (k.pc j).holdsPtable := by
        intro hj'
        have := (h.ptable j).mpr hj'
        simp only [hpt, Option.some.injEq, Holder.process.injEq] at this
        rw [← this] at hj
        simp [Kernel.monitor, hpc, Pc.place] at hj
      obtain ⟨hasleep, hsl⟩ := place_asleep hj hji
      exact List.not_mem_nil (h.scan i ch [] t j t' hpc hasleep hsl)
    | cons p rest =>
      obtain ⟨-, hpc₁, -⟩ := h.scanned hpc rfl
      cases he
      refine .trans (b := Kernel.monitor (if k.state p = .sleeping ∧ k.chan p = some ch then
        k.setState p .runnable else k)) ?_ (refines_same i (by simp [Kernel.goto, hpc₁, Pc.place]))
      split_ifs with hcond
      · refine .single (monitor_wake h ?_ hcond.1)
        intro hp
        simp only [hpt, Option.some.injEq, Holder.process.injEq] at hp
        rw [← hp] at hcond
        simp [show k.state i = .running from hst] at hcond
      · exact .refl
  | sleepRelease ch t =>
    cases he
    exact refines_goto _ _ (Monitor.Step.park hat)
  | sleepChan ch t | sleepTidy ch t | sleepUnlock t | yieldUnlock =>
    cases he
    exact refines_same i (by simp [Kernel.goto, hpc, Pc.place])
  | sleepState ch t | yieldState =>
    cases he
    exact refines_same i (by simp [Kernel.goto, hpc, Pc.place]) (fun j hj => update_of_ne hj _ _)
  | sleepSched ch t =>
    cases he
    exact refines_same i
      (by simp [Kernel.goto, Kernel.setCpu, hpc, Pc.place, show k.state i = .sleeping from hst])
  | yieldSched =>
    cases he
    exact refines_same i (by simp [Kernel.goto, Kernel.setCpu, hpc, Pc.place])

/-- `P` is true of the step, if it is one on the data or a test of `killed`. -/
def Allowed (P : Bool → τ → σ → Prop) (k : Kernel n σ τ χ) (e : Event n κ) : Prop :=
  ∀ c i t, e = .exec c → k.cpu c = .running i → k.pc i = .inside t → P (k.killed i) t k.shared

theorem step_refines {e : Event n κ} (h : Ok k) (hs : step pr k e = some k')
    (hP : Allowed P k e) : ReflTransGen (Monitor.Step pr P) k.monitor k'.monitor := by
  cases e with
  | start c call =>
    obtain ⟨i, -, hpc, rfl⟩ := step_start hs
    exact refines_goto _ _ (Monitor.Step.start call (by simp [Kernel.monitor, hpc, Pc.place]))
  | yield c =>
    obtain ⟨i, -, hpc, rfl⟩ := step_yield hs
    exact refines_same i (by simp [Kernel.goto, hpc, Pc.place])
  | exec c =>
    obtain ⟨i, hi, he⟩ := step_exec hs
    exact exec_refines h he (fun t hpc => hP c i t rfl hi hpc)
  | schedule c | unschedule c | killLock | killUnlock =>
    simp only [step] at hs
    split_ifs at hs
    cases hs
    exact .refl
  | dispatch c i =>
    simp only [step] at hs
    split_ifs at hs with hcond
    cases hs
    have hst := h.state i
    have hpt := (h.sched c).mpr (Or.inl hcond.1)
    have hnot : ¬ (k.pc i).holdsPtable := by
      intro hp
      have := (h.ptable i).mpr hp
      simp [hpt] at this
    refine refines_same i ?_ (fun j hj => update_of_ne hj _ _)
    rw [hcond.2] at hst
    cases hpc : k.pc i <;>
      simp_all [Kernel.goto, Kernel.setCpu, Kernel.setState, Pc.place, Pc.resumed, Pc.StateOk,
        Pc.holdsPtable]
  | kill i =>
    simp only [step] at hs
    split_ifs at hs with hpt hsl
    · cases hs
      refine .tail (.single (monitor_wake h (by simp [hpt]) hsl)) ?_
      exact Monitor.Step.kill i
    · cases hs
      have hsame : update k.state i (k.state i) = k.state := update_eq_self i _
      simp only [hsame]
      exact .single (Monitor.Step.kill i)

variable {es : List (Event n κ)} {d : σ}

/-- A run of the kernel is a run of the monitor. -/
theorem run_refines (halong : Along (step pr) (Allowed P) (Kernel.boot n d) es)
    (hrun : run (step pr) (Kernel.boot n d) es = some k) :
    Ok k ∧ ReflTransGen (Monitor.Step pr P) (Kernel.boot n d).monitor k.monitor := by
  refine run_invariant_along (step pr) (I := fun k =>
    Ok k ∧ ReflTransGen (Monitor.Step pr P) (Kernel.boot n d).monitor k.monitor) ?_
    ⟨boot_ok d, .refl⟩ halong hrun
  rintro k e k' ⟨hok, hsteps⟩ hallowed hs
  exact ⟨step_ok hok hs, hsteps.trans (step_refines hok hs hallowed)⟩

variable {K : Fin n → Place τ χ → σ → Prop} {I : σ → Prop} {W : χ → σ → Prop} {owes : χ → τ → Prop}

omit [DecidableEq χ] in
theorem boot_holds (hout : ∀ i, K i .out d) (hI : I d) :
    Monitor.Holds K I (Kernel.boot n d).monitor := by
  refine ⟨hout, fun _ => hI, ?_⟩
  intro i j hi
  simp [Kernel.monitor, Kernel.boot, Pc.place] at hi

theorem run_holds (hA : Monitor.Assertions pr P K I) (hout : ∀ i, K i .out d) (hI : I d)
    (halong : Along (step pr) (Allowed P) (Kernel.boot n d) es)
    (hrun : run (step pr) (Kernel.boot n d) es = some k) : Monitor.Holds K I k.monitor :=
  hA.holds_steps (boot_holds hout hI) (run_refines halong hrun).2

/-- Whoever sleeps has a reason to, or the process that holds `lk` is going to wake it up. -/
theorem run_sleeping (hA : Monitor.Assertions pr P K I) (hS : Monitor.Signals pr P K W owes)
    (hout : ∀ i, K i .out d) (hI : I d) (halong : Along (step pr) (Allowed P) (Kernel.boot n d) es)
    (hrun : run (step pr) (Kernel.boot n d) es = some k) {ch : χ} (hs : k.state i = .sleeping)
    (hch : k.chan i = some ch) :
    (∃ t, k.monitor.place i = .asleep ch t) ∧
      (W ch k.shared ∨ ∃ j, (k.monitor.place j).owes owes ch) := by
  obtain ⟨hok, hsteps⟩ := run_refines halong hrun
  have hsig : Monitor.Signalled W owes k.monitor := by
    refine hS.signalled_steps hA (boot_holds hout hI) ?_ hsteps
    intro i c t hi
    simp [Kernel.monitor, Kernel.boot, Pc.place] at hi
  obtain ⟨t, hplace⟩ : ∃ t, k.monitor.place i = .asleep ch t := by
    rcases hok.sleeping hs with ⟨c', t, hpc⟩ | ⟨c', t, hpc⟩
    · have hc' := hok.chan i c' (by rw [hpc]; rfl)
      obtain rfl : ch = c' := Option.some.inj (hch.symm.trans hc')
      exact ⟨t, by simp [Kernel.monitor, hpc, Pc.place]⟩
    · have hc' := hok.chan i c' (by rw [hpc]; rfl)
      obtain rfl : ch = c' := Option.some.inj (hch.symm.trans hc')
      exact ⟨t, by simp [Kernel.monitor, hpc, Pc.place, hs]⟩
  exact ⟨⟨t, hplace⟩, hsig i ch t (Or.inl hplace)⟩

/-! ### Calls with a precondition -/

/-- The local state of a process that is in a call. -/
def Pc.local? : Pc n τ χ → Option τ
  | .enter t | .inside t | .wakeAcquire _ t | .wakeScan _ _ t | .sleepAcquire _ t
  | .sleepRelease _ t | .sleepChan _ t | .sleepState _ t | .sleepSched _ t | .asleep _ t
  | .sleepTidy _ t | .sleepUnlock t => some t
  | .user | .yieldAcquire | .yieldState | .yieldSched | .yielded | .yieldUnlock => none

/-- What process `i` relies on from the beginning of a call on, whatever the others do. -/
structure Stable (pr : Program (Fin n) σ τ χ κ) (Q : Fin n → τ → σ → Prop) : Prop where
  step : ∀ i t t' d d', Q i t d → pr.act t d = .step d' t' →
    Q i t' d' ∧ ∀ j, j ≠ i → ∀ u, Q j u d → Q j u d'
  testKilled : ∀ i (b : Bool) t yes no d, Q i t d → pr.act t d = .testKilled yes no →
    Q i (if b then yes else no) d
  wakeup : ∀ i t t' ch d, Q i t d → pr.act t d = .wakeup ch t' → Q i t' d
  sleep : ∀ i t t' ch d, Q i t d → pr.act t d = .sleep ch t' → Q i t' d

def Relied (Q : Fin n → τ → σ → Prop) (k : Kernel n σ τ χ) : Prop :=
  ∀ i t, (k.pc i).local? = some t → Q i t k.shared

variable {Q : Fin n → τ → σ → Prop}

omit [DecidableEq χ] in
theorem local_goto {p : Pc n τ χ} {t u : τ} (h : (update k.pc i p i).local? = some u)
    (hp : p.local? = some t := by rfl) : t = u := by
  rw [update_self, hp] at h
  exact Option.some.inj h

omit [DecidableEq χ] in
theorem Relied.moved (h : Relied Q k) (i : Fin n) (hi : ∀ t, (k'.pc i).local? = some t → Q i t k.shared)
    (hpc : ∀ j, j ≠ i → k'.pc j = k.pc j := by exact fun j hj => update_of_ne hj _ _)
    (hsh : k'.shared = k.shared := by rfl) : Relied Q k' := by
  intro j t hj
  rw [hsh]
  rcases eq_or_ne j i with rfl | hji
  · exact hi t hj
  · rw [hpc j hji] at hj
    exact h j t hj

omit [DecidableEq χ] in
theorem Relied.same (h : Relied Q k) (i : Fin n)
    (hi : (k'.pc i).local? = (k.pc i).local? ∨ (k'.pc i).local? = none)
    (hpc : ∀ j, j ≠ i → k'.pc j = k.pc j := by exact fun j hj => update_of_ne hj _ _)
    (hsh : k'.shared = k.shared := by rfl) : Relied Q k' := by
  refine h.moved i ?_ hpc hsh
  intro t ht
  rcases hi with heq | hnone
  · exact h i t (heq ▸ ht)
  · rw [hnone] at ht
    cases ht

theorem exec_relied (hQ : Stable pr Q) (h : Relied Q k) (he : exec pr c i k = some k') :
    Relied Q k' := by
  cases hpc : k.pc i with simp only [exec, hpc, Kernel.lockPtable, reduceCtorEq] at he
  | inside t =>
    have ht := h i t (by rw [hpc]; rfl)
    split at he <;> cases he
    · next d t' ha =>
      obtain ⟨hown, hothers⟩ := hQ.step i t t' _ d ht ha
      intro j u hj
      rcases eq_or_ne j i with rfl | hji
      · exact local_goto hj ▸ hown
      · simp only [Kernel.goto, update_of_ne hji] at hj
        exact hothers j hji u (h j u hj)
    · next yes no ha => exact h.moved i (fun u hu => local_goto hu ▸ hQ.testKilled i _ t yes no _ ht ha)
    · next ch t' ha => exact h.moved i (fun u hu => local_goto hu ▸ hQ.wakeup i t t' ch _ ht ha)
    · next ch t' ha => exact h.moved i (fun u hu => local_goto hu ▸ hQ.sleep i t t' ch _ ht ha)
    · exact h.same i (Or.inr (by simp [Kernel.goto, Pc.local?]))
  | wakeScan ch rest t =>
    cases rest with
    | nil =>
      cases he
      exact h.same i (Or.inl (by simp [Kernel.goto, hpc, Pc.local?]))
    | cons p rest =>
      cases he
      split_ifs <;> exact h.same i (Or.inl (by simp [Kernel.goto, hpc, Pc.local?]))
  | enter t | wakeAcquire ch t | sleepAcquire ch t | yieldAcquire =>
    split_ifs at he
    cases he
    exact h.same i (Or.inl (by simp [Kernel.goto, hpc, Pc.local?]))
  | _ =>
    cases he
    exact h.same i (by simp [Kernel.goto, Kernel.setCpu, hpc, Pc.local?])

/-- What the calls rely on is true as long as it is at their beginning. -/
theorem step_relied {e : Event n κ} (hQ : Stable pr Q) (h : Relied Q k)
    (hstart : ∀ c call i, e = .start c call → k.cpu c = .running i → Q i (pr.start i call) k.shared)
    (hs : step pr k e = some k') : Relied Q k' := by
  cases e with
  | start c call =>
    obtain ⟨i, hi, -, rfl⟩ := step_start hs
    exact h.moved i (fun u hu => local_goto hu ▸ hstart c call i rfl hi)
  | yield c =>
    obtain ⟨i, -, -, rfl⟩ := step_yield hs
    exact h.same i (Or.inr (by simp [Kernel.goto, Pc.local?]))
  | exec c =>
    obtain ⟨i, -, he⟩ := step_exec hs
    exact exec_relied hQ h he
  | dispatch c i =>
    simp only [step] at hs
    split_ifs at hs
    cases hs
    refine h.same i ?_
    cases k.pc i <;> simp [Kernel.goto, Kernel.setState, Kernel.setCpu, Pc.resumed, Pc.local?]
  | kill i =>
    simp only [step] at hs
    split at hs
    · cases hs
      exact h
    · cases hs
  | _ =>
    simp only [step] at hs
    split_ifs at hs
    cases hs
    exact h

end Xv6.Kern
