import Mathlib.Tactic.TypeStar

/-!
# Runs of a step function

A system is a partial step function on a state type: `step s e = none` when event `e` is not
enabled in state `s`. `run` performs a list of events, `Along` says that a condition on the state
before a step and on the step itself holds at every step of a run, and `run_invariant` and
`run_invariant_along` are the two induction rules.
-/

namespace Xv6

variable {σ ε : Type*} (step : σ → ε → Option σ)

def run (s : σ) : List ε → Option σ
  | [] => some s
  | e :: es => (step s e).bind (fun s' => run s' es)

def Along (C : σ → ε → Prop) (s : σ) : List ε → Prop
  | [] => True
  | e :: es => C s e ∧ ∀ s', step s e = some s' → Along C s' es

variable {es : List ε} {s s' : σ}

theorem run_cons {e : ε} :
    run step s (e :: es) = some s' ↔ ∃ t, step s e = some t ∧ run step t es = some s' := by
  simp only [run, Option.bind_eq_some_iff]

theorem along_cons {C : σ → ε → Prop} {s t : σ} {e : ε} (hc : C s e)
    (ht : step s e = some t) (h : Along step C t es) : Along step C s (e :: es) := by
  refine ⟨hc, ?_⟩
  intro s' hs'
  rw [ht] at hs'
  exact Option.some.inj hs' ▸ h

theorem along_of_mem {C : σ → ε → Prop} {s : σ} (h : ∀ t, ∀ e ∈ es, C t e) : Along step C s es := by
  induction es generalizing s with
  | nil => trivial
  | cons e es ih =>
    exact ⟨h s e List.mem_cons_self, fun t _ => ih (fun t e he => h t e (List.mem_cons_of_mem _ he))⟩

/-- A test for `Along` on a given run. -/
def alongB (C : σ → ε → Bool) (s : σ) : List ε → Bool
  | [] => true
  | e :: es => C s e && match step s e with
    | some s' => alongB C s' es
    | none => true

theorem along_of_alongB {C : σ → ε → Prop} {C' : σ → ε → Bool} (hC : ∀ s e, C' s e = true → C s e)
    {s : σ} (h : alongB step C' s es = true) : Along step C s es := by
  induction es generalizing s with
  | nil => trivial
  | cons e es ih =>
    simp only [alongB, Bool.and_eq_true] at h
    refine ⟨hC s e h.1, fun s' hs' => ih ?_⟩
    simpa [hs'] using h.2

theorem run_append {es fs : List ε} :
    run step s (es ++ fs) = some s' ↔ ∃ t, run step s es = some t ∧ run step t fs = some s' := by
  induction es generalizing s with
  | nil => simp [run]
  | cons e es ih =>
    simp only [List.cons_append, run_cons, ih]
    constructor
    · rintro ⟨t, ht, u, hu, hs⟩
      exact ⟨u, ⟨t, ht, hu⟩, hs⟩
    · rintro ⟨u, ⟨t, ht, hu⟩, hs⟩
      exact ⟨t, ht, u, hu, hs⟩

theorem along_append {C : σ → ε → Prop} {s t : σ} {es fs : List ε} (hes : Along step C s es)
    (ht : run step s es = some t) (hfs : Along step C t fs) : Along step C s (es ++ fs) := by
  induction es generalizing s with
  | nil =>
    cases ht
    exact hfs
  | cons e es ih =>
    obtain ⟨u, hu, hrest⟩ := (run_cons step).mp ht
    exact along_cons step hes.1 hu (ih (hes.2 u hu) hrest)

/-- The rule for runs whose steps all meet a condition. -/
theorem run_invariant_along {I : σ → Prop} {C : σ → ε → Prop}
    (hstep : ∀ s e s', I s → C s e → step s e = some s' → I s')
    (hs : I s) (hc : Along step C s es) (hr : run step s es = some s') : I s' := by
  induction es generalizing s with
  | nil =>
    have he : s = s' := by simpa [run] using hr
    exact he ▸ hs
  | cons e es ih =>
    obtain ⟨t, ht, hrest⟩ := (run_cons step).mp hr
    exact ih (hstep s e t hs hc.1 ht) (hc.2 t ht) hrest

theorem run_invariant {I : σ → Prop} (hstep : ∀ s e s', I s → step s e = some s' → I s')
    (hs : I s) (hr : run step s es = some s') : I s' :=
  run_invariant_along step (fun s e s' h _ => hstep s e s' h) hs
    (along_of_mem (C := fun _ _ => True) step (fun _ _ _ => trivial)) hr

end Xv6
