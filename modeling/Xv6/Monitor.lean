import Mathlib.Logic.Function.Basic
import Mathlib.Logic.Relation

/-!
# Monitors

Threads share data of type `σ` under one lock. A thread that holds the lock works on the data and
on its local state `τ`, wakes the sleepers of a channel, sleeps on a channel or leaves. Going to
sleep and releasing the lock are one step. A sleeper may wake up at any time; `wakeup` has done its
work when nobody sleeps on the channel.

There are two rules for runs. `Assertions` is the rule of assertions: one for each place that a
thread can be at, and an invariant of the data for the times at which the lock is free. `Signals`
is the rule for sleepers: whoever sleeps on a channel has a reason to, or the thread that holds the
lock owes it a wakeup.
-/

namespace Xv6.Monitor

open Function

variable {ι σ τ χ κ : Type*}

/-- What a thread does next while it holds the lock. -/
inductive Action (σ τ χ : Type*)
  | step (s : σ) (t : τ)
  | testKilled (yes no : τ)
  | wakeup (c : χ) (t : τ)
  | sleep (c : χ) (t : τ)
  | release

/-- `start` is the local state at the beginning of a call. -/
structure Program (ι σ τ χ κ : Type*) where
  start : ι → κ → τ
  act : τ → σ → Action σ τ χ

inductive Place (τ χ : Type*)
  | out
  /-- Waits for the lock. -/
  | ready (t : τ)
  | inside (t : τ)
  /-- In `wakeup`. -/
  | waking (c : χ) (t : τ)
  /-- Has called `sleep` and holds the lock still. -/
  | parking (c : χ) (t : τ)
  | asleep (c : χ) (t : τ)

namespace Place

def holds : Place τ χ → Prop
  | inside _ | waking _ _ | parking _ _ => True
  | out | ready _ | asleep _ _ => False

@[simp] theorem holds_out : (out : Place τ χ).holds ↔ False := Iff.rfl

@[simp] theorem holds_ready (t : τ) : (ready t : Place τ χ).holds ↔ False := Iff.rfl

@[simp] theorem holds_inside (t : τ) : (inside t : Place τ χ).holds ↔ True := Iff.rfl

@[simp] theorem holds_waking (c : χ) (t : τ) : (waking c t).holds ↔ True := Iff.rfl

@[simp] theorem holds_parking (c : χ) (t : τ) : (parking c t).holds ↔ True := Iff.rfl

@[simp] theorem holds_asleep (c : χ) (t : τ) : (asleep c t).holds ↔ False := Iff.rfl

end Place

structure State (ι σ τ χ : Type*) where
  shared : σ
  place : ι → Place τ χ
  killed : ι → Bool

variable [DecidableEq ι]

/-- Thread `i` moves to place `p`. -/
def State.move (s : State ι σ τ χ) (i : ι) (p : Place τ χ) : State ι σ τ χ :=
  { s with place := update s.place i p }

/-- The steps of the monitor. `P` restricts the steps on the data and the tests of `killed`; it is
true of all of them where nothing is to be excluded. -/
inductive Step (pr : Program ι σ τ χ κ) (P : Bool → τ → σ → Prop) :
    State ι σ τ χ → State ι σ τ χ → Prop
  | start {s : State ι σ τ χ} {i : ι} (k : κ) (hi : s.place i = .out) :
      Step pr P s (s.move i (.ready (pr.start i k)))
  | acquire {s : State ι σ τ χ} {i : ι} {t : τ} (hi : s.place i = .ready t)
      (hfree : ∀ j, ¬ (s.place j).holds) : Step pr P s (s.move i (.inside t))
  | step {s : State ι σ τ χ} {i : ι} {t t' : τ} {d : σ} (hi : s.place i = .inside t)
      (hP : P (s.killed i) t s.shared) (ha : pr.act t s.shared = .step d t') :
      Step pr P s { s.move i (.inside t') with shared := d }
  | testKilled {s : State ι σ τ χ} {i : ι} {t yes no : τ} (hi : s.place i = .inside t)
      (hP : P (s.killed i) t s.shared) (ha : pr.act t s.shared = .testKilled yes no) :
      Step pr P s (s.move i (.inside (if s.killed i then yes else no)))
  | wakeup {s : State ι σ τ χ} {i : ι} {t t' : τ} {c : χ} (hi : s.place i = .inside t)
      (ha : pr.act t s.shared = .wakeup c t') : Step pr P s (s.move i (.waking c t'))
  | woken {s : State ι σ τ χ} {i : ι} {t : τ} {c : χ} (hi : s.place i = .waking c t)
      (hnone : ∀ j t', s.place j ≠ .asleep c t') : Step pr P s (s.move i (.inside t))
  | sleep {s : State ι σ τ χ} {i : ι} {t t' : τ} {c : χ} (hi : s.place i = .inside t)
      (ha : pr.act t s.shared = .sleep c t') : Step pr P s (s.move i (.parking c t'))
  | park {s : State ι σ τ χ} {i : ι} {t : τ} {c : χ} (hi : s.place i = .parking c t) :
      Step pr P s (s.move i (.asleep c t))
  | wake {s : State ι σ τ χ} {i : ι} {t : τ} {c : χ} (hi : s.place i = .asleep c t) :
      Step pr P s (s.move i (.ready t))
  | release {s : State ι σ τ χ} {i : ι} {t : τ} (hi : s.place i = .inside t)
      (ha : pr.act t s.shared = .release) : Step pr P s (s.move i .out)
  | kill {s : State ι σ τ χ} (i : ι) : Step pr P s { s with killed := update s.killed i true }

variable {pr : Program ι σ τ χ κ} {P : Bool → τ → σ → Prop} {s s' : State ι σ τ χ}

/-! ### Assertions -/

/-- `K i p d` is true of thread `i` at place `p` with the data `d`, and `I` is true of the data
when the lock is free. -/
structure Assertions (pr : Program ι σ τ χ κ) (P : Bool → τ → σ → Prop)
    (K : ι → Place τ χ → σ → Prop) (I : σ → Prop) : Prop where
  start : ∀ i k d, K i .out d → K i (.ready (pr.start i k)) d
  acquire : ∀ i t d, K i (.ready t) d → I d → K i (.inside t) d
  step : ∀ i b t t' d d', K i (.inside t) d → P b t d → pr.act t d = .step d' t' →
    K i (.inside t') d' ∧ ∀ j, j ≠ i → ∀ p, ¬ p.holds → K j p d → K j p d'
  testKilled : ∀ i b t yes no d, K i (.inside t) d → P b t d → pr.act t d = .testKilled yes no →
    K i (.inside (if b then yes else no)) d
  wakeup : ∀ i t t' c d, K i (.inside t) d → pr.act t d = .wakeup c t' → K i (.waking c t') d
  woken : ∀ i t c d, K i (.waking c t) d → K i (.inside t) d
  sleep : ∀ i t t' c d, K i (.inside t) d → pr.act t d = .sleep c t' → K i (.parking c t') d
  park : ∀ i t c d, K i (.parking c t) d → K i (.asleep c t) d ∧ I d
  wake : ∀ i t c d, K i (.asleep c t) d → K i (.ready t) d
  release : ∀ i t d, K i (.inside t) d → pr.act t d = .release → K i .out d ∧ I d

structure Holds (K : ι → Place τ χ → σ → Prop) (I : σ → Prop) (s : State ι σ τ χ) : Prop where
  place : ∀ i, K i (s.place i) s.shared
  free : (∀ i, ¬ (s.place i).holds) → I s.shared
  unique : ∀ i j, (s.place i).holds → (s.place j).holds → i = j

variable {K : ι → Place τ χ → σ → Prop} {I : σ → Prop}

variable {p : Place τ χ}

theorem Holds.move (h : Holds K I s) {i : ι} (hp : K i p s.shared)
    (hfree : ¬ p.holds → (s.place i).holds → I s.shared)
    (hhold : p.holds → (s.place i).holds ∨ ∀ j, ¬ (s.place j).holds) : Holds K I (s.move i p) := by
  have hother : ∀ j, j ≠ i → (s.move i p).place j = s.place j := fun j hj =>
    update_of_ne hj _ _
  have hself : (s.move i p).place i = p := update_self _ _ _
  refine ⟨?_, ?_, ?_⟩
  · intro j
    rcases eq_or_ne j i with rfl | hj
    · rw [hself]
      exact hp
    · rw [hother j hj]
      exact h.place j
  · intro hnone
    have hpi : ¬ p.holds := by
      have := hnone i
      rwa [hself] at this
    by_cases hi : (s.place i).holds
    · exact hfree hpi hi
    · refine h.free (fun j => ?_)
      rcases eq_or_ne j i with rfl | hj
      · exact hi
      · have := hnone j
        rwa [hother j hj] at this
  · -- whoever holds the lock after the move has held it before
    have hback : ∀ j, ((s.move i p).place j).holds →
        j = i ∨ j ≠ i ∧ (s.place j).holds ∧ (p.holds → (s.place i).holds) := by
      intro j hj
      rcases eq_or_ne j i with rfl | hne
      · exact Or.inl rfl
      · rw [hother j hne] at hj
        refine Or.inr ⟨hne, hj, fun hph => ?_⟩
        exact (hhold hph).resolve_right (fun hn => hn j hj)
    intro j l hj hl
    rcases hback j hj with rfl | ⟨hji, hjh, hjp⟩ <;> rcases hback l hl with hli | ⟨hli, hlh, hlp⟩
    · exact hli.symm
    · rw [hself] at hj
      exact h.unique j l (hlp hj) hlh
    · subst hli
      rw [hself] at hl
      exact h.unique j l hjh (hjp hl)
    · exact h.unique j l hjh hlh

theorem Assertions.holds_step (hA : Assertions pr P K I) (h : Holds K I s)
    (hs : Step pr P s s') : Holds K I s' := by
  have hat : ∀ {i p}, s.place i = p → K i p s.shared := by
    intro i p hi
    rw [← hi]
    exact h.place i
  cases hs with
  | @start i k hi =>
    refine h.move (hA.start i k _ (hat hi)) (fun _ hh => ?_) (by simp)
    simp [hi] at hh
  | @acquire i t hi hfree =>
    exact h.move (hA.acquire i t _ (hat hi) (h.free hfree)) (by simp) (fun _ => Or.inr hfree)
  | @step i t t' d hi hP ha =>
    obtain ⟨hself, hother⟩ := hA.step i _ t t' _ d (hat hi) hP ha
    have hlock : (s.place i).holds := by simp [hi]
    have hmove : Holds (fun _ _ _ => True) (fun _ => True) (s.move i (.inside t')) :=
      (Holds.mk (fun _ => trivial) (fun _ => trivial) h.unique : Holds (fun _ _ _ => True)
        (fun _ => True) s).move trivial (fun _ _ => trivial) (fun _ => Or.inl hlock)
    refine ⟨?_, ?_, hmove.unique⟩
    · intro j
      rcases eq_or_ne j i with rfl | hj
      · simpa [State.move] using hself
      · simp only [State.move, update_of_ne hj]
        exact hother j hj _ (fun hh => hj (h.unique j i hh hlock)) (h.place j)
    · intro hnone
      have := hnone i
      simp [State.move] at this
  | @testKilled i t yes no hi hP ha =>
    exact h.move (hA.testKilled i _ t yes no _ (hat hi) hP ha) (by simp)
      (fun _ => Or.inl (by simp [hi]))
  | @wakeup i t t' c hi ha =>
    exact h.move (hA.wakeup i t t' c _ (hat hi) ha) (by simp) (fun _ => Or.inl (by simp [hi]))
  | @woken i t c hi hnone =>
    exact h.move (hA.woken i t c _ (hat hi)) (by simp) (fun _ => Or.inl (by simp [hi]))
  | @sleep i t t' c hi ha =>
    exact h.move (hA.sleep i t t' c _ (hat hi) ha) (by simp) (fun _ => Or.inl (by simp [hi]))
  | @park i t c hi =>
    obtain ⟨hK, hI⟩ := hA.park i t c _ (hat hi)
    exact h.move hK (fun _ _ => hI) (by simp)
  | @wake i t c hi =>
    refine h.move (hA.wake i t c _ (hat hi)) (fun _ hh => ?_) (by simp)
    simp [hi] at hh
  | @release i t hi ha =>
    obtain ⟨hK, hI⟩ := hA.release i t _ (hat hi) ha
    exact h.move hK (fun _ _ => hI) (by simp)
  | kill i => exact ⟨h.place, h.free, h.unique⟩

theorem Assertions.holds_steps (hA : Assertions pr P K I) (h : Holds K I s)
    (hs : Relation.ReflTransGen (Step pr P) s s') : Holds K I s' := by
  induction hs with
  | refl => exact h
  | tail _ hs ih => exact hA.holds_step ih hs

/-! ### Wakeups -/

/-- A thread may sleep on `c` while `W c` is true of the data; one with local state `t` is going to
call `wakeup` on `c` before it gives up the lock if `owes c t`. -/
structure Signals (pr : Program ι σ τ χ κ) (P : Bool → τ → σ → Prop)
    (K : ι → Place τ χ → σ → Prop) (W : χ → σ → Prop) (owes : χ → τ → Prop) : Prop where
  step : ∀ i b t t' d d', K i (.inside t) d → P b t d → pr.act t d = .step d' t' →
    ∀ c, W c d ∨ owes c t → W c d' ∨ owes c t'
  testKilled : ∀ i b t yes no d, K i (.inside t) d → P b t d → pr.act t d = .testKilled yes no →
    ∀ c, W c d ∨ owes c t → W c d ∨ owes c (if b then yes else no)
  wakeup : ∀ i t t' c' d, K i (.inside t) d → pr.act t d = .wakeup c' t' →
    ∀ c, c ≠ c' → W c d ∨ owes c t → W c d ∨ owes c t'
  sleep : ∀ i t t' c' d, K i (.inside t) d → pr.act t d = .sleep c' t' →
    W c' d ∧ ∀ c, W c d ∨ owes c t → W c d
  release : ∀ i t d, K i (.inside t) d → pr.act t d = .release →
    ∀ c, W c d ∨ owes c t → W c d

/-- A thread at this place is going to complete a `wakeup` on `c` before it gives up the lock. -/
def Place.owes (owes : χ → τ → Prop) (c : χ) : Place τ χ → Prop
  | .inside t => owes c t
  | .waking c' t => c = c' ∨ owes c t
  | _ => False

theorem Place.holds_of_owes {owes : χ → τ → Prop} {c : χ} (h : p.owes owes c) : p.holds := by
  cases p <;> trivial

def Signalled (W : χ → σ → Prop) (owes : χ → τ → Prop) (s : State ι σ τ χ) : Prop :=
  ∀ i c t, s.place i = .asleep c t ∨ s.place i = .parking c t →
    W c s.shared ∨ ∃ j, (s.place j).owes owes c

variable {W : χ → σ → Prop} {owes : χ → τ → Prop}

omit [DecidableEq ι] in
theorem Signalled.at_holder (h : Signalled W owes s)
    (hu : ∀ i j, (s.place i).holds → (s.place j).holds → i = j) {i j : ι} {c : χ} {t : τ}
    (hi : s.place i = .asleep c t ∨ s.place i = .parking c t) (hj : (s.place j).holds) :
    W c s.shared ∨ (s.place j).owes owes c := by
  rcases h i c t hi with hW | ⟨l, hl⟩
  · exact Or.inl hW
  · rw [← hu l j (Place.holds_of_owes hl) hj]
    exact Or.inr hl

theorem Signalled.move (h : Signalled W owes s)
    (hu : ∀ i j, (s.place i).holds → (s.place j).holds → i = j) {j : ι} {d : σ}
    (hj : (s.place j).holds)
    (hW : ∀ i c t, s.place i = .asleep c t → W c s.shared ∨ (s.place j).owes owes c →
      W c d ∨ p.owes owes c)
    (hp : ∀ c t, p = .asleep c t ∨ p = .parking c t → W c d) :
    Signalled W owes { s.move j p with shared := d } := by
  intro i c t hi
  rcases eq_or_ne i j with rfl | hij
  · simp only [State.move, update_self] at hi
    exact Or.inl (hp c t hi)
  · simp only [State.move, update_of_ne hij] at hi
    have hasleep : s.place i = .asleep c t := by
      refine hi.resolve_right (fun hpark => hij (hu i j ?_ hj))
      simp [hpark]
    rcases hW i c t hasleep (h.at_holder hu hi hj) with hd | ho
    · exact Or.inl hd
    · exact Or.inr ⟨j, by simpa [State.move] using ho⟩

theorem Signalled.move_free (h : Signalled W owes s) {j : ι} (hj : ¬ (s.place j).holds)
    (hp : ∀ c t, p ≠ .asleep c t ∧ p ≠ .parking c t) : Signalled W owes (s.move j p) := by
  intro i c t hi
  rcases eq_or_ne i j with rfl | hij
  · simp only [State.move, update_self] at hi
    rcases hi with hi | hi
    · exact absurd hi (hp c t).1
    · exact absurd hi (hp c t).2
  · simp only [State.move, update_of_ne hij] at hi
    rcases h i c t hi with hW | ⟨l, hl⟩
    · exact Or.inl hW
    · have hlj : l ≠ j := by
        rintro rfl
        exact hj (Place.holds_of_owes hl)
      exact Or.inr ⟨l, by simpa [State.move, hlj] using hl⟩

theorem Signals.signalled_step (hS : Signals pr P K W owes) (hK : Holds K I s)
    (h : Signalled W owes s) (hs : Step pr P s s') : Signalled W owes s' := by
  have hat : ∀ {i p}, s.place i = p → K i p s.shared := by
    intro i p hi
    rw [← hi]
    exact hK.place i
  have hu := hK.unique
  cases hs with
  | @start i k hi => exact h.move_free (by simp [hi]) (by simp)
  | @acquire i t hi hfree => exact h.move_free (by simp [hi]) (by simp)
  | @step i t t' d hi hP ha =>
    refine h.move hu (by simp [hi]) ?_ (by simp)
    intro l c tl _ hl
    rw [hi] at hl
    exact hS.step i _ t t' _ d (hat hi) hP ha c hl
  | @testKilled i t yes no hi hP ha =>
    refine h.move hu (by simp [hi]) ?_ (by simp)
    intro l c tl _ hl
    rw [hi] at hl
    exact hS.testKilled i _ t yes no _ (hat hi) hP ha c hl
  | @wakeup i t t' c' hi ha =>
    refine h.move hu (by simp [hi]) ?_ (by simp)
    intro l c tl _ hl
    rw [hi] at hl
    by_cases hcc : c = c'
    · exact Or.inr (Or.inl hcc)
    · rcases hS.wakeup i t t' c' _ (hat hi) ha c hcc hl with hW | ho
      · exact Or.inl hW
      · exact Or.inr (Or.inr ho)
  | @woken i t c' hi hnone =>
    refine h.move hu (by simp [hi]) ?_ (by simp)
    intro l c tl hasleep hl
    rw [hi] at hl
    rcases hl with hW | rfl | ho
    · exact Or.inl hW
    · exact absurd hasleep (hnone l tl)
    · exact Or.inr ho
  | @sleep i t t' c' hi ha =>
    obtain ⟨hW', hall⟩ := hS.sleep i t t' c' _ (hat hi) ha
    refine h.move hu (by simp [hi]) ?_ ?_
    · intro l c tl _ hl
      rw [hi] at hl
      exact Or.inl (hall c hl)
    · rintro c tl (hc | hc)
      · cases hc
      · cases hc
        exact hW'
  | @park i t c' hi =>
    have hW' : W c' s.shared := by
      have hh := h.at_holder hu (j := i) (Or.inr hi) (by simp [hi])
      rw [hi] at hh
      exact hh.resolve_right id
    refine h.move hu (by simp [hi]) ?_ ?_
    · intro l c tl _ hl
      rw [hi] at hl
      exact Or.inl (hl.resolve_right id)
    · rintro c tl (hc | hc)
      · cases hc
        exact hW'
      · cases hc
  | @wake i t c hi => exact h.move_free (by simp [hi]) (by simp)
  | @release i t hi ha =>
    refine h.move hu (by simp [hi]) ?_ (by simp)
    intro l c tl _ hl
    rw [hi] at hl
    exact Or.inl (hS.release i t _ (hat hi) ha c hl)
  | kill i => exact h

theorem Signals.signalled_steps (hA : Assertions pr P K I) (hS : Signals pr P K W owes)
    (hK : Holds K I s) (h : Signalled W owes s)
    (hs : Relation.ReflTransGen (Step pr P) s s') : Signalled W owes s' := by
  induction hs with
  | refl => exact h
  | tail hprev hs ih => exact hS.signalled_step (hA.holds_steps hK hprev) ih hs

end Xv6.Monitor
