import Mathlib.Tactic.SplitIfs

/-!
# Programs with state and faults

`Prog σ α` is a program over states `σ` that returns an `α` or faults. A fault is a panic with its
message or a sleep that never ends. `wp p s Q E` says that `p`, started in `s`, ends with a result
and a state that satisfy `Q` or with a fault that satisfies `E`. The rules take a program apart at
its binds, so that a caller needs only the specifications of what it calls.
-/

namespace Xv6

inductive Fault
  | panic (msg : String)
  /-- The process sleeps on lock `lk`, which it holds itself. -/
  | deadlock (lk : Nat)
  deriving DecidableEq, Repr

def Prog (σ α : Type) := σ → Except Fault (α × σ)

namespace Prog

variable {σ α β : Type}

instance : Monad (Prog σ) where
  pure a := fun s => .ok (a, s)
  bind p f := fun s =>
    match p s with
    | .ok (a, s') => f a s'
    | .error e => .error e

def get : Prog σ σ := fun s => .ok (s, s)

def modify (f : σ → σ) : Prog σ Unit := fun s => .ok ((), f s)

def panicWith (msg : String) : Prog σ α := fun _ => .error (.panic msg)

def sleepForever (lk : Nat) : Prog σ α := fun _ => .error (.deadlock lk)

/-- A program on a part of the state. -/
def zoom {τ : Type} (part : τ → σ) (put : σ → τ → τ) (p : Prog σ α) : Prog τ α := fun t =>
  match p (part t) with
  | .ok (a, s) => .ok (a, put s t)
  | .error e => .error e

end Prog

variable {σ τ α β : Type}

def wp (p : Prog σ α) (s : σ) (Q : α → σ → Prop) (E : Fault → Prop) : Prop :=
  match p s with
  | .ok (a, s') => Q a s'
  | .error e => E e

variable {s : σ} {Q : α → σ → Prop} {E : Fault → Prop}

variable {p : Prog σ α}

variable {Q' : α → σ → Prop} {E' : Fault → Prop}

theorem wp_conseq (h : wp p s Q' E') (hQ : ∀ a s', Q' a s' → Q a s') (hE : ∀ e, E' e → E e) :
    wp p s Q E := by
  unfold wp at *
  split at h
  · exact hQ _ _ h
  · exact hE _ h

theorem wp_mono (h : wp p s Q' E) (hQ : ∀ a s', Q' a s' → Q a s') : wp p s Q E :=
  wp_conseq h hQ (fun _ h => h)

@[simp] theorem wp_pure (a : α) : wp (pure a : Prog σ α) s Q E ↔ Q a s := Iff.rfl

@[simp] theorem wp_get {Q : σ → σ → Prop} : wp Prog.get s Q E ↔ Q s s := Iff.rfl

@[simp] theorem wp_modify (f : σ → σ) {Q : Unit → σ → Prop} :
    wp (Prog.modify f) s Q E ↔ Q () (f s) := Iff.rfl

@[simp] theorem wp_panicWith (msg : String) :
    wp (Prog.panicWith msg : Prog σ α) s Q E ↔ E (.panic msg) := Iff.rfl

@[simp] theorem wp_sleepForever (lk : Nat) :
    wp (Prog.sleepForever lk : Prog σ α) s Q E ↔ E (.deadlock lk) := Iff.rfl

@[simp] theorem wp_bind (p : Prog σ α) (f : α → Prog σ β) {Q : β → σ → Prop} :
    wp (p >>= f) s Q E ↔ wp p s (fun a s' => wp (f a) s' Q E) E := by
  change (match (match p s with
    | .ok (a, s') => f a s'
    | .error e => .error e) with
    | .ok (a, s') => Q a s'
    | .error e => E e) ↔ _
  unfold wp
  cases p s <;> rfl

/-- The rule of sequencing, from a specification of the first program. -/
theorem wp_chain {f : α → Prog σ β} {Q : β → σ → Prop} (h : wp p s Q' E')
    (hQ : ∀ a s', Q' a s' → wp (f a) s' Q E) (hE : ∀ e, E' e → E e) : wp (p >>= f) s Q E :=
  (wp_bind p f).mpr (wp_conseq h hQ hE)

theorem wp_seq {f : α → Prog σ β} {Q : β → σ → Prop} (h : wp p s Q' E)
    (hQ : ∀ a s', Q' a s' → wp (f a) s' Q E) : wp (p >>= f) s Q E :=
  (wp_bind p f).mpr (wp_mono h hQ)

theorem wp_zoom {part : τ → σ} {put : σ → τ → τ} {t : τ} {Q : α → τ → Prop} :
    wp (Prog.zoom part put p) t Q E ↔ wp p (part t) (fun a s => Q a (put s t)) E := by
  unfold wp Prog.zoom
  cases p (part t) <;> rfl

/-- Two specifications of one program hold of the same run. -/
theorem wp_and (h : wp p s Q E) (h' : wp p s Q' E') :
    wp p s (fun a s' => Q a s' ∧ Q' a s') (fun e => E e ∧ E' e) := by
  unfold wp at *
  split at h
  · next hr =>
    rw [hr] at h'
    exact ⟨h, h'⟩
  · next hr =>
    rw [hr] at h'
    exact ⟨h, h'⟩

/-- A proved specification decides what a run that returned can have done. -/
theorem wp_ok {a : α} {s' : σ} (h : wp p s Q E) (hr : p s = .ok (a, s')) : Q a s' := by
  unfold wp at h
  rwa [hr] at h

theorem wp_of_ok {a : α} {s' : σ} (hr : p s = .ok (a, s')) (h : Q a s') : wp p s Q E := by
  unfold wp
  rwa [hr]

theorem wp_run (h : wp p s Q E) : wp p s (fun a s' => p s = .ok (a, s') ∧ Q a s') E := by
  unfold wp at *
  split at h
  · next hr => exact ⟨hr, h⟩
  · exact h

/-- A program that cannot fault returns. -/
theorem wp_returns (h : wp p s Q E) (hE : ∀ e, ¬ E e) : ∃ a s', p s = .ok (a, s') ∧ Q a s' := by
  unfold wp at h
  cases hr : p s with
  | ok r =>
    rw [hr] at h
    exact ⟨r.1, r.2, rfl, h⟩
  | error e =>
    rw [hr] at h
    exact absurd h (hE e)

/-- A program that has been evaluated as far as `f` tells. -/
theorem returns_of_eval {f : α × σ → β} {b : β} (h : (p s).toOption.map f = some b) :
    ∃ a s', p s = .ok (a, s') ∧ f (a, s') = b := by
  cases hr : p s with
  | ok r =>
    rw [hr] at h
    exact ⟨r.1, r.2, rfl, Option.some.inj h⟩
  | error e =>
    rw [hr] at h
    cases h

theorem wp_error {e : Fault} (h : wp p s Q E) (hr : p s = .error e) : E e := by
  unfold wp at h
  rwa [hr] at h

end Xv6
