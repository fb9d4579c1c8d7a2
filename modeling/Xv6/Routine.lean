import Mathlib.Algebra.Order.Group.Multiset

/-!
# Programs that allocate and free

A program over resources of a type `ρ` asks for a resource, which it may not get, fills one, gives
one back, returns a result or panics. Programs of several parties run against one free list, in any
interleaving of their steps.

`wp F own c Q` says that a party which owns the resources `own` can run `c`: it fills and frees only
what it owns, and when it returns, `Q` holds of its result and of what it owns then. `F` says whether
its requests may be refused.
-/

namespace Xv6.Alloc

variable {ρ α β : Type}

inductive Routine (ρ α : Type)
  | ret (a : α)
  | alloc (k : Option ρ → Routine ρ α)
  /-- Fill `r` with what `src` holds or, without `src`, with zeros. -/
  | fill (r : ρ) (src : Option ρ) (k : Routine ρ α)
  | free (r : ρ) (k : Routine ρ α)
  | panic (msg : String)

namespace Routine

def bind : Routine ρ α → (α → Routine ρ β) → Routine ρ β
  | ret a, f => f a
  | alloc k, f => alloc (fun r => (k r).bind f)
  | fill r src k, f => fill r src (k.bind f)
  | free r k, f => free r (k.bind f)
  | panic msg, _ => panic msg

instance : Monad (Routine ρ) where
  pure := ret
  bind := bind

/-- One step with free list `fl`. An allocation may fail even though the list is not empty. -/
def step (fail : Bool) (fl : List ρ) : Routine ρ α → Option (Routine ρ α × List ρ)
  | ret _ | panic _ => none
  | alloc k =>
    match fl with
    | [] => some (k none, [])
    | r :: rest => some (if fail then (k none, r :: rest) else (k (some r), rest))
  | fill _ _ k => some (k, fl)
  | free r k => some (k, r :: fl)

/-- The next step is a request that is refused. -/
def refused (fail : Bool) (fl : List ρ) : Routine ρ α → Bool
  | alloc _ => fail || fl.isEmpty
  | _ => false

/-- A run of a program alone: a request is refused only when the free list is empty. -/
def alone : Routine ρ α → List ρ → Option (α × List ρ)
  | ret a, fl => some (a, fl)
  | alloc k, [] => (k none).alone []
  | alloc k, r :: fl => (k (some r)).alone fl
  | fill _ _ k, fl => k.alone fl
  | free r k, fl => k.alone (r :: fl)
  | panic _, _ => none

def allocate : Routine ρ (Option ρ) := alloc ret

def overwrite (r : ρ) (src : Option ρ) : Routine ρ Unit := fill r src (ret ())

def release (r : ρ) : Routine ρ Unit := free r (ret ())

end Routine

def wp (F : Prop) (own : Multiset ρ) : Routine ρ α → (α → Multiset ρ → Prop) → Prop
  | .ret a, Q => Q a own
  | .alloc k, Q => (F → wp F own (k none) Q) ∧ ∀ r, wp F (r ::ₘ own) (k (some r)) Q
  | .fill r _ k, Q => r ∈ own ∧ wp F own k Q
  | .free r k, Q => ∃ own', own = r ::ₘ own' ∧ wp F own' k Q
  | .panic _, _ => True

variable {F : Prop} {own : Multiset ρ} {c : Routine ρ α} {f : α → Routine ρ β}
  {Q Q' : α → Multiset ρ → Prop} {P : β → Multiset ρ → Prop}

theorem wp_ret_iff {a : α} : wp F own (.ret a) Q ↔ Q a own := Iff.rfl

theorem wp_ret {a : α} (h : Q a own) : wp F own (.ret a) Q := h

theorem wp_panic (msg : String) : wp F own (.panic msg) Q := trivial

theorem wp_mono (h : wp F own c Q) (hQ : ∀ a own, Q a own → Q' a own) : wp F own c Q' := by
  induction c generalizing own with
  | ret a => exact hQ a own h
  | alloc k ih => exact ⟨fun hF => ih none (h.1 hF), fun r => ih (some r) (h.2 r)⟩
  | fill r src k ih => exact ⟨h.1, ih h.2⟩
  | free r k ih =>
    obtain ⟨own', rfl, hk⟩ := h
    exact ⟨own', rfl, ih hk⟩
  | panic msg => trivial

theorem wp_bind_iff : wp F own (c.bind f) P ↔ wp F own c (fun a own => wp F own (f a) P) := by
  induction c generalizing own with
  | ret a => exact Iff.rfl
  | alloc k ih =>
    exact and_congr (imp_congr_right (fun _ => ih none)) (forall_congr' (fun r => ih (some r)))
  | fill r src k ih => exact and_congr_right' ih
  | free r k ih => exact exists_congr (fun own' => and_congr_right' ih)
  | panic msg => exact Iff.rfl

theorem wp_seq (h : wp F own c Q) (hf : ∀ a own, Q a own → wp F own (f a) P) :
    wp F own (c.bind f) P :=
  wp_bind_iff.mpr (wp_mono h hf)

/-- What the party owns besides is not touched. -/
theorem wp_frame (rest : Multiset ρ) (h : wp F own c Q) :
    wp F (own + rest) c (fun a own => ∃ own', own = own' + rest ∧ Q a own') := by
  induction c generalizing own with
  | ret a => exact ⟨own, rfl, h⟩
  | alloc k ih =>
    refine ⟨fun hF => ih none (h.1 hF), ?_⟩
    intro r
    rw [← Multiset.cons_add]
    exact ih (some r) (h.2 r)
  | fill r src k ih => exact ⟨Multiset.mem_add.mpr (Or.inl h.1), ih h.2⟩
  | free r k ih =>
    obtain ⟨own', rfl, hk⟩ := h
    exact ⟨own' + rest, Multiset.cons_add r own' rest, ih hk⟩
  | panic msg => trivial

/-- The rule for a call: the callee gets `own`, and the caller keeps `rest`. -/
theorem wp_call {own' : Multiset ρ} (h : wp F own c Q) (rest : Multiset ρ) (heq : own' = own + rest)
    (hf : ∀ a own, Q a own → wp F (own + rest) (f a) P) : wp F own' (c.bind f) P := by
  subst heq
  refine wp_seq (wp_frame rest h) ?_
  rintro a _ ⟨own₁, rfl, hQ⟩
  exact hf a own₁ hQ

theorem wp_allocate {f : Option ρ → Routine ρ β} (hnone : F → wp F own (f none) P)
    (hsome : ∀ r, wp F (own + {r}) (f (some r)) P) : wp F own (Routine.allocate.bind f) P := by
  refine ⟨hnone, ?_⟩
  intro r
  rw [← Multiset.singleton_add, add_comm]
  exact hsome r

theorem wp_overwrite {f : Unit → Routine ρ β} {r : ρ} {src : Option ρ} (hr : r ∈ own)
    (h : wp F own (f ()) P) : wp F own ((Routine.overwrite r src).bind f) P :=
  ⟨hr, h⟩

theorem wp_release {own' : Multiset ρ} {f : Unit → Routine ρ β} {r : ρ} (heq : own' = own + {r})
    (h : wp F own (f ()) P) : wp F own' ((Routine.release r).bind f) P :=
  ⟨own, by rw [heq, add_comm, Multiset.singleton_add], h⟩

theorem wp_step {c' : Routine ρ α} {fl fl' : List ρ} {fail : Bool} (h : wp F own c Q)
    (hF : c.refused fail fl → F) (hs : c.step fail fl = some (c', fl')) :
    ∃ own', wp F own' c' Q ∧ (fl' : Multiset ρ) + own' = fl + own := by
  cases c with
  | ret a => cases hs
  | panic msg => cases hs
  | fill r src k =>
    cases hs
    exact ⟨own, h.2, rfl⟩
  | free r k =>
    obtain ⟨own', rfl, hk⟩ := h
    cases hs
    exact ⟨own', hk, by rw [← Multiset.cons_coe, Multiset.cons_add, Multiset.add_cons]⟩
  | alloc k =>
    cases fl with
    | nil =>
      cases hs
      exact ⟨own, h.1 (hF (Bool.or_true fail)), rfl⟩
    | cons r rest =>
      cases fail with
      | true =>
        cases hs
        exact ⟨own, h.1 (hF rfl), rfl⟩
      | false =>
        cases hs
        refine ⟨r ::ₘ own, h.2 r, ?_⟩
        rw [← Multiset.cons_coe, Multiset.cons_add, Multiset.add_cons]

-- the rules above are all that proofs about programs use
attribute [irreducible] wp

end Xv6.Alloc
