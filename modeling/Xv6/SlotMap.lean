import Mathlib.Data.Set.Finite.Basic
import Mathlib.Data.Set.Finite.Range
import Mathlib.Logic.Function.Basic

/-!
# Finite maps stored in slots

A finite map can be stored in an array of slots, each empty or with a key and its value. Keys are
looked up from the first slot on, a new key goes into an empty slot or behind the last one, and a
key is removed by emptying its slot. As long as no two slots have the same key these are the
operations of the map, whatever slots are empty.
-/

namespace Xv6.SlotMap

open Function

variable {K V : Type*} [DecidableEq K] {a : Nat → Option (K × V)} {n m : Nat} {k : K} {v : V}

/-- The value of a key in the first `n` slots of `a`. -/
def toMap (a : Nat → Option (K × V)) (n : Nat) (k : K) : Option V :=
  (List.range n).findSome? (fun m => (a m).bind (fun x => if x.1 = k then some x.2 else none))

def Distinct (a : Nat → Option (K × V)) (n : Nat) : Prop :=
  ∀ m < n, ∀ l < n, ∀ k v w, a m = some (k, v) → a l = some (k, w) → m = l

theorem bind_eq_some {o : Option (K × V)} :
    (o.bind (fun x => if x.1 = k then some x.2 else none)) = some v ↔ o = some (k, v) := by
  cases o with
  | none => simp
  | some x =>
    obtain ⟨k', v'⟩ := x
    by_cases hk : k' = k
    · simp [hk]
    · simp [hk]

theorem toMap_eq_none : toMap a n k = none ↔ ∀ m < n, ∀ v, a m ≠ some (k, v) := by
  rw [toMap, List.findSome?_eq_none_iff]
  simp only [List.mem_range]
  constructor
  · intro h m hm v ha
    have hnone := h m hm
    rw [bind_eq_some.mpr ha] at hnone
    cases hnone
  · intro h m hm
    rw [Option.eq_none_iff_forall_ne_some]
    intro v hv
    exact h m hm v (bind_eq_some.mp hv)

theorem exists_slot (h : toMap a n k = some v) : ∃ m < n, a m = some (k, v) := by
  obtain ⟨m, hm, ha⟩ := List.exists_of_findSome?_eq_some h
  exact ⟨m, List.mem_range.mp hm, bind_eq_some.mp ha⟩

/-- With distinct keys it does not matter in which order the slots are searched. -/
theorem toMap_eq_some (h : Distinct a n) : toMap a n k = some v ↔ ∃ m < n, a m = some (k, v) := by
  refine ⟨exists_slot, ?_⟩
  rintro ⟨m, hm, ha⟩
  cases hw : toMap a n k with
  | none => exact absurd ha (toMap_eq_none.mp hw m hm v)
  | some w =>
    obtain ⟨l, hl, hal⟩ := exists_slot hw
    have hml := h m hm l hl k v w ha hal
    rw [hml, hal, Option.some.injEq, Prod.mk.injEq] at ha
    rw [ha.2]

omit [DecidableEq K] in
/-- Two maps with the same entries are equal. -/
theorem eq_of_some_iff {f g : K → Option V} (h : ∀ k v, f k = some v ↔ g k = some v) : f = g := by
  funext k
  exact Option.ext (h k)

theorem finite_toMap (a : Nat → Option (K × V)) (n : Nat) : {k | toMap a n k ≠ none}.Finite := by
  have hrange : (Set.range (fun m : Fin n => (a m).map Prod.fst)).Finite := Set.finite_range _
  refine Set.Finite.subset (Set.Finite.preimage (Option.some_injective K).injOn hrange) ?_
  intro k hk
  obtain ⟨v, hv⟩ := Option.ne_none_iff_exists'.mp hk
  obtain ⟨m, hm, ha⟩ := exists_slot hv
  exact ⟨⟨m, hm⟩, by simp [ha]⟩

theorem distinct_insert (h : Distinct a n) {e : Nat} (he : e ≤ n) (hnone : toMap a n k = none) :
    Distinct (update a e (some (k, v))) (max n (e + 1)) := by
  have hold : ∀ m, m ≠ e → m < max n (e + 1) → ∀ w, a m ≠ some (k, w) := by
    intro m hm hlt
    exact toMap_eq_none.mp hnone m (by omega)
  intro m hm l hl k' v' w' hma hla
  rcases eq_or_ne m e with rfl | hme <;> rcases eq_or_ne l m with rfl | hlm
  · rfl
  · rw [update_self] at hma
    rw [update_of_ne hlm] at hla
    cases hma
    exact absurd hla (hold l hlm hl w')
  · rfl
  · rw [update_of_ne hme] at hma
    rcases eq_or_ne l e with rfl | hle
    · rw [update_self] at hla
      cases hla
      exact absurd hma (hold m hme hm v')
    · rw [update_of_ne hle] at hla
      exact h m (by omega) l (by omega) k' v' w' hma hla

theorem toMap_insert (h : Distinct a n) {e : Nat} (he : e ≤ n) (hempty : e < n → a e = none)
    (hnone : toMap a n k = none) :
    toMap (update a e (some (k, v))) (max n (e + 1)) = update (toMap a n) k (some v) := by
  apply eq_of_some_iff
  intro k' v'
  rw [toMap_eq_some (distinct_insert h he hnone)]
  rcases eq_or_ne k' k with rfl | hk
  · rw [update_self]
    constructor
    · rintro ⟨m, hm, ha⟩
      rcases eq_or_ne m e with rfl | hme
      · rw [update_self] at ha
        cases ha
        rfl
      · rw [update_of_ne hme] at ha
        exact absurd ha (toMap_eq_none.mp hnone m (by omega) v')
    · intro hv
      cases hv
      exact ⟨e, by omega, update_self _ _ _⟩
  · rw [update_of_ne hk, toMap_eq_some h]
    constructor
    · rintro ⟨m, hm, ha⟩
      have hme : m ≠ e := by
        rintro rfl
        rw [update_self] at ha
        cases ha
        exact hk rfl
      rw [update_of_ne hme] at ha
      exact ⟨m, by omega, ha⟩
    · rintro ⟨m, hm, ha⟩
      have hme : m ≠ e := by
        rintro rfl
        rw [hempty hm] at ha
        cases ha
      exact ⟨m, by omega, (update_of_ne hme _ _).trans ha⟩

omit [DecidableEq K] in
theorem distinct_erase (h : Distinct a n) (e : Nat) : Distinct (update a e none) n := by
  have hback : ∀ {m x}, update a e none m = some x → a m = some x := by
    intro m x hx
    rcases eq_or_ne m e with rfl | hme
    · rw [update_self] at hx
      cases hx
    · rwa [update_of_ne hme] at hx
  intro m hm l hl k v w hma hla
  exact h m hm l hl k v w (hback hma) (hback hla)

theorem toMap_erase (h : Distinct a n) {e : Nat} (he : e < n) (hk : a e = some (k, v)) :
    toMap (update a e none) n = update (toMap a n) k none := by
  apply eq_of_some_iff
  intro k' v'
  rw [toMap_eq_some (distinct_erase h e)]
  rcases eq_or_ne k' k with rfl | hkk
  · rw [update_self]
    refine ⟨?_, by simp⟩
    rintro ⟨m, hm, ha⟩
    rcases eq_or_ne m e with rfl | hme
    · rw [update_self] at ha
      cases ha
    · rw [update_of_ne hme] at ha
      exact absurd (h m hm e he k' v' v ha hk) hme
  · rw [update_of_ne hkk, toMap_eq_some h]
    constructor
    · rintro ⟨m, hm, ha⟩
      rcases eq_or_ne m e with rfl | hme
      · rw [update_self] at ha
        cases ha
      · rw [update_of_ne hme] at ha
        exact ⟨m, hm, ha⟩
    · rintro ⟨m, hm, ha⟩
      have hme : m ≠ e := by
        rintro rfl
        rw [hk] at ha
        cases ha
        exact hkk rfl
      exact ⟨m, hm, (update_of_ne hme _ _).trans ha⟩

end Xv6.SlotMap
