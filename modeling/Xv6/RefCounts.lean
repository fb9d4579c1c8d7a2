import Xv6.Counts

/-!
# Reference counts

Objects with a counter each, and parties that own references to them: the counter of an object
equals the number of references that all parties together own. A step of one party changes the
counters by what it changes in the references of that party.
-/

namespace Xv6

variable {ι κ : Type*} [Fintype ι] {ref ref' : κ → Nat} {own own' : ι → κ → Nat} {p q : ι} {f : κ}

def RefCounted (ref : κ → Nat) (own : ι → κ → Nat) : Prop := ∀ f, ref f = ∑ p, own p f

theorem RefCounted.own_le (h : RefCounted ref own) (p : ι) (f : κ) : own p f ≤ ref f := by
  rw [h f]
  exact le_sum (fun p => own p f) p

/-- An object with one reference has one owner. -/
theorem RefCounted.owner_unique (h : RefCounted ref own) (hf : ref f = 1) (hp : 1 ≤ own p f)
    (hq : 1 ≤ own q f) : p = q := by
  classical
  by_contra hpq
  have htwo : own p f + own q f ≤ ∑ r, own r f := by
    rw [← Finset.sum_pair (f := fun r => own r f) hpq]
    exact Finset.sum_le_sum_of_subset (Finset.subset_univ _)
  have hsum := h f
  omega

theorem RefCounted.change (h : RefCounted ref own) (hother : ∀ q, q ≠ p → own' q = own q)
    (hp : ∀ f, ref' f + own p f = ref f + own' p f) : RefCounted ref' own' := by
  classical
  intro f
  have hown : own' = Function.update own p (own' p) := by
    funext q
    rcases eq_or_ne q p with rfl | hq
    · rw [Function.update_self]
    · rw [Function.update_of_ne hq, hother q hq]
  have hsum := sum_update (fun g : κ → Nat => g f) own p (own' p)
  rw [← hown] at hsum
  have hf := h f
  have hpf := hp f
  omega

end Xv6
