import Mathlib.Algebra.BigOperators.Group.Finset.Basic
import Mathlib.Algebra.Order.BigOperators.Group.Finset
import Mathlib.Data.Fintype.BigOperators

/-!
# Counting over a family of parties

A counter that equals a sum over all parties, each of which contributes a number that depends on
where it is. When one party moves, the sum changes by the difference of its two contributions.
-/

namespace Xv6

open Function

variable {ι β : Type*} [Fintype ι]

theorem sum_apply_update {M : Type*} [AddCommMonoid M] [DecidableEq ι] (f : ι → β → M) (g : ι → β)
    (i : ι) (v : β) : ∑ j, f j (update g i v j) + f i (g i) = ∑ j, f j (g j) + f i v := by
  have h : ∀ w, ∑ j, f j (update g i w j) =
      f i w + ∑ j ∈ Finset.univ \ {i}, f j (g j) := by
    intro w
    rw [← Finset.sum_update_of_mem (Finset.mem_univ i)]
    apply Finset.sum_congr rfl
    intro j _
    by_cases hj : j = i
    · subst hj
      simp
    · simp [hj]
  have hold := h (g i)
  rw [Function.update_eq_self] at hold
  rw [h v, hold, add_right_comm, add_comm (f i v), add_right_comm, add_comm (f i (g i))]

theorem sum_update [DecidableEq ι] (f : β → Nat) (g : ι → β) (i : ι) (v : β) :
    ∑ j, f (update g i v j) + f (g i) = ∑ j, f (g j) + f v :=
  sum_apply_update (fun _ => f) g i v

theorem le_sum (f : ι → Nat) (i : ι) : f i ≤ ∑ j, f j :=
  Finset.single_le_sum (fun _ _ => Nat.zero_le _) (Finset.mem_univ i)

end Xv6
