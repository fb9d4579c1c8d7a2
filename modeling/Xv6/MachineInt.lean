import Mathlib.Tactic.Ring
import Mathlib.Tactic.Linarith
import Mathlib.Tactic.SplitIfs

/-!
# Machine integers

A C `int` is a 32-bit two's complement word. `wrap32` sends the exact result of an operation to
the value the machine keeps. The lemmas say that only the exact result modulo `2 ^ 32` matters,
so a chain of wrapped additions can be replaced by one wrapped exact sum.
-/

namespace Xv6

def wrap32 (x : Int) : Int := Int.bmod x (2 ^ 32)

@[simp] theorem wrap32_zero : wrap32 0 = 0 := by decide

@[simp] theorem wrap32_add_left (x y : Int) : wrap32 (wrap32 x + y) = wrap32 (x + y) :=
  Int.bmod_add_bmod

theorem wrap32_of_range {x : Int} (h₁ : -2 ^ 31 ≤ x) (h₂ : x < 2 ^ 31) : wrap32 x = x := by
  unfold wrap32
  rw [Int.bmod_eq_iff (by decide)]
  refine ⟨by omega, by omega, ?_⟩
  simp

/-- A wrapped value is positive exactly when the residue of the exact value has a clear sign bit. -/
theorem wrap32_pos_iff (x : Int) : 0 < wrap32 x ↔ 0 < x % 2 ^ 32 ∧ x % 2 ^ 32 < 2 ^ 31 := by
  have h0 : 0 ≤ x % 2 ^ 32 := Int.emod_nonneg x (by decide)
  have h1 : x % 2 ^ 32 < 2 ^ 32 := Int.emod_lt_of_pos x (by decide)
  have he := Int.bmod_eq_emod x (2 ^ 32)
  change wrap32 x = _ at he
  rw [he]
  push_cast
  split_ifs with h <;> omega

end Xv6
