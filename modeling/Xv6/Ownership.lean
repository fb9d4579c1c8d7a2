import Mathlib.Logic.Function.Basic
import Mathlib.Data.Finset.Card

/-!
# Ownership of numbered blocks

Places `x : ι` hold block numbers `P x`, with 0 for a place that holds nothing. `Owns lo hi used P`
says that the held blocks lie in `[lo, hi)`, that no block is held twice, and that `used` marks
exactly the blocks below `lo` and the held ones. Blocks move between the places and the free blocks
one at a time.
-/

namespace Xv6

open Function

variable {ι : Type} {lo hi b : Nat} {used used' : Nat → Bool} {P : ι → Nat} {x y : ι}

structure Owns (lo hi : Nat) (used : Nat → Bool) (P : ι → Nat) : Prop where
  pos : 0 < lo
  bounds : ∀ {x}, P x ≠ 0 → lo ≤ P x ∧ P x < hi
  inj : ∀ {x y}, P x ≠ 0 → P x = P y → x = y
  low : ∀ {b}, b < hi → b < lo → used b = true
  used_iff : ∀ {b}, lo ≤ b → b < hi → (used b = true ↔ ∃ x, P x = b)

/-- The number of unused blocks. -/
def freeCount (hi : Nat) (used : Nat → Bool) : Nat :=
  ((Finset.range hi).filter (fun b => used b = false)).card

theorem freeCount_congr (h : ∀ b < hi, used' b = used b) :
    freeCount hi used' = freeCount hi used := by
  unfold freeCount
  congr 1
  apply Finset.filter_congr
  intro b hb
  rw [h b (Finset.mem_range.mp hb)]

theorem freeCount_update_true (hb : b < hi) (h : used b = false) :
    freeCount hi (update used b true) + 1 = freeCount hi used := by
  have hmem : b ∈ (Finset.range hi).filter (fun c => used c = false) := by simp [hb, h]
  have herase : (Finset.range hi).filter (fun c => update used b true c = false) =
      ((Finset.range hi).filter (fun c => used c = false)).erase b := by
    ext c
    by_cases hc : c = b
    · simp [hc]
    · simp [hc]
  rw [freeCount, herase, freeCount]
  exact Finset.card_erase_add_one hmem

theorem freeCount_eq_zero (h : ∀ b < hi, used b = true) : freeCount hi used = 0 := by
  rw [freeCount, Finset.card_eq_zero, Finset.filter_eq_empty_iff]
  intro b hb
  simp [h b (Finset.mem_range.mp hb)]

namespace Owns

theorem congr (h : Owns lo hi used P) (hu : ∀ b < hi, used' b = used b) : Owns lo hi used' P where
  pos := h.pos
  bounds := h.bounds
  inj := h.inj
  low hb hlo := by rw [hu _ hb, h.low hb hlo]
  used_iff hlo hb := by rw [hu _ hb, h.used_iff hlo hb]

theorem used_of_held (h : Owns lo hi used P) (hx : P x ≠ 0) : used (P x) = true :=
  (h.used_iff (h.bounds hx).1 (h.bounds hx).2).mpr ⟨x, rfl⟩

theorem le_of_free (h : Owns lo hi used P) (hb : b < hi) (hf : used b = false) : lo ≤ b := by
  by_contra hlt
  rw [h.low hb (by omega)] at hf
  cases hf

theorem ne_of_free (h : Owns lo hi used P) (hb : b < hi) (hf : used b = false) (x : ι) :
    P x ≠ b := by
  intro hx
  rw [(h.used_iff (h.le_of_free hb hf) hb).mpr ⟨x, hx⟩] at hf
  cases hf

variable [DecidableEq ι]

theorem alloc (h : Owns lo hi used P) (hb : b < hi) (hf : used b = false) (hx : P x = 0) :
    Owns lo hi (update used b true) (update P x b) where
  pos := h.pos
  bounds := by
    intro y hy
    by_cases hyx : y = x
    · rw [hyx, update_self]
      exact ⟨h.le_of_free hb hf, hb⟩
    · rw [update_of_ne hyx] at hy ⊢
      exact h.bounds hy
  inj := by
    intro y z hy hyz
    by_cases hyx : y = x <;> by_cases hzx : z = x
    · rw [hyx, hzx]
    · rw [hyx, update_self, update_of_ne hzx] at hyz
      exact absurd hyz.symm (h.ne_of_free hb hf z)
    · rw [hzx, update_self, update_of_ne hyx] at hyz
      exact absurd hyz (h.ne_of_free hb hf y)
    · rw [update_of_ne hyx] at hy hyz
      rw [update_of_ne hzx] at hyz
      exact h.inj hy hyz
  low := by
    intro c hc hlo
    have hcb : c ≠ b := by
      have := h.le_of_free hb hf
      omega
    rw [update_of_ne hcb, h.low hc hlo]
  used_iff := by
    intro c hlo hc
    by_cases hcb : c = b
    · rw [hcb, update_self]
      exact ⟨fun _ => ⟨x, update_self _ _ _⟩, fun _ => rfl⟩
    · rw [update_of_ne hcb, h.used_iff hlo hc]
      have hpos := h.pos
      constructor
      · rintro ⟨y, hy⟩
        have hyx : y ≠ x := by
          intro hyx
          rw [hyx, hx] at hy
          omega
        exact ⟨y, by rw [update_of_ne hyx, hy]⟩
      · rintro ⟨y, hy⟩
        have hyx : y ≠ x := by
          intro hyx
          rw [hyx, update_self] at hy
          exact hcb hy.symm
        exact ⟨y, by rwa [update_of_ne hyx] at hy⟩

theorem release (h : Owns lo hi used P) (hx : P x ≠ 0) :
    Owns lo hi (update used (P x) false) (update P x 0) where
  pos := h.pos
  bounds := by
    intro y hy
    have hyx : y ≠ x := by
      intro hyx
      rw [hyx, update_self] at hy
      exact hy rfl
    rw [update_of_ne hyx] at hy ⊢
    exact h.bounds hy
  inj := by
    intro y z hy hyz
    have hyx : y ≠ x := by
      intro hyx
      rw [hyx, update_self] at hy
      exact hy rfl
    rw [update_of_ne hyx] at hy hyz
    have hzx : z ≠ x := by
      intro hzx
      rw [hzx, update_self] at hyz
      exact hy hyz
    rw [update_of_ne hzx] at hyz
    exact h.inj hy hyz
  low := by
    intro c hc hlo
    have hcb : c ≠ P x := by
      have := h.bounds hx
      omega
    rw [update_of_ne hcb, h.low hc hlo]
  used_iff := by
    intro c hlo hc
    have hpos := h.pos
    by_cases hcx : c = P x
    · rw [hcx, update_self]
      constructor
      · intro hcon
        cases hcon
      · rintro ⟨y, hy⟩
        by_cases hyx : y = x
        · rw [hyx, update_self] at hy
          exact absurd hy.symm hx
        · rw [update_of_ne hyx] at hy
          exact absurd (h.inj hx hy.symm).symm hyx
    · rw [update_of_ne hcx, h.used_iff hlo hc]
      constructor
      · rintro ⟨y, hy⟩
        have hyx : y ≠ x := by
          rintro rfl
          exact hcx hy.symm
        exact ⟨y, by rw [update_of_ne hyx, hy]⟩
      · rintro ⟨y, hy⟩
        have hyx : y ≠ x := by
          intro hyx
          rw [hyx, update_self] at hy
          omega
        exact ⟨y, by rwa [update_of_ne hyx] at hy⟩

end Owns

end Xv6
