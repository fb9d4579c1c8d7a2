import Mathlib.Algebra.Ring.GeomSum
import Mathlib.Algebra.Ring.Int.Parity
import Mathlib.Data.Int.CardIntervalMod
import Mathlib.Data.Int.ModEq
import Mathlib.RingTheory.Coprime.Lemmas
import Mathlib.RingTheory.Int.Basic
import Mathlib.Tactic.LinearCombination

/-!
# Linear congruential generators

The map `x ↦ a * x + c` modulo a power of two, for `a` of the form `4 * q + 1` and odd `c`. The
difference of two iterates is a geometric sum times an odd number, and the geometric sum of `n`
powers of `a` is divisible by the same powers of two as `n`. So `2 ^ k` successive iterates take
every value modulo `2 ^ k` exactly once, from any start.
-/

namespace Xv6

open Finset

variable {a c x : ℤ} {k m n : ℕ}

def affine (a c x : ℤ) : ℤ := a * x + c

theorem affine_iterate (a c x : ℤ) (n : ℕ) :
    (affine a c)^[n] x = x + (∑ i ∈ range n, a ^ i) * ((a - 1) * x + c) := by
  induction n with
  | zero => simp
  | succ n ih =>
    have hgeom := geom_sum_mul a n
    rw [Function.iterate_succ_apply', ih, affine, sum_range_succ]
    linear_combination ((a - 1) * x + c) * hgeom

/-! ### Powers of two that divide a geometric sum -/

theorem geomSum_add_self (a : ℤ) (n : ℕ) :
    ∑ i ∈ range (n + n), a ^ i = (∑ i ∈ range n, a ^ i) * (1 + a ^ n) := by
  rw [sum_range_add, mul_add, mul_one, sum_mul]
  simp only [pow_add, mul_comm]

theorem pow_eq_four_mul_add_one (ha : 4 ∣ a - 1) (n : ℕ) : ∃ q, a ^ n = 4 * q + 1 := by
  obtain ⟨q, hq⟩ := ha.trans (sub_one_dvd_pow_sub_one a n)
  exact ⟨q, by omega⟩

theorem two_pow_dvd_mul_odd {y z : ℤ} (hz : Odd z) : 2 ^ k ∣ y * z ↔ 2 ^ k ∣ y := by
  have hcop : IsCoprime ((2 : ℤ) ^ k) z := IsCoprime.pow_left (Int.isCoprime_two_left.mpr hz)
  exact ⟨hcop.dvd_of_dvd_mul_right, fun h => h.mul_right z⟩

theorem two_pow_dvd_geomSum (ha : 4 ∣ a - 1) : (2 : ℤ) ^ k ∣ ∑ i ∈ range n, a ^ i ↔ 2 ^ k ∣ n := by
  induction k generalizing n with
  | zero => simp
  | succ k ih =>
    rcases Nat.even_or_odd n with ⟨m, rfl⟩ | ⟨m, rfl⟩
    · obtain ⟨q, hq⟩ := pow_eq_four_mul_add_one ha m
      have hodd : Odd (2 * q + 1) := ⟨q, rfl⟩
      have hfac : ∑ i ∈ range (m + m), a ^ i =
          2 * ((∑ i ∈ range m, a ^ i) * (2 * q + 1)) := by
        rw [geomSum_add_self, hq]
        ring
      rw [hfac, pow_succ', mul_dvd_mul_iff_left two_ne_zero, two_pow_dvd_mul_odd hodd, ih,
        pow_succ', ← two_mul, Nat.mul_dvd_mul_iff_left two_pos]
    · -- an odd number of odd summands
      obtain ⟨q, hq⟩ := pow_eq_four_mul_add_one ha m
      obtain ⟨q', hq'⟩ := pow_eq_four_mul_add_one ha (m + m)
      have hfac : ∑ i ∈ range (2 * m + 1), a ^ i =
          2 * ((∑ i ∈ range m, a ^ i) * (2 * q + 1) + 2 * q') + 1 := by
        rw [sum_range_succ, two_mul m, geomSum_add_self, hq, hq']
        ring
      constructor
      · intro h
        have htwo : (2 : ℤ) ∣ ∑ i ∈ range (2 * m + 1), a ^ i := (dvd_pow_self 2 (by omega)).trans h
        rw [hfac] at htwo
        omega
      · intro h
        have htwo : 2 ∣ 2 * m + 1 := (dvd_pow_self 2 (by omega)).trans h
        omega

/-! ### Iterates modulo a power of two -/

section Period

variable (ha : 4 ∣ a - 1) (hc : Odd c)
include ha hc

theorem two_pow_dvd_iterate_sub : 2 ^ k ∣ (affine a c)^[n] x - x ↔ 2 ^ k ∣ n := by
  obtain ⟨q, hq⟩ := ha
  have hodd : Odd ((a - 1) * x + c) := by
    rw [hq]
    exact Even.add_odd ⟨2 * q * x, by ring⟩ hc
  rw [affine_iterate, add_sub_cancel_left, two_pow_dvd_mul_odd hodd, two_pow_dvd_geomSum ⟨q, hq⟩]

theorem iterate_injOn : Set.InjOn (fun j => (affine a c)^[m + j] x % 2 ^ k) (range (2 ^ k)) := by
  have hlt : ∀ i j, i < j → j < 2 ^ k →
      (affine a c)^[m + i] x % 2 ^ k ≠ (affine a c)^[m + j] x % 2 ^ k := by
    intro i j hij hj heq
    obtain ⟨d, rfl⟩ : ∃ d, j = d + i := ⟨j - i, by omega⟩
    have hd := Int.emod_eq_emod_iff_emod_sub_eq_zero.mp heq.symm
    have hdvd : (2 : ℤ) ^ k ∣ (affine a c)^[d] ((affine a c)^[m + i] x) - (affine a c)^[m + i] x := by
      rw [← Function.iterate_add_apply, show d + (m + i) = m + (d + i) by omega]
      exact Int.dvd_of_emod_eq_zero hd
    have := Nat.le_of_dvd (by omega) ((two_pow_dvd_iterate_sub ha hc).mp hdvd)
    omega
  intro i hi j hj heq
  simp only [coe_range, Set.mem_Iio] at hi hj
  rcases lt_trichotomy i j with h | h | h
  · exact absurd heq (hlt i j h hj)
  · exact h
  · exact absurd heq.symm (hlt j i h hi)

/-- A property of values below `2 ^ k` holds for as many of `2 ^ k` successive iterates as there
are values that have it. -/
theorem card_iterate_filter (P : ℕ → Prop) [DecidablePred P] :
    #{j ∈ range (2 ^ k) | P ((affine a c)^[m + j] x % 2 ^ k).toNat} = #{v ∈ range (2 ^ k) | P v} := by
  have hpos : (0 : ℤ) < 2 ^ k := by positivity
  have hmem : ∀ j, ((affine a c)^[m + j] x % 2 ^ k).toNat ∈ range (2 ^ k) := by
    intro j
    have h₁ := Int.emod_nonneg ((affine a c)^[m + j] x) hpos.ne'
    have h₂ := Int.emod_lt_of_pos ((affine a c)^[m + j] x) hpos
    rw [mem_range]
    zify
    rwa [Int.toNat_of_nonneg h₁]
  have hinj : Set.InjOn (fun j => ((affine a c)^[m + j] x % 2 ^ k).toNat) (range (2 ^ k)) := by
    intro i hi j hj heq
    apply iterate_injOn (x := x) (m := m) ha hc hi hj
    have h₁ := Int.emod_nonneg ((affine a c)^[m + i] x) hpos.ne'
    have h₂ := Int.emod_nonneg ((affine a c)^[m + j] x) hpos.ne'
    simp only at heq ⊢
    omega
  have himage : (range (2 ^ k)).image (fun j => ((affine a c)^[m + j] x % 2 ^ k).toNat) =
      range (2 ^ k) := by
    apply eq_of_subset_of_card_le
    · exact image_subset_iff.mpr (fun j _ => hmem j)
    · rw [card_image_of_injOn hinj]
  calc #{j ∈ range (2 ^ k) | P ((affine a c)^[m + j] x % 2 ^ k).toNat}
      = #(((range (2 ^ k)).image (fun j => ((affine a c)^[m + j] x % 2 ^ k).toNat)).filter P) := by
        rw [filter_image, card_image_of_injOn (hinj.mono (coe_subset.mpr (filter_subset _ _)))]
    _ = #{v ∈ range (2 ^ k) | P v} := by rw [himage]

end Period

/-! ### Reduction to residues -/

/-- Each residue modulo `T` occurs `M / T` times below `M`, rounded down or up. -/
theorem card_residue {T : ℕ} (hT : 0 < T) (M w : ℕ) :
    M / T ≤ #{v ∈ range M | v ≡ w [MOD T]} ∧ #{v ∈ range M | v ≡ w [MOD T]} ≤ (M + T - 1) / T := by
  rw [← Nat.count_eq_card_filter_range, Nat.count_modEq_card M hT w]
  have hdiv := Nat.div_add_mod M T
  have hlt := Nat.mod_lt M hT
  split_ifs with h
  · refine ⟨Nat.le_succ _, (Nat.le_div_iff_mul_le hT).mpr ?_⟩
    rw [Nat.succ_mul, Nat.mul_comm]
    omega
  · refine ⟨le_rfl, Nat.div_le_div_right ?_⟩
    omega

theorem card_residues {T lo t : ℕ} (M : ℕ) (hT : 0 < T) (hle : lo + t ≤ T) :
    t * (M / T) ≤ #{v ∈ range M | lo ≤ v % T ∧ v % T < lo + t} ∧
      #{v ∈ range M | lo ≤ v % T ∧ v % T < lo + t} ≤ t * ((M + T - 1) / T) := by
  have hmaps : ∀ v ∈ (range M).filter (fun v => lo ≤ v % T ∧ v % T < lo + t),
      v % T ∈ Ico lo (lo + t) := by
    intro v hv
    exact mem_Ico.mpr (mem_filter.mp hv).2
  have hfiber : ∀ w ∈ Ico lo (lo + t),
      ((range M).filter (fun v => lo ≤ v % T ∧ v % T < lo + t)).filter (fun v => v % T = w) =
        (range M).filter (fun v => v ≡ w [MOD T]) := by
    intro w hw
    obtain ⟨hlo, hhi⟩ := mem_Ico.mp hw
    ext v
    simp only [mem_filter, Nat.ModEq, Nat.mod_eq_of_lt (lt_of_lt_of_le hhi hle)]
    constructor
    · rintro ⟨⟨hv, -⟩, rfl⟩
      exact ⟨hv, rfl⟩
    · rintro ⟨hv, rfl⟩
      exact ⟨⟨hv, hlo, hhi⟩, rfl⟩
  have hcard : t = #(Ico lo (lo + t)) := by rw [Nat.card_Ico, Nat.add_sub_cancel_left]
  rw [card_eq_sum_card_fiberwise hmaps, sum_congr rfl (fun w hw => by rw [hfiber w hw])]
  constructor
  · conv_lhs => rw [hcard]
    exact card_nsmul_le_sum _ _ _ (fun w _ => (card_residue hT M w).1)
  · conv_rhs => rw [hcard]
    exact sum_le_card_nsmul _ _ _ (fun w _ => (card_residue hT M w).2)

end Xv6
