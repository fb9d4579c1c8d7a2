import Mathlib.Logic.Function.Basic

/-!
# Copying loops

Copying a range of a memory one cell after the other, upwards or downwards. A range is `Copied` when it
ends up as if it had gone through a temporary. Downwards this holds whenever the source does not start
after the destination. Upwards, a cell that has been overwritten before it is read is read with its new
contents, so the destination is right only if the source repeats itself. `HoldsAt` gives the contents of
a range as a list.
-/

namespace Xv6

open Function

variable {β : Type*} {mem : Nat → β} {d s n : Nat}

/-- `while(n-- > 0) *d++ = *s++;` -/
def copyUp : Nat → (Nat → β) → Nat → Nat → (Nat → β)
  | 0, mem, _, _ => mem
  | n + 1, mem, d, s => copyUp n (update mem d (mem s)) (d + 1) (s + 1)

/-- `while(n-- > 0) *--d = *--s;` -/
def copyDown : Nat → (Nat → β) → Nat → Nat → (Nat → β)
  | 0, mem, _, _ => mem
  | n + 1, mem, d, s => copyDown n (update mem (d - 1) (mem (s - 1))) (d - 1) (s - 1)

/-- `mem'` holds at `d` the `n` cells that `mem` has at `s`, and is `mem` elsewhere. -/
structure Copied (mem mem' : Nat → β) (d s n : Nat) : Prop where
  range : ∀ i < n, mem' (d + i) = mem (s + i)
  frame : ∀ a, a < d ∨ d + n ≤ a → mem' a = mem a

theorem Copied.unique {mem₁ mem₂ : Nat → β} (h₁ : Copied mem mem₁ d s n)
    (h₂ : Copied mem mem₂ d s n) : mem₁ = mem₂ := by
  funext a
  by_cases ha : a < d ∨ d + n ≤ a
  · rw [h₁.frame a ha, h₂.frame a ha]
  · obtain ⟨i, rfl⟩ := Nat.exists_eq_add_of_le (show d ≤ a by omega)
    rw [h₁.range i (by omega), h₂.range i (by omega)]

theorem copyUp_frame (n : Nat) (mem : Nat → β) (d s : Nat) {a : Nat} (ha : a < d ∨ d + n ≤ a) :
    copyUp n mem d s a = mem a := by
  induction n generalizing mem d s with
  | zero => rfl
  | succ n ih =>
    rw [copyUp, ih _ _ _ (by omega), update_of_ne (by omega)]

/-- A cell is read after the cells before it have been written. -/
theorem copyUp_range (n : Nat) (mem : Nat → β) (d s : Nat) {i : Nat} (hi : i < n) :
    copyUp n mem d s (d + i) =
      if d ≤ s + i ∧ s < d then copyUp n mem d s (s + i) else mem (s + i) := by
  induction n generalizing mem d s i with
  | zero => omega
  | succ n ih =>
    have hfirst : copyUp (n + 1) mem d s d = mem s := by
      rw [copyUp, copyUp_frame _ _ _ _ (.inl (Nat.lt_succ_self d)), update_self]
    cases i with
    | zero =>
      rw [if_neg (by omega)]
      exact hfirst
    | succ i =>
      have hstep := ih (update mem d (mem s)) (d + 1) (s + 1) (i := i) (by omega)
      rw [copyUp, show d + (i + 1) = d + 1 + i by omega, show s + (i + 1) = s + 1 + i by omega,
        hstep]
      by_cases hd : s + 1 + i = d
      · -- the cell was the first one to be written
        rw [if_neg (by omega), if_pos (by omega), hd, update_self]
        exact hfirst.symm
      · rw [update_of_ne hd]
        by_cases hc : d ≤ s + 1 + i ∧ s < d
        · rw [if_pos (by omega), if_pos hc]
        · rw [if_neg (by omega), if_neg hc]

/-- The upward loop is right if the source repeats itself after `d - s` cells. -/
theorem copyUp_copied_iff : Copied mem (copyUp n mem d s) d s n ↔
    (s < d → ∀ i, i + (d - s) < n → mem (s + i) = mem (s + (i + (d - s)))) := by
  constructor
  · intro h hsd i hi
    have hread := copyUp_range n mem d s hi
    rw [if_pos (by omega), show s + (i + (d - s)) = d + i by omega, h.range _ hi,
      h.range i (by omega)] at hread
    exact hread.symm
  · intro h
    refine ⟨?_, fun a ha => copyUp_frame n mem d s ha⟩
    intro i
    induction i using Nat.strongRecOn with
    | ind i ih =>
      intro hi
      rw [copyUp_range n mem d s hi]
      split
      · next hc =>
        obtain ⟨j, rfl⟩ : ∃ j, i = j + (d - s) := ⟨i - (d - s), by omega⟩
        rw [show s + (j + (d - s)) = d + j by omega, ih j (by omega) (by omega),
          h hc.2 j hi]
        congr 1
        omega
      · rfl

theorem copyUp_copied (h : d ≤ s ∨ s + n ≤ d) : Copied mem (copyUp n mem d s) d s n := by
  refine copyUp_copied_iff.mpr (fun hsd i hi => ?_)
  omega

theorem copyDown_copied (h : s ≤ d) : Copied mem (copyDown n mem (d + n) (s + n)) d s n := by
  induction n generalizing mem with
  | zero => exact ⟨fun i hi => absurd hi (Nat.not_lt_zero i), fun a _ => rfl⟩
  | succ n ih =>
    have hstep : Copied _ (copyDown n (update mem (d + n) (mem (s + n))) (d + n) (s + n)) d s n := ih
    refine ⟨?_, ?_⟩
    · intro i hi
      rcases Nat.lt_succ_iff_lt_or_eq.mp hi with hi | rfl
      · exact (hstep.range i hi).trans (update_of_ne (by omega) _ _)
      · exact (hstep.frame (d + i) (.inr (Nat.le_refl _))).trans (update_self _ _ _)
    · intro a ha
      exact (hstep.frame a (by omega)).trans (update_of_ne (by omega) _ _)

/-! ### Contents of a range -/

/-- The cells from `p` on are those of the list. -/
def HoldsAt (mem : Nat → β) : Nat → List β → Prop
  | _, [] => True
  | p, x :: w => mem p = x ∧ HoldsAt mem (p + 1) w

variable {mem' : Nat → β} {p a : Nat} {x : β} {w w' : List β}

theorem holdsAt_append :
    HoldsAt mem p (w ++ w') ↔ HoldsAt mem p w ∧ HoldsAt mem (p + w.length) w' := by
  induction w generalizing p with
  | nil => simp [HoldsAt]
  | cons x w ih =>
    rw [List.cons_append, HoldsAt, HoldsAt, ih, and_assoc, List.length_cons,
      Nat.add_right_comm p 1, Nat.add_assoc p]

theorem HoldsAt.congr (h : HoldsAt mem p w)
    (heq : ∀ a, p ≤ a → a < p + w.length → mem' a = mem a) : HoldsAt mem' p w := by
  induction w generalizing p with
  | nil => trivial
  | cons x w ih =>
    rw [List.length_cons] at heq
    exact ⟨(heq p (Nat.le_refl p) (by omega)).trans h.1,
      ih h.2 (fun a ha hlt => heq a (by omega) (by omega))⟩

theorem HoldsAt.update (h : HoldsAt mem p w) (x : β) (ha : a < p ∨ p + w.length ≤ a) :
    HoldsAt (update mem a x) p w :=
  h.congr (fun b _ _ => update_of_ne (by omega) _ _)

theorem HoldsAt.copied (h : HoldsAt mem s w) (hc : Copied mem mem' d s w.length) :
    HoldsAt mem' d w := by
  obtain ⟨hrange, -⟩ := hc
  induction w generalizing d s with
  | nil => trivial
  | cons x w ih =>
    refine ⟨(hrange 0 (Nat.succ_pos _)).trans h.1, ih h.2 (fun i hi => ?_)⟩
    rw [Nat.add_right_comm d, Nat.add_right_comm s]
    exact hrange (i + 1) (Nat.succ_lt_succ hi)

/-- Store a list from `p` on. -/
def storeAt (mem : Nat → β) : Nat → List β → (Nat → β)
  | _, [] => mem
  | p, x :: w => storeAt (update mem p x) (p + 1) w

theorem storeAt_frame (mem : Nat → β) (p : Nat) (w : List β) (ha : a < p ∨ p + w.length ≤ a) :
    storeAt mem p w a = mem a := by
  induction w generalizing mem p with
  | nil => rfl
  | cons x w ih =>
    rw [List.length_cons] at ha
    rw [storeAt, ih _ _ (by omega), update_of_ne (by omega)]

theorem holdsAt_storeAt (mem : Nat → β) (p : Nat) (w : List β) : HoldsAt (storeAt mem p w) p w := by
  induction w generalizing mem p with
  | nil => trivial
  | cons x w ih =>
    refine ⟨?_, ih (update mem p x) (p + 1)⟩
    exact (storeAt_frame _ _ _ (.inl (Nat.lt_succ_self p))).trans (update_self _ _ _)

/-- The `n` cells from `p` on. -/
def loadAt (mem : Nat → β) (p : Nat) : Nat → List β
  | 0 => []
  | n + 1 => mem p :: loadAt mem (p + 1) n

theorem HoldsAt.loadAt_eq (h : HoldsAt mem p w) : loadAt mem p w.length = w := by
  induction w generalizing p with
  | nil => rfl
  | cons x w ih => rw [List.length_cons, loadAt, h.1, ih h.2]

theorem loadAt_add (mem : Nat → β) (p m n : Nat) :
    loadAt mem p (m + n) = loadAt mem p m ++ loadAt mem (p + m) n := by
  induction m generalizing p with
  | zero => rw [Nat.zero_add, loadAt, List.nil_append, Nat.add_zero]
  | succ m ih => rw [Nat.add_right_comm, loadAt, loadAt, ih, List.cons_append, Nat.add_right_comm p 1,
      Nat.add_assoc p m]

end Xv6
