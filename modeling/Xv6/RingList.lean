import Mathlib

/-!
# Circular lists

Nodes that each point to a next one. Following the pointers of a segment leads from its first node
through the others to where it ends, and a circular list is a segment that ends at its first node.
It can be entered at any of its nodes, and a search that goes around it finds a node that is there.
-/

namespace Xv6

variable {β : Type*} {next next' : β → β} {p q r x y : β} {xs ys : List β}

/-- The pointers lead from `p` through `xs` to `q`. -/
def Seg (next : β → β) (p : β) : List β → β → Prop
  | [], q => next p = q
  | x :: xs, q => next p = x ∧ Seg next x xs q

/-- The last node of a segment. -/
def lastNode (p : β) : List β → β
  | [] => p
  | x :: xs => lastNode x xs

/-- `for(; !found(p); p = next(p))`, with at most `fuel` tests. -/
def search (found : β → Prop) [DecidablePred found] (next : β → β) : Nat → β → Option β
  | 0, _ => none
  | fuel + 1, p => if found p then some p else search found next fuel (next p)

theorem seg_append : Seg next p (xs ++ q :: ys) r ↔ Seg next p xs q ∧ Seg next q ys r := by
  induction xs generalizing p with
  | nil => exact Iff.rfl
  | cons x xs ih =>
    rw [List.cons_append, Seg, Seg, ih, and_assoc]

theorem lastNode_mem (p : β) (xs : List β) : lastNode p xs ∈ p :: xs := by
  induction xs generalizing p with
  | nil => exact List.mem_cons_self
  | cons x xs ih => exact List.mem_cons_of_mem p (ih x)

theorem lastNode_concat (p : β) (xs : List β) (x : β) : lastNode p (xs ++ [x]) = x := by
  induction xs generalizing p with
  | nil => rfl
  | cons y xs ih => exact ih y

namespace Seg

theorem congr (h : Seg next p xs q) (heq : ∀ x ∈ p :: xs, next' x = next x) : Seg next' p xs q := by
  induction xs generalizing p with
  | nil => exact (heq p List.mem_cons_self).trans h
  | cons x xs ih =>
    refine ⟨(heq p List.mem_cons_self).trans h.1, ih h.2 ?_⟩
    intro y hy
    exact heq y (List.mem_cons_of_mem p hy)

theorem last (h : Seg next p xs q) : next (lastNode p xs) = q := by
  induction xs generalizing p with
  | nil => exact h
  | cons x xs ih => exact ih h.2

theorem map_eq (h : Seg next p xs q) : (p :: xs).map next = xs ++ [q] := by
  induction xs generalizing p with
  | nil => rw [List.map_singleton, show next p = q from h, List.nil_append]
  | cons x xs ih => rw [List.map_cons, h.1, ih h.2, List.cons_append]

theorem iterate_mem (h : Seg next p xs p) (hq : q ∈ p :: xs) (j : Nat) : next^[j] q ∈ p :: xs := by
  induction j generalizing q with
  | zero => exact hq
  | succ j ih =>
    have hnext : next q ∈ (p :: xs).map next := List.mem_map_of_mem hq
    rw [h.map_eq] at hnext
    exact ih ((List.perm_append_singleton p xs).mem_iff.mp hnext)

/-- In a circular list each node has one predecessor. -/
theorem inj (h : Seg next p xs p) (hnodup : (p :: xs).Nodup) (hx : x ∈ p :: xs)
    (hy : y ∈ p :: xs) (heq : next x = next y) : x = y := by
  have hmap : ((p :: xs).map next).Nodup := by
    rw [h.map_eq]
    exact (List.perm_append_singleton p xs).nodup_iff.mpr hnodup
  exact List.inj_on_of_nodup_map hmap hx hy heq

theorem rotate (h : Seg next p xs p) (hq : q ∈ p :: xs) :
    ∃ ys, Seg next q ys q ∧ (q :: ys).Perm (p :: xs) := by
  rcases List.mem_cons.mp hq with rfl | hq
  · exact ⟨xs, h, List.Perm.refl _⟩
  · obtain ⟨as, bs, rfl⟩ := List.append_of_mem hq
    obtain ⟨hfirst, hsecond⟩ := seg_append.mp h
    have hperm : ((q :: bs) ++ (p :: as)).Perm ((p :: as) ++ (q :: bs)) := List.perm_append_comm
    exact ⟨bs ++ p :: as, seg_append.mpr ⟨hsecond, hfirst⟩, hperm⟩

theorem search_eq {found : β → Prop} [DecidablePred found] {fuel : Nat} (h : Seg next p xs r)
    (hq : q ∈ p :: xs) (hfound : ∀ x ∈ p :: xs, found x ↔ x = q) (hfuel : xs.length < fuel) :
    search found next fuel p = some q := by
  induction xs generalizing p fuel with
  | nil =>
    have hpq := List.mem_singleton.mp hq
    obtain ⟨n, rfl⟩ := Nat.exists_eq_add_of_lt hfuel
    rw [search, if_pos ((hfound p List.mem_cons_self).mpr hpq.symm), hpq]
  | cons x xs ih =>
    cases fuel with
    | zero => exact absurd hfuel (Nat.not_lt_zero _)
    | succ fuel =>
      rw [search]
      by_cases hp : found p
      · rw [if_pos hp, (hfound p List.mem_cons_self).mp hp]
      · rw [if_neg hp, h.1]
        have hne : q ≠ p := fun heq => hp ((hfound p List.mem_cons_self).mpr heq.symm)
        refine ih h.2 ((List.mem_cons.mp hq).resolve_left hne) ?_
          (Nat.lt_of_succ_lt_succ hfuel)
        intro y hy
        exact hfound y (List.mem_cons_of_mem p hy)

theorem suffix (h : Seg next p (xs ++ ys) q) : Seg next (lastNode p xs) ys q := by
  induction xs generalizing p with
  | nil => exact h
  | cons x xs ih => exact ih h.2

theorem head_congr (h : Seg next p xs q) (hr : next' r = next p)
    (heq : ∀ x ∈ xs, next' x = next x) : Seg next' r xs q := by
  cases xs with
  | nil => exact hr.trans h
  | cons x xs => exact ⟨hr.trans h.1, h.2.congr heq⟩

theorem replace {zs : List β} (h : Seg next p (xs ++ ys) q) (hnodup : (p :: xs).Nodup)
    (heq : ∀ x ∈ p :: xs, x ≠ lastNode p xs → next' x = next x)
    (htail : Seg next' (lastNode p xs) zs r) : Seg next' p (xs ++ zs) r := by
  induction xs generalizing p with
  | nil => exact htail
  | cons x xs ih =>
    obtain ⟨hp, hnodup'⟩ := List.nodup_cons.mp hnodup
    have hne : p ≠ lastNode x xs := fun hc => hp (hc ▸ lastNode_mem x xs)
    refine ⟨(heq p List.mem_cons_self hne).trans h.1, ih h.2 hnodup' ?_ htail⟩
    intro y hy hlast
    exact heq y (List.mem_cons_of_mem p hy) hlast

/-! ### Circular lists in ascending order -/

section Order

variable [LinearOrder β]

theorem le_lastNode (h : (p :: xs).Pairwise (· < ·)) (hx : x ∈ p :: xs) : x ≤ lastNode p xs := by
  induction xs generalizing p x with
  | nil => exact le_of_eq (List.mem_singleton.mp hx)
  | cons y ys ih =>
    obtain ⟨hp, hys⟩ := List.pairwise_cons.mp h
    rcases List.mem_cons.mp hx with rfl | hx
    · exact (hp y List.mem_cons_self).le.trans (ih hys List.mem_cons_self)
    · exact ih hys hx

/-- The pointers ascend to the next node, except for the last node's. -/
theorem next_ascending (h : Seg next p xs r) (hlt : (p :: xs).Pairwise (· < ·)) (hx : x ∈ p :: xs) :
    x < next x ∧ next x ∈ p :: xs ∧ (∀ y ∈ p :: xs, y ≤ x ∨ next x ≤ y) ∨
      next x = r ∧ ∀ y ∈ p :: xs, y ≤ x := by
  induction xs generalizing p with
  | nil =>
    have hxp := List.mem_singleton.mp hx
    subst hxp
    exact Or.inr ⟨h, fun y hy => le_of_eq (List.mem_singleton.mp hy)⟩
  | cons z zs ih =>
    obtain ⟨hp, hzs⟩ := List.pairwise_cons.mp hlt
    rcases List.mem_cons.mp hx with rfl | hx
    · rw [h.1]
      refine Or.inl ⟨hp z List.mem_cons_self, List.mem_cons_of_mem x List.mem_cons_self, ?_⟩
      intro y hy
      rcases List.mem_cons.mp hy with rfl | hy
      · exact Or.inl le_rfl
      · rcases List.mem_cons.mp hy with rfl | hy
        · exact Or.inr le_rfl
        · exact Or.inr ((List.pairwise_cons.mp hzs).1 y hy).le
    · have hpx : p ≤ x := (hp x hx).le
      rcases ih h.2 hzs hx with ⟨h₁, h₂, h₃⟩ | ⟨h₁, h₂⟩
      · refine Or.inl ⟨h₁, List.mem_cons_of_mem p h₂, fun y hy => ?_⟩
        rcases List.mem_cons.mp hy with rfl | hy
        · exact Or.inl hpx
        · exact h₃ y hy
      · refine Or.inr ⟨h₁, fun y hy => ?_⟩
        rcases List.mem_cons.mp hy with rfl | hy
        · exact hpx
        · exact h₂ y hy

/-- The two tests for the place of a new node `y` above the first one. -/
def Fits (next : β → β) (y x : β) : Prop :=
  x < y ∧ y < next x ∨ next x ≤ x ∧ (x < y ∨ y < next x)

instance (next : β → β) (y : β) : DecidablePred (Fits next y) := fun x =>
  inferInstanceAs (Decidable (x < y ∧ y < next x ∨ next x ≤ x ∧ (x < y ∨ y < next x)))

/-- Only the greatest node below `y` passes. -/
theorem fits_iff (h : Seg next p xs p) (hlt : (p :: xs).Pairwise (· < ·)) (hy : y ∉ p :: xs)
    (hpy : p < y) (hx : x ∈ p :: xs) (hq : q ∈ p :: xs) (hqy : q < y)
    (hmax : ∀ z ∈ p :: xs, z < y → z ≤ q) : Fits next y x ↔ x = q := by
  have hple : ∀ z ∈ p :: xs, p ≤ z := by
    intro z hz
    rcases List.mem_cons.mp hz with rfl | hz
    · exact le_rfl
    · exact ((List.pairwise_cons.mp hlt).1 z hz).le
  constructor
  · intro hfit
    have hxy : x < y := by
      rcases hfit with ⟨hxy, -⟩ | ⟨hle, hxy | hyx⟩
      · exact hxy
      · exact hxy
      · rcases h.next_ascending hlt hx with ⟨hup, -⟩ | ⟨hdown, -⟩
        · exact absurd hup (not_lt.mpr hle)
        · exact absurd (hpy.trans (hdown ▸ hyx)) (lt_irrefl p)
    refine le_antisymm (hmax x hx hxy) ?_
    rcases h.next_ascending hlt hx with ⟨hup, -, hgap⟩ | ⟨-, hall⟩
    · have hynext : y < next x := by
        rcases hfit with ⟨-, hyn⟩ | ⟨hle, -⟩
        · exact hyn
        · exact absurd hup (not_lt.mpr hle)
      exact (hgap q hq).resolve_right (fun hge => absurd (hynext.trans_le hge) (not_lt.mpr hqy.le))
    · exact hall q hq
  · rintro rfl
    rcases h.next_ascending hlt hx with ⟨hup, hnext, -⟩ | ⟨hdown, -⟩
    · refine Or.inl ⟨hqy, lt_of_not_ge fun hle => ?_⟩
      have hne : next x ≠ y := fun hc => hy (hc ▸ hnext)
      exact absurd (hmax _ hnext (lt_of_le_of_ne hle hne)) (not_le.mpr hup)
    · exact Or.inr ⟨hdown ▸ hple x hx, Or.inl hqy⟩

end Order

end Seg

end Xv6
