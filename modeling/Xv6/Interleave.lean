import Mathlib
import Xv6.Counts

/-!
# Logs with several writers

A log whose entries carry their writer, the entries of one writer in order, and lists cut into
chunks of a given length.
-/

namespace Xv6

variable {ι α : Type*} [DecidableEq ι] {log : List (ι × α)} {p q : ι} {a : α}

/-- What `p` has written to the log. -/
def contribs (p : ι) (log : List (ι × α)) : List α :=
  (log.filter (fun x => x.1 = p)).map Prod.snd

@[simp] theorem contribs_nil (p : ι) : contribs p ([] : List (ι × α)) = [] := rfl

theorem contribs_snoc_self (p : ι) (log : List (ι × α)) (a : α) :
    contribs p (log ++ [(p, a)]) = contribs p log ++ [a] := by
  simp [contribs]

theorem contribs_snoc_of_ne (h : q ≠ p) (log : List (ι × α)) (a : α) :
    contribs q (log ++ [(p, a)]) = contribs q log := by
  simp [contribs, h.symm]

theorem mem_contribs {x : ι × α} (h : x ∈ log) : x.2 ∈ contribs x.1 log :=
  List.mem_map.mpr ⟨x, List.mem_filter.mpr ⟨h, by simp⟩, rfl⟩

theorem sum_contribs [Fintype ι] (f : α → Nat) (log : List (ι × α)) :
    ((log.map Prod.snd).map f).sum = ∑ p, ((contribs p log).map f).sum := by
  induction log using List.reverseRecOn with
  | nil => simp
  | append_singleton log x ih =>
    obtain ⟨p, a⟩ := x
    have hown : ∀ q, ((contribs q (log ++ [(p, a)])).map f).sum =
        ((contribs q log).map f).sum + if q = p then f a else 0 := by
      intro q
      rcases eq_or_ne q p with rfl | hq
      · simp [contribs_snoc_self]
      · simp [contribs_snoc_of_ne hq, hq]
    simp only [hown, Finset.sum_add_distrib, Finset.sum_ite_eq', Finset.mem_univ, if_true, ← ih]
    simp

/-! ### Chunks -/

def chunk (m : Nat) (l : List α) (j : Nat) : List α := (l.drop (j * m)).take m

/-- The list in chunks of `m`, the last one possibly shorter. -/
def chunks (m : Nat) (l : List α) : List (List α) :=
  (List.range ((l.length + m - 1) / m)).map (chunk m l)

theorem length_le_of_mem_chunks {m : Nat} {l c : List α} (h : c ∈ chunks m l) : c.length ≤ m := by
  obtain ⟨j, -, rfl⟩ := List.mem_map.mp h
  exact List.length_take_le _ _

theorem flatten_chunk (m : Nat) (l : List α) (j : Nat) :
    ((List.range j).map (chunk m l)).flatten = l.take (j * m) := by
  induction j with
  | zero => simp
  | succ j ih =>
    rw [List.range_succ, List.map_append, List.flatten_append, ih, Nat.succ_mul,
      List.take_add]
    simp [chunk]

theorem flatten_chunks {m : Nat} (hm : 0 < m) (l : List α) : (chunks m l).flatten = l := by
  rw [chunks, flatten_chunk, List.take_of_length_le]
  have hdiv := Nat.lt_div_mul_add hm (a := l.length + m - 1)
  omega

theorem flatten_flatMap_chunks {m : Nat} (hm : 0 < m) (ls : List (List α)) :
    (ls.flatMap (chunks m)).flatten = ls.flatten := by
  induction ls with
  | nil => rfl
  | cons l ls ih => rw [List.flatMap_cons, List.flatten_append, flatten_chunks hm, ih,
      List.flatten_cons]

end Xv6
