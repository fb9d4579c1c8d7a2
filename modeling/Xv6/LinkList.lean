import Mathlib.Data.List.Nodup
import Mathlib.Logic.Function.Basic

/-!
# Linked lists

A list whose nodes point to the next one. `link none` is the pointer to the first node and `link (some x)`
the pointer in node `x`. A list that ends in a null pointer has no cycle, so that a loop over it ends,
and a node is appended by setting the last link.
-/

namespace Xv6

open Function

variable {β : Type*}

/-- The nodes that follow link `a`, up to a null pointer. -/
inductive Linked (link : Option β → Option β) : Option β → List β → Prop
  | nil {a : Option β} (h : link a = none) : Linked link a []
  | cons {a : Option β} {x : β} {xs : List β} (h : link a = some x) (t : Linked link (some x) xs) :
      Linked link a (x :: xs)

/-- `for(pp = a; *pp; pp = &(*pp)->next)`: the link at which the loop ends, with at most `fuel`
tests. -/
def walk (link : Option β → Option β) : Nat → Option β → Option (Option β)
  | 0, _ => none
  | fuel + 1, a =>
    match link a with
    | none => some a
    | some x => walk link fuel (some x)

/-- The last link of a list. -/
def lastLink (a : Option β) : List β → Option β
  | [] => a
  | x :: xs => lastLink (some x) xs

theorem lastLink_mem (x : β) (xs : List β) : ∃ y ∈ x :: xs, lastLink (some x) xs = some y := by
  induction xs generalizing x with
  | nil => exact ⟨x, List.mem_cons_self, rfl⟩
  | cons y ys ih =>
    obtain ⟨z, hz, h⟩ := ih y
    exact ⟨z, List.mem_cons_of_mem _ hz, h⟩

namespace Linked

variable {link link' : Option β → Option β} {a : Option β} {x y : β} {xs ys : List β}

section

variable (h : Linked link a xs)
include h

theorem head_eq : link a = xs.head? := by
  cases h with
  | nil h => exact h
  | cons h _ => exact h

theorem unique (h' : Linked link a ys) : xs = ys := by
  induction h generalizing ys with
  | nil h =>
    cases h' with
    | nil _ => rfl
    | cons hx _ =>
      rw [h] at hx
      cases hx
  | cons h _ ih =>
    cases h' with
    | nil hx =>
      rw [h] at hx
      cases hx
    | cons hx t =>
      rw [h] at hx
      cases hx
      rw [ih t]

theorem suffix (hx : x ∈ xs) :
    ∃ ys, Linked link (some x) ys ∧ ys.length < xs.length := by
  induction h with
  | nil _ => cases hx
  | @cons a x' xs _ t ih =>
    rcases List.mem_cons.mp hx with rfl | hx
    · exact ⟨xs, t, Nat.lt_succ_self _⟩
    · obtain ⟨ys, hys, hlen⟩ := ih hx
      exact ⟨ys, hys, Nat.lt_succ_of_lt hlen⟩

theorem nodup : xs.Nodup := by
  induction h with
  | nil _ => exact List.nodup_nil
  | cons _ t ih =>
    refine List.nodup_cons.mpr ⟨?_, ih⟩
    intro hx
    obtain ⟨ys, hys, hlen⟩ := t.suffix hx
    rw [hys.unique t] at hlen
    exact Nat.lt_irrefl _ hlen

theorem congr (ha : link' a = link a)
    (hxs : ∀ x ∈ xs, link' (some x) = link (some x)) : Linked link' a xs := by
  induction h with
  | nil h => exact .nil (ha.trans h)
  | cons h _ ih =>
    exact .cons (ha.trans h) (ih (hxs _ List.mem_cons_self)
      (fun x hx => hxs x (List.mem_cons_of_mem _ hx)))

theorem walk_eq {fuel : Nat} (hfuel : xs.length < fuel) :
    walk link fuel a = some (lastLink a xs) := by
  induction h generalizing fuel with
  | nil h =>
    obtain ⟨n, rfl⟩ := Nat.exists_eq_add_of_lt hfuel
    rw [walk, h]
    rfl
  | cons h _ ih =>
    cases fuel with
    | zero => cases hfuel
    | succ fuel =>
      rw [walk, h]
      exact ih (Nat.lt_of_succ_lt_succ hfuel)

end

theorem tail [DecidableEq β] (h : Linked link none (x :: xs)) :
    Linked (update link none (link (some x))) none xs := by
  cases h with
  | cons _ t =>
    cases t with
    | nil hx => exact .nil ((update_self _ _ _).trans hx)
    | cons hx t =>
      refine .cons ((update_self _ _ _).trans hx) (t.congr ?_ ?_)
      · exact update_of_ne (Option.some_ne_none _) _ _
      · exact fun y _ => update_of_ne (Option.some_ne_none _) _ _

theorem snoc [DecidableEq β] (h : Linked link a xs) (hy : link (some y) = none) (hxs : y ∉ xs)
    (ha : a ≠ some y) (hax : ∀ x ∈ xs, a ≠ some x) :
    Linked (update link (lastLink a xs) (some y)) a (xs ++ [y]) := by
  induction h with
  | @nil a _ =>
    refine .cons (update_self _ _ _) (.nil ?_)
    rw [lastLink, update_of_ne (Ne.symm ha), hy]
  | @cons a x xs hx t ih =>
    have hnodup := List.nodup_cons.mp (Linked.cons hx t).nodup
    have hne : a ≠ lastLink (some x) xs := by
      obtain ⟨z, hz, hlast⟩ := lastLink_mem x xs
      rw [hlast]
      exact hax z hz
    refine .cons ((update_of_ne hne _ _).trans hx) ?_
    refine ih (fun hc => hxs (List.mem_cons_of_mem _ hc)) ?_ ?_
    · rintro ⟨⟩
      exact hxs List.mem_cons_self
    · rintro x' hx' ⟨⟩
      exact hnodup.1 hx'

end Linked

end Xv6
