import Mathlib.Data.List.Basic
import Xv6.Bytes

/-!
# The matcher of `grep`

`match`, `matchhere` and `matchstar` of `grep.c`. A string is the list of its bytes before the NUL, and a
pointer into it is the rest of the list, so that `[]` is a pointer to the NUL. A pattern stands for
items that are matched one after the other, each by a character or, if it is starred, by any number of
them.
-/

namespace Xv6.Grep

/-- `matchstar`, for the function `here` that searches for the rest of the pattern. -/
def matchstar (here : List UInt8 → Bool) (c : UInt8) : List UInt8 → Bool
  | [] => here []
  | t :: text => here (t :: text) || (t = c || c = ch '.') && matchstar here c text

/-- `matchhere` for a pattern that starts with the ordinary character `c`. -/
def matchchar (here : List UInt8 → Bool) (c : UInt8) : List UInt8 → Bool
  | [] => false
  | t :: text => (c = ch '.' || c = t) && here text

/-- Search for the pattern at the beginning of the text. -/
def matchhere : List UInt8 → List UInt8 → Bool
  | [], _ => true
  | [c], text => if c = ch '$' then text.isEmpty else matchchar (matchhere []) c text
  | c :: c' :: re, text =>
    if c' = ch '*' then matchstar (matchhere re) c text else matchchar (matchhere (c' :: re)) c text

/-- The loop of `match`. -/
def search (re : List UInt8) : List UInt8 → Bool
  | [] => matchhere re []
  | t :: text => matchhere re (t :: text) || search re text

def match_ (re text : List UInt8) : Bool :=
  match re with
  | c :: re' => if c = ch '^' then matchhere re' text else search re text
  | [] => search [] text

/-! ### What a pattern means -/

inductive Atom
  | any
  | char (c : UInt8)
  deriving DecidableEq

inductive Item
  | one (a : Atom)
  | star (a : Atom)
  deriving DecidableEq

/-- A pattern, possibly tied to the beginning and to the end of the text. -/
structure Pattern where
  start : Bool
  items : List Item
  finish : Bool

def atom (c : UInt8) : Atom := if c = ch '.' then .any else .char c

/-- The items of a pattern without a leading `^`, and whether it ends in an unstarred `$`. -/
def items : List UInt8 → List Item × Bool
  | [] => ([], false)
  | [c] => if c = ch '$' then ([], true) else ([.one (atom c)], false)
  | c :: c' :: re =>
    if c' = ch '*' then (.star (atom c) :: (items re).1, (items re).2)
    else (.one (atom c) :: (items (c' :: re)).1, (items (c' :: re)).2)

def pattern : List UInt8 → Pattern
  | [] => ⟨false, [], false⟩
  | c :: re =>
    if c = ch '^' then ⟨true, (items re).1, (items re).2⟩
    else ⟨false, (items (c :: re)).1, (items (c :: re)).2⟩

def Atom.Accepts : Atom → UInt8 → Prop
  | any, _ => True
  | char c, x => x = c

def Item.Matches : Item → List UInt8 → Prop
  | one a, w => ∃ x, w = [x] ∧ a.Accepts x
  | star a, w => ∀ x ∈ w, a.Accepts x

/-- The items are matched by consecutive parts of `w`. -/
def Matches : List Item → List UInt8 → Prop
  | [], w => w = []
  | i :: is, w => ∃ u v, w = u ++ v ∧ i.Matches u ∧ Matches is v

/-- Some part `w` of the text matches the pattern. -/
def Pattern.Occurs (p : Pattern) (text : List UInt8) : Prop :=
  ∃ pre w post, text = pre ++ w ++ post ∧ Matches p.items w ∧ (p.start = true → pre = []) ∧
    (p.finish = true → post = [])

/-! ### The matcher finds what a pattern means -/

/-- The items match at the beginning of the text, up to its end if `finish`. -/
def Here (is : List Item) (finish : Bool) (text : List UInt8) : Prop :=
  ∃ w post, text = w ++ post ∧ Matches is w ∧ (finish = true → post = [])

theorem accepts_atom (c t : UInt8) : (atom c).Accepts t ↔ c = ch '.' ∨ c = t := by
  rw [atom]
  split
  · next h => simp [Atom.Accepts, h]
  · next h =>
    simp only [Atom.Accepts, h, false_or]
    exact eq_comm

variable {finish : Bool} {text : List UInt8} {is : List Item} {a : Atom}

theorem here_nil : Here [] finish text ↔ (finish = true → text = []) := by
  constructor
  · rintro ⟨w, post, rfl, rfl, h⟩
    exact h
  · exact fun h => ⟨[], text, rfl, rfl, h⟩

theorem here_cons {i : Item} :
    Here (i :: is) finish text ↔ ∃ u rest, text = u ++ rest ∧ i.Matches u ∧ Here is finish rest := by
  constructor
  · rintro ⟨w, post, rfl, ⟨u, v, rfl, hu, hv⟩, hpost⟩
    exact ⟨u, v ++ post, List.append_assoc u v post, hu, v, post, rfl, hv, hpost⟩
  · rintro ⟨u, rest, rfl, hu, v, post, rfl, hv, hpost⟩
    exact ⟨u ++ v, post, (List.append_assoc u v post).symm, ⟨u, v, rfl, hu, hv⟩, hpost⟩

theorem not_here_one_nil : ¬ Here (.one a :: is) finish [] := by
  rw [here_cons]
  rintro ⟨u, rest, htext, ⟨x, rfl, -⟩, -⟩
  cases htext

theorem here_one_cons {t : UInt8} :
    Here (.one a :: is) finish (t :: text) ↔ a.Accepts t ∧ Here is finish text := by
  rw [here_cons]
  constructor
  · rintro ⟨u, rest, htext, ⟨x, rfl, hx⟩, hrest⟩
    cases htext
    exact ⟨hx, hrest⟩
  · rintro ⟨ht, hrest⟩
    exact ⟨[t], text, rfl, ⟨t, rfl, ht⟩, hrest⟩

/-- Either the star takes nothing, or it takes the first character. -/
theorem here_star_cons {t : UInt8} :
    Here (.star a :: is) finish (t :: text) ↔
      Here is finish (t :: text) ∨ a.Accepts t ∧ Here (.star a :: is) finish text := by
  rw [here_cons, here_cons]
  constructor
  · rintro ⟨u, rest, htext, hu, hrest⟩
    cases u with
    | nil => exact .inl (htext ▸ hrest)
    | cons x u =>
      cases htext
      exact .inr ⟨hu t List.mem_cons_self, u, rest, rfl,
        fun y hy => hu y (List.mem_cons_of_mem t hy), hrest⟩
  · rintro (h | ⟨ht, u, rest, rfl, hu, hrest⟩)
    · exact ⟨[], t :: text, rfl, fun x hx => absurd hx List.not_mem_nil, h⟩
    · refine ⟨t :: u, rest, rfl, ?_, hrest⟩
      intro x hx
      rcases List.mem_cons.mp hx with rfl | hx
      · exact ht
      · exact hu x hx

theorem here_star_nil : Here (.star a :: is) finish [] ↔ Here is finish [] := by
  rw [here_cons]
  constructor
  · rintro ⟨u, rest, htext, -, hrest⟩
    obtain ⟨rfl, rfl⟩ := List.append_eq_nil_iff.mp htext.symm
    exact hrest
  · exact fun h => ⟨[], [], rfl, fun x hx => absurd hx List.not_mem_nil, h⟩

theorem matchstar_iff {here : List UInt8 → Bool}
    (h : ∀ text, here text = true ↔ Here is finish text) (c : UInt8) (text : List UInt8) :
    matchstar here c text = true ↔ Here (.star (atom c) :: is) finish text := by
  induction text with
  | nil => rw [matchstar, h, here_star_nil]
  | cons t text ih =>
    simp only [matchstar, Bool.or_eq_true, Bool.and_eq_true, decide_eq_true_eq, h, ih,
      here_star_cons, accepts_atom]
    rw [or_comm (a := t = c), eq_comm (a := t)]

theorem matchchar_iff {here : List UInt8 → Bool}
    (h : ∀ text, here text = true ↔ Here is finish text) (c : UInt8) (text : List UInt8) :
    matchchar here c text = true ↔ Here (.one (atom c) :: is) finish text := by
  cases text with
  | nil => exact iff_of_false Bool.noConfusion not_here_one_nil
  | cons t text =>
    simp only [matchchar, Bool.and_eq_true, Bool.or_eq_true, decide_eq_true_eq, h, here_one_cons,
      accepts_atom]

theorem matchhere_iff (re text : List UInt8) :
    matchhere re text = true ↔ Here (items re).1 (items re).2 text := by
  induction re using items.induct generalizing text with
  | case1 => simp [matchhere, items, here_nil]
  | case2 => simp [matchhere, items, here_nil]
  | case3 c hc =>
    rw [matchhere, items, if_neg hc, if_neg hc]
    exact matchchar_iff (fun text => by simp [matchhere, here_nil]) c text
  | case4 c re ih =>
    rw [matchhere, items, if_pos rfl, if_pos rfl]
    exact matchstar_iff ih c text
  | case5 c c' re hc' ih =>
    rw [matchhere, items, if_neg hc', if_neg hc']
    exact matchchar_iff ih c text

theorem search_iff (re text : List UInt8) :
    search re text = true ↔ ∃ pre rest, text = pre ++ rest ∧ matchhere re rest = true := by
  induction text with
  | nil =>
    rw [search]
    constructor
    · exact fun h => ⟨[], [], rfl, h⟩
    · rintro ⟨pre, rest, htext, h⟩
      obtain ⟨rfl, rfl⟩ := List.append_eq_nil_iff.mp htext.symm
      exact h
  | cons t text ih =>
    rw [search, Bool.or_eq_true, ih]
    constructor
    · rintro (h | ⟨pre, rest, rfl, h⟩)
      · exact ⟨[], t :: text, rfl, h⟩
      · exact ⟨t :: pre, rest, rfl, h⟩
    · rintro ⟨pre, rest, htext, h⟩
      cases pre with
      | nil => exact .inl (htext ▸ h)
      | cons x pre =>
        cases htext
        exact .inr ⟨pre, rest, rfl, h⟩

theorem occurs_start : Pattern.Occurs ⟨true, is, finish⟩ text ↔ Here is finish text := by
  constructor
  · rintro ⟨pre, w, post, rfl, hw, hpre, hpost⟩
    rw [hpre rfl]
    exact ⟨w, post, rfl, hw, hpost⟩
  · rintro ⟨w, post, rfl, hw, hpost⟩
    exact ⟨[], w, post, rfl, hw, fun _ => rfl, hpost⟩

theorem occurs_anywhere :
    Pattern.Occurs ⟨false, is, finish⟩ text ↔ ∃ pre rest, text = pre ++ rest ∧ Here is finish rest := by
  constructor
  · rintro ⟨pre, w, post, rfl, hw, -, hpost⟩
    exact ⟨pre, w ++ post, List.append_assoc pre w post, w, post, rfl, hw, hpost⟩
  · rintro ⟨pre, rest, rfl, w, post, rfl, hw, hpost⟩
    exact ⟨pre, w, post, (List.append_assoc pre w post).symm, hw, Bool.noConfusion, hpost⟩

/-- `match` finds out if the pattern occurs in the text. -/
theorem match_correct (re text : List UInt8) : match_ re text = true ↔ (pattern re).Occurs text := by
  have hsearch : ∀ re, search re text = true ↔
      Pattern.Occurs ⟨false, (items re).1, (items re).2⟩ text := by
    intro re
    simp only [search_iff, occurs_anywhere, matchhere_iff]
  cases re with
  | nil => exact hsearch []
  | cons c re =>
    rw [match_, pattern]
    split
    · rw [matchhere_iff, occurs_start]
    · exact hsearch (c :: re)

end Xv6.Grep
