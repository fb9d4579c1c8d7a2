import Mathlib.Data.List.Flatten
import Xv6.Memmove
import Xv6.Regexp
import Xv6.Run

/-!
# grep

`grep` of `grep.c`. `buf` is a memory with addresses from 0 on, and a run is the sequence of the chunks
that `read` returns before it returns 0. A chunk that is empty or longer than what `read` was asked for
is not possible.

`grep` takes the part of its buffer after the last newline along to the next chunk, but only if there is a
newline in the buffer; otherwise it starts over with an empty buffer. So it prints the lines that match
for every pattern if there is a newline in every chunk, and otherwise it does not.
-/

namespace Xv6.Grep

open Function

abbrev sizeofBuf : Nat := 1024

/-- `strchr` of `ulib.c`, with at most `fuel` tests. -/
def strchr (mem : Nat → UInt8) (c : UInt8) : Nat → Nat → Option Nat
  | 0, _ => none
  | fuel + 1, s =>
    if mem s = 0 then none
    else if mem s = c then some s
    else strchr mem c fuel (s + 1)

structure State where
  buf : Nat → UInt8
  m : Nat
  /-- What has been written to the standard output. -/
  out : List UInt8

/-- The loop over the lines in the buffer, from `p` on, with the place where it ends. -/
def eachLine (pattern : List UInt8) : Nat → (Nat → UInt8) → Nat → List UInt8 →
    (Nat → UInt8) × Nat × List UInt8
  | 0, buf, p, out => (buf, p, out)
  | fuel + 1, buf, p, out =>
    match strchr buf newline sizeofBuf p with
    | none => (buf, p, out)
    | some q =>
      let buf := update buf q 0
      if match_ pattern (text buf p sizeofBuf) then
        let buf := update buf q newline
        eachLine pattern fuel buf (q + 1) (out ++ loadAt buf p (q + 1 - p))
      else eachLine pattern fuel buf (q + 1) out

/-- One round of the loop over the chunks. -/
def round (pattern : List UInt8) (s : State) (chunk : List UInt8) : Option State :=
  if chunk = [] ∨ chunk.length > sizeofBuf - s.m - 1 then none
  else
    let m := s.m + chunk.length
    let buf := update (storeAt s.buf s.m chunk) m 0
    let r := eachLine pattern sizeofBuf buf 0 s.out
    let m := if r.2.1 = 0 then 0 else m
    if m > 0 then
      let m := m - r.2.1
      some ⟨Ulib.memmove r.1 0 r.2.1 m, m, r.2.2⟩
    else some ⟨r.1, m, r.2.2⟩

/-- What is written for the input that comes in the chunks. -/
def grep (pattern : List UInt8) (buf : Nat → UInt8) (chunks : List (List UInt8)) :
    Option (List UInt8) :=
  (run (round pattern) ⟨buf, 0, []⟩ chunks).map State.out

/-- Lines with their newlines. -/
def join (lines : List (List UInt8)) : List UInt8 := lines.flatMap (fun l => l ++ [newline])

/-- The lines that match. -/
def matching (pattern : List UInt8) (lines : List (List UInt8)) : List UInt8 :=
  join (lines.filter (match_ pattern))

/-- The lines of a text, and what comes after the last newline. -/
def splitLines : List UInt8 → List (List UInt8) × List UInt8
  | [] => ([], [])
  | x :: text =>
    let r := splitLines text
    if x = newline then ([] :: r.1, r.2)
    else match r.1 with
      | [] => ([], x :: r.2)
      | l :: ls => ((x :: l) :: ls, r.2)

/-- What `grep` takes along after the text `w` was in the buffer. -/
def carry (w : List UInt8) : List UInt8 :=
  if (splitLines w).1 = [] then [] else (splitLines w).2

/-- The lines as `grep` sees them, when it has taken `c` along. -/
def seen (c : List UInt8) : List (List UInt8) → List (List UInt8)
  | [] => []
  | x :: xs => (splitLines (c ++ x)).1 ++ seen (carry (c ++ x)) xs

/-- No chunk is empty or longer than what is asked for. -/
def Fits (c : List UInt8) : List (List UInt8) → Prop
  | [] => True
  | x :: xs => x ≠ [] ∧ c.length + x.length ≤ sizeofBuf - 1 ∧ Fits (carry (c ++ x)) xs

theorem join_cons (l : List UInt8) (ls : List (List UInt8)) :
    join (l :: ls) = l ++ newline :: join ls := by
  rw [join, List.flatMap_cons, List.append_assoc]
  rfl

theorem join_append (ls ls' : List (List UInt8)) : join (ls ++ ls') = join ls ++ join ls' :=
  List.flatMap_append

/-! ### Splitting a text -/

theorem join_splitLines (text : List UInt8) :
    join (splitLines text).1 ++ (splitLines text).2 = text := by
  induction text with
  | nil => rfl
  | cons x text ih =>
    simp only [splitLines]
    split
    · next h => rw [h, join_cons, List.nil_append, List.cons_append, ih]
    · split
      · next h =>
        rw [h] at ih
        exact congrArg (x :: ·) ih
      · next l ls h =>
        rw [h, join_cons] at ih
        rw [join_cons]
        exact congrArg (x :: ·) ih

/-- There is no newline in the list. -/
abbrev Plain (w : List UInt8) : Prop := newline ∉ w

theorem splitLines_plain (text : List UInt8) :
    (∀ l ∈ (splitLines text).1, Plain l) ∧ Plain (splitLines text).2 := by
  induction text with
  | nil => simp [splitLines, Plain]
  | cons x text ih =>
    obtain ⟨ihl, ihr⟩ := ih
    simp only [splitLines]
    split
    · refine ⟨?_, ihr⟩
      intro l hl
      rcases List.mem_cons.mp hl with rfl | hl
      · exact List.not_mem_nil
      · exact ihl l hl
    · next hx =>
      have hcons : ∀ w, Plain w → Plain (x :: w) := by
        intro w hw hmem
        rcases List.mem_cons.mp hmem with rfl | hmem
        · exact hx rfl
        · exact hw hmem
      split
      · exact ⟨fun l hl => absurd hl List.not_mem_nil, hcons _ ihr⟩
      · next l ls h =>
        rw [h] at ihl
        refine ⟨?_, ihr⟩
        intro l' hl'
        rcases List.mem_cons.mp hl' with rfl | hl'
        · exact hcons _ (ihl l List.mem_cons_self)
        · exact ihl l' (List.mem_cons_of_mem l hl')

theorem splitLines_of_plain {w : List UInt8} (h : Plain w) : splitLines w = ([], w) := by
  induction w with
  | nil => rfl
  | cons x w ih =>
    have hx : x ≠ newline := fun hx => h (hx ▸ List.mem_cons_self)
    rw [splitLines, ih (fun hw => h (List.mem_cons_of_mem x hw))]
    simp only [if_neg hx]

theorem splitLines_line {l : List UInt8} (h : Plain l) (text : List UInt8) :
    splitLines (l ++ newline :: text) = (l :: (splitLines text).1, (splitLines text).2) := by
  induction l with
  | nil => rfl
  | cons x l ih =>
    have hx : x ≠ newline := fun hx => h (hx ▸ List.mem_cons_self)
    rw [List.cons_append, splitLines, ih (fun hl => h (List.mem_cons_of_mem x hl))]
    simp only [if_neg hx]

variable {ls : List (List UInt8)} {c : List UInt8} {s : State} {chunks : List (List UInt8)}

theorem splitLines_join {r : List UInt8} (hls : ∀ l ∈ ls, Plain l)
    (hr : Plain r) : splitLines (join ls ++ r) = (ls, r) := by
  induction ls with
  | nil => exact splitLines_of_plain hr
  | cons l ls ih =>
    rw [join_cons, List.append_assoc, List.cons_append,
      splitLines_line (hls l List.mem_cons_self),
      ih (fun l' hl' => hls l' (List.mem_cons_of_mem l hl'))]

theorem splitLines_eq_nil_iff {w : List UInt8} : (splitLines w).1 = [] ↔ Plain w := by
  constructor
  · intro h
    have hw := join_splitLines w
    rw [h] at hw
    exact hw ▸ (splitLines_plain w).2
  · intro h
    rw [splitLines_of_plain h]

/-! ### The lines in the buffer -/

variable {mem : Nat → UInt8} {p fuel : Nat} {w : List UInt8} {pattern : List UInt8}

theorem strchr_eq_none {c : UInt8} (h : HoldsAt mem p w) (hw : 0 ∉ w) (hc : c ∉ w)
    (hend : mem (p + w.length) = 0) : strchr mem c fuel p = none := by
  induction w generalizing p fuel with
  | nil =>
    cases fuel with
    | zero => rfl
    | succ fuel => exact if_pos hend
  | cons x w ih =>
    cases fuel with
    | zero => rfl
    | succ fuel =>
      rw [List.mem_cons, not_or] at hw hc
      rw [List.length_cons, Nat.add_comm w.length, ← Nat.add_assoc] at hend
      rw [strchr, h.1, if_neg (Ne.symm hw.1), if_neg (Ne.symm hc.1)]
      exact ih h.2 hw.2 hc.2 hend

theorem strchr_eq_some {c : UInt8} (h : HoldsAt mem p w) (hw : 0 ∉ w) (hc : c ∉ w) (hne : c ≠ 0)
    (hend : mem (p + w.length) = c) (hfuel : w.length < fuel) :
    strchr mem c fuel p = some (p + w.length) := by
  induction w generalizing p fuel with
  | nil =>
    obtain ⟨n, rfl⟩ := Nat.exists_eq_add_of_lt hfuel
    have hend : mem p = c := hend
    rw [strchr, if_neg (fun h0 => hne (hend.symm.trans h0)), if_pos hend]
    rfl
  | cons x w ih =>
    cases fuel with
    | zero => cases hfuel
    | succ fuel =>
      rw [List.mem_cons, not_or] at hw hc
      rw [List.length_cons, Nat.add_comm w.length, ← Nat.add_assoc] at hend ⊢
      rw [strchr, h.1, if_neg (Ne.symm hw.1), if_neg (Ne.symm hc.1)]
      exact ih h.2 hw.2 hc.2 hend (Nat.lt_of_succ_lt_succ hfuel)

theorem text_eq (h : HoldsAt mem p w) (hw : 0 ∉ w) (hend : mem (p + w.length) = 0)
    (hfuel : w.length < fuel) : text mem p fuel = w := by
  induction w generalizing p fuel with
  | nil => exact text_nul hend fuel
  | cons x w ih =>
    cases fuel with
    | zero => cases hfuel
    | succ fuel =>
      rw [List.mem_cons, not_or] at hw
      rw [List.length_cons, Nat.add_comm w.length, ← Nat.add_assoc] at hend
      rw [text, h.1, if_neg (Ne.symm hw.1),
        ih h.2 hw.2 hend (Nat.lt_of_succ_lt_succ hfuel)]

theorem matching_cons (l : List UInt8) (ls : List (List UInt8)) :
    matching pattern (l :: ls) =
      (if match_ pattern l then l ++ [newline] else []) ++ matching pattern ls := by
  rw [matching, matching, List.filter_cons]
  split
  · rw [join_cons, List.append_assoc]
    rfl
  · rfl

/-- The loop prints the matching lines and stops at what comes after them, which it does not change. -/
theorem eachLine_spec {fuel : Nat} {r : List UInt8} (pattern out : List UInt8)
    (h : HoldsAt mem p (join ls ++ r)) (hzero : 0 ∉ join ls ++ r)
    (hend : mem (p + (join ls ++ r).length) = 0) (hls : ∀ l ∈ ls, Plain l) (hr : Plain r)
    (hlen : (join ls).length < sizeofBuf) (hfuel : ls.length < fuel) :
    ∃ mem', eachLine pattern fuel mem p out =
        (mem', p + (join ls).length, out ++ matching pattern ls) ∧
      HoldsAt mem' (p + (join ls).length) r := by
  induction ls generalizing mem p fuel out with
  | nil =>
    obtain ⟨n, rfl⟩ := Nat.exists_eq_add_of_lt hfuel
    refine ⟨mem, ?_, h⟩
    rw [eachLine, strchr_eq_none h hzero hr hend]
    simp [join, matching]
  | cons l ls ih =>
    cases fuel with
    | zero => cases hfuel
    | succ fuel =>
      rw [join_cons, List.append_assoc, List.cons_append] at h hzero hend
      obtain ⟨hl, hnl, hrest⟩ := holdsAt_append.mp h
      rw [List.mem_append, not_or, List.mem_cons, not_or] at hzero
      rw [join_cons, List.length_append, List.length_cons] at hlen
      have hq : strchr mem newline sizeofBuf p = some (p + l.length) :=
        strchr_eq_some hl hzero.1 (hls l List.mem_cons_self) (by decide) hnl (by omega)
      have hl₀ : HoldsAt (update mem (p + l.length) 0) p l := hl.update 0 (.inr (Nat.le_refl _))
      have htext : text (update mem (p + l.length) 0) p sizeofBuf = l :=
        text_eq hl₀ hzero.1 (update_self _ _ _) (by omega)
      -- what follows the newline is the same in both cases
      have hnext : ∀ mem₁ out₁, (∀ a, p + l.length < a → mem₁ a = mem a) →
          ∃ mem', eachLine pattern fuel mem₁ (p + l.length + 1) out₁ =
              (mem', p + (join (l :: ls)).length, out₁ ++ matching pattern ls) ∧
            HoldsAt mem' (p + (join (l :: ls)).length) r := by
        intro mem₁ out₁ hmem
        have hstep := ih out₁ (hrest.congr (fun a ha _ => hmem a ha)) hzero.2.2
          ((hmem _ (by omega)).trans ?_) (fun l' hl' => hls l' (List.mem_cons_of_mem l hl'))
          (by omega) (Nat.lt_of_succ_lt_succ hfuel)
        · rw [join_cons, List.length_append, List.length_cons, Nat.add_comm (join ls).length,
            ← Nat.add_assoc, ← Nat.add_assoc]
          exact hstep
        · rw [List.length_append, List.length_cons, Nat.add_comm (join ls ++ r).length,
            ← Nat.add_assoc, ← Nat.add_assoc] at hend
          exact hend
      rw [matching_cons, eachLine, hq]
      simp only [htext]
      split
      · have hload : loadAt (update (update mem (p + l.length) 0) (p + l.length) newline) p
            (p + l.length + 1 - p) = l ++ [newline] := by
          have hholds : HoldsAt (update (update mem (p + l.length) 0) (p + l.length) newline) p
              (l ++ [newline]) :=
            holdsAt_append.mpr ⟨hl₀.update newline (.inr (Nat.le_refl _)),
              update_self _ _ _, trivial⟩
          have := hholds.loadAt_eq
          rwa [List.length_append, List.length_singleton,
            show l.length + 1 = p + l.length + 1 - p by omega] at this
        rw [hload, ← List.append_assoc out (l ++ [newline])]
        refine hnext _ _ (fun a ha => ?_)
        rw [update_of_ne (by omega), update_of_ne (by omega)]
      · rw [List.nil_append]
        exact hnext _ _ (fun a ha => update_of_ne (by omega) _ _)

/-! ### The loop over the chunks -/

/-- The buffer holds what `grep` has taken along. -/
structure Holds (s : State) (c : List UInt8) : Prop where
  m : s.m = c.length
  buf : HoldsAt s.buf 0 c

theorem plain_carry (w : List UInt8) : Plain (carry w) := by
  rw [carry]
  split
  · exact List.not_mem_nil
  · exact (splitLines_plain w).2

theorem length_le_join (ls : List (List UInt8)) : ls.length ≤ (join ls).length := by
  induction ls with
  | nil => exact Nat.le_refl 0
  | cons l ls ih =>
    rw [join_cons, List.length_append, List.length_cons, List.length_cons]
    omega

theorem join_length_eq_zero_iff : (join ls).length = 0 ↔ ls = [] := by
  constructor
  · intro h
    have := length_le_join ls
    exact List.length_eq_zero_iff.mp (by omega)
  · rintro rfl
    rfl

theorem holdsAt_read (x : List UInt8) (hs : Holds s c) :
    HoldsAt (update (storeAt s.buf s.m x) (s.m + x.length) 0) 0 (c ++ x) := by
  have hlen : 0 + (c ++ x).length ≤ s.m + x.length := by
    rw [hs.m, List.length_append]
    omega
  refine HoldsAt.update (holdsAt_append.mpr ⟨hs.buf.congr ?_, ?_⟩) 0 (.inr hlen)
  · intro a _ ha
    exact storeAt_frame _ _ _ (.inl (by rw [hs.m]; omega))
  · rw [Nat.zero_add, ← hs.m]
    exact holdsAt_storeAt _ _ _

theorem round_eq_none {c x : List UInt8} (hs : Holds s c)
    (h : ¬ (x ≠ [] ∧ c.length + x.length ≤ sizeofBuf - 1)) : round pattern s x = none := by
  refine if_pos ?_
  rw [hs.m]
  by_cases hx : x = []
  · exact .inl hx
  · have hpos := List.length_pos_of_ne_nil hx
    have hlen : ¬ c.length + x.length ≤ sizeofBuf - 1 := fun hc => h ⟨hx, hc⟩
    simp only [sizeofBuf] at hlen ⊢
    omega

theorem round_spec {c x : List UInt8} (pattern : List UInt8) (hs : Holds s c) (hzero : 0 ∉ c ++ x)
    (hx : x ≠ []) (hlen : c.length + x.length ≤ sizeofBuf - 1) :
    ∃ s', round pattern s x = some s' ∧ Holds s' (carry (c ++ x)) ∧
      s'.out = s.out ++ matching pattern (splitLines (c ++ x)).1 := by
  have hread := holdsAt_read x hs
  have hjoin := join_splitLines (c ++ x)
  obtain ⟨hls, hr⟩ := splitLines_plain (c ++ x)
  obtain ⟨ls, r, hsplit⟩ : ∃ ls r, splitLines (c ++ x) = (ls, r) := ⟨_, _, rfl⟩
  rw [carry]
  simp only [hsplit] at hjoin hls hr ⊢
  have hcount := congrArg List.length hjoin
  simp only [List.length_append] at hcount
  have hlines := length_le_join ls
  have hsize : sizeofBuf = 1024 := rfl
  rw [← hjoin] at hread hzero
  obtain ⟨mem', heach, hrest⟩ := eachLine_spec pattern s.out hread hzero (by
      rw [Nat.zero_add, List.length_append, hcount, ← hs.m]
      exact update_self _ _ _) hls hr (by omega) (show ls.length < sizeofBuf by omega)
  rw [Nat.zero_add] at heach hrest
  have hfits : ¬ (x = [] ∨ x.length > sizeofBuf - s.m - 1) := by
    rw [hs.m]
    rintro (h | h)
    · exact hx h
    · omega
  rw [round, if_neg hfits]
  simp only [heach, join_length_eq_zero_iff]
  by_cases hnil : ls = []
  · simp only [if_pos hnil, gt_iff_lt, Nat.lt_irrefl, if_false]
    exact ⟨_, rfl, ⟨rfl, trivial⟩, rfl⟩
  · have hpos : s.m + x.length > 0 := Nat.add_pos_right _ (List.length_pos_of_ne_nil hx)
    have hm : s.m + x.length - (join ls).length = r.length := by
      rw [hs.m]
      omega
    simp only [if_neg hnil, if_pos hpos, hm]
    refine ⟨_, rfl, ⟨rfl, ?_⟩, rfl⟩
    exact hrest.copied (copyUp_copied (.inl (Nat.zero_le _)))

theorem mem_of_mem_carry {w : List UInt8} {y : UInt8} (h : y ∈ carry w) : y ∈ w := by
  rw [carry] at h
  split at h
  · exact absurd h List.not_mem_nil
  · rw [← join_splitLines w]
    exact List.mem_append_right _ h

theorem run_spec (pattern : List UInt8)
    (hs : Holds s c) (hzero : 0 ∉ c ++ chunks.flatten) (hfits : Fits c chunks) :
    ∃ s', run (round pattern) s chunks = some s' ∧
      s'.out = s.out ++ matching pattern (seen c chunks) := by
  induction chunks generalizing s c with
  | nil => exact ⟨s, rfl, (List.append_nil s.out).symm⟩
  | cons x xs ih =>
    obtain ⟨hx, hlen, hrest⟩ := hfits
    rw [List.flatten_cons, ← List.append_assoc, List.mem_append, not_or] at hzero
    obtain ⟨s₁, hround, hs₁, hout₁⟩ := round_spec pattern hs hzero.1 hx hlen
    obtain ⟨s', hrun, hout⟩ := ih hs₁ (by
      rw [List.mem_append, not_or]
      exact ⟨fun h => hzero.1 (mem_of_mem_carry h), hzero.2⟩) hrest
    refine ⟨s', (run_cons _).mpr ⟨s₁, hround, hrun⟩, ?_⟩
    rw [hout, hout₁, seen, matching, matching, matching, List.filter_append, join_append,
      List.append_assoc]

theorem fits_of_run {s s' : State} (hs : Holds s c) (hzero : 0 ∉ c ++ chunks.flatten)
    (hrun : run (round pattern) s chunks = some s') : Fits c chunks := by
  induction chunks generalizing s c with
  | nil => trivial
  | cons x xs ih =>
    obtain ⟨t, ht, hrest⟩ := (run_cons _).mp hrun
    rw [List.flatten_cons, ← List.append_assoc, List.mem_append, not_or] at hzero
    by_cases h : x ≠ [] ∧ c.length + x.length ≤ sizeofBuf - 1
    · obtain ⟨s₁, hround, hs₁, -⟩ := round_spec pattern hs hzero.1 h.1 h.2
      cases hround.symm.trans ht
      refine ⟨h.1, h.2, ih hs₁ ?_ hrest⟩
      rw [List.mem_append, not_or]
      exact ⟨fun h => hzero.1 (mem_of_mem_carry h), hzero.2⟩
    · rw [round_eq_none hs h] at ht
      cases ht

theorem holds_nil (buf : Nat → UInt8) : Holds ⟨buf, 0, []⟩ [] := ⟨rfl, trivial⟩

theorem grep_eq {buf : Nat → UInt8} (hzero : 0 ∉ chunks.flatten) (hfits : Fits [] chunks) :
    grep pattern buf chunks = some (matching pattern (seen [] chunks)) := by
  obtain ⟨s', hrun, hout⟩ := run_spec pattern (holds_nil buf) hzero hfits
  rw [grep, hrun, Option.map_some, hout, List.nil_append]

theorem fits_of_grep {buf : Nat → UInt8} (hzero : 0 ∉ chunks.flatten)
    (h : (grep pattern buf chunks).isSome = true) : Fits [] chunks := by
  rw [grep, Option.isSome_map] at h
  obtain ⟨s', hrun⟩ := Option.isSome_iff_exists.mp h
  exact fits_of_run (holds_nil buf) hzero hrun

/-! ### When no line is cut -/

/-- If every chunk has a newline, nothing is thrown away. -/
theorem seen_join (hc : Plain c) (h : ∀ x ∈ chunks, newline ∈ x) :
    ∃ r, Plain r ∧ join (seen c chunks) ++ r = c ++ chunks.flatten := by
  induction chunks generalizing c with
  | nil => exact ⟨c, hc, (List.append_nil c).symm⟩
  | cons x xs ih =>
    obtain ⟨r, hr, hjoin⟩ := ih (plain_carry (c ++ x)) (fun y hy => h y (List.mem_cons_of_mem x hy))
    have hne : (splitLines (c ++ x)).1 ≠ [] := by
      intro hnil
      exact splitLines_eq_nil_iff.mp hnil (List.mem_append_right c (h x List.mem_cons_self))
    refine ⟨r, hr, ?_⟩
    rw [seen, join_append, List.append_assoc, hjoin, carry, if_neg hne, ← List.append_assoc,
      join_splitLines, List.append_assoc, List.flatten_cons]

theorem join_carry_length (w : List UInt8) :
    (join (splitLines w).1).length + (carry w).length ≤ w.length := by
  have h := congrArg List.length (join_splitLines w)
  rw [List.length_append] at h
  rw [carry]
  split
  · rw [List.length_nil]
    omega
  · omega

theorem seen_length (c : List UInt8) (chunks : List (List UInt8)) :
    (join (seen c chunks)).length ≤ c.length + chunks.flatten.length := by
  induction chunks generalizing c with
  | nil => exact Nat.zero_le _
  | cons x xs ih =>
    have hfirst := join_carry_length (c ++ x)
    have hrest := ih (carry (c ++ x))
    rw [seen, join_append, List.length_append, List.flatten_cons, List.length_append]
    rw [List.length_append] at hfirst
    omega

/-- A chunk without a newline is thrown away. -/
theorem seen_length_lt (hc : Plain c) (hfits : Fits c chunks) {x : List UInt8} (hx : x ∈ chunks)
    (hplain : Plain x) : (join (seen c chunks)).length < c.length + chunks.flatten.length := by
  induction chunks generalizing c with
  | nil => exact absurd hx List.not_mem_nil
  | cons y ys ih =>
    obtain ⟨hy, -, hrest⟩ := hfits
    rw [seen, join_append, List.length_append, List.flatten_cons, List.length_append]
    rcases List.mem_cons.mp hx with rfl | hx
    · have hnil : (splitLines (c ++ x)).1 = [] := by
        rw [splitLines_eq_nil_iff, Plain, List.mem_append, not_or]
        exact ⟨hc, hplain⟩
      have hlater := seen_length (carry (c ++ x)) ys
      have hpos := List.length_pos_of_ne_nil hy
      rw [carry, if_pos hnil] at hlater ⊢
      rw [hnil]
      simp only [join, List.flatMap_nil, List.length_nil] at hlater ⊢
      omega
    · have hfirst := join_carry_length (c ++ y)
      have hlater := ih (plain_carry (c ++ y)) hrest hx
      rw [List.length_append] at hfirst
      omega

theorem match_nil (text : List UInt8) : match_ [] text = true := by
  cases text with
  | nil => rfl
  | cons t text => rfl

theorem matching_nil (ls : List (List UInt8)) : matching [] ls = join ls := by
  rw [matching, List.filter_eq_self.mpr (fun l _ => match_nil l)]

theorem join_injective {ls ls' : List (List UInt8)} (h : ∀ l ∈ ls, Plain l) (h' : ∀ l ∈ ls', Plain l)
    (heq : join ls = join ls') : ls = ls' := by
  have hsplit := splitLines_join h List.not_mem_nil
  rw [heq, splitLines_join h' List.not_mem_nil] at hsplit
  exact (congrArg Prod.fst hsplit).symm

theorem seen_plain {c l : List UInt8} (h : l ∈ seen c chunks) : Plain l := by
  induction chunks generalizing c with
  | nil => exact absurd h List.not_mem_nil
  | cons x xs ih =>
    rcases List.mem_append.mp h with h | h
    · exact (splitLines_plain (c ++ x)).1 l h
    · exact ih h

theorem not_mem_join {lines : List (List UInt8)} (h : ∀ l ∈ lines, 0 ∉ l) : 0 ∉ join lines := by
  intro hmem
  obtain ⟨l, hl, hzero⟩ := List.mem_flatMap.mp hmem
  rcases List.mem_append.mp hzero with hzero | hzero
  · exact h l hl hzero
  · exact absurd hzero (by decide)

/-- `grep` prints what it should for a pattern if the lines that it sees and those of the input do not
differ in what matches. That is the case for all patterns if every chunk has a newline. -/
theorem grep_prints_iff {lines chunks : List (List UInt8)} {buf : Nat → UInt8}
    (hlines : ∀ l ∈ lines, newline ∉ l ∧ 0 ∉ l) (hjoin : chunks.flatten = join lines)
    (hfits : ∀ pattern, (grep pattern buf chunks).isSome = true) :
    (∀ pattern, grep pattern buf chunks = some (matching pattern lines) ↔
      (seen [] chunks).filter (match_ pattern) = lines.filter (match_ pattern)) ∧
    ((∀ pattern, grep pattern buf chunks = some (matching pattern lines)) ↔
      ∀ x ∈ chunks, newline ∈ x) := by
  have hplain : ∀ l ∈ lines, Plain l := fun l hl => (hlines l hl).1
  have hzero : 0 ∉ chunks.flatten := by
    rw [hjoin]
    exact not_mem_join (fun l hl => (hlines l hl).2)
  have hchunks := fits_of_grep hzero (hfits [])
  have hgrep : ∀ pattern, grep pattern buf chunks = some (matching pattern lines) ↔
      (seen [] chunks).filter (match_ pattern) = lines.filter (match_ pattern) := by
    intro pattern
    rw [grep_eq hzero hchunks, Option.some.injEq, matching, matching]
    constructor
    · exact join_injective (fun l hl => seen_plain (List.mem_of_mem_filter hl))
        (fun l hl => hplain l (List.mem_of_mem_filter hl))
    · exact congrArg join
  refine ⟨hgrep, ?_, ?_⟩
  · intro h x hx
    by_contra hnl
    have hall := h []
    rw [grep_eq hzero hchunks, Option.some.injEq, matching_nil, matching_nil, ← hjoin] at hall
    have hlt := seen_length_lt List.not_mem_nil hchunks hx hnl
    rw [hall, List.length_nil, Nat.zero_add] at hlt
    exact Nat.lt_irrefl _ hlt
  · intro h pattern
    obtain ⟨r, hr, hseen⟩ := seen_join List.not_mem_nil h
    rw [List.nil_append, hjoin] at hseen
    have hsplit : splitLines (join (seen [] chunks) ++ r) = (seen [] chunks, r) :=
      splitLines_join (fun l hl => seen_plain hl) hr
    rw [hseen, ← List.append_nil (join lines), splitLines_join hplain List.not_mem_nil] at hsplit
    rw [hgrep pattern, ← (Prod.mk.inj hsplit).1]

/-- The lines `ab` and `cd` in two chunks that cut the second line, each with a newline. -/
theorem wholeLine_prints :
    (∀ pattern, (grep pattern (fun _ => 0) [[97, 98, 10, 99], [100, 10]]).isSome = true) ∧
      grep [99] (fun _ => 0) [[97, 98, 10, 99], [100, 10]] = some [99, 100, 10] := by
  have hfits : ∀ pattern,
      (grep pattern (fun _ => 0) [[97, 98, 10, 99], [100, 10]]).isSome = true := by
    intro pattern
    have hchunks : Fits [] [[97, 98, 10, 99], [100, 10]] :=
      ⟨by decide, by decide, by decide, by decide, trivial⟩
    rw [grep_eq (by decide) hchunks]
    rfl
  have hlines : ∀ l ∈ [[97, 98], [99, 100]], newline ∉ l ∧ 0 ∉ l := by decide
  have hprints := (grep_prints_iff hlines (by decide) hfits).2.mpr (by decide) [99]
  exact ⟨hfits, hprints⟩

/-- The line `ab` in two chunks, of which the first has no newline: `grep a` prints nothing. -/
theorem cutLine_lost : grep [97] (fun _ => 0) [[97], [98, 10]] = some [] ∧
    matching [97] [[97, 98]] = [97, 98, 10] := by
  decide

end Xv6.Grep
