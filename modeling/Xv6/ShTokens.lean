import Mathlib.Data.List.GetD
import Xv6.Sh

/-!
# The tokens of a line

`tokens` says what the tokens of a line are, without positions. From a position where the tokens `T` are
ahead (`At`), `peek` looks at the first of them and `gettoken` takes it.
-/

namespace Xv6.Sh

inductive Tok
  | bar | lparen | rparen | semi | amp | lt | gt | gtgt
  | word (w : List UInt8)
  deriving DecidableEq, Repr

/-- What `gettoken` returns for a token. -/
def Tok.code : Tok → UInt8
  | bar => ch '|'
  | lparen => ch '('
  | rparen => ch ')'
  | semi => ch ';'
  | amp => ch '&'
  | lt => ch '<'
  | gt => ch '>'
  | gtgt => ch '+'
  | word _ => ch 'a'

/-- The first byte of a token that is not a word. -/
def Tok.first : Tok → Option UInt8
  | gtgt => some (ch '>')
  | word _ => none
  | t => some t.code

/-- The token of one byte that is neither `>` nor part of a word. -/
def single (c : UInt8) : Option Tok :=
  [Tok.bar, .lparen, .rparen, .semi, .amp, .lt].find? (fun t => t.code = c)

/-- The first token, and the bytes after it. -/
def nextToken : List UInt8 → Option (Tok × List UInt8)
  | [] => none
  | c :: cs =>
    if isSpace c then nextToken cs
    else if c = ch '>' then
      if cs.head? = some (ch '>') then some (.gtgt, cs.tail) else some (.gt, cs)
    else
      match single c with
      | some t => some (t, cs)
      | none => some (.word ((c :: cs).takeWhile isWord), (c :: cs).dropWhile isWord)

theorem length_dropWhile_le (p : UInt8 → Bool) (cs : List UInt8) :
    (cs.dropWhile p).length ≤ cs.length :=
  (List.dropWhile_suffix p).length_le

variable {c : UInt8} {t : Tok} {T : List Tok}

theorem isWord_of_not_single (hs : isSpace c = false) (hgt : c ≠ ch '>')
    (h : single c = none) : isWord c = true := by
  simp only [single, List.find?_eq_none, List.mem_cons, List.not_mem_nil, or_false,
    decide_eq_true_eq] at h
  simp only [isSpace] at hs
  simp only [isWord, hs, Bool.not_false, Bool.true_and, Bool.not_eq_true', symbols]
  have h₁ := h .bar (by simp)
  have h₂ := h .lparen (by simp)
  have h₃ := h .rparen (by simp)
  have h₄ := h .semi (by simp)
  have h₅ := h .amp (by simp)
  have h₆ := h .lt (by simp)
  simp only [Tok.code] at h₁ h₂ h₃ h₄ h₅ h₆
  simp only [List.contains_cons, Bool.or_eq_false_iff, beq_eq_false_iff_ne]
  exact ⟨Ne.symm h₆, Ne.symm h₁, hgt, Ne.symm h₅, Ne.symm h₄, Ne.symm h₂, Ne.symm h₃, rfl⟩

theorem nextToken_length {cs rest : List UInt8} (h : nextToken cs = some (t, rest)) :
    rest.length < cs.length := by
  induction cs with
  | nil => cases h
  | cons c cs ih =>
    rw [nextToken] at h
    split_ifs at h with hs hgt hgt'
    · exact (ih h).trans (Nat.lt_succ_self _)
    · cases h
      exact Nat.lt_succ_of_le (List.length_tail ▸ Nat.sub_le _ _)
    · cases h
      exact Nat.lt_succ_self _
    · split at h
      · cases h
        exact Nat.lt_succ_self _
      · next hsingle =>
        cases h
        rw [List.dropWhile_cons_of_pos (isWord_of_not_single (by simpa using hs) hgt hsingle)]
        exact Nat.lt_succ_of_le (length_dropWhile_le _ _)

def tokens (cs : List UInt8) : List Tok :=
  match _h : nextToken cs with
  | none => []
  | some (t, rest) => t :: tokens rest
termination_by cs.length
decreasing_by exact nextToken_length _h

theorem tokens_of_none {cs : List UInt8} (h : nextToken cs = none) : tokens cs = [] := by
  rw [tokens]
  split
  · rfl
  · next t rest h' =>
    rw [h] at h'
    cases h'

theorem tokens_of_some {cs rest : List UInt8} (h : nextToken cs = some (t, rest)) :
    tokens cs = t :: tokens rest := by
  rw [tokens]
  split
  · next h' =>
    rw [h] at h'
    cases h'
  · next t' rest' h' =>
    rw [h] at h'
    cases h'
    rfl

theorem nextToken_dropWhile (cs : List UInt8) : nextToken (cs.dropWhile isSpace) = nextToken cs := by
  induction cs with
  | nil => rfl
  | cons c cs ih =>
    by_cases hs : isSpace c = true
    · rw [List.dropWhile_cons_of_pos hs, ih, nextToken, if_pos hs]
    · rw [List.dropWhile_cons_of_neg hs]

theorem tokens_dropWhile (cs : List UInt8) : tokens (cs.dropWhile isSpace) = tokens cs := by
  cases h : nextToken cs with
  | none => rw [tokens_of_none h, tokens_of_none (by rw [nextToken_dropWhile, h])]
  | some r =>
    obtain ⟨t, rest⟩ := r
    rw [tokens_of_some h, tokens_of_some ((nextToken_dropWhile cs).trans h)]

theorem length_tokens_le (cs : List UInt8) : (tokens cs).length ≤ cs.length := by
  obtain ⟨n, hn⟩ : ∃ n, cs.length = n := ⟨_, rfl⟩
  induction n using Nat.strong_induction_on generalizing cs with
  | _ n ih =>
    cases h : nextToken cs with
    | none => simp [tokens_of_none h]
    | some r =>
      obtain ⟨t, rest⟩ := r
      have hlt := nextToken_length h
      have hrest := ih rest.length (hn ▸ hlt) rest rfl
      rw [tokens_of_some h, List.length_cons]
      omega

/-! ### The bytes at a position -/

variable {b : List UInt8} {s : Nat}

/-- The line without its NUL. -/
def line (b : List UInt8) : List UInt8 := cstr b 0

theorem length_line : (line b).length = strlen b := rfl

theorem line_append (b : List UInt8) : ∃ rest, b = line b ++ rest ∧ rest.getD 0 0 = 0 := by
  refine ⟨b.dropWhile (fun c => c ≠ 0), ?_, ?_⟩
  · rw [line, cstr, List.drop_zero, List.takeWhile_append_dropWhile]
  · cases hrest : b.dropWhile (fun c => decide (c ≠ 0)) with
    | nil => rfl
    | cons c cs =>
      have hne : b.dropWhile (fun c => decide (c ≠ 0)) ≠ [] := by
        rw [hrest]
        exact List.cons_ne_nil _ _
      have hc := List.head_dropWhile_not _ hne
      simp only [hrest, List.head_cons, decide_eq_false_iff_not, not_not] at hc
      exact hc

theorem deref_line (h : s < strlen b) : deref b s = (line b).getD s 0 := by
  obtain ⟨rest, hb, -⟩ := line_append b
  rw [deref]
  conv_lhs => rw [hb]
  exact List.getD_append _ _ _ _ h

theorem deref_strlen : deref b (strlen b) = 0 := by
  obtain ⟨rest, hb, hrest⟩ := line_append b
  have hget := List.getD_append_right (line b) rest 0 (strlen b) le_rfl
  rwa [← hb, length_line, Nat.sub_self, hrest] at hget

theorem deref_ne_zero (h : s < strlen b) : deref b s ≠ 0 := by
  have hlen : s < (line b).length := h
  have hall : (line b).all (fun c => decide (c ≠ 0)) = true := List.all_takeWhile
  rw [deref_line h, List.getD_eq_getElem _ _ hlen]
  exact of_decide_eq_true (List.all_eq_true.mp hall _ (List.getElem_mem hlen))

theorem drop_line (h : s < strlen b) : (line b).drop s = deref b s :: (line b).drop (s + 1) := by
  have hlen : s < (line b).length := h
  rw [deref_line h, List.getD_eq_getElem _ _ hlen, List.drop_eq_getElem_cons hlen]

theorem drop_strlen : (line b).drop (strlen b) = [] := List.drop_length

/-- The bytes of a span. -/
def slice (b : List UInt8) (w : Span) : List UInt8 := ((line b).drop w.1).take (w.2 - w.1)

/-- The bytes from `s` to `e` satisfy `p`, and the one after them does not. -/
structure Scanned (p : UInt8 → Bool) (b : List UInt8) (s e : Nat) : Prop where
  lower : s ≤ e
  upper : e ≤ strlen b
  drop : (line b).drop e = ((line b).drop s).dropWhile p
  take : slice b (s, e) = ((line b).drop s).takeWhile p
  inside : ∀ i, s ≤ i → i < e → p (deref b i) = true
  stop : e = strlen b ∨ p (deref b e) = false

theorem scan_spec (p : UInt8 → Bool) (h : s ≤ strlen b) :
    Scanned p b s (scan p b (strlen b) s) := by
  obtain ⟨n, hn⟩ : ∃ n, strlen b - s = n := ⟨_, rfl⟩
  induction n generalizing s with
  | zero =>
    obtain rfl : s = strlen b := by omega
    rw [scan, if_neg (fun hc => absurd hc.1 (Nat.lt_irrefl _))]
    refine ⟨le_rfl, le_rfl, ?_, ?_, fun i h₁ h₂ => by omega, Or.inl rfl⟩
    · rw [drop_strlen]
      rfl
    · rw [slice, drop_strlen, List.take_nil]
      rfl
  | succ n ih =>
    have hlt : s < strlen b := by omega
    rw [scan]
    by_cases hp : p (deref b s) = true
    · have hrest := ih (s := s + 1) hlt (by omega)
      have hlow := hrest.lower
      rw [if_pos ⟨hlt, hp⟩]
      refine ⟨(Nat.le_succ s).trans hrest.lower, hrest.upper, ?_, ?_, ?_, hrest.stop⟩
      · rw [hrest.drop, drop_line hlt, List.dropWhile_cons_of_pos hp]
      · have htake := hrest.take
        have hsucc : scan p b (strlen b) (s + 1) - s =
            scan p b (strlen b) (s + 1) - (s + 1) + 1 := by omega
        simp only [slice] at htake ⊢
        rw [drop_line hlt, List.takeWhile_cons_of_pos hp, ← htake, hsucc, List.take_succ_cons]
      · intro i hi hlt'
        rcases Nat.eq_or_lt_of_le hi with rfl | hgt
        · exact hp
        · exact hrest.inside i hgt hlt'
    · have hp' : p (deref b s) = false := by simpa using hp
      rw [if_neg (fun hc => hp hc.2)]
      refine ⟨le_rfl, h, ?_, ?_, fun i h₁ h₂ => by omega, Or.inr hp'⟩
      · rw [drop_line hlt, List.dropWhile_cons_of_neg hp]
      · rw [slice, drop_line hlt, List.takeWhile_cons_of_neg hp, Nat.sub_self, List.take_zero]

/-! ### Looking ahead -/

/-- The tokens from position `s` on are `T`. -/
structure At (b : List UInt8) (s : Nat) (T : List Tok) : Prop where
  le : s ≤ strlen b
  toks : tokens ((line b).drop s) = T

theorem at_zero (b : List UInt8) : At b 0 (tokens (line b)) := ⟨Nat.zero_le _, rfl⟩

theorem At.length_le (h : At b s T) : T.length ≤ strlen b := by
  have hlen := length_tokens_le ((line b).drop s)
  rw [h.toks, List.length_drop, length_line] at hlen
  omega

theorem At.skipped (h : At b s T) : At b (skip b (strlen b) s) T := by
  have hscan := scan_spec isSpace h.le
  refine ⟨hscan.upper, ?_⟩
  rw [skip, hscan.drop, tokens_dropWhile]
  exact h.toks

/-- Whether the first token starts with one of the bytes. -/
def starts (toks : List UInt8) (T : List Tok) : Bool :=
  (T.head?.bind Tok.first).any toks.contains

/-- After white space there is the end of the line or the first byte of a token. -/
theorem skip_cases (h : s ≤ strlen b) :
    skip b (strlen b) s = strlen b ∨
      skip b (strlen b) s < strlen b ∧ isSpace (deref b (skip b (strlen b) s)) = false := by
  have hscan := scan_spec isSpace h
  rcases hscan.stop with heq | hstop
  · exact Or.inl heq
  · rcases Nat.lt_or_eq_of_le hscan.upper with hlt | heq
    · exact Or.inr ⟨hlt, hstop⟩
    · exact Or.inl heq

theorem At.of_end (h : At b (strlen b) T) : T = [] := by
  rw [← h.toks, drop_strlen]
  exact tokens_of_none rfl

/-! ### Taking a token -/

/-- The span `w` is a word of the line, with bytes `str`. -/
structure Word (b : List UInt8) (w : Span) (str : List UInt8) : Prop where
  lower : w.1 ≤ w.2
  upper : w.2 ≤ strlen b
  bytes : slice b w = str
  inside : ∀ i, w.1 ≤ i → i < w.2 → isWord (deref b i) = true
  stop : w.2 = strlen b ∨ isWord (deref b w.2) = false

/-- What `token` returns for the token `t` at `q`. -/
structure Taken (b : List UInt8) (q : Nat) (t : Tok) (r : UInt8 × Nat) : Prop where
  code : r.1 = t.code
  next : nextToken ((line b).drop q) = some (t, (line b).drop r.2)
  upper : r.2 ≤ strlen b
  word : ∀ str, t = .word str → Word b (q, r.2) str
  first : t.first = some (deref b q) ∨ (∃ str, t = .word str) ∧ isWord (deref b q) = true

theorem single_of_mem (h : c ∈ [ch '|', ch '(', ch ')', ch ';', ch '&', ch '<']) :
    ∃ t, single c = some t ∧ t.code = c ∧ t.first = some c ∧ ∀ str, t ≠ .word str := by
  simp only [List.mem_cons, List.not_mem_nil, or_false] at h
  rcases h with rfl | rfl | rfl | rfl | rfl | rfl
  · exact ⟨.bar, rfl, rfl, rfl, fun _ => Tok.noConfusion⟩
  · exact ⟨.lparen, rfl, rfl, rfl, fun _ => Tok.noConfusion⟩
  · exact ⟨.rparen, rfl, rfl, rfl, fun _ => Tok.noConfusion⟩
  · exact ⟨.semi, rfl, rfl, rfl, fun _ => Tok.noConfusion⟩
  · exact ⟨.amp, rfl, rfl, rfl, fun _ => Tok.noConfusion⟩
  · exact ⟨.lt, rfl, rfl, rfl, fun _ => Tok.noConfusion⟩

theorem single_of_not_mem
    (h : c ∉ [ch '|', ch '(', ch ')', ch ';', ch '&', ch '<']) : single c = none := by
  simp only [single, List.find?_eq_none, decide_eq_true_eq]
  intro t ht hc
  apply h
  rw [← hc]
  simp only [List.mem_cons, List.not_mem_nil, or_false] at ht
  rcases ht with rfl | rfl | rfl | rfl | rfl | rfl <;> decide

theorem token_spec {q : Nat} (hlt : q < strlen b) (hs : isSpace (deref b q) = false) :
    ∃ t, Taken b q t (token b (strlen b) q) := by
  have hs' : ¬ isSpace (deref b q) = true := by simp [hs]
  have hnext : nextToken ((line b).drop q) = nextToken (deref b q :: (line b).drop (q + 1)) := by
    rw [drop_line hlt]
  rw [nextToken, if_neg hs'] at hnext
  rw [token, if_neg (deref_ne_zero hlt)]
  by_cases hmem : deref b q ∈ [ch '|', ch '(', ch ')', ch ';', ch '&', ch '<']
  · obtain ⟨t, ht, hcode, hfirst, hword⟩ := single_of_mem hmem
    have hgt : deref b q ≠ ch '>' := by
      intro hc
      rw [hc] at hmem
      exact absurd hmem (by decide)
    rw [if_pos hmem]
    rw [if_neg hgt, ht] at hnext
    exact ⟨t, hcode.symm, hnext, hlt, fun str hc => absurd hc (hword str), Or.inl hfirst⟩
  rw [if_neg hmem]
  by_cases hgt : deref b q = ch '>'
  · rw [if_pos hgt] at hnext ⊢
    by_cases hgt' : deref b (q + 1) = ch '>'
    · have hlt' : q + 1 < strlen b := by
        rcases Nat.lt_or_eq_of_le hlt with h | h
        · exact h
        · rw [Nat.succ_eq_add_one] at h
          rw [h, deref_strlen] at hgt'
          exact absurd hgt' (by decide)
      rw [if_pos hgt']
      rw [drop_line hlt', hgt', List.head?_cons, if_pos rfl, List.tail_cons] at hnext
      exact ⟨.gtgt, rfl, hnext, hlt', fun str hc => Tok.noConfusion hc, Or.inl (congrArg some hgt.symm)⟩
    · have hhead : ((line b).drop (q + 1)).head? ≠ some (ch '>') := by
        rcases Nat.lt_or_eq_of_le hlt with h | h
        · rw [drop_line h, List.head?_cons]
          exact fun hc => hgt' (Option.some.inj hc)
        · rw [Nat.succ_eq_add_one] at h
          rw [h, drop_strlen]
          exact fun hc => by cases hc
      rw [if_neg hgt']
      rw [if_neg hhead] at hnext
      exact ⟨.gt, hgt, hnext, hlt, fun str hc => Tok.noConfusion hc, Or.inl (congrArg some hgt.symm)⟩
  · have hnone := single_of_not_mem hmem
    have hscan := scan_spec isWord hlt.le
    rw [if_neg hgt]
    rw [if_neg hgt, hnone, ← drop_line hlt, ← hscan.drop] at hnext
    refine ⟨_, rfl, hnext, hscan.upper, ?_, Or.inr ⟨⟨_, rfl⟩, isWord_of_not_single hs hgt hnone⟩⟩
    rintro str ⟨⟩
    exact ⟨hscan.lower, hscan.upper, hscan.take, hscan.inside, hscan.stop⟩

theorem At.end_of_nil (h : At b s []) : skip b (strlen b) s = strlen b := by
  rcases skip_cases h.le with hend | ⟨hlt, hs⟩
  · exact hend
  · obtain ⟨t, ht⟩ := token_spec hlt hs
    have hskip := h.skipped.toks
    rw [tokens_of_some ht.next] at hskip
    cases hskip

theorem gettoken_nil (h : At b s []) :
    ∃ w s', gettoken b (strlen b) s = .ok ((0, w), s') ∧ At b s' [] := by
  have hskip := h.skipped
  have htoken : token b (strlen b) (strlen b) = (0, strlen b) := by
    rw [token, if_pos deref_strlen]
  rw [h.end_of_nil] at hskip
  refine ⟨(strlen b, strlen b), _, ?_, hskip.skipped⟩
  simp only [gettoken, h.end_of_nil, htoken]

theorem taken_of_cons (h : At b s (t :: T)) :
    skip b (strlen b) s < strlen b ∧
      Taken b (skip b (strlen b) s) t (token b (strlen b) (skip b (strlen b) s)) ∧
      At b (token b (strlen b) (skip b (strlen b) s)).2 T := by
  rcases skip_cases h.le with hend | ⟨hlt, hs⟩
  · have hskip := h.skipped
    rw [hend] at hskip
    cases hskip.of_end
  · obtain ⟨t', ht⟩ := token_spec hlt hs
    have hskip := h.skipped.toks
    rw [tokens_of_some ht.next, List.cons.injEq] at hskip
    obtain ⟨rfl, hrest⟩ := hskip
    exact ⟨hlt, ht, ht.upper, hrest⟩

theorem gettoken_cons (h : At b s (t :: T)) :
    ∃ w s', gettoken b (strlen b) s = .ok ((t.code, w), s') ∧ At b s' T ∧
      ∀ str, t = .word str → Word b w str := by
  obtain ⟨-, ht, hat⟩ := taken_of_cons h
  refine ⟨(skip b (strlen b) s, _), _, ?_, hat.skipped, ht.word⟩
  simp only [gettoken, ht.code]

theorem peek_spec {toks : List UInt8} (hsym : ∀ c ∈ toks, isWord c = false)
    (h : At b s T) : ∃ s', peek b (strlen b) toks s = .ok (starts toks T, s') ∧ At b s' T := by
  refine ⟨_, ?_, h.skipped⟩
  cases T with
  | nil =>
    have hzero : deref b (skip b (strlen b) s) = 0 := by rw [h.end_of_nil, deref_strlen]
    simp [peek, hzero, starts]
  | cons t T =>
    obtain ⟨hlt, ht, -⟩ := taken_of_cons h
    have hne := deref_ne_zero hlt
    rcases ht.first with hfirst | ⟨⟨str, rfl⟩, hword⟩
    · simp [peek, starts, hfirst, hne]
    · have hnot : deref b (skip b (strlen b) s) ∉ toks := by
        intro hc
        rw [hsym _ hc] at hword
        cases hword
      simp [peek, starts, Tok.first, hnot]

end Xv6.Sh
