import Xv6.ShGrammar

/-!
# The parser accepts the grammar

What derives from the grammar is parsed to its tree, and the words of the tree are NUL-terminated
strings of the line after `nulterminate`.
-/

namespace Xv6.Sh

variable {b : List UInt8} {s fuel : Nat} {ts T T' : List Tok} {cmd : Cmd Span} {c : Tree}
  {rs : List Redir} {ws : List (List UInt8)}

/-- The tokens that can stand after a nonterminal. -/
def follow : Nonterminal → List Tok
  | .line => [.rparen]
  | .pipe => [.amp, .semi, .rparen]
  | .exec => [.bar, .amp, .semi, .rparen]

def Follows (N : Nonterminal) (T : List Tok) : Prop := ∀ t T', T = t :: T' → t ∈ follow N

theorem follows_nil (N : Nonterminal) : Follows N [] := by
  rintro t T' ⟨⟩

variable {N : Nonterminal}

theorem follows_cons {t : Tok} (h : t ∈ follow N) (T : List Tok) : Follows N (t :: T) := by
  rintro t' T' ⟨⟩
  exact h

/-- The end of an `exec`. -/
def EndsExec (T : List Tok) : Prop := T = [] ∨ starts argEnds T = true

theorem Follows.endsExec (h : Follows .exec T) : EndsExec T := by
  cases T with
  | nil => exact Or.inl rfl
  | cons t T =>
    have ht := h t T rfl
    simp only [follow, List.mem_cons, List.not_mem_nil, or_false] at ht
    rcases ht with rfl | rfl | rfl | rfl <;> exact Or.inr rfl

theorem EndsExec.not_redirect (h : EndsExec T) : starts [ch '<', ch '>'] T = false := by
  rcases h with rfl | h
  · rfl
  · cases T with
    | nil => rfl
    | cons t T =>
      rw [starts_redirect]
      cases t with
      | lt | gt | gtgt => cases h
      | word w => cases h
      | bar | lparen | rparen | semi | amp => rfl

theorem Args.not_redirect (h : Args ts ws rs) (hT : EndsExec T) :
    starts [ch '<', ch '>'] (ts ++ T) = false := by
  cases h with
  | nil => exact hT.not_redirect
  | cons _ _ => rfl

theorem not_paren {ts' : List Tok} {rs' : List Redir} (h : Redirs ts rs) (h' : Args ts' ws rs')
    (hT : EndsExec T) : starts [ch '('] (ts ++ (ts' ++ T)) = false := by
  cases h with
  | @cons t mode fd ts rs w ht _ =>
    cases t with
    | lt | gt | gtgt => rfl
    | bar | lparen | rparen | semi | amp | word w => cases ht
  | nil =>
    cases h' with
    | cons _ _ => rfl
    | nil =>
      rcases hT with rfl | hT
      · rfl
      · cases T with
        | nil => rfl
        | cons t T =>
          cases t with
          | lparen => cases hT
          | word w => rfl
          | bar | rparen | semi | amp | lt | gt | gtgt => rfl

theorem fuel_pos {k : Nat} (h : k < fuel) : ∃ n, fuel = n + 1 :=
  Nat.exists_eq_add_one_of_ne_zero (Nat.ne_zero_of_lt h)

theorem parseredirs_complete (hr : Redirs ts rs) (hT : starts [ch '<', ch '>'] T = false)
    (h : At b s (ts ++ T)) (hc : Reads b cmd c) (hfuel : (ts ++ T).length < fuel) :
    Gives (parseredirs b (strlen b) fuel cmd) s
      (fun cmd' s' => At b s' T ∧ Reads b cmd' (wrap c rs)) (fun _ => False) := by
  induction hr generalizing s cmd c fuel with obtain ⟨fuel, rfl⟩ := fuel_pos hfuel
  | nil =>
    refine gives_peek h ?_
    intro s₁ h₁
    rw [List.nil_append, hT]
    exact ⟨h₁, hc⟩
  | @cons t mode fd ts rs w ht hts ih =>
    refine gives_peek h ?_
    intro s₁ h₁
    rw [List.cons_append, starts_redirect, ht]
    refine gives_gettoken h₁ ?_
    intro _ s₂ h₂ _
    refine gives_gettoken h₂ ?_
    intro file s₃ h₃ hw
    rw [redircmd_eq ht]
    refine ih h₃ (.redir hc (hw w rfl)) ?_
    simp only [List.cons_append, List.length_cons] at hfuel
    omega

theorem parseargs_complete (ws₀ : List (List UInt8)) {rs₀ : List Redir} (ha : Args ts ws rs)
    (hT : EndsExec T) (h : At b s (ts ++ T)) (hmax : (ws₀ ++ ws).length < MAXARGS)
    (hc : Reads b cmd (wrap (.exec ws₀) rs₀)) (hfuel : (ts ++ T).length < fuel) :
    Gives (parseargs b (strlen b) fuel cmd ws₀.length) s
      (fun cmd' s' => At b s' T ∧ Reads b cmd' (wrap (.exec (ws₀ ++ ws)) (rs₀ ++ rs)))
      (fun _ => False) := by
  induction ha generalizing s cmd ws₀ rs₀ fuel with obtain ⟨fuel, rfl⟩ := fuel_pos hfuel
  | nil =>
    refine gives_peek h ?_
    intro s₁ h₁
    rw [List.append_nil, List.append_nil]
    rcases hT with rfl | hT
    · refine gives_gettoken_nil h₁ ?_
      intro w s₂ h₂
      exact ⟨h₂, hc⟩
    · rw [List.nil_append, show starts _ T = true from hT]
      exact ⟨h₁, hc⟩
  | @cons ts ts' rs rs' w ws hr ha ih =>
    refine gives_peek h ?_
    intro s₁ h₁
    refine gives_gettoken h₁ ?_
    intro span s₂ h₂ hw
    have hlen : (ws₀ ++ [w]).length = ws₀.length + 1 := List.length_append
    simp only [List.cons_append, List.length_cons, List.length_append] at hfuel hmax
    have hcode : (Tok.word w).code = ch 'a' := rfl
    dsimp only
    rw [if_neg (code_ne_zero _), if_neg (not_not.mpr hcode), if_neg (by omega)]
    have hc' := hc.addArg (hw w rfl)
    rw [addArg_wrap] at hc'
    rw [List.append_eq, List.append_assoc] at h₂
    refine Gives.bind (parseredirs_complete hr (ha.not_redirect hT) h₂ hc' ?_) ?_
    · simp only [List.length_append]
      omega
    · rintro cmd₁ s₃ ⟨h₃, hc₁⟩
      rw [← wrap_append] at hc₁
      have hrest := @ih s₃ fuel cmd₁ (ws₀ ++ [w]) (rs₀ ++ rs) h₃
        (by simp only [List.length_append, List.length_cons, List.length_nil]; omega) hc₁
        (by simp only [List.length_append]; omega)
      rw [hlen, List.append_assoc, List.append_assoc] at hrest
      exact hrest

theorem parseback_complete (n : Nat) (hT : starts [ch '&'] T = false)
    (h : At b s (List.replicate n .amp ++ T)) (hc : Reads b cmd c)
    (hfuel : (List.replicate n Tok.amp ++ T).length < fuel) :
    Gives (parseback b (strlen b) fuel cmd) s
      (fun cmd' s' => At b s' T ∧ Reads b cmd' (Cmd.back^[n] c)) (fun _ => False) := by
  induction n generalizing s cmd c fuel with obtain ⟨fuel, rfl⟩ := fuel_pos hfuel
  | zero =>
    refine gives_peek h ?_
    intro s₁ h₁
    rw [List.replicate_zero, List.nil_append, hT]
    exact ⟨h₁, hc⟩
  | succ n ih =>
    refine gives_peek h ?_
    intro s₁ h₁
    refine gives_gettoken h₁ ?_
    intro _ s₂ h₂ _
    refine ih h₂ (.back hc) ?_
    simp only [List.replicate_succ, List.cons_append, List.length_cons] at hfuel
    omega

/-- The function that parses a nonterminal. -/
def parse (b : List UInt8) (fuel : Nat) : Nonterminal → Parser (Cmd Span)
  | .line => parseline b (strlen b) fuel
  | .pipe => parsepipe b (strlen b) fuel
  | .exec => parseexec b (strlen b) fuel

/-- The fuel that it needs besides four units for each token. -/
def depth : Nonterminal → Nat
  | .line => 4
  | .pipe => 3
  | .exec => 2

theorem Follows.not_starts {a : UInt8} {t : Tok} (h : Follows N T)
    (ha : (a, t) ∈ [(ch '&', .amp), (ch ';', .semi), (ch '|', .bar), (ch '(', .lparen),
      (ch ')', Tok.rparen)]) (ht : t ∉ follow N) : starts [a] T = false := by
  rw [Bool.eq_false_iff, ne_eq, starts_one ha]
  rintro ⟨T', rfl⟩
  exact ht (h t T' rfl)

theorem Follows.weaken {N N' : Nonterminal} (h : Follows N T) (hsub : follow N ⊆ follow N') :
    Follows N' T :=
  fun t T' ht => hsub (h t T' ht)

theorem follows_amps (n : Nat) (h : Follows .pipe T) :
    Follows .pipe (List.replicate n .amp ++ T) := by
  cases n with
  | zero => exact h
  | succ n => exact follows_cons (by decide) _

theorem exists_fuel {k : Nat} (h : 4 * k + depth N ≤ fuel) : ∃ n, fuel = n + 2 := by
  have hdepth : 2 ≤ depth N := by cases N <;> decide
  exact Nat.exists_eq_add_of_le' (by omega)

/-- What derives from a nonterminal is parsed, if a token that can stand after it is next. -/
theorem complete (fuel : Nat) (hd : Derives N ts c) (h : At b s (ts ++ T))
    (hT : Follows N T) (hfuel : 4 * (ts ++ T).length + depth N ≤ fuel) :
    Gives (parse b fuel N) s (fun cmd s' => At b s' T ∧ Reads b cmd c) (fun _ => False) := by
  induction hd generalizing fuel s T with obtain ⟨fuel, rfl⟩ := exists_fuel hfuel
  | @line ts c _ n ih =>
    rw [List.append_assoc] at h hfuel
    simp only [List.length_append, depth] at hfuel
    rw [parse, parseline]
    refine Gives.bind (ih (fuel + 1) h (follows_amps n (hT.weaken (by decide)))
      (by simp only [List.length_append, depth]; omega)) ?_
    rintro cmd s₁ ⟨h₁, hr⟩
    refine Gives.bind (parseback_complete n (hT.not_starts (t := .amp) (by decide) (by decide))
      h₁ hr (by simp only [List.length_append]; omega)) ?_
    rintro cmd₁ s₂ ⟨h₂, hr₁⟩
    refine gives_peek h₂ ?_
    intro s₃ h₃
    rw [hT.not_starts (t := .semi) (by decide) (by decide)]
    exact ⟨h₃, hr₁⟩
  | @list ts ts' c c' _ n _ ih ih' =>
    rw [List.append_assoc, List.append_assoc, List.cons_append] at h
    simp only [List.length_append, List.length_cons, depth] at hfuel
    have hsemi : Follows .pipe (.semi :: (ts' ++ T)) := follows_cons (by decide) _
    rw [parse, parseline]
    refine Gives.bind (ih (fuel + 1) h (follows_amps n hsemi)
      (by simp only [List.length_append, List.length_cons, depth]; omega)) ?_
    rintro cmd s₁ ⟨h₁, hr⟩
    refine Gives.bind (parseback_complete n rfl h₁ hr
      (by simp only [List.length_append, List.length_cons]; omega)) ?_
    rintro cmd₁ s₂ ⟨h₂, hr₁⟩
    refine gives_peek h₂ ?_
    intro s₃ h₃
    refine gives_gettoken h₃ ?_
    intro _ s₄ h₄ _
    refine Gives.bind (ih' (fuel + 1) h₄ hT (by simp only [List.length_append, depth]; omega)) ?_
    rintro cmd₂ s₅ ⟨h₅, hr₂⟩
    exact ⟨h₅, .list hr₁ hr₂⟩
  | @exec ts c _ ih =>
    simp only [List.length_append, depth] at hfuel
    rw [parse, parsepipe]
    refine Gives.bind (ih (fuel + 1) h (hT.weaken (by decide))
      (by simp only [List.length_append, depth]; omega)) ?_
    rintro cmd s₁ ⟨h₁, hr⟩
    refine gives_peek h₁ ?_
    intro s₂ h₂
    rw [hT.not_starts (t := .bar) (by decide) (by decide)]
    exact ⟨h₂, hr⟩
  | @pipe ts ts' c c' _ _ ih ih' =>
    rw [List.append_assoc, List.cons_append] at h
    simp only [List.length_append, List.length_cons, depth] at hfuel
    rw [parse, parsepipe]
    refine Gives.bind (ih (fuel + 1) h (follows_cons (by decide) _)
      (by simp only [List.length_append, List.length_cons, depth]; omega)) ?_
    rintro cmd s₁ ⟨h₁, hr⟩
    refine gives_peek h₁ ?_
    intro s₂ h₂
    refine gives_gettoken h₂ ?_
    intro _ s₃ h₃ _
    refine Gives.bind (ih' (fuel + 1) h₃ hT (by simp only [List.length_append, depth]; omega)) ?_
    rintro cmd₁ s₄ ⟨h₄, hr₁⟩
    exact ⟨h₄, .pipe hr hr₁⟩
  | @block ts ts' c rs _ hrs ih =>
    rw [List.cons_append, List.append_assoc, List.cons_append] at h
    simp only [List.length_append, List.length_cons, depth] at hfuel
    rw [parse, parseexec]
    refine gives_peek h ?_
    intro s₁ h₁
    rw [parseblock]
    refine gives_peek h₁ ?_
    intro s₂ h₂
    refine gives_gettoken h₂ ?_
    intro _ s₃ h₃ _
    refine Gives.bind (ih fuel h₃ (follows_cons (by decide) _)
      (by simp only [List.length_append, List.length_cons, depth]; omega)) ?_
    rintro cmd s₄ ⟨h₄, hr⟩
    refine gives_peek h₄ ?_
    intro s₅ h₅
    refine gives_gettoken h₅ ?_
    intro _ s₆ h₆ _
    exact parseredirs_complete hrs hT.endsExec.not_redirect h₆ hr
      (by simp only [List.length_append]; omega)
  | @words ts ts' rs rs' ws hr ha hmax =>
    rw [List.append_assoc] at h
    simp only [List.length_append, depth] at hfuel
    rw [parse, parseexec]
    refine gives_peek h ?_
    intro s₁ h₁
    rw [not_paren hr ha hT.endsExec]
    refine Gives.bind (parseredirs_complete hr (ha.not_redirect hT.endsExec) h₁ (.exec .nil)
      (by simp only [List.length_append]; omega)) ?_
    rintro cmd s₂ ⟨h₂, hc⟩
    exact parseargs_complete [] ha hT.endsExec h₂ hmax hc
      (by simp only [List.length_append]; omega)

/-! ### The strings -/

def Cmd.map {W W' : Type} (f : W → W') : Cmd W → Cmd W'
  | .exec argv => .exec (argv.map f)
  | .redir cmd file mode fd => .redir (cmd.map f) (f file) mode fd
  | .pipe left right => .pipe (left.map f) (right.map f)
  | .list left right => .list (left.map f) (right.map f)
  | .back cmd => .back (cmd.map f)

/-- The words, in the order in which they are terminated. -/
def Cmd.spans : Cmd Span → List Span
  | .exec argv => argv
  | .redir cmd file _ _ => cmd.spans ++ [file]
  | .pipe left right => left.spans ++ right.spans
  | .list left right => left.spans ++ right.spans
  | .back cmd => cmd.spans

def terminate (ws : List Span) (b : List UInt8) : List UInt8 := ws.foldl (fun b w => b.set w.2 0) b

theorem nulterminate_eq (cmd : Cmd Span) (b : List UInt8) :
    nulterminate cmd b = terminate cmd.spans b := by
  induction cmd generalizing b with
  | exec argv => rfl
  | redir cmd file mode fd ih => rw [nulterminate, ih, Cmd.spans, terminate, terminate,
      List.foldl_append, List.foldl_cons, List.foldl_nil]
  | pipe l r ihl ihr | list l r ihl ihr => rw [nulterminate, ihl, ihr, Cmd.spans, terminate, terminate, terminate,
      List.foldl_append]
  | back cmd ih => exact ih b

theorem deref_set (b : List UInt8) (i j : Nat) :
    deref (b.set i 0) j = if i = j then 0 else deref b j := by
  unfold deref
  rw [List.getD_eq_getElem?_getD, List.getD_eq_getElem?_getD, List.getElem?_set]
  split_ifs <;> rfl

theorem deref_terminate (ws : List Span) (b : List UInt8) (j : Nat) :
    deref (terminate ws b) j = if ∃ w ∈ ws, w.2 = j then 0 else deref b j := by
  induction ws generalizing b with
  | nil => simp [terminate]
  | cons w ws ih =>
    have hstep : terminate (w :: ws) b = terminate ws (b.set w.2 0) := rfl
    rw [hstep, ih, deref_set]
    simp only [List.exists_mem_cons_iff]
    by_cases hw : w.2 = j
    · simp [hw]
    · simp only [hw, false_or, if_false]

theorem cstr_eq_slice {b b' : List UInt8} (n : Nat) {q : Nat} (hlen : q + n ≤ strlen b)
    (hsame : ∀ i, q ≤ i → i < q + n → deref b' i = deref b i) (hnul : deref b' (q + n) = 0) :
    cstr b' q = slice b (q, q + n) := by
  have hcons : ∀ q, deref b' q ≠ 0 → b'.drop q = deref b' q :: b'.drop (q + 1) := by
    intro q hq
    have hlt : q < b'.length := by
      by_contra hc
      exact hq (List.getD_eq_default _ _ (Nat.le_of_not_lt hc))
    rw [deref, List.getD_eq_getElem _ _ hlt, List.drop_eq_getElem_cons hlt]
  induction n generalizing q with
  | zero =>
    rw [slice, cstr, Nat.add_zero, Nat.sub_self, List.take_zero]
    by_cases hlt : q < b'.length
    · rw [List.drop_eq_getElem_cons hlt, ← List.getD_eq_getElem b' 0 hlt]
      exact List.takeWhile_cons_of_neg (by simpa [deref] using hnul)
    · rw [List.drop_eq_nil_of_le (Nat.le_of_not_lt hlt)]
      rfl
  | succ n ih =>
    have hlt : q < strlen b := by omega
    have hne : deref b' q ≠ 0 := by
      rw [hsame q le_rfl (by omega)]
      exact deref_ne_zero hlt
    have hrest := ih (q := q + 1) (by omega) (fun i h₁ h₂ => hsame i (by omega) (by omega))
      (by rwa [Nat.add_assoc, Nat.add_comm 1])
    have hsub : q + (n + 1) - q = q + 1 + n - (q + 1) + 1 := by omega
    rw [cstr, hcons q hne, List.takeWhile_cons_of_pos (by simpa using hne)]
    rw [cstr, slice] at hrest
    rw [hrest, slice]
    simp only
    rw [hsub, drop_line hlt, List.take_succ_cons, hsame q le_rfl (by omega)]

theorem Reads.word_of_mem (h : Reads b cmd c) {w : Span} (hw : w ∈ cmd.spans) :
    ∃ str, Word b w str := by
  induction h with
  | @exec argv ws h =>
    induction h with
    | nil => cases hw
    | cons hword _ ih =>
      rcases List.mem_cons.mp hw with rfl | hw
      · exact ⟨_, hword⟩
      · exact ih hw
  | redir _ hword ih =>
    rcases List.mem_append.mp hw with hw | hw
    · exact ih hw
    · rw [List.mem_singleton.mp hw]
      exact ⟨_, hword⟩
  | pipe _ _ ih ih' | list _ _ ih ih' => exact (List.mem_append.mp hw).elim ih ih'
  | back _ ih => exact ih hw

/-- The end of a word is not inside of another word. -/
theorem Word.end_not_inside {w w' : Span} {str str' : List UInt8} (h : Word b w str)
    (h' : Word b w' str') {i : Nat} (h₁ : w.1 ≤ i) (h₂ : i < w.2) : w'.2 ≠ i := by
  rintro rfl
  have hin := h.inside _ h₁ h₂
  rcases h'.stop with hend | hstop
  · have := h.upper
    omega
  · rw [hstop] at hin
    cases hin

theorem cstr_terminate {ws : List Span} (hall : ∀ w ∈ ws, ∃ str, Word b w str) {w : Span}
    {str : List UInt8} (hmem : w ∈ ws) (hw : Word b w str) : cstr (terminate ws b) w.1 = str := by
  have hlow := hw.lower
  have hend : w.1 + (w.2 - w.1) = w.2 := by omega
  have hslice := @cstr_eq_slice b (terminate ws b) (w.2 - w.1) w.1 (by rw [hend]; exact hw.upper) ?_ ?_
  · rw [hslice, hend]
    exact hw.bytes
  · intro i h₁ h₂
    rw [hend] at h₂
    rw [deref_terminate, if_neg]
    rintro ⟨w', hw', hc⟩
    obtain ⟨str', hword'⟩ := hall w' hw'
    exact hw.end_not_inside hword' h₁ h₂ hc
  · rw [hend, deref_terminate, if_pos ⟨w, hmem, rfl⟩]

theorem Reads.map_eq {f : Span → List UInt8} (h : Reads b cmd c)
    (hf : ∀ w ∈ cmd.spans, ∀ str, Word b w str → f w = str) : cmd.map f = c := by
  induction h with
  | @exec argv ws h =>
    refine congrArg Cmd.exec ?_
    induction h with
    | nil => rfl
    | cons hword _ ih =>
      rw [List.map_cons, hf _ List.mem_cons_self _ hword,
        ih (fun w hw => hf w (List.mem_cons_of_mem _ hw))]
  | redir _ hword ih =>
    rw [Cmd.map, ih (fun w hw => hf w (List.mem_append_left _ hw)),
      hf _ (List.mem_append_right _ (List.mem_singleton_self _)) _ hword]
  | pipe _ _ ih ih' | list _ _ ih ih' =>
    rw [Cmd.map, ih (fun w hw => hf w (List.mem_append_left _ hw)),
      ih' (fun w hw => hf w (List.mem_append_right _ hw))]
  | back _ ih => rw [Cmd.map, ih hf]

/-- After `nulterminate` the strings at the words are those of the tree. -/
theorem Reads.strings (h : Reads b cmd c) :
    cmd.map (fun w => cstr (nulterminate cmd b) w.1) = c := by
  refine h.map_eq ?_
  intro w hw str hword
  rw [nulterminate_eq]
  exact cstr_terminate (fun w' hw' => h.word_of_mem hw') hw hword

theorem parsecmd_of_error {e : Stop} (h : parseline b (strlen b) (4 * strlen b + 4) 0 = .error e) :
    parsecmd b = .error e := by
  simp only [parsecmd, h]
  rfl

theorem parsecmd_of_ok (h : parseline b (strlen b) (4 * strlen b + 4) 0 = .ok (cmd, s)) :
    parsecmd b = if skip b (strlen b) s ≠ strlen b then .error (.leftovers (skip b (strlen b) s))
      else .ok (cmd, nulterminate cmd b) := by
  simp only [parsecmd, h]
  rfl

theorem parsecmd_ends (b : List UInt8) : parsecmd b ≠ .error .outOfFuel := by
  have hat := at_zero b
  have hlen := hat.length_le
  have hsound := (sound b (4 * strlen b + 4)).line hat
  unfold Gives at hsound
  cases hparse : parseline b (strlen b) (4 * strlen b + 4) 0 with
  | error e =>
    rw [hparse] at hsound
    rw [parsecmd_of_error hparse]
    intro hc
    have hshort := hsound (Except.error.inj hc)
    omega
  | ok r =>
    rw [parsecmd_of_ok hparse]
    split_ifs
    · exact fun hc => by cases hc
    · exact fun hc => by cases hc

theorem parsecmd_reads {b' : List UInt8} (h : parsecmd b = .ok (cmd, b')) :
    ∃ c, Derives .line (tokens (line b)) c ∧ Reads b cmd c ∧ b' = nulterminate cmd b := by
  have hsound := (sound b (4 * strlen b + 4)).line (at_zero b)
  unfold Gives at hsound
  cases hparse : parseline b (strlen b) (4 * strlen b + 4) 0 with
  | error e =>
    rw [parsecmd_of_error hparse] at h
    cases h
  | ok r =>
    obtain ⟨cmd', s⟩ := r
    rw [hparse] at hsound
    obtain ⟨ts, T, c, hsplit, hs, hd, hr⟩ := hsound
    rw [parsecmd_of_ok hparse] at h
    split_ifs at h with hleft
    cases h
    -- nothing is left, so the tokens that were parsed are all of them
    have hend := hs.skipped
    rw [not_not.mp hleft] at hend
    rw [hend.of_end, List.append_nil] at hsplit
    exact ⟨c, hsplit ▸ hd, hr, rfl⟩

theorem derives_of_parsecmd {b' : List UInt8} (h : parsecmd b = .ok (cmd, b')) :
    Derives .line (tokens (line b)) (cmd.map (fun w => cstr b' w.1)) := by
  obtain ⟨c, hd, hr, rfl⟩ := parsecmd_reads h
  rwa [hr.strings]

theorem parsecmd_of_derives (hd : Derives .line (tokens (line b)) c) :
    ∃ cmd b', parsecmd b = .ok (cmd, b') ∧ cmd.map (fun w => cstr b' w.1) = c := by
  have hat := at_zero b
  have hlen := hat.length_le
  rw [← List.append_nil (tokens (line b))] at hat
  have hcomplete := complete (4 * strlen b + 4) hd hat (follows_nil _)
    (by rw [List.append_nil]; simp only [depth]; omega)
  unfold Gives at hcomplete
  rw [parse] at hcomplete
  cases hparse : parseline b (strlen b) (4 * strlen b + 4) 0 with
  | error e =>
    rw [hparse] at hcomplete
    exact hcomplete.elim
  | ok r =>
    obtain ⟨cmd, s⟩ := r
    rw [hparse] at hcomplete
    obtain ⟨hs, hr⟩ := hcomplete
    refine ⟨cmd, nulterminate cmd b, ?_, hr.strings⟩
    rw [parsecmd_of_ok hparse, if_neg (not_not.mpr hs.end_of_nil)]

/-- `parsecmd` ends on every line. It returns a command exactly if the line derives from the grammar,
and the strings of the command are those of the derivation's tree. -/
theorem parsecmd_accepts (b : List UInt8) : parsecmd b ≠ .error .outOfFuel ∧
    ∀ c, (∃ cmd b', parsecmd b = .ok (cmd, b') ∧ cmd.map (fun w => cstr b' w.1) = c) ↔
      Derives .line (tokens (line b)) c := by
  refine ⟨parsecmd_ends b, fun c => ⟨?_, parsecmd_of_derives⟩⟩
  rintro ⟨cmd, b', h, rfl⟩
  exact derives_of_parsecmd h

/-! ### The words in the buffer -/

/-- The arguments of each command. -/
def Cmd.argvs {W : Type} : Cmd W → List (List W)
  | .exec argv => [argv]
  | .redir cmd _ _ _ => cmd.argvs
  | .pipe left right => left.argvs ++ right.argvs
  | .list left right => left.argvs ++ right.argvs
  | .back cmd => cmd.argvs

theorem argvs_wrap (c : Tree) (rs : List Redir) : (wrap c rs).argvs = c.argvs := by
  induction rs generalizing c with
  | nil => rfl
  | cons r rs ih => exact ih _

theorem argvs_back (c : Tree) (n : Nat) : (Cmd.back^[n] c).argvs = c.argvs := by
  induction n generalizing c with
  | zero => rfl
  | succ n ih => exact ih (.back c)

theorem Derives.argvs_length {ts : List Tok} (h : Derives N ts c) :
    ∀ argv ∈ c.argvs, argv.length < MAXARGS := by
  induction h with
  | line _ n ih =>
    rw [argvs_back]
    exact ih
  | list _ n _ ih ih' =>
    intro argv hmem
    rw [Cmd.argvs, argvs_back] at hmem
    exact (List.mem_append.mp hmem).elim (ih argv) (ih' argv)
  | exec _ ih => exact ih
  | pipe _ _ ih ih' => exact fun argv hmem => (List.mem_append.mp hmem).elim (ih argv) (ih' argv)
  | block _ _ ih =>
    rw [argvs_wrap]
    exact ih
  | words _ _ hmax =>
    intro argv hmem
    rw [argvs_wrap] at hmem
    rwa [List.mem_singleton.mp hmem]

theorem Reads.argvs_length (h : Reads b cmd c) :
    cmd.argvs.map List.length = c.argvs.map List.length := by
  induction h with
  | exec h => exact congrArg (fun n => [n]) h.length_eq
  | redir _ _ ih => exact ih
  | pipe _ _ ih ih' | list _ _ ih ih' =>
    rw [Cmd.argvs, Cmd.argvs, List.map_append, List.map_append, ih, ih']
  | back _ ih => exact ih

/-- Every argument and every file of an accepted line is cut exactly: it is a word of the line, the
string at its place is this word, its terminator is in no other word, and there is room for the null
pointer after the arguments. -/
theorem nulterminate_exact {b' : List UInt8} (h : parsecmd b = .ok (cmd, b')) :
    (∀ w ∈ cmd.spans, Word b w (slice b w) ∧ cstr b' w.1 = slice b w ∧ deref b' w.2 = 0 ∧
      ∀ w' ∈ cmd.spans, ∀ i, w.1 ≤ i → i < w.2 → w'.2 ≠ i) ∧
    ∀ argv ∈ cmd.argvs, argv.length < MAXARGS := by
  obtain ⟨c, hd, hr, rfl⟩ := parsecmd_reads h
  have hall : ∀ w ∈ cmd.spans, ∃ str, Word b w str := fun w hw => hr.word_of_mem hw
  refine ⟨?_, ?_⟩
  · intro w hw
    obtain ⟨str, hword⟩ := hall w hw
    have hslice : Word b w (slice b w) := hword.bytes.symm ▸ hword
    refine ⟨hslice, ?_, ?_, ?_⟩
    · rw [nulterminate_eq]
      exact cstr_terminate hall hw hslice
    · rw [nulterminate_eq, deref_terminate, if_pos ⟨w, hw, rfl⟩]
    · intro w' hw' i h₁ h₂
      obtain ⟨str', hword'⟩ := hall w' hw'
      exact hword.end_not_inside hword' h₁ h₂
  · intro argv hargv
    have hlen : argv.length ∈ c.argvs.map List.length := by
      rw [← hr.argvs_length]
      exact List.mem_map_of_mem hargv
    obtain ⟨ws, hws, heq⟩ := List.mem_map.mp hlen
    rw [← heq]
    exact hd.argvs_length ws hws

/-- The line `a>b`, where the terminator of the first word overwrites the `>`. -/
theorem nulterminate_redirect :
    parsecmd [97, 62, 98] = .ok (.redir (.exec [(0, 1)]) (2, 3) 513 1, [97, 0, 98]) ∧
      cstr [97, 0, 98] 0 = slice [97, 62, 98] (0, 1) ∧
      cstr [97, 0, 98] 2 = slice [97, 62, 98] (2, 3) := by
  have h : parsecmd [97, 62, 98] = .ok (.redir (.exec [(0, 1)]) (2, 3) 513 1, [97, 0, 98]) := by
    decide +kernel
  exact ⟨h, ((nulterminate_exact h).1 (0, 1) (by decide)).2.1,
    ((nulterminate_exact h).1 (2, 3) (by decide)).2.1⟩

end Xv6.Sh
