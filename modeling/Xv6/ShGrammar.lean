import Mathlib.Data.List.Forall2
import Mathlib.Logic.Function.Iterate
import Xv6.ShTokens

/-!
# The grammar of the shell

The grammar with the tree of each derivation, over tokens. Whatever the parser accepts derives from it,
and the parser runs out of fuel only if there is less than four units for each token.
-/

namespace Xv6.Sh

abbrev Tree := Cmd (List UInt8)

structure Redir where
  file : List UInt8
  mode : Nat
  fd : Nat

/-- The mode and the file descriptor of a redirection. -/
def Tok.redirects : Tok → Option (Nat × Nat)
  | lt => some (O_RDONLY, 0)
  | gt => some (O_WRONLY ||| O_CREATE, 1)
  | gtgt => some (O_WRONLY ||| O_CREATE, 1)
  | _ => none

/-- The command with redirections around it, the first one innermost. -/
def wrap (c : Tree) (rs : List Redir) : Tree :=
  rs.foldl (fun c r => .redir c r.file r.mode r.fd) c

/-- `{redir}` -/
inductive Redirs : List Tok → List Redir → Prop
  | nil : Redirs [] []
  | cons {t : Tok} {mode fd : Nat} {ts : List Tok} {rs : List Redir} {w : List UInt8}
      (ht : t.redirects = some (mode, fd)) (h : Redirs ts rs) :
      Redirs (t :: .word w :: ts) (⟨w, mode, fd⟩ :: rs)

/-- `{word {redir}}`, with its words and its redirections. -/
inductive Args : List Tok → List (List UInt8) → List Redir → Prop
  | nil : Args [] [] []
  | cons {ts ts' : List Tok} {rs rs' : List Redir} {w : List UInt8} {ws : List (List UInt8)}
      (h : Redirs ts rs) (h' : Args ts' ws rs') : Args (.word w :: (ts ++ ts')) (w :: ws) (rs ++ rs')

inductive Nonterminal
  | line | pipe | exec

inductive Derives : Nonterminal → List Tok → Tree → Prop
  | line {ts : List Tok} {c : Tree} (h : Derives .pipe ts c) (n : Nat) :
      Derives .line (ts ++ List.replicate n .amp) (Cmd.back^[n] c)
  | list {ts ts' : List Tok} {c c' : Tree} (h : Derives .pipe ts c) (n : Nat)
      (h' : Derives .line ts' c') :
      Derives .line (ts ++ (List.replicate n .amp ++ .semi :: ts')) (.list (Cmd.back^[n] c) c')
  | exec {ts : List Tok} {c : Tree} (h : Derives .exec ts c) : Derives .pipe ts c
  | pipe {ts ts' : List Tok} {c c' : Tree} (h : Derives .exec ts c) (h' : Derives .pipe ts' c') :
      Derives .pipe (ts ++ .bar :: ts') (.pipe c c')
  | block {ts ts' : List Tok} {c : Tree} {rs : List Redir} (h : Derives .line ts c)
      (h' : Redirs ts' rs) : Derives .exec (.lparen :: (ts ++ .rparen :: ts')) (wrap c rs)
  | words {ts ts' : List Tok} {rs rs' : List Redir} {ws : List (List UInt8)} (h : Redirs ts rs)
      (h' : Args ts' ws rs') (hmax : ws.length < MAXARGS) :
      Derives .exec (ts ++ ts') (wrap (.exec ws) (rs ++ rs'))

/-- The command is the tree, with spans for the words. -/
inductive Reads (b : List UInt8) : Cmd Span → Tree → Prop
  | exec {argv : List Span} {ws : List (List UInt8)} (h : List.Forall₂ (Word b) argv ws) :
      Reads b (.exec argv) (.exec ws)
  | redir {cmd : Cmd Span} {c : Tree} {file : Span} {w : List UInt8} {mode fd : Nat}
      (h : Reads b cmd c) (hw : Word b file w) : Reads b (.redir cmd file mode fd) (.redir c w mode fd)
  | pipe {l r : Cmd Span} {c c' : Tree} (h : Reads b l c) (h' : Reads b r c') :
      Reads b (.pipe l r) (.pipe c c')
  | list {l r : Cmd Span} {c c' : Tree} (h : Reads b l c) (h' : Reads b r c') :
      Reads b (.list l r) (.list c c')
  | back {cmd : Cmd Span} {c : Tree} (h : Reads b cmd c) : Reads b (.back cmd) (.back c)

variable {α β : Type} {b : List UInt8} {s fuel : Nat} {T : List Tok} {cmd : Cmd Span} {c : Tree}

theorem wrap_append (c : Tree) (rs rs' : List Redir) : wrap c (rs ++ rs') = wrap (wrap c rs) rs' :=
  List.foldl_append

theorem addArg_wrap (c : Tree) (rs : List Redir) (w : List UInt8) :
    (wrap c rs).addArg w = wrap (c.addArg w) rs := by
  induction rs generalizing c with
  | nil => rfl
  | cons r rs ih => exact ih _

theorem Reads.addArg {w : Span} {str : List UInt8} (h : Reads b cmd c) (hw : Word b w str) :
    Reads b (cmd.addArg w) (c.addArg str) := by
  induction h with
  | exec h => exact .exec (List.rel_append h (.cons hw .nil))
  | redir _ hw' ih => exact .redir ih hw'
  | pipe h h' _ _ => exact .pipe h h'
  | list h h' _ _ => exact .list h h'
  | back h _ => exact .back h

/-! ### What a parser can do -/

/-- `p` returns with `Q` or stops with `E`. -/
def Gives (p : Parser α) (s : Nat) (Q : α → Nat → Prop) (E : Stop → Prop) : Prop :=
  match p s with
  | .ok (a, s') => Q a s'
  | .error e => E e

/-- Any panic, and running out of fuel if `F`. -/
def Short (F : Prop) (e : Stop) : Prop := e = .outOfFuel → F

variable {Q : α → Nat → Prop} {E : Stop → Prop} {F : Prop}

variable {p : Parser α} {f : α → Parser β} {t : Tok}

theorem Gives.mono {Q' : α → Nat → Prop} {E' : Stop → Prop} (h : Gives p s Q' E')
    (hQ : ∀ a s', Q' a s' → Q a s') (hE : ∀ e, E' e → E e) : Gives p s Q E := by
  unfold Gives at *
  split at h
  · exact hQ _ _ h
  · exact hE _ h

theorem short_mono {F' : Prop} (h : F' → F) (e : Stop) (he : Short F' e) : Short F e :=
  fun hc => h (he hc)

theorem short_panic (msg : String) : Short F (.panic msg) := Stop.noConfusion

theorem bind_of_ok {a : α} {s' : Nat} (h : p s = .ok (a, s')) : (p >>= f) s = f a s' := by
  change (p s >>= fun r => f r.1 r.2) = f a s'
  rw [h]
  rfl

theorem gives_bind_of_ok {a : α} {s' : Nat} {Q : β → Nat → Prop} (h : p s = .ok (a, s'))
    (hf : Gives (f a) s' Q E) : Gives (p >>= f) s Q E := by
  unfold Gives
  rwa [bind_of_ok h]

theorem gives_bind {Q : β → Nat → Prop}
    (h : Gives p s (fun a s' => Gives (f a) s' Q E) E) : Gives (p >>= f) s Q E := by
  cases hp : p s with
  | ok r =>
    unfold Gives at h
    rw [hp] at h
    exact gives_bind_of_ok hp h
  | error e =>
    have herr : (p >>= f) s = .error e := by
      change (p s >>= fun r => f r.1 r.2) = _
      rw [hp]
      rfl
    unfold Gives at *
    rw [hp] at h
    rw [herr]
    exact h

theorem Gives.bind {Q : β → Nat → Prop} {Q' : α → Nat → Prop} {E' : Stop → Prop}
    (h : Gives p s Q' E') (hQ : ∀ a s', Q' a s' → Gives (f a) s' Q E)
    (hE : ∀ e, E' e → E e := by exact fun _ h => h) : Gives (p >>= f) s Q E :=
  gives_bind (h.mono hQ hE)

theorem gives_peek {f : Bool → Parser β} {Q : β → Nat → Prop} {toks : List UInt8}
    (h : At b s T) (hf : ∀ s', At b s' T → Gives (f (starts toks T)) s' Q E)
    (hsym : toks.any isWord = false := by decide) :
    Gives (peek b (strlen b) toks >>= f) s Q E := by
  have hnot : ∀ c ∈ toks, isWord c = false := by simpa using hsym
  obtain ⟨s', hpeek, hs'⟩ := peek_spec hnot h
  exact gives_bind_of_ok hpeek (hf s' hs')

theorem gives_gettoken {f : UInt8 × Span → Parser β} {Q : β → Nat → Prop}
    (h : At b s (t :: T)) (hf : ∀ w s', At b s' T → (∀ str, t = .word str → Word b w str) →
      Gives (f (t.code, w)) s' Q E) : Gives (gettoken b (strlen b) >>= f) s Q E := by
  obtain ⟨w, s', hget, hs', hw⟩ := gettoken_cons h
  exact gives_bind_of_ok hget (hf w s' hs' hw)

theorem gives_gettoken_nil {f : UInt8 × Span → Parser β} {Q : β → Nat → Prop} (h : At b s [])
    (hf : ∀ w s', At b s' [] → Gives (f (0, w)) s' Q E) :
    Gives (gettoken b (strlen b) >>= f) s Q E := by
  obtain ⟨w, s', hget, hs'⟩ := gettoken_nil h
  exact gives_bind_of_ok hget (hf w s' hs')

/-- The bytes that one token alone starts with. -/
theorem starts_one {c : UInt8}
    (h : (c, t) ∈ [(ch '&', .amp), (ch ';', .semi), (ch '|', .bar), (ch '(', .lparen), (ch ')',
      Tok.rparen)]) (T : List Tok) : starts [c] T = true ↔ ∃ T', T = t :: T' := by
  simp only [List.mem_cons, List.not_mem_nil, or_false, Prod.mk.injEq] at h
  cases T with
  | nil => simp [starts]
  | cons t' T =>
    have hcons : (∃ T', t' :: T = t :: T') ↔ t' = t := by simp
    rw [hcons]
    rcases h with ⟨rfl, rfl⟩ | ⟨rfl, rfl⟩ | ⟨rfl, rfl⟩ | ⟨rfl, rfl⟩ | ⟨rfl, rfl⟩ <;>
      cases t' <;> simp [starts, Tok.first, Tok.code]

theorem gives_peek_one {c : UInt8} {f : Bool → Parser β} {Q : β → Nat → Prop}
    (hc : (c, t) ∈ [(ch '&', .amp), (ch ';', .semi), (ch '|', .bar), (ch '(', .lparen),
      (ch ')', Tok.rparen)]) (h : At b s T)
    (htrue : ∀ s' T', T = t :: T' → At b s' (t :: T') → Gives (f true) s' Q E)
    (hfalse : ∀ s', At b s' T → Gives (f false) s' Q E) :
    Gives (peek b (strlen b) [c] >>= f) s Q E := by
  have hsym : [c].any isWord = false := by
    simp only [List.mem_cons, List.not_mem_nil, or_false, Prod.mk.injEq] at hc
    rcases hc with ⟨rfl, -⟩ | ⟨rfl, -⟩ | ⟨rfl, -⟩ | ⟨rfl, -⟩ | ⟨rfl, -⟩ <;> decide
  refine gives_peek h ?_ hsym
  intro s' hs'
  cases hstart : starts [c] T with
  | true =>
    obtain ⟨T', rfl⟩ := (starts_one hc T).mp hstart
    exact htrue s' T' rfl hs'
  | false => exact hfalse s' hs'

/-! ### Redirections and words -/

theorem starts_redirect (t : Tok) (T : List Tok) :
    starts [ch '<', ch '>'] (t :: T) = t.redirects.isSome := by
  cases t <;> rfl

theorem redircmd_eq {mode fd : Nat} (h : t.redirects = some (mode, fd)) (cmd : Cmd Span)
    (file : Span) : redircmd cmd t.code file = .redir cmd file mode fd := by
  cases t with
  | lt => cases h; rfl
  | gt => cases h; rfl
  | gtgt => cases h; rfl
  | bar | lparen | rparen | semi | amp | word w => cases h

theorem code_eq_word (h : t.code = ch 'a') : ∃ w, t = .word w := by
  cases t with
  | word w => exact ⟨w, rfl⟩
  | bar | lparen | rparen | semi | amp | lt | gt | gtgt => exact absurd h (by decide)

theorem code_ne_zero (t : Tok) : t.code ≠ 0 := by
  cases t with
  | word w => exact show ch 'a' ≠ 0 by decide
  | bar | lparen | rparen | semi | amp | lt | gt | gtgt => decide

/-- The redirections that have been parsed from `T`, and the tokens after them. -/
structure Redirected (b : List UInt8) (c : Tree) (T : List Tok) (cmd : Cmd Span) (s' : Nat)
    (ts T' : List Tok) (rs : List Redir) : Prop where
  split : T = ts ++ T'
  next : At b s' T'
  derives : Redirs ts rs
  reads : Reads b cmd (wrap c rs)

theorem parseredirs_gives (fuel : Nat) (h : At b s T) (hc : Reads b cmd c) :
    Gives (parseredirs b (strlen b) fuel cmd) s
      (fun cmd' s' => ∃ ts T' rs, Redirected b c T cmd' s' ts T' rs) (Short (fuel ≤ T.length)) := by
  induction fuel generalizing s T cmd c with
  | zero => exact fun _ => Nat.zero_le _
  | succ fuel ih =>
    refine gives_peek h ?_
    intro s₁ h₁
    cases T with
    | nil => exact ⟨[], [], [], rfl, h₁, .nil, hc⟩
    | cons t T =>
      rw [starts_redirect]
      cases ht : t.redirects with
      | none => exact ⟨[], t :: T, [], rfl, h₁, .nil, hc⟩
      | some r =>
        obtain ⟨mode, fd⟩ := r
        refine gives_gettoken h₁ ?_
        intro _ s₂ h₂ _
        cases T with
        | nil =>
          refine gives_gettoken_nil h₂ ?_
          intro w s₃ h₃
          exact short_panic _
        | cons t' T =>
          refine gives_gettoken h₂ ?_
          intro w s₃ h₃ hw
          dsimp only
          by_cases hcode : t'.code = ch 'a'
          · obtain ⟨str, rfl⟩ := code_eq_word hcode
            rw [if_neg (not_not.mpr hcode), redircmd_eq ht]
            refine (ih h₃ (.redir hc (hw str rfl))).mono ?_ (short_mono ?_)
            · rintro cmd' s' ⟨ts, T', rs, hr⟩
              refine ⟨t :: .word str :: ts, T', ⟨str, mode, fd⟩ :: rs, ?_, hr.next,
                .cons ht hr.derives, hr.reads⟩
              rw [hr.split]
              rfl
            · simp only [List.length_cons]
              omega
          · rw [if_pos hcode]
            exact short_panic _

/-- The bytes at which the words of a command end. -/
abbrev argEnds : List UInt8 := [ch '|', ch ')', ch '&', ch ';']

/-- The words that have been parsed from `T`, where `ws₀` and `rs₀` were parsed before. -/
structure Argued (b : List UInt8) (ws₀ : List (List UInt8)) (rs₀ : List Redir) (T : List Tok)
    (cmd : Cmd Span) (s' : Nat) (ts T' : List Tok) (ws : List (List UInt8)) (rs : List Redir) :
    Prop where
  split : T = ts ++ T'
  next : At b s' T'
  derives : Args ts ws rs
  max : (ws₀ ++ ws).length < MAXARGS
  reads : Reads b cmd (wrap (.exec (ws₀ ++ ws)) (rs₀ ++ rs))

theorem parseargs_gives (fuel : Nat) (ws₀ : List (List UInt8)) {rs₀ : List Redir} (h : At b s T)
    (hmax : ws₀.length < MAXARGS) (hc : Reads b cmd (wrap (.exec ws₀) rs₀)) :
    Gives (parseargs b (strlen b) fuel cmd ws₀.length) s
      (fun cmd' s' => ∃ ts T' ws rs, Argued b ws₀ rs₀ T cmd' s' ts T' ws rs)
      (Short (fuel ≤ T.length)) := by
  induction fuel generalizing s T cmd ws₀ rs₀ with
  | zero => exact fun _ => Nat.zero_le _
  | succ fuel ih =>
    have hdone : ∀ s', At b s' T → ∃ ts T' ws rs, Argued b ws₀ rs₀ T cmd s' ts T' ws rs := by
      intro s' hs'
      refine ⟨[], T, [], [], rfl, hs', .nil, ?_, ?_⟩
      · rwa [List.append_nil]
      · rwa [List.append_nil, List.append_nil]
    refine gives_peek h ?_
    intro s₁ h₁
    cases hstart : starts argEnds T with
    | true => exact hdone s₁ h₁
    | false =>
      cases T with
      | nil =>
        refine gives_gettoken_nil h₁ ?_
        intro w s₂ h₂
        exact hdone s₂ h₂
      | cons t T =>
        refine gives_gettoken h₁ ?_
        intro w s₂ h₂ hw
        dsimp only
        rw [if_neg (code_ne_zero t)]
        by_cases hcode : t.code = ch 'a'
        · obtain ⟨str, rfl⟩ := code_eq_word hcode
          rw [if_neg (not_not.mpr hcode)]
          by_cases hfull : ws₀.length + 1 ≥ MAXARGS
          · rw [if_pos hfull]
            exact short_panic _
          · rw [if_neg hfull]
            have hc' := hc.addArg (hw str rfl)
            rw [addArg_wrap] at hc'
            refine Gives.bind (parseredirs_gives fuel h₂ hc') ?_ (short_mono ?_)
            · rintro cmd₁ s₃ ⟨ts, T₁, rs, hr⟩
              have hreads := hr.reads
              rw [← wrap_append] at hreads
              have hlen : (ws₀ ++ [str]).length = ws₀.length + 1 := List.length_append
              have hrest := @ih s₃ T₁ cmd₁ (ws₀ ++ [str]) (rs₀ ++ rs) hr.next
                (by rw [hlen]; omega) hreads
              rw [hlen] at hrest
              refine hrest.mono ?_ (short_mono ?_)
              · rintro cmd₂ s₄ ⟨ts', T', ws, rs', ha⟩
                refine ⟨.word str :: (ts ++ ts'), T', str :: ws, rs ++ rs', ?_, ha.next,
                  .cons hr.derives ha.derives, ?_, ?_⟩
                · rw [hr.split, ha.split, List.cons_append, List.append_assoc]
                · have hm := ha.max
                  rwa [List.append_assoc] at hm
                · have hm := ha.reads
                  rwa [List.append_assoc, List.append_assoc] at hm
              · rw [hr.split]
                simp only [List.length_cons, List.length_append]
                omega
            · simp only [List.length_cons]
              omega
        · rw [if_pos hcode]
          exact short_panic _

theorem parseback_gives (fuel : Nat) (h : At b s T) (hc : Reads b cmd c) :
    Gives (parseback b (strlen b) fuel cmd) s (fun cmd' s' => ∃ n T',
      T = List.replicate n .amp ++ T' ∧ At b s' T' ∧ Reads b cmd' (Cmd.back^[n] c))
      (Short (fuel ≤ T.length)) := by
  induction fuel generalizing s T cmd c with
  | zero => exact fun _ => Nat.zero_le _
  | succ fuel ih =>
    refine gives_peek_one (t := .amp) (by decide) h ?_ (fun s₁ h₁ => ⟨0, T, rfl, h₁, hc⟩)
    rintro s₁ T₁ rfl h₁
    refine gives_gettoken h₁ ?_
    intro _ s₂ h₂ _
    refine (ih h₂ (.back hc)).mono ?_ (short_mono ?_)
    · rintro cmd' s' ⟨n, T', rfl, hs', hreads⟩
      exact ⟨n + 1, T', rfl, hs', hreads⟩
    · simp only [List.length_cons]
      omega

/-! ### The whole parser -/

/-- What has been parsed from `T` derives from `N`. -/
def Parsed (N : Nonterminal) (b : List UInt8) (T : List Tok) (cmd : Cmd Span) (s' : Nat) : Prop :=
  ∃ ts T' c, T = ts ++ T' ∧ At b s' T' ∧ Derives N ts c ∧ Reads b cmd c

/-- Each function with the fuel that it needs. -/
structure Sound (b : List UInt8) (fuel : Nat) : Prop where
  line : ∀ {s T}, At b s T →
    Gives (parseline b (strlen b) fuel) s (Parsed .line b T) (Short (fuel < 4 * T.length + 4))
  pipe : ∀ {s T}, At b s T →
    Gives (parsepipe b (strlen b) fuel) s (Parsed .pipe b T) (Short (fuel < 4 * T.length + 3))
  exec : ∀ {s T}, At b s T →
    Gives (parseexec b (strlen b) fuel) s (Parsed .exec b T) (Short (fuel < 4 * T.length + 2))
  block : ∀ {s T}, At b s T →
    Gives (parseblock b (strlen b) fuel) s (Parsed .exec b T) (Short (fuel < 4 * T.length + 1))

theorem parseline_gives (ih : Sound b fuel) (h : At b s T) :
    Gives (parseline b (strlen b) (fuel + 1)) s (Parsed .line b T)
      (Short (fuel + 1 < 4 * T.length + 4)) := by
  rw [parseline]
  refine Gives.bind (ih.pipe h) ?_ (short_mono (by omega))
  rintro cmd s₁ ⟨ts, T₁, c, rfl, h₁, hd, hr⟩
  refine Gives.bind (parseback_gives fuel h₁ hr) ?_ (short_mono ?_)
  · rintro cmd₁ s₂ ⟨n, T₂, rfl, h₂, hr₁⟩
    refine gives_peek_one (t := .semi) (by decide) h₂ ?_ ?_
    · rintro s₃ T₃ rfl h₃
      refine gives_gettoken h₃ ?_
      intro _ s₄ h₄ _
      refine Gives.bind (ih.line h₄) ?_ (short_mono ?_)
      · rintro cmd₂ s₅ ⟨ts', T', c', rfl, h₅, hd', hr₂⟩
        refine ⟨ts ++ (List.replicate n .amp ++ .semi :: ts'), T', _, ?_, h₅, .list hd n hd',
          .list hr₁ hr₂⟩
        simp only [List.append_assoc, List.cons_append]
      · simp only [List.length_append, List.length_cons]
        omega
    · intro s₃ h₃
      refine ⟨ts ++ List.replicate n .amp, T₂, _, ?_, h₃, .line hd n, hr₁⟩
      rw [List.append_assoc]
  · simp only [List.length_append]
    omega

theorem parsepipe_gives (ih : Sound b fuel) (h : At b s T) :
    Gives (parsepipe b (strlen b) (fuel + 1)) s (Parsed .pipe b T)
      (Short (fuel + 1 < 4 * T.length + 3)) := by
  rw [parsepipe]
  refine Gives.bind (ih.exec h) ?_ (short_mono (by omega))
  rintro cmd s₁ ⟨ts, T₁, c, rfl, h₁, hd, hr⟩
  refine gives_peek_one (t := .bar) (by decide) h₁ ?_ ?_
  · rintro s₂ T₂ rfl h₂
    refine gives_gettoken h₂ ?_
    intro _ s₃ h₃ _
    refine Gives.bind (ih.pipe h₃) ?_ (short_mono ?_)
    · rintro cmd₁ s₄ ⟨ts', T', c', rfl, h₄, hd', hr₁⟩
      refine ⟨ts ++ .bar :: ts', T', _, ?_, h₄, .pipe hd hd', .pipe hr hr₁⟩
      simp only [List.append_assoc, List.cons_append]
    · simp only [List.length_append, List.length_cons]
      omega
  · intro s₂ h₂
    exact ⟨ts, T₁, c, rfl, h₂, .exec hd, hr⟩

theorem parseexec_gives (ih : Sound b fuel) (h : At b s T) :
    Gives (parseexec b (strlen b) (fuel + 1)) s (Parsed .exec b T)
      (Short (fuel + 1 < 4 * T.length + 2)) := by
  rw [parseexec]
  refine gives_peek_one (t := .lparen) (by decide) h ?_ ?_
  · rintro s₁ T₁ rfl h₁
    exact (ih.block h₁).mono (fun _ _ hq => hq) (short_mono (by omega))
  · intro s₁ h₁
    refine Gives.bind (parseredirs_gives fuel h₁ (.exec .nil)) ?_ (short_mono (by omega))
    rintro cmd s₂ ⟨ts, T₂, rs, hr⟩
    refine (parseargs_gives fuel [] hr.next (by decide) hr.reads).mono ?_ (short_mono ?_)
    · rintro cmd₁ s₃ ⟨ts', T', ws, rs', ha⟩
      refine ⟨ts ++ ts', T', _, ?_, ha.next, .words hr.derives ha.derives ha.max, ha.reads⟩
      rw [hr.split, ha.split, List.append_assoc]
    · rw [hr.split]
      simp only [List.length_append]
      omega

theorem parseblock_gives (ih : Sound b fuel) (h : At b s T) :
    Gives (parseblock b (strlen b) (fuel + 1)) s (Parsed .exec b T)
      (Short (fuel + 1 < 4 * T.length + 1)) := by
  rw [parseblock]
  refine gives_peek_one (t := .lparen) (by decide) h ?_ (fun _ _ => short_panic _)
  rintro s₁ T₁ rfl h₁
  refine gives_gettoken h₁ ?_
  intro _ s₂ h₂ _
  refine Gives.bind (ih.line h₂) ?_ (short_mono ?_)
  · rintro cmd s₃ ⟨ts, T₃, c, rfl, h₃, hd, hr⟩
    refine gives_peek_one (t := .rparen) (by decide) h₃ ?_ (fun _ _ => short_panic _)
    rintro s₄ T₄ rfl h₄
    refine gives_gettoken h₄ ?_
    intro _ s₅ h₅ _
    refine (parseredirs_gives fuel h₅ hr).mono ?_ (short_mono ?_)
    · rintro cmd₁ s₆ ⟨ts', T', rs, hrs⟩
      refine ⟨.lparen :: (ts ++ .rparen :: ts'), T', _, ?_, hrs.next, .block hd hrs.derives,
        hrs.reads⟩
      rw [hrs.split]
      simp only [List.append_assoc, List.cons_append]
    · simp only [List.length_append, List.length_cons]
      omega
  · simp only [List.length_cons]
    omega

/-- What the parser accepts derives from the grammar. -/
theorem sound (b : List UInt8) (fuel : Nat) : Sound b fuel := by
  induction fuel with
  | zero =>
    refine ⟨fun _ => ?_, fun _ => ?_, fun _ => ?_, fun _ => ?_⟩ <;> exact fun _ => Nat.succ_pos _
  | succ fuel ih =>
    exact ⟨parseline_gives ih, parsepipe_gives ih, parseexec_gives ih, parseblock_gives ih⟩

end Xv6.Sh
