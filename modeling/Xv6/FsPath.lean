import Mathlib.Data.List.TakeWhile
import Xv6.CopyLoop
import Xv6.SyscallBoot

/-!
# The elements of a path

`skipelem` copies the next element of a path into the buffer of its caller, which has `DIRSIZ` bytes
and no NUL after a long name. The elements that it finds are the pieces between the slashes.
`namex`, with this buffer, follows them from directory to directory, and `nameiparent` stops at the last one.
-/

namespace Xv6.Fs

open Prog
open Function

variable {path rest : List UInt8} {name : Name}

/-- `char name[DIRSIZ]`, with what is in memory behind it. -/
abbrev NameBuf := Nat → UInt8

/-- The name that functions find in the buffer, of which they look at `DIRSIZ` bytes up to a NUL. -/
def NameBuf.str (buf : NameBuf) : Name := (loadAt buf 0 DIRSIZ).takeWhile (· ≠ 0)

/-- Copy an element to the buffer. -/
def NameBuf.fill (buf : NameBuf) (s : List UInt8) : NameBuf :=
  if s.length ≥ DIRSIZ then storeAt buf 0 (s.take DIRSIZ)
  else update (storeAt buf 0 s) s.length 0

/-- `skipelem`, with the buffer for the name. -/
def skipelemInto (path : List UInt8) (buf : NameBuf) : Option (List UInt8 × NameBuf) :=
  let path := path.dropWhile (· = slash)
  if path = [] then none
  else
    some ((path.dropWhile (· ≠ slash)).dropWhile (· = slash),
      buf.fill (path.takeWhile (· ≠ slash)))

/-- `namex` with the buffer for the name. -/
def namexIntoLoop (nameiparent : Bool) : Nat → List UInt8 → NameBuf → Nat →
    FsM (Option (Nat × NameBuf))
  | 0, _, _, _ => pure none
  | fuel + 1, path, buf, ip =>
    match skipelemInto path buf with
    | none =>
      if nameiparent then do
        iput ip
        pure none
      else pure (some (ip, buf))
    | some (path, buf) => do
      ilock ip
      let i ← getInode ip
      if i.din.type ≠ T_DIR then
        iunlockput ip
        pure none
      else if nameiparent ∧ path = [] then
        iunlock ip
        pure (some (ip, buf))
      else
        match ← dirlookup ip buf.str with
        | none =>
          iunlockput ip
          pure none
        | some (next, _) =>
          iunlockput ip
          namexIntoLoop nameiparent fuel path buf next

def namexInto (path : List UInt8) (nameiparent : Bool) (cwd : Nat) (buf : NameBuf) :
    FsM (Option (Nat × NameBuf)) := do
  let ip ← (if path.head? = some slash then iget ROOTINO else idup cwd)
  namexIntoLoop nameiparent (path.length + 1) path buf ip

/-- `namei`, whose own buffer holds anything at first. -/
def nameiInto (path : List UInt8) (cwd : Nat) (buf : NameBuf) : FsM (Option Nat) := do
  let r ← namexInto path false cwd buf
  pure (r.map Prod.fst)

def nameiparentInto (path : List UInt8) (cwd : Nat) (buf : NameBuf) :
    FsM (Option (Nat × NameBuf)) :=
  namexInto path true cwd buf

/-- `nameiparent`, and then `dirlookup` of the name in the directory. -/
def lookupInParent (path : List UInt8) (cwd : Nat) (buf : NameBuf) : FsM (Option Nat) := do
  match ← nameiparentInto path cwd buf with
  | none => pure none
  | some (dp, buf) =>
    ilock dp
    let r ← dirlookup dp buf.str
    iunlockput dp
    pure (r.map Prod.fst)

/-- The nonempty pieces between slashes, each cut to `DIRSIZ` bytes. -/
def pieces (path : List UInt8) : List Name :=
  ((path.splitOnP (· = slash)).filter (· ≠ [])).map (List.take DIRSIZ)

/-! ### The pieces of a path -/

theorem pieces_append (x y : List UInt8) : pieces (x ++ slash :: y) = pieces x ++ pieces y := by
  rw [pieces, List.splitOnP_append_cons x y (by decide), List.filter_append, List.map_append]
  rfl

theorem pieces_nil : pieces [] = [] := by
  rw [pieces, List.splitOnP_nil]
  rfl

theorem pieces_dropWhile (path : List UInt8) :
    pieces (path.dropWhile (· = slash)) = pieces path := by
  induction path with
  | nil => rfl
  | cons x path ih =>
    by_cases hx : x = slash
    · subst hx
      rw [List.dropWhile_cons_of_pos (by decide), ih]
      exact (pieces_append [] path).symm
    · rw [List.dropWhile_cons_of_neg (by simpa using hx)]

theorem pieces_element {s : List UInt8} (hne : s ≠ []) (hs : ∀ x ∈ s, x ≠ slash) :
    pieces s = [s.take DIRSIZ] := by
  rw [pieces, List.splitOnP_eq_singleton (fun x hx => by simpa using hs x hx),
    List.filter_cons_of_pos (by simpa using hne)]
  rfl

theorem head_dropWhile_slash (path : List UInt8) {x : UInt8}
    (hx : (path.dropWhile (· = slash)).head? = some x) : x ≠ slash := by
  have hd := List.head?_dropWhile_not (fun x => decide (x = slash)) path
  rw [hx] at hd
  simpa using hd

theorem pieces_cons {p : List UInt8} (hne : p ≠ []) (hhead : p.head? ≠ some slash) :
    pieces p = (p.takeWhile (· ≠ slash)).take DIRSIZ ::
      pieces ((p.dropWhile (· ≠ slash)).dropWhile (· = slash)) := by
  have hall : ∀ x ∈ p.takeWhile (· ≠ slash), x ≠ slash := fun x hx => by
    simpa using List.mem_takeWhile_imp hx
  have hfirst : p.takeWhile (· ≠ slash) ≠ [] := by
    obtain ⟨b, tl, rfl⟩ := List.exists_cons_of_ne_nil hne
    have hb : b ≠ slash := fun hb => hhead (congrArg some hb)
    rw [List.takeWhile_cons_of_pos (by simpa using hb)]
    exact List.cons_ne_nil _ _
  have hpiece := pieces_element hfirst hall
  rw [pieces_dropWhile]
  cases hd : p.dropWhile (· ≠ slash) with
  | nil =>
    have hp := List.takeWhile_append_dropWhile (p := fun x => decide (x ≠ slash)) (l := p)
    rw [hd, List.append_nil] at hp
    rw [hp] at hpiece
    rw [hpiece, hp, pieces_nil]
  | cons b d =>
    have hb : b = slash := by
      have hstop := List.head?_dropWhile_not (fun x => decide (x ≠ slash)) p
      rw [hd] at hstop
      simpa using hstop
    have hp := List.takeWhile_append_dropWhile (p := fun x => decide (x ≠ slash)) (l := p)
    rw [hd, hb] at hp
    have hrest : pieces (b :: d) = pieces d := by
      rw [hb]
      exact pieces_append [] d
    conv_lhs => rw [← hp]
    rw [pieces_append, hpiece, hrest]
    rfl

theorem pieces_of_none (h : skipelem path = none) : pieces path = [] := by
  simp only [skipelem] at h
  split_ifs at h with hnil
  rw [← pieces_dropWhile, hnil, pieces_nil]

/-- `skipelem` finds the first piece and leaves the others, without a slash in front of them. -/
theorem pieces_of_some (h : skipelem path = some (name, rest)) :
    pieces path = name :: pieces rest ∧ (pieces rest = [] ↔ rest = []) := by
  simp only [skipelem] at h
  split_ifs at h with hne
  obtain ⟨rfl, rfl⟩ := Prod.mk.inj (Option.some.inj h)
  refine ⟨?_, ?_, ?_⟩
  · rw [← pieces_dropWhile path]
    exact pieces_cons hne (fun hc => head_dropWhile_slash path hc rfl)
  · intro hnone
    by_contra hsome
    rw [pieces_cons hsome (fun hc => head_dropWhile_slash _ hc rfl)] at hnone
    cases hnone
  · intro hnil
    rw [hnil, pieces_nil]

/-! ### The buffer -/

theorem str_of_holdsAt {buf : NameBuf} {s : List UInt8} (h : HoldsAt buf 0 s) (hs : 0 ∉ s)
    (hlen : s.length ≤ DIRSIZ) (hend : s.length < DIRSIZ → buf s.length = 0) : buf.str = s := by
  obtain ⟨n, hn⟩ : ∃ n, DIRSIZ = s.length + n := Nat.exists_eq_add_of_le hlen
  have hload := h.loadAt_eq
  have hnz : ∀ x ∈ s, decide (x ≠ 0) = true := by
    intro x hx
    rw [decide_eq_true_eq]
    rintro rfl
    exact hs hx
  rw [NameBuf.str, hn, loadAt_add, hload, Nat.zero_add, List.takeWhile_append_of_pos hnz]
  cases n with
  | zero => rw [loadAt, List.takeWhile_nil, List.append_nil]
  | succ n =>
    rw [loadAt, hend (by omega), List.takeWhile_cons_of_neg (by decide), List.append_nil]

theorem str_fill (buf : NameBuf) {s : List UInt8} (hs : 0 ∉ s) :
    (buf.fill s).str = s.take DIRSIZ := by
  rw [NameBuf.fill]
  split
  · next hlen =>
    have hlen' : (s.take DIRSIZ).length = DIRSIZ := List.length_take_of_le hlen
    refine str_of_holdsAt (holdsAt_storeAt _ _ _) (fun h => hs (List.mem_of_mem_take h))
      hlen'.le ?_
    intro hlt
    omega
  · next hlen =>
    have hlt : s.length < DIRSIZ := Nat.lt_of_not_ge hlen
    rw [List.take_of_length_le hlt.le]
    refine str_of_holdsAt ((holdsAt_storeAt _ _ _).update 0 (.inr (Nat.zero_add _).le)) hs
      hlt.le ?_
    exact fun _ => Function.update_self _ _ _

theorem skipelemInto_eq_none {buf : NameBuf} (h : skipelem path = none) :
    skipelemInto path buf = none := by
  simp only [skipelem] at h
  split_ifs at h with hnil
  exact if_pos hnil

theorem skipelemInto_eq_some (buf : NameBuf) (hpath : 0 ∉ path)
    (h : skipelem path = some (name, rest)) :
    ∃ buf', skipelemInto path buf = some (rest, buf') ∧ buf'.str = name ∧ 0 ∉ rest := by
  simp only [skipelem] at h
  split_ifs at h with hne
  obtain ⟨rfl, rfl⟩ := Prod.mk.inj (Option.some.inj h)
  have hmem : ∀ x, x ∈ path.dropWhile (fun x => decide (x = slash)) → x ∈ path :=
    fun x hx => (List.dropWhile_sublist _).mem hx
  refine ⟨_, if_neg hne, str_fill buf ?_, ?_⟩
  · exact fun hx => hpath (hmem 0 ((List.takeWhile_sublist _).mem hx))
  · intro hx
    exact hpath (hmem 0 ((List.dropWhile_sublist _).mem ((List.dropWhile_sublist _).mem hx)))

theorem skipelemInto_length {buf buf' : NameBuf} (h : skipelemInto path buf = some (rest, buf')) :
    rest.length < path.length := by
  cases hskip : skipelem path with
  | none =>
    rw [skipelemInto_eq_none hskip] at h
    cases h
  | some r =>
    obtain ⟨name, rest'⟩ := r
    have hlen := skipelem_length hskip
    simp only [skipelem] at hskip
    simp only [skipelemInto] at h
    split_ifs at hskip h with hne
    obtain ⟨-, rfl⟩ := Prod.mk.inj (Option.some.inj hskip)
    obtain ⟨rfl, -⟩ := Prod.mk.inj (Option.some.inj h)
    exact hlen

/-- The elements that a loop over `skipelem` finds, all of them in the same buffer. -/
def elements (path : List UInt8) (buf : NameBuf) : List Name :=
  match _h : skipelemInto path buf with
  | none => []
  | some (rest, buf') => buf'.str :: elements rest buf'
termination_by path.length
decreasing_by exact skipelemInto_length _h

theorem elements_eq (hpath : 0 ∉ path) (buf : NameBuf) : elements path buf = pieces path := by
  induction hn : path.length using Nat.strongRecOn generalizing path buf with
  | ind n ih =>
    rw [elements]
    cases hskip : skipelem path with
    | none =>
      rw [pieces_of_none hskip]
      split
      · rfl
      · next rest buf' h =>
        rw [skipelemInto_eq_none hskip] at h
        cases h
    | some r =>
      obtain ⟨name, rest⟩ := r
      obtain ⟨buf', hinto, hstr, hrest⟩ := skipelemInto_eq_some buf hpath hskip
      rw [(pieces_of_some hskip).1]
      split
      · next h =>
        rw [hinto] at h
        cases h
      · next rest₁ buf₁ h =>
        rw [hinto] at h
        cases h
        rw [hstr, ih rest.length (hn ▸ skipelem_length hskip) hrest buf' rfl]

/-! ### Following the pieces -/

variable {F : Nat → File} {i d fuel : Nat} {names : List Name}

/-- The inode of an entry of directory `d`. -/
def lookupInum (F : Nat → File) (d : Nat) (name : Name) : Option Nat :=
  ((F d).lookup (key (cstr name))).map (F d).inumAt

/-- Look the names up one after the other, each in the directory that the ones before lead to. -/
def follow (F : Nat → File) (i : Nat) : List Name → Option Nat
  | [] => some i
  | name :: names =>
    if (F i).type ≠ T_DIR then none else (lookupInum F i name).bind (fun j => follow F j names)

/-- The directory that all names but the last lead to, and the last name. -/
def followParent (F : Nat → File) (i : Nat) (names : List Name) : Option (Nat × Name) :=
  (follow F i names.dropLast).bind (fun d =>
    if (F d).type ≠ T_DIR then none else names.getLast?.map (fun name => (d, name)))

theorem walk_eq_follow (hfuel : path.length < fuel) :
    walk F false fuel path i = (follow F i (pieces path)).map (fun j => (j, [])) := by
  induction fuel generalizing path i with
  | zero => omega
  | succ fuel ih =>
    rw [walk]
    cases hskip : skipelem path with
    | none =>
      rw [pieces_of_none hskip]
      rfl
    | some r =>
      obtain ⟨name, rest⟩ := r
      have hlen := skipelem_length hskip
      rw [(pieces_of_some hskip).1, follow]
      by_cases hdir : (F i).type ≠ T_DIR
      · rw [if_pos hdir]
        simp only [if_pos hdir]
        rfl
      · rw [if_neg hdir, lookupInum]
        simp only [if_neg hdir, Bool.false_eq_true, false_and, if_false]
        cases (F i).lookup (key (cstr name)) with
        | none => rfl
        | some m => exact ih (by omega)

theorem walk_eq_followParent (hfuel : path.length < fuel) (hne : pieces path ≠ []) :
    walk F true fuel path i = followParent F i (pieces path) := by
  induction fuel generalizing path i with
  | zero => omega
  | succ fuel ih =>
    rw [walk]
    cases hskip : skipelem path with
    | none => exact absurd (pieces_of_none hskip) hne
    | some r =>
      obtain ⟨name, rest⟩ := r
      have hlen := skipelem_length hskip
      obtain ⟨hpieces, hlast⟩ := pieces_of_some hskip
      rw [hpieces, followParent]
      by_cases hrest : rest = []
      · rw [hrest, pieces_nil, List.dropLast_singleton, follow]
        simp only [and_self, if_true]
        rfl
      · have hmore : pieces rest ≠ [] := fun hc => hrest (hlast.mp hc)
        have hih : ∀ j, walk F true fuel rest j = followParent F j (pieces rest) :=
          fun j => ih (by omega) hmore
        obtain ⟨next, others, hnext⟩ := List.exists_cons_of_ne_nil hmore
        have hgetLast : (name :: pieces rest).getLast? = (pieces rest).getLast? := by
          rw [hnext, List.getLast?_cons_cons]
        have hdropLast : (name :: pieces rest).dropLast = name :: (pieces rest).dropLast := by
          rw [hnext]
          rfl
        rw [hdropLast, hgetLast, follow]
        by_cases hdir : (F i).type ≠ T_DIR
        · simp only [if_pos hdir]
          rfl
        · simp only [if_neg hdir, hrest, and_false, if_false, lookupInum]
          cases (F i).lookup (key (cstr name)) with
          | none => rfl
          | some m => exact hih _

/-- The last name of a path is looked up in the directory of the others. -/
theorem follow_of_parent (h : followParent F i names = some (d, name)) :
    follow F i names = lookupInum F d name := by
  obtain ⟨d', hd', hname⟩ := Option.bind_eq_some_iff.mp h
  split_ifs at hname with hdir
  obtain ⟨last, hlast, heq⟩ := Option.map_eq_some_iff.mp hname
  cases heq
  have hsplit : names = names.dropLast ++ [name] :=
    (List.dropLast_append_getLast? name hlast).symm
  rw [hsplit]
  clear h hname hlast hsplit
  generalize names.dropLast = front at hd' ⊢
  induction front generalizing i with
  | nil =>
    cases hd'
    simp only [List.nil_append, follow, if_neg hdir, Option.bind_fun_some]
  | cons n front ih =>
    rw [follow] at hd'
    rw [List.cons_append, follow]
    split_ifs at hd' ⊢ with hdir'
    obtain ⟨j, hj, hrest⟩ := Option.bind_eq_some_iff.mp hd'
    rw [hj, Option.bind_some]
    exact ih hrest

theorem followParent_eq_some_iff : followParent F i names = some (d, name) ↔
    follow F i names.dropLast = some d ∧ (F d).type = T_DIR ∧ names.getLast? = some name := by
  rw [followParent, Option.bind_eq_some_iff]
  constructor
  · rintro ⟨d', hd', hname⟩
    split_ifs at hname with hdir
    obtain ⟨last, hlast, heq⟩ := Option.map_eq_some_iff.mp hname
    cases heq
    exact ⟨hd', not_not.mp hdir, hlast⟩
  · rintro ⟨hd, hdir, hlast⟩
    refine ⟨d, hd, ?_⟩
    rw [if_neg (not_not.mpr hdir), hlast]
    rfl

/-- Names lead nowhere exactly when one of them is looked up in an inode that is not a directory or
is not there. -/
theorem follow_eq_none_iff : follow F i names = none ↔
    ∃ front name back d, names = front ++ name :: back ∧ follow F i front = some d ∧
      ((F d).type ≠ T_DIR ∨ lookupInum F d name = none) := by
  induction names generalizing i with
  | nil =>
    constructor
    · intro h
      cases h
    · rintro ⟨front, name, back, d, hnames, -⟩
      exact absurd hnames.symm (by simp)
  | cons n names ih =>
    rw [follow]
    constructor
    · intro h
      by_cases hdir : (F i).type ≠ T_DIR
      · exact ⟨[], n, names, i, rfl, rfl, .inl hdir⟩
      · rw [if_neg hdir] at h
        cases hj : lookupInum F i n with
        | none => exact ⟨[], n, names, i, rfl, rfl, .inr hj⟩
        | some j =>
          rw [hj, Option.bind_some] at h
          obtain ⟨front, name, back, d, rfl, hfront, hd⟩ := ih.mp h
          refine ⟨n :: front, name, back, d, rfl, ?_, hd⟩
          rw [follow, if_neg hdir, hj, Option.bind_some, hfront]
    · rintro ⟨front, name, back, d, hnames, hfront, hd⟩
      by_cases hdir : (F i).type ≠ T_DIR
      · rw [if_pos hdir]
      · rw [if_neg hdir]
        cases front with
        | nil =>
          cases hfront
          cases hnames
          rw [hd.resolve_left hdir, Option.bind_none]
        | cons n' front =>
          obtain ⟨rfl, rfl⟩ := List.cons.inj hnames
          rw [follow, if_neg hdir] at hfront
          obtain ⟨j, hj, hfront⟩ := Option.bind_eq_some_iff.mp hfront
          rw [hj, Option.bind_some]
          exact ih.mpr ⟨front, name, back, d, rfl, hfront, hd⟩

theorem follow_eq_none_of_parent (hne : names ≠ []) (h : followParent F i names = none) :
    follow F i names = none := by
  obtain ⟨last, hlast⟩ : ∃ last, names.getLast? = some last :=
    ⟨_, List.getLast?_eq_some_getLast hne⟩
  have hsplit : names = names.dropLast ++ [last] := (List.dropLast_append_getLast? last hlast).symm
  rw [follow_eq_none_iff]
  cases hd : follow F i names.dropLast with
  | none =>
    obtain ⟨front, name, back, d, hnames, hrest⟩ := follow_eq_none_iff.mp hd
    refine ⟨front, name, back ++ [last], d, ?_, hrest⟩
    rw [hsplit, hnames, List.append_assoc, List.cons_append]
  | some d =>
    refine ⟨names.dropLast, last, [], d, hsplit, hd, .inl ?_⟩
    intro hdir
    have hparent := followParent_eq_some_iff.mpr ⟨hd, hdir, hlast⟩
    rw [h] at hparent
    cases hparent

/-! ### `namex` with a buffer -/

variable {sb : Superblock} {s s' : FsState} {B : Nat → Nat} {c cwd : Nat} {nameiparent : Bool}

/-- What the caller of `namex` uses of its result: `namei` drops the name. -/
def withName (nameiparent : Bool) (r : Option (Nat × NameBuf)) : Option (Nat × Name) :=
  r.map (fun x => (x.1, if nameiparent then x.2.str else []))

theorem wp_namexIntoLoop {ip : Nat} {buf : NameBuf} {Q : Option (Nat × Name) → FsState → Prop}
    {E : Fault → Prop} (hpath : 0 ∉ path) (h : wp (namexLoop nameiparent fuel path ip) s Q E) :
    wp (namexIntoLoop nameiparent fuel path buf ip) s
      (fun r s' => Q (withName nameiparent r) s') E := by
  induction fuel generalizing path buf ip s with
  | zero => exact h
  | succ fuel ih =>
    rw [namexLoop] at h
    rw [namexIntoLoop]
    cases hskip : skipelem path with
    | none =>
      rw [hskip] at h
      rw [skipelemInto_eq_none hskip]
      cases nameiparent with
      | true =>
        simp only [if_true, wp_bind, wp_pure] at h ⊢
        exact h
      | false => exact h
    | some r =>
      obtain ⟨name, rest⟩ := r
      obtain ⟨buf', hinto, hstr, hrest⟩ := skipelemInto_eq_some buf hpath hskip
      rw [hskip] at h
      rw [hinto]
      simp only [wp_bind] at h ⊢
      refine wp_mono h ?_
      intro _ s₁ h
      refine wp_mono h ?_
      intro ino s₂ h
      split_ifs at h ⊢ with hdir hlast
      · simp only [wp_bind, wp_pure] at h ⊢
        exact h
      · simp only [wp_bind, wp_pure] at h ⊢
        refine wp_mono h ?_
        intro _ s₃ h
        rw [withName, Option.map_some, hlast.1, if_pos rfl, hstr]
        exact h
      · rw [hstr]
        simp only [wp_bind] at h ⊢
        refine wp_mono h ?_
        intro r s₃ h
        cases r with
        | none =>
          simp only [wp_bind, wp_pure] at h ⊢
          exact h
        | some next =>
          simp only [wp_bind] at h ⊢
          refine wp_mono h ?_
          intro _ s₄ h
          exact ih hrest h

theorem wp_namexInto {buf : NameBuf} {Q : Option (Nat × Name) → FsState → Prop}
    {E : Fault → Prop} (hpath : 0 ∉ path) (h : wp (namex path nameiparent cwd) s Q E) :
    wp (namexInto path nameiparent cwd buf) s (fun r s' => Q (withName nameiparent r) s') E := by
  rw [namex, wp_bind] at h
  rw [namexInto, wp_bind]
  exact wp_mono h (fun _ _ hq => wp_namexIntoLoop hpath hq)

/-- The inode `w`, with a new reference, or none and nothing changed. -/
def Yields (sb : Superblock) (F : Nat → File) (B : Nat → Nat) (w r : Option Nat) (s' : FsState) :
    Prop :=
  match w with
  | none => r = none ∧ Abs sb s' F B ∅
  | some j => ∃ l, r = some l ∧ Abs sb s' F (inc B l) ∅ ∧ (s'.icache l).inum = j

/-- The directory and the name `w`, with a new reference, or none and nothing changed. -/
def YieldsParent (sb : Superblock) (F : Nat → File) (B : Nat → Nat) (w : Option (Nat × Name))
    (r : Option (Nat × NameBuf)) (s' : FsState) : Prop :=
  match w with
  | none => r = none ∧ Abs sb s' F B ∅
  | some (d, name) => ∃ l buf, r = some (l, buf) ∧ buf.str = name ∧ Abs sb s' F (inc B l) ∅ ∧
      (s'.icache l).inum = d

/-- A process with current directory `c`, which inode `cwd` of the cache is for. -/
structure Resolving (sb : Superblock) (s : FsState) (F : Nat → File) (B : Nat → Nat)
    (cwd c : Nat) : Prop extends Abs sb s F B ∅ where
  listed : Listed sb.ninodes F
  ref : 0 < B cwd
  inum : (s.icache cwd).inum = c
  inode : 0 < c ∧ c < sb.ninodes
  root : ROOTINO < sb.ninodes

/-- Where a path starts. -/
def start (path : List UInt8) (c : Nat) : Nat := if path.head? = some slash then ROOTINO else c

variable (h : Resolving sb s F B cwd c) (buf : NameBuf)
include h

theorem Resolving.nameiInto (hpath : 0 ∉ path) :
    wp (nameiInto path cwd buf) s (Yields sb F B (follow F (start path c) (pieces path)))
      (NamexFault F B c) := by
  rw [Fs.nameiInto]
  refine wp_seq (wp_namexInto hpath
    (h.namex_cases h.listed h.ref h.inum h.inode h.root path false)) ?_
  rintro r s' ⟨-, hres⟩
  rw [walkPath, walk_eq_follow (Nat.lt_succ_self _)] at hres
  change Yields sb F B (follow F (if path.head? = some slash then ROOTINO else c) (pieces path)) _ _
  cases hw : follow F (if path.head? = some slash then ROOTINO else c) (pieces path) with
  | none =>
    rw [hw] at hres
    obtain ⟨hr, habs⟩ := hres
    rw [withName, Option.map_eq_none_iff] at hr
    exact ⟨by rw [hr]; rfl, habs⟩
  | some j =>
    rw [hw] at hres
    obtain ⟨l, hr, habs, hl⟩ := hres
    obtain ⟨x, hx, heq⟩ := Option.map_eq_some_iff.mp hr
    cases heq
    exact ⟨x.1, by rw [hx]; rfl, habs, hl⟩

theorem Resolving.nameiparentInto (hpath : 0 ∉ path) (hne : pieces path ≠ []) :
    wp (nameiparentInto path cwd buf) s (fun r s' => Keep B s s' ∧
        YieldsParent sb F B (followParent F (start path c) (pieces path)) r s')
      (NamexFault F B c) := by
  rw [Fs.nameiparentInto]
  refine wp_mono (wp_namexInto hpath
    (h.namex_cases h.listed h.ref h.inum h.inode h.root path true)) ?_
  rintro r s' ⟨hkeep, hres⟩
  refine ⟨hkeep, ?_⟩
  rw [walkPath, walk_eq_followParent (Nat.lt_succ_self _) hne] at hres
  rw [start]
  cases hw : followParent F (if path.head? = some slash then ROOTINO else c) (pieces path) with
  | none =>
    rw [hw] at hres
    obtain ⟨hr, habs⟩ := hres
    exact ⟨Option.map_eq_none_iff.mp hr, habs⟩
  | some x =>
    obtain ⟨d, name⟩ := x
    rw [hw] at hres
    obtain ⟨l, hr, habs, hl⟩ := hres
    obtain ⟨⟨l', buf'⟩, hx, heq⟩ := Option.map_eq_some_iff.mp hr
    obtain ⟨rfl, rfl⟩ := Prod.mk.inj heq
    exact ⟨l', buf', hx, rfl, habs, hl⟩

theorem Resolving.lookupInParent (hpath : 0 ∉ path) (hne : pieces path ≠ []) :
    wp (lookupInParent path cwd buf) s (Yields sb F B (follow F (start path c) (pieces path)))
      (NamexFault F B c) := by
  rw [Fs.lookupInParent]
  refine wp_seq (h.nameiparentInto buf hpath hne) ?_
  rintro r s₁ ⟨hk₁, hres⟩
  cases hw : followParent F (start path c) (pieces path) with
  | none =>
    rw [hw] at hres
    obtain ⟨rfl, h₁⟩ := hres
    rw [follow_eq_none_of_parent hne hw]
    exact ⟨rfl, h₁⟩
  | some x =>
    obtain ⟨d, name⟩ := x
    rw [hw] at hres
    obtain ⟨l, buf', rfl, rfl, h₁, hl₁⟩ := hres
    obtain ⟨-, hdir, -⟩ := followParent_eq_some_iff.mp hw
    have hlive : (F d).type ≠ 0 := by
      rw [hdir]
      decide
    have hpos : 0 < inc B l l := by
      rw [inc_self]
      omega
    simp only [wp_bind, wp_pure]
    refine wp_conseq (h₁.ilock hpos (Finset.notMem_empty l)
      (hl₁.symm ▸ h₁.range_of_live hlive)) ?_ ?_
    · rintro _ s₂ ⟨h₂, hk₂⟩
      have hl₂ : (s₂.icache l).inum = d := by rw [hk₂ l hpos, hl₁]
      have hlL : l ∈ insert l (∅ : Finset Nat) := Finset.mem_insert_self l ∅
      have ha₂ := h.anchored.keep (hk₁.trans (hk₂.mono (le_inc B l)))
      refine wp_conseq (h₂.dirlookup_cases hlL hl₂ ⟨hdir, (h.listed d hdir).1⟩ buf'.str) ?_
        (fun e he => .inl ⟨he.1, crowded_of_inc he.2⟩)
      intro r s₃ hr
      rw [follow_of_parent hw, lookupInum]
      cases hlook : (F d).lookup (key (cstr buf'.str)) with
      | none =>
        rw [hlook] at hr
        obtain ⟨rfl, rfl⟩ := hr
        refine wp_mono (h₂.iunlockput_temp ha₂ hlL) ?_
        rintro _ s₄ ⟨h₄, -⟩
        rw [Finset.erase_insert (Finset.notMem_empty l)] at h₄
        exact ⟨rfl, h₄⟩
      | some m =>
        rw [hlook] at hr
        obtain ⟨j, rfl, h₃, hk₃, hj₃⟩ := hr
        rw [inc_comm] at h₃
        refine wp_mono (h₃.iunlockput_temp
          ((ha₂.keep (hk₃.mono (le_inc B l))).mono (le_inc B j)) hlL) ?_
        rintro _ s₄ ⟨h₄, hk₄⟩
        rw [Finset.erase_insert (Finset.notMem_empty l)] at h₄
        refine ⟨j, rfl, h₄, ?_⟩
        rw [hk₄ j inc_pos, hj₃]
    · rintro e ⟨-, hfree⟩
      rw [hl₁] at hfree
      exact absurd hfree hlive

omit h

/-- Iterating `skipelem` gives the pieces of the path.
`namei` returns the inode that they lead to, from the root or the current directory, and fails
exactly when a piece is looked up in an inode that is not a directory, or is not found. If there is
a piece, `nameiparent` returns a directory and a name exactly when all pieces but the last lead to
that directory and the name is the last piece, and looking it up there gives what `namei` gives.
They panic only if at most one entry of the inode cache is free, or if an entry that can be reached
names a free inode. -/
theorem path_resolution (h : Resolving sb s F B cwd c) (hpath : 0 ∉ path) (buf : NameBuf) :
    elements path buf = pieces path ∧
    wp (nameiInto path cwd buf) s (Yields sb F B (follow F (start path c) (pieces path)))
      (NamexFault F B c) ∧
    (follow F (start path c) (pieces path) = none ↔
      ∃ front name back d, pieces path = front ++ name :: back ∧
        follow F (start path c) front = some d ∧
        ((F d).type ≠ T_DIR ∨ lookupInum F d name = none)) ∧
    (pieces path ≠ [] →
      wp (nameiparentInto path cwd buf) s
        (YieldsParent sb F B (followParent F (start path c) (pieces path))) (NamexFault F B c) ∧
      (∀ d name, followParent F (start path c) (pieces path) = some (d, name) ↔
        follow F (start path c) (pieces path).dropLast = some d ∧ (F d).type = T_DIR ∧
          (pieces path).getLast? = some name) ∧
      wp (lookupInParent path cwd buf) s (Yields sb F B (follow F (start path c) (pieces path)))
        (NamexFault F B c)) := by
  refine ⟨elements_eq hpath buf, h.nameiInto buf hpath, follow_eq_none_iff, fun hne => ?_⟩
  refine ⟨?_, fun d name => followParent_eq_some_iff, h.lookupInParent buf hpath hne⟩
  exact wp_mono (h.nameiparentInto buf hpath hne) (fun _ _ hq => hq.2)

/-- `//..//a` in a file system with a root directory only. -/
theorem rootParent_resolved : ∃ s cwd,
    Resolving Mkfs.sb s (Syscall.made []) (inc (fun _ => 0) cwd) cwd ROOTINO ∧
    elements [47, 47, 46, 46, 47, 47, 97] (fun _ => 1) = [[46, 46], [97]] ∧
    wp (nameiparentInto [47, 47, 46, 46, 47, 47, 97] cwd (fun _ => 1)) s
      (YieldsParent Mkfs.sb (Syscall.made []) (inc (fun _ => 0) cwd) (some (ROOTINO, [97])))
      (NamexFault (Syscall.made []) (inc (fun _ => 0) cwd) ROOTINO) := by
  obtain ⟨fs, hfs⟩ := Syscall.exists_bootable
  obtain ⟨k, s, -, habs, -, hk⟩ := wp_returns (hfs.toAbs.iget_cases ROOTINO)
    (fun e he => absurd (he.2 0 (by decide)) (lt_irrefl 0))
  have hres : Resolving Mkfs.sb s (Syscall.made []) (inc (fun _ => 0) k) k ROOTINO :=
    ⟨habs, hfs.sane.listed, inc_pos, hk, by decide, by decide⟩
  have hpieces : pieces [47, 47, 46, 46, 47, 47, 97] = [[46, 46], [97]] := by decide
  have hpath : (0 : UInt8) ∉ [47, 47, 46, 46, 47, 47, 97] := by decide
  obtain ⟨helems, -, -, hparent⟩ := path_resolution hres hpath (fun _ => 1)
  have hp := (hparent (by rw [hpieces]; decide)).1
  have hfollow : followParent (Syscall.made []) (start [47, 47, 46, 46, 47, 47, 97] ROOTINO)
      (pieces [47, 47, 46, 46, 47, 47, 97]) = some (ROOTINO, [97]) := by decide +kernel
  rw [hfollow] at hp
  exact ⟨s, k, hres, helems.trans hpieces, hp⟩

end Xv6.Fs
