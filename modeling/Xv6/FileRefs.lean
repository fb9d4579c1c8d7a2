import Xv6.FileTable
import Xv6.ProcFiles
import Xv6.RefCounts

/-!
# The references to files

In every state of every run, the reference count of a file is the number of references that the
processes own: one for each descriptor, except one for which `dup` has not yet counted the
reference or `exit` has already dropped it, and one for each file that a call has in its hands.
-/

namespace Xv6.Ftable

open Function
open Ptable (Slot Table Event Thread)

variable {k k' : Kernel} {p q : Slot} {f g : FileId} {fd : Fd} {o : Fd → Option FileId} {v : Pc}

/-! ### What a process owns -/

def one {α : Type} [DecidableEq α] (x : Option α) (y : α) : Nat := if x = some y then 1 else 0

@[simp] theorem one_none {α : Type} [DecidableEq α] (y : α) : one none y = 0 := rfl

def slotRefs (o : Fd → Option FileId) (f : FileId) : Nat := ∑ fd, one (o fd) f

theorem slotRefs_update (o : Fd → Option FileId) (fd : Fd) (x : Option FileId) (f : FileId) :
    slotRefs (update o fd x) f + one (o fd) f = slotRefs o f + one x f :=
  sum_update (fun x => one x f) o fd x

theorem slotRefs_pos (h : o fd = some f) : 1 ≤ slotRefs o f := by
  have hle : one (o fd) f ≤ slotRefs o f := le_sum (fun fd => one (o fd) f) fd
  simpa [one, h] using hle

attribute [local irreducible] slotRefs

/-- The files that a call has in its hands. -/
def After.held : After → List FileId
  | .close f => [f]
  | _ => []

def Pc.held : Pc → List FileId
  -- the file is still in the table of the process
  | .close _ (.exit _) => []
  | .close f a => f :: a.held
  | .closed _ a => a.held
  | .pipe1 f0 => [f0]
  | .pipe2 f0 f1 => [f0, f1]
  | .piped rf wf => [rf, wf]
  | _ => []

/-- The descriptor that does not stand for a reference. -/
def Pc.uncounted : Pc → Option Fd
  | .dup _ fd _ => some fd
  | .closed _ (.exit fd) => some fd
  | _ => none

def visible (o : Fd → Option FileId) (v : Pc) : Fd → Option FileId :=
  match v.uncounted with
  | some fd => update o fd none
  | none => o

def refsOf (o : Fd → Option FileId) (v : Pc) (f : FileId) : Nat :=
  slotRefs (visible o v) f + v.held.count f

def Kernel.own (k : Kernel) (p : Slot) : FileId → Nat := refsOf (k.ofile p) (k.call p)

/-- The files that a call has allocated and not yet given a type. -/
def Pc.fresh : Pc → List FileId
  | .opened _ f _ _ => [f]
  | .pipe1 f0 => [f0]
  | .pipe2 f0 f1 => [f0, f1]
  | _ => []

/-- What a call relies on in the descriptors of its process. -/
def Shape (o : Fd → Option FileId) : Pc → Prop
  | .dup fd0 fd f => o fd0 = some f ∧ o fd = some f ∧ fd0 ≠ fd
  | .close f (.exit fd) => o fd = some f
  | .opened fd f _ _ => o fd = some f
  | .pipe2 f0 f1 => f0 ≠ f1
  | _ => True

theorem refsOf_fresh (h : Shape o v) (hf : f ∈ v.fresh) : 1 ≤ refsOf o v f := by
  cases v with
  | opened fd g ip omode =>
    obtain rfl : f = g := by simpa [Pc.fresh] using hf
    exact le_add_right (slotRefs_pos h)
  | pipe1 f0 =>
    have hcount : 1 ≤ (Pc.pipe1 f0).held.count f := List.one_le_count_iff.mpr hf
    exact le_add_left hcount
  | pipe2 f0 f1 =>
    have hcount : 1 ≤ (Pc.pipe2 f0 f1).held.count f := List.one_le_count_iff.mpr hf
    exact le_add_left hcount
  | _ => cases hf

/-! ### The invariant -/

structure Refs (k : Kernel) : Prop where
  counted : RefCounted (fun f => (k.file f).ref) k.own
  unused : ∀ f, (k.file f).ref = 0 → (k.file f).type = .none
  shape : ∀ p, Shape (k.ofile p) (k.call p)
  fresh : ∀ p, ∀ f ∈ (k.call p).fresh, (k.file f).ref = 1 ∧ (k.file f).type = .none

/-- A step of one process, which leaves its descriptors as `o` and itself at `v`. -/
structure Moved (k k' : Kernel) (p : Slot) (o : Fd → Option FileId) (v : Pc) : Prop where
  table : k'.table = k.table
  ofile : k'.ofile = update k.ofile p o
  call : k'.call = update k.call p v

theorem moved_goto (k : Kernel) (p : Slot) (v : Pc) : Moved k (k.goto p v) p (k.ofile p) v :=
  ⟨rfl, (update_eq_self _ _).symm, rfl⟩

theorem moved_finish (k : Kernel) (p : Slot) (r : Int) :
    Moved k (k.finish p r) p (k.ofile p) .user :=
  ⟨rfl, (update_eq_self _ _).symm, rfl⟩

theorem moved_files (k : Kernel) (p : Slot) (o : Fd → Option FileId) (v : Pc) :
    Moved k ((k.setFiles p o).goto p v) p o v := ⟨rfl, rfl, rfl⟩

theorem Moved.from {k₁ : Kernel} (h : Moved k₁ k' p o v) (htable : k₁.table = k.table)
    (hofile : k₁.ofile = k.ofile) (hcall : k₁.call = k.call) : Moved k k' p o v :=
  ⟨h.table.trans htable, by rw [h.ofile, hofile], by rw [h.call, hcall]⟩

theorem Refs.moved (h : Refs k) (hm : Moved k k' p o v) (hshape : Shape o v)
    (href : ∀ g, (k'.file g).ref + k.own p g = (k.file g).ref + refsOf o v g)
    (hframe : ∀ g, k'.file g ≠ k.file g → ∀ q, q ≠ p → g ∉ (k.call q).fresh)
    (hunused : ∀ g, (k'.file g).ref = 0 → (k'.file g).type = .none)
    (hfresh : ∀ g ∈ v.fresh, (k'.file g).ref = 1 ∧ (k'.file g).type = .none) : Refs k' := by
  have hcall : ∀ q, q ≠ p → k'.call q = k.call q := by
    intro q hq
    rw [hm.call, update_of_ne hq]
  have hofile : ∀ q, q ≠ p → k'.ofile q = k.ofile q := by
    intro q hq
    rw [hm.ofile, update_of_ne hq]
  have hown : k'.own p = refsOf o v := by
    rw [Kernel.own, hm.ofile, hm.call, update_self, update_self]
  refine ⟨h.counted.change (p := p) ?_ ?_, hunused, ?_, ?_⟩
  · intro q hq
    rw [Kernel.own, Kernel.own, hcall q hq, hofile q hq]
  · intro g
    rw [hown]
    exact href g
  · intro q
    rcases eq_or_ne q p with rfl | hq
    · rw [hm.ofile, hm.call, update_self, update_self]
      exact hshape
    · rw [hofile q hq, hcall q hq]
      exact h.shape q
  · intro q g hg
    rcases eq_or_ne q p with rfl | hq
    · rw [hm.call, update_self] at hg
      exact hfresh g hg
    · rw [hcall q hq] at hg
      have hsame : k'.file g = k.file g := by
        by_contra hne
        exact hframe g hne q hq hg
      rw [hsame]
      exact h.fresh q g hg

theorem Refs.moved_same (h : Refs k) (hm : Moved k k' p o v) (href : ∀ g, k.own p g = refsOf o v g)
    (hshape : Shape o v := by exact True.intro) (hfile : k'.file = k.file := by rfl)
    (hfresh : ∀ g ∈ v.fresh, g ∈ (k.call p).fresh := by simp [Pc.fresh]) : Refs k' := by
  refine h.moved hm hshape ?_ ?_ ?_ ?_
  · intro g
    rw [hfile, href g]
  · intro g hne
    rw [hfile] at hne
    exact absurd rfl hne
  · rw [hfile]
    exact h.unused
  · rw [hfile]
    exact fun g hg => h.fresh p g (hfresh g hg)

theorem Refs.not_fresh (h : Refs k) (hp : 1 ≤ k.own p f) (hq : q ≠ p) : f ∉ (k.call q).fresh := by
  intro hf
  have hone := (h.fresh q f hf).1
  have howns := refsOf_fresh (h.shape q) hf
  exact hq (h.counted.owner_unique hone howns hp)

theorem Refs.ref_pos (h : Refs k) (hp : 1 ≤ k.own p f) : 1 ≤ (k.file f).ref :=
  hp.trans (h.counted.own_le p f)

theorem Refs.moved_file {x : File} (h : Refs k) (hm : Moved k k' p o v)
    (hfile : k'.file = update k.file f x) (hshape : Shape o v)
    (href : x.ref + k.own p f = (k.file f).ref + refsOf o v f)
    (hsame : ∀ g, g ≠ f → k.own p g = refsOf o v g) (hframe : ∀ q, q ≠ p → f ∉ (k.call q).fresh)
    (hunused : x.ref = 0 → x.type = .none)
    (hfresh : ∀ g ∈ v.fresh, g = f ∧ x.ref = 1 ∧ x.type = .none ∨ g ≠ f ∧ g ∈ (k.call p).fresh :=
      by simp [Pc.fresh]) : Refs k' := by
  have hother : ∀ g, g ≠ f → k'.file g = k.file g := by
    intro g hg
    rw [hfile, update_of_ne hg]
  have hself : k'.file f = x := by rw [hfile, update_self]
  refine h.moved hm hshape ?_ ?_ ?_ ?_
  · intro g
    rcases eq_or_ne g f with rfl | hg
    · rw [hself]
      exact href
    · rw [hother g hg, hsame g hg]
  · intro g hne
    obtain rfl : g = f := by
      by_contra hg
      exact hne (hother g hg)
    exact hframe
  · intro g
    rcases eq_or_ne g f with rfl | hg
    · rw [hself]
      exact hunused
    · rw [hother g hg]
      exact h.unused g
  · intro g hg
    rcases hfresh g hg with ⟨rfl, hx⟩ | ⟨hgf, hold⟩
    · rw [hself]
      exact hx
    · rw [hother g hgf]
      exact h.fresh p g hold

/-! ### The functions of `file.c` and the descriptors -/

section specs

variable {file file' : FileId → File} {o' : Fd → Option FileId}

theorem filealloc_eq (h : filealloc file = some (f, file')) :
    (file f).ref = 0 ∧ file' = update file f { file f with ref := 1 } := by
  simp only [filealloc] at h
  split at h
  · next g hg =>
    have hfree := List.find?_some hg
    simp only [decide_eq_true_eq] at hfree
    cases h
    exact ⟨hfree, rfl⟩
  · cases h

theorem fdalloc_eq (h : fdalloc o f = some (fd, o')) : o fd = none ∧ o' = update o fd (some f) := by
  simp only [fdalloc] at h
  split at h
  · next fd' hfd =>
    have hfree := List.find?_some hfd
    simp only [decide_eq_true_eq] at hfree
    cases h
    exact ⟨hfree, rfl⟩
  · cases h

theorem argfd_eq {n : Int} (h : argfd o n = some (fd, f)) : o fd = some f := by
  simp only [argfd] at h
  split_ifs at h
  obtain ⟨g, hg, heq⟩ := Option.map_eq_some_iff.mp h
  cases heq
  exact hg

theorem filedup_eq (h : 1 ≤ (file f).ref) :
    filedup f file = some (update file f { file f with ref := (file f).ref + 1 }) :=
  if_neg (by omega)

end specs

/-! ### References in the calls -/

theorem count_cons_one (f g : FileId) (l : List FileId) :
    (f :: l).count g = l.count g + one (some f) g := by
  simp [List.count_cons, one]

theorem refsOf_counted (hv : v.uncounted = none) (g : FileId) :
    refsOf o v g = slotRefs o g + v.held.count g := by
  simp only [refsOf, visible, hv]

theorem own_of_call (hv : k.call p = v) (g : FileId) : k.own p g = refsOf (k.ofile p) v g := by
  rw [Kernel.own, hv]

theorem refsOf_slot (hv : v.uncounted = none) (h : o fd = some f) : 1 ≤ refsOf o v f := by
  rw [refsOf_counted hv]
  exact le_add_right (slotRefs_pos h)

/-- Where `fileclose` returns to. -/
def After.pc : After → Pc
  | .done _ => .user
  | .close f => .close f (.done (-1))
  | .exit fd => .exit (fd + 1)

def After.files (a : After) (o : Fd → Option FileId) : Fd → Option FileId :=
  match a with
  | .exit fd => update o fd none
  | _ => o

theorem moved_resume (k : Kernel) (p : Slot) (a : After) :
    Moved k (k.resume p a) p (a.files (k.ofile p)) a.pc := by
  cases a with
  | done r => exact moved_finish k p r
  | close f => exact moved_goto k p _
  | exit fd => exact moved_files k p _ _

theorem refsOf_after (a : After) (o : Fd → Option FileId) (g : FileId) :
    refsOf (a.files o) a.pc g = slotRefs (a.files o) g + a.held.count g := by
  cases a <;> rfl

theorem refsOf_closed (ff : File) (a : After) (o : Fd → Option FileId) (g : FileId) :
    refsOf o (.closed ff a) g = slotRefs (a.files o) g + a.held.count g := by
  cases a <;> rfl

variable {a : After} {f0 f1 : FileId}

theorem refsOf_close (h : Shape o (.close f a)) (g : FileId) :
    refsOf o (.close f a) g = slotRefs (a.files o) g + a.held.count g + one (some f) g := by
  cases a with
  | done r =>
    have hcount : (Pc.close f (.done r)).held.count g = _ := count_cons_one f g []
    rw [refsOf_counted rfl, hcount, add_assoc]
    rfl
  | close f' =>
    have hcount : (Pc.close f (.close f')).held.count g = _ := count_cons_one f g [f']
    rw [refsOf_counted rfl, hcount, add_assoc]
    rfl
  | exit fd =>
    have hslot : o fd = some f := h
    have hupd := slotRefs_update o fd none g
    rw [hslot, one_none] at hupd
    rw [refsOf_counted rfl]
    simp only [Pc.held, After.held, After.files, List.count_nil]
    omega

theorem shape_after (a : After) (o : Fd → Option FileId) : Shape (a.files o) a.pc := by
  cases a <;> trivial

theorem fresh_after (a : After) : a.pc.fresh = [] := by
  cases a <;> rfl

/-! ### The calls -/

theorem Refs.finish (h : Refs k) (hcall : k.call p = .user) (r : Int) : Refs (k.finish p r) := by
  exact h.moved_same (moved_finish k p r) (own_of_call hcall)

theorem Refs.enter (h : Refs k) (hcall : k.call p = .user) (call : Syscall) :
    Refs (k.enter p call) := by
  have hown : ∀ g, k.own p g = slotRefs (k.ofile p) g := own_of_call hcall
  cases call with
  | «open» ip omode =>
    cases ip with
    | none => exact h.finish hcall _
    | some ip =>
      exact h.moved_same (moved_goto k p _) hown
  | dup n =>
    simp only [Kernel.enter]
    split
    · exact h.finish hcall _
    · next fd0 f hfd =>
      split
      · exact h.finish hcall _
      · next fd o ho =>
        obtain ⟨hfree, rfl⟩ := fdalloc_eq ho
        have hslot := argfd_eq hfd
        have hne : fd0 ≠ fd := by
          rintro rfl
          simp [hslot] at hfree
        refine h.moved_same (moved_files k p _ _) ?_ ?_
        · intro g
          -- without the descriptor that is not counted yet, nothing has changed
          have hvis : visible (update (k.ofile p) fd (some f)) (.dup fd0 fd f) =
              k.ofile p := by
            simp only [visible, Pc.uncounted, update_idem]
            rw [← hfree, update_eq_self]
          rw [hown g, refsOf, hvis]
          rfl
        · exact ⟨by rw [update_of_ne hne, hslot], update_self _ _ _, hne⟩
  | close n =>
    simp only [Kernel.enter]
    split
    · exact h.finish hcall _
    · next fd f hfd =>
      have hslot := argfd_eq hfd
      refine h.moved_same (moved_files k p _ _) ?_
      intro g
      have hupd := slotRefs_update (k.ofile p) fd none g
      rw [hslot, one_none] at hupd
      have hclose := refsOf_close (o := update (k.ofile p) fd none) (f := f)
        (a := .done 0) True.intro g
      rw [hown g, hclose]
      exact hupd.symm
  | pipe => exact h.moved_same (moved_goto k p _) hown
  | exit => exact h.moved_same (moved_goto k p _) hown

def Kernel.setFile (k : Kernel) (f : FileId) (x : File) : Kernel :=
  { k with file := update k.file f x }

theorem fileclose_more (h : 1 < (k.file f).ref) :
    k.fileclose p f a = (k.setFile f { k.file f with ref := (k.file f).ref - 1 }).resume p a := by
  simp only [Kernel.fileclose, filecloseRef]
  rw [if_neg (by omega), if_pos (by omega)]
  rfl

theorem fileclose_last (h : (k.file f).ref = 1) :
    k.fileclose p f a = (k.setFile f { k.file f with ref := 0, type := .none }).goto p
      (.closed { k.file f with ref := 0 } a) := by
  simp only [Kernel.fileclose, filecloseRef, h]
  rfl

@[simp] theorem resume_file (k : Kernel) (p : Slot) (a : After) : (k.resume p a).file = k.file := by
  cases a <;> rfl

theorem Refs.own_close (h : Refs k) (hcall : k.call p = .close f a) (g : FileId) :
    k.own p g = slotRefs (a.files (k.ofile p)) g + a.held.count g + one (some f) g := by
  have hshape : Shape (k.ofile p) (.close f a) := hcall ▸ h.shape p
  rw [own_of_call hcall, refsOf_close hshape]

theorem one_self (f : FileId) : one (some f) f = 1 := if_pos rfl

theorem one_ne (h : g ≠ f) : one (some f) g = 0 := if_neg (by simp [h.symm])

theorem Refs.fileclose (h : Refs k) (hcall : k.call p = .close f a) :
    1 ≤ (k.file f).ref ∧ Refs (k.fileclose p f a) := by
  have hown := h.own_close hcall
  have hf : 1 ≤ k.own p f := by
    rw [hown f, one_self]
    omega
  have hpos := h.ref_pos hf
  have hself : k.own p f = slotRefs (a.files (k.ofile p)) f + a.held.count f + 1 := by
    rw [hown f, one_self]
  have hother : ∀ g, g ≠ f → k.own p g = slotRefs (a.files (k.ofile p)) g + a.held.count g := by
    intro g hg
    rw [hown g, one_ne hg, add_zero]
  have hframe : ∀ q, q ≠ p → f ∉ (k.call q).fresh := fun q hq => h.not_fresh hf hq
  refine ⟨hpos, ?_⟩
  rcases hpos.lt_or_eq with hmore | hlast
  · rw [fileclose_more hmore]
    have hm := (moved_resume (k.setFile f { k.file f with ref := (k.file f).ref - 1 }) p a).from
      (k := k) rfl rfl rfl
    refine h.moved_file hm (resume_file _ _ _) (shape_after a _) ?_ ?_ hframe ?_ ?_
    · have hrest := refsOf_after a (k.ofile p) f
      simp only [Kernel.setFile, hrest, hself]
      omega
    · intro g hg
      exact (hother g hg).trans (refsOf_after a (k.ofile p) g).symm
    · simp only
      omega
    · simp [fresh_after]
  · rw [fileclose_last hlast.symm]
    have hm := (moved_goto (k.setFile f { k.file f with ref := 0, type := .none }) p
      (.closed { k.file f with ref := 0 } a)).from (k := k) rfl rfl rfl
    refine h.moved_file hm rfl True.intro ?_ ?_ hframe (fun _ => rfl)
    · have hrest := refsOf_closed { k.file f with ref := 0 } a (k.ofile p) f
      simp only [Kernel.setFile, hrest, hself]
      omega
    · intro g hg
      exact (hother g hg).trans (refsOf_closed _ a (k.ofile p) g).symm

/-- At most the pipes of `k'` differ from those of `k`. -/
structure PipesOnly (k k' : Kernel) : Prop where
  table : k'.table = k.table
  ofile : k'.ofile = k.ofile
  call : k'.call = k.call
  file : k'.file = k.file

theorem Refs.resume {ff : File} {k₁ : Kernel} (h : Refs k) (hcall : k.call p = .closed ff a)
    (hs : PipesOnly k k₁) : Refs (k₁.resume p a) := by
  have hm := (moved_resume k₁ p a).from hs.table hs.ofile hs.call
  refine h.moved_same hm ?_ (shape_after a _) ?_ (by simp [fresh_after])
  · intro g
    rw [own_of_call hcall, refsOf_closed, refsOf_after, hs.ofile]
  · rw [← hs.file]
    cases a <;> rfl

theorem pipeclose_frame {page : Nat} {w : Bool} (h : k.pipeclose page w = some k') :
    PipesOnly k k' := by
  simp only [Kernel.pipeclose] at h
  split at h
  · cases h
  · split_ifs at h <;> cases h <;> exact ⟨rfl, rfl, rfl, rfl⟩

namespace Refs

variable (h : Refs k)
include h

theorem closeLast {ff : File} (hcall : k.call p = .closed ff a) :
    Refs (k.closeLast p ff a) := by
  simp only [Kernel.closeLast]
  split
  · split
    · exact ⟨h.counted, h.unused, h.shape, h.fresh⟩
    · next k₁ hk₁ =>
      exact h.resume hcall (pipeclose_frame hk₁)
  · exact h.resume hcall ⟨rfl, rfl, rfl, rfl⟩
  · exact h.resume hcall ⟨rfl, rfl, rfl, rfl⟩

/-- A file that is free belongs to no call. -/
theorem free_not_fresh (hf : (k.file f).ref = 0) (q : Slot) :
    f ∉ (k.call q).fresh := by
  intro hq
  have hone := (h.fresh q f hq).1
  omega

theorem alloc (hf : (k.file f).ref = 0) (hm : Moved k k' p o v)
    (hfile : k'.file = update k.file f { k.file f with ref := 1 }) (hshape : Shape o v)
    (href : ∀ g, refsOf o v g = k.own p g + one (some f) g)
    (hfresh : ∀ g ∈ v.fresh, g = f ∨ g ∈ (k.call p).fresh := by simp [Pc.fresh]) : Refs k' := by
  refine h.moved_file hm hfile hshape ?_ ?_ (fun q _ => h.free_not_fresh hf q) (by simp) ?_
  · rw [href f, one_self, hf]
    simp only
    omega
  · intro g hg
    rw [href g, one_ne hg, add_zero]
  · intro g hg
    rcases eq_or_ne g f with rfl | hgf
    · exact Or.inl ⟨rfl, rfl, h.unused g hf⟩
    · exact Or.inr ⟨hgf, (hfresh g hg).resolve_left hgf⟩

theorem dup {fd0 : Fd} (hcall : k.call p = .dup fd0 fd f) :
    1 ≤ (k.file f).ref ∧
      Refs ((k.setFile f { k.file f with ref := (k.file f).ref + 1 }).finish p fd.val) := by
  obtain ⟨hslot0, hslot, hne⟩ : Shape (k.ofile p) (.dup fd0 fd f) := hcall ▸ h.shape p
  have hown : ∀ g, k.own p g = slotRefs (update (k.ofile p) fd none) g := own_of_call hcall
  have hf : 1 ≤ k.own p f := by
    rw [hown f]
    have hslot' : update (k.ofile p) fd none fd0 = some f := by
      rw [update_of_ne hne, hslot0]
    exact slotRefs_pos hslot'
  -- the descriptor is counted from now on
  have hcount : ∀ g, refsOf (k.ofile p) .user g = k.own p g + one (some f) g := by
    intro g
    have hupd := slotRefs_update (k.ofile p) fd none g
    rw [hslot, one_none] at hupd
    rw [hown g, hupd]
    rfl
  refine ⟨h.ref_pos hf, ?_⟩
  have hm := (moved_finish (k.setFile f { k.file f with ref := (k.file f).ref + 1 }) p
    fd.val).from (k := k) rfl rfl rfl
  refine h.moved_file hm rfl True.intro ?_ ?_ (fun q hq => h.not_fresh hf hq) (by simp)
  · have hc := hcount f
    rw [one_self] at hc
    simp only [Kernel.setFile, hc]
    omega
  · intro g hg
    exact (by rw [hcount g, one_ne hg, add_zero] : refsOf (k.ofile p) .user g = k.own p g).symm

theorem openFile {ip omode : Nat} (hcall : k.call p = .open ip omode) :
    Refs (k.openFile p ip omode) := by
  have hown : ∀ g, k.own p g = slotRefs (k.ofile p) g := own_of_call hcall
  simp only [Kernel.openFile]
  split
  · exact h.moved_same (moved_finish k p _) hown
  · next f file hfile =>
    obtain ⟨hfree, rfl⟩ := filealloc_eq hfile
    split
    · refine h.alloc hfree ((moved_goto _ p _).from rfl rfl rfl) rfl True.intro ?_
      intro g
      have hclose := @refsOf_close f (k.ofile p) (.done (-1)) True.intro g
      rw [hown g]
      exact hclose
    · next fd o ho =>
      obtain ⟨hnone, rfl⟩ := fdalloc_eq ho
      refine h.alloc hfree ((moved_files _ p _ _).from rfl rfl rfl) rfl
        (update_self _ _ _) ?_
      intro g
      have hupd := slotRefs_update (k.ofile p) fd (some f) g
      have hnone' : k.ofile p fd = none := hnone
      rw [hnone', one_none] at hupd
      rw [hown g]
      exact hupd

theorem openDone {ip omode : Nat} (hcall : k.call p = .opened fd f ip omode) :
    Refs (k.openDone p fd f ip omode) := by
  have hf : 1 ≤ k.own p f := by
    rw [own_of_call hcall]
    exact refsOf_fresh (hcall ▸ h.shape p) (by simp [Pc.fresh])
  have hpos := h.ref_pos hf
  have hsame : ∀ g, k.own p g = refsOf (k.ofile p) .user g :=
    (own_of_call hcall :)
  refine h.moved_file ((moved_finish _ p _).from rfl rfl rfl) rfl True.intro ?_
    (fun g _ => hsame g) (fun q hq => h.not_fresh hf hq) ?_
  · exact congrArg ((k.file f).ref + ·) (hsame f)
  · simp only
    omega

end Refs

/-- The files of a new pipe with the page `page`. -/
def readEnd (x : File) (page : Nat) : File :=
  { x with type := .pipe, readable := true, writable := false, pipe := page }

def writeEnd (x : File) (page : Nat) : File :=
  { x with type := .pipe, readable := false, writable := true, pipe := page }

theorem pipeInit_some {page : Nat} (hne : f0 ≠ f1)
    (h : k.pipeInit p f0 f1 (some page) = some k') :
    k.pipe page = none ∧ k' = { k with
      pipe := update k.pipe page (some ⟨true, true⟩)
      file := update (update k.file f0 (readEnd (k.file f0) page)) f1 (writeEnd (k.file f1) page)
      history := k.history ++ [PipeEvent.opened page]
      call := update k.call p (.piped f0 f1) } := by
  simp only [Kernel.pipeInit] at h
  split_ifs at h with hfree
  refine ⟨hfree, ?_⟩
  rw [update_of_ne hne.symm] at h
  exact (Option.some.inj h).symm

/-- `file` is the table of `k` except for `f0` and `f1`, and has the same counts. -/
structure TwoSet (k : Kernel) (f0 f1 : FileId) (file : FileId → File) : Prop where
  change : ∀ g, file g ≠ k.file g → g = f0 ∨ g = f1
  ref : ∀ g, (file g).ref = (k.file g).ref

theorem twoSet_ends (k : Kernel) (f0 f1 : FileId) (page : Nat) : TwoSet k f0 f1
    (update (update k.file f0 (readEnd (k.file f0) page)) f1 (writeEnd (k.file f1) page)) := by
  refine ⟨?_, ?_⟩
  · intro g hg
    by_contra hcon
    obtain ⟨h0, h1⟩ := not_or.mp hcon
    exact hg (by rw [update_of_ne h1, update_of_ne h0])
  · intro g
    by_cases h1 : g = f1
    · rw [h1, update_self]
      rfl
    · rw [update_of_ne h1]
      by_cases h0 : g = f0
      · rw [h0, update_self]
        rfl
      · rw [update_of_ne h0]

theorem refsOf_two (hv : v.uncounted = none) (hh : v.held = [f0, f1]) (g : FileId) :
    refsOf o v g = slotRefs o g + [f0, f1].count g := by
  rw [refsOf_counted hv, hh]

namespace Refs

variable (h : Refs k)
include h

theorem pipeInit {page : Option Nat}
    (hcall : k.call p = .pipe2 f0 f1) (hk : k.pipeInit p f0 f1 page = some k') : Refs k' := by
  have hown : ∀ {v : Pc}, v.uncounted = none → v.held = [f0, f1] → ∀ g,
      k.own p g = refsOf (k.ofile p) v g := by
    intro v hv hh g
    rw [own_of_call hcall, refsOf_two hv hh, refsOf_two rfl rfl]
  cases page with
  | none =>
    cases hk
    exact h.moved_same (moved_goto k p _) (hown rfl rfl)
  | some page =>
    have hne : f0 ≠ f1 := by
      have hs := h.shape p
      rw [hcall] at hs
      exact hs
    obtain ⟨-, rfl⟩ := pipeInit_some hne hk
    have hfresh : ∀ g, g = f0 ∨ g = f1 → g ∈ (k.call p).fresh := by
      intro g hg
      simpa [hcall, Pc.fresh] using hg
    have hset := twoSet_ends k f0 f1 page
    refine h.moved ⟨rfl, (update_eq_self p _).symm, rfl⟩ True.intro ?_ ?_ ?_
      (by simp [Pc.fresh])
    · intro g
      rw [hown (v := .piped f0 f1) rfl rfl g]
      simp only [hset.ref g]
    · intro g hg q hq
      have hp := hfresh g (hset.change g hg)
      exact h.not_fresh (refsOf_fresh (h.shape p) hp) hq
    · intro g hg
      simp only at hg ⊢
      rw [hset.ref g] at hg
      by_contra hcon
      have hsame : ∀ x, x = k.file g → x.type = .none := by
        rintro x rfl
        exact h.unused g hg
      have hp := hfresh g (hset.change g (fun heq => hcon (hsame _ heq)))
      have hone := (h.fresh p g hp).1
      omega

theorem pipeFds {rf wf : FileId} (hcall : k.call p = .piped rf wf) :
    Refs (k.pipeFds p rf wf) := by
  have hown : ∀ g, k.own p g = slotRefs (k.ofile p) g + one (some wf) g + one (some rf) g := by
    intro g
    rw [own_of_call hcall, refsOf_two rfl rfl, count_cons_one, count_cons_one, List.count_nil]
    omega
  have hclose : ∀ g, k.own p g = refsOf (k.ofile p) (.close rf (.close wf)) g := by
    intro g
    rw [own_of_call hcall, refsOf_two rfl rfl, refsOf_two rfl rfl]
  simp only [Kernel.pipeFds]
  split
  · exact h.moved_same (moved_goto k p _) hclose
  · next fd0 o ho =>
    obtain ⟨hnone, rfl⟩ := fdalloc_eq ho
    split
    · -- the first descriptor is withdrawn
      have hback : update (update (k.ofile p) fd0 (some rf)) fd0 none = k.ofile p := by
        rw [update_idem, ← hnone, update_eq_self]
      rw [hback]
      exact h.moved_same (moved_files k p _ _) hclose
    · next fd1 o' ho' =>
      obtain ⟨hnone', rfl⟩ := fdalloc_eq ho'
      have hm : Moved k ((k.setFiles p (update (update (k.ofile p) fd0 (some rf)) fd1
          (some wf))).finish p 0) p _ .user := ⟨rfl, rfl, rfl⟩
      refine h.moved_same hm ?_
      intro g
      have hupd0 := slotRefs_update (k.ofile p) fd0 (some rf) g
      have hupd1 := slotRefs_update (update (k.ofile p) fd0 (some rf)) fd1 (some wf) g
      rw [hnone, one_none] at hupd0
      rw [hnone', one_none] at hupd1
      rw [hown g, refsOf_counted rfl]
      simp only [Pc.held, List.count_nil]
      omega

theorem forkFile {np : Slot} (hcall : k.call p = .fork fd.val) (hne : np ≠ p)
    (hnp : k.call np = .user) (hempty : k.ofile np fd = none) : Refs (k.forkFile p np fd) := by
  have hgoto : Refs (k.goto p (.fork (fd + 1))) := by
    exact h.moved_same (moved_goto k p _) (own_of_call hcall :)
  simp only [Kernel.forkFile]
  split
  · exact hgoto
  · next f hf =>
    have hown : 1 ≤ k.own p f := by
      rw [own_of_call hcall]
      exact refsOf_slot rfl hf
    have hpos := h.ref_pos hown
    rw [filedup_eq hpos]
    have hnp' : (k.goto p (.fork (fd + 1))).call np = .user :=
      (update_of_ne hne _ _).trans hnp
    have hcount : ∀ g, refsOf (update (k.ofile np) fd (some f)) .user g =
        refsOf (k.ofile np) .user g + one (some f) g := by
      intro g
      have hupd := slotRefs_update (k.ofile np) fd (some f) g
      rw [hempty, one_none] at hupd
      exact hupd
    have hold : ∀ g, (k.goto p (.fork (fd + 1))).own np g = refsOf (k.ofile np) .user g :=
      own_of_call hnp'
    refine hgoto.moved_file (p := np) (f := f) (o := update (k.ofile np) fd (some f))
      (v := .user) ⟨rfl, rfl, ?_⟩ rfl True.intro ?_ ?_ ?_ (by simp)
    · rw [← hnp', update_eq_self]
      rfl
    · have hc := hcount f
      rw [one_self] at hc
      rw [hold f, hc]
      simp only [Kernel.goto]
      omega
    · intro g hg
      rw [hold g, hcount g, one_ne hg, add_zero]
    · intro q _
      rcases eq_or_ne q p with rfl | hqp
      · simp [Kernel.goto, Pc.fresh]
      · have hcallq : (k.goto p (.fork (fd + 1))).call q = k.call q :=
          update_of_ne hqp _ _
        rw [hcallq]
        exact h.not_fresh hown hqp

theorem pipe (hcall : k.call p = .pipe) (hf : (k.file f).ref = 0) :
    Refs ((k.setFile f { k.file f with ref := 1 }).goto p (.pipe1 f)) := by
  refine h.alloc hf ((moved_goto _ p _).from rfl rfl rfl) rfl True.intro ?_
  intro g
  rw [own_of_call hcall, refsOf_counted rfl, refsOf_counted rfl, Pc.held, count_cons_one,
    ← add_assoc]
  rfl

theorem pipe1 {f0 : FileId} (hcall : k.call p = .pipe1 f0)
    (hf : (k.file f).ref = 0) :
    Refs ((k.setFile f { k.file f with ref := 1 }).goto p (.pipe2 f0 f)) := by
  have hfresh : f0 ∈ (k.call p).fresh := by simp [hcall, Pc.fresh]
  have hne : f0 ≠ f := by
    rintro rfl
    exact h.free_not_fresh hf p hfresh
  refine h.alloc hf ((moved_goto _ p _).from rfl rfl rfl) rfl hne ?_ ?_
  · intro g
    rw [own_of_call hcall, refsOf_counted rfl, refsOf_counted rfl]
    simp only [Pc.held, count_cons_one, List.count_nil]
    simp only [Kernel.setFile]
    omega
  · intro g hg
    have hcases : g = f0 ∨ g = f := by simpa [Pc.fresh] using hg
    rcases hcases with rfl | rfl
    · exact Or.inr hfresh
    · exact Or.inl rfl

theorem exitFile (hcall : k.call p = .exit fd.val) : Refs (k.exitFile p fd) := by
  have hown : ∀ g, k.own p g = slotRefs (k.ofile p) g := own_of_call hcall
  simp only [Kernel.exitFile]
  split
  · exact h.moved_same (moved_goto k p _) hown
  · next f hf =>
    exact h.moved_same (moved_goto k p _) hown hf

end Refs

/-- The new process of a `fork` in progress is nobody's, and is filled slot by slot. -/
def ForkReady (k : Kernel) (p : Slot) : Prop :=
  ∀ np fd, (k.table.proc p).thread = .forking np → k.call p = .fork fd.val →
    np ≠ p ∧ k.call np = .user ∧ k.ofile np fd = none

theorem Refs.next {page : Option Nat} (h : Refs k) (hfork : ForkReady k p)
    (hk : k.next p page = some k') : Refs k' := by
  simp only [Kernel.next] at hk
  split at hk
  · next hcall =>
    split at hk
    · cases hk
      exact h.moved_same (moved_goto k p _) (own_of_call hcall :)
    · cases hk
  · next fd0 fd f hcall =>
    obtain ⟨hpos, hdup⟩ := h.dup hcall
    rw [filedup_eq hpos] at hk
    cases hk
    exact hdup
  · next f a hcall =>
    cases hk
    exact (h.fileclose hcall).2
  · next ff a hcall =>
    cases hk
    exact h.closeLast hcall
  · next ip omode hcall =>
    cases hk
    exact h.openFile hcall
  · next fd f ip omode hcall =>
    cases hk
    exact h.openDone hcall
  · next hcall =>
    split at hk
    · cases hk
      exact h.moved_same (moved_finish k p _) (own_of_call hcall :)
    · next f file hfile =>
      obtain ⟨hfree, rfl⟩ := filealloc_eq hfile
      cases hk
      exact h.pipe hcall hfree
  · next f0 hcall =>
    split at hk
    · cases hk
      exact h.moved_same (moved_goto k p _) (own_of_call hcall :)
    · next f file hfile =>
      obtain ⟨hfree, rfl⟩ := filealloc_eq hfile
      cases hk
      exact h.pipe1 hcall hfree
  · next f0 f1 hcall => exact h.pipeInit hcall hk
  · next rf wf hcall =>
    cases hk
    exact h.pipeFds hcall
  · next i hcall =>
    split at hk
    · next np hth =>
      split_ifs at hk with hi
      cases hk
      obtain ⟨hne, huser, hempty⟩ := hfork np ⟨i, hi⟩ hth hcall
      exact h.forkFile hcall hne huser hempty
    · cases hk
  · next fd hcall =>
    split_ifs at hk with hfd
    cases hk
    exact @Refs.exitFile k p ⟨fd, hfd⟩ h hcall

end Xv6.Ftable
