import Xv6.Syscall
import Xv6.FileRefs

/-!
# References to inodes

Between calls, every entry of the inode cache is referenced once for each open file that is an
inode and once for each process whose current directory it is. The call specifications of the file
system say how references move inside a call; here they are matched with the files and the current
directories that the call leaves.
-/

namespace Xv6.Syscall

open Function
open Prog
open Fs
open Ptable (Slot)
open Ftable (FdType FileId Fd filealloc filedup filecloseRef argfd fdalloc one)

/-! ### Holders -/

/-- The inode that an open file refers to. -/
def inodeOf (f : Ftable.File) : Option Nat :=
  if 0 < f.ref ∧ f.type = .inode then some f.ip else none

/-- The open files and the processes that entry `j` of the inode cache is referenced by. -/
def holders (file : FileId → Ftable.File) (cwd : Slot → Option Nat) (j : Nat) : Nat :=
  (Finset.univ.filter (fun f => inodeOf (file f) = some j)).card +
    (Finset.univ.filter (fun p => cwd p = some j)).card

def Kernel.holders (k : Kernel) : Nat → Nat := Syscall.holders k.file k.cwd

/-- `fileclose` leaves no type behind. -/
def Kernel.Closed (k : Kernel) : Prop := ∀ f, (k.file f).ref = 0 → (k.file f).type = .none

section holders

variable {file : FileId → Ftable.File} {cwd : Slot → Option Nat} {f : FileId} {p : Slot}
  {x : Ftable.File} {c : Option Nat} {j l : Nat} {R R' : Nat → Nat}

theorem holders_eq (file : FileId → Ftable.File) (cwd : Slot → Option Nat) (j : Nat) :
    holders file cwd j = ∑ f, one (inodeOf (file f)) j + ∑ p, one (cwd p) j := by
  rw [holders, Finset.card_filter, Finset.card_filter]
  rfl

theorem holders_file (file : FileId → Ftable.File) (cwd : Slot → Option Nat) (f : FileId)
    (x : Ftable.File) (j : Nat) : holders (update file f x) cwd j + one (inodeOf (file f)) j =
      holders file cwd j + one (inodeOf x) j := by
  have hsum := sum_update (fun g : Ftable.File => one (inodeOf g) j) file f x
  rw [holders_eq, holders_eq]
  omega

theorem holders_cwd (file : FileId → Ftable.File) (cwd : Slot → Option Nat) (p : Slot)
    (c : Option Nat) (j : Nat) :
    holders file (update cwd p c) j + one (cwd p) j = holders file cwd j + one c j := by
  have hsum := sum_update (fun c : Option Nat => one c j) cwd p c
  rw [holders_eq, holders_eq]
  omega

theorem holders_file_same (h : inodeOf x = inodeOf (file f)) :
    holders (update file f x) cwd = holders file cwd := by
  funext j
  have hj := holders_file file cwd f x j
  rw [h] at hj
  omega

theorem eq_inc (h : ∀ j, R' j = R j + one (some l) j) : R' = inc R l := by
  funext j
  by_cases hj : j = l
  · rw [h j, hj, inc_self, one, if_pos rfl]
  · rw [h j, inc_of_ne hj, one, if_neg (by simpa using Ne.symm hj), Nat.add_zero]

theorem eq_dec (h : ∀ j, R' j + one (some l) j = R j) : R' = dec R l := by
  have hinc : R = inc R' l := eq_inc (fun j => (h j).symm)
  rw [hinc, dec_inc]

theorem holders_open (h : inodeOf (file f) = none) (hx : inodeOf x = some l) :
    holders (update file f x) cwd = inc (holders file cwd) l := by
  apply eq_inc
  intro j
  have hj := holders_file file cwd f x j
  rwa [h, hx, Ftable.one_none, Nat.add_zero] at hj

theorem holders_close (h : inodeOf (file f) = some l) (hx : inodeOf x = none) :
    holders (update file f x) cwd = dec (holders file cwd) l := by
  apply eq_dec
  intro j
  have hj := holders_file file cwd f x j
  rwa [h, hx, Ftable.one_none, Nat.add_zero] at hj

theorem holders_fork (h : cwd p = none) :
    holders file (update cwd p (some l)) = inc (holders file cwd) l := by
  apply eq_inc
  intro j
  have hj := holders_cwd file cwd p (some l) j
  rwa [h, Ftable.one_none, Nat.add_zero] at hj

theorem holders_exit (h : cwd p = some l) :
    holders file (update cwd p none) = dec (holders file cwd) l := by
  apply eq_dec
  intro j
  have hj := holders_cwd file cwd p none j
  rwa [h, Ftable.one_none, Nat.add_zero] at hj

theorem holders_chdir {m : Nat} (h : cwd p = some l) :
    holders file (update cwd p (some m)) = dec (inc (holders file cwd) m) l := by
  apply eq_dec
  intro j
  have hj := holders_cwd file cwd p (some m) j
  have hinc : inc (holders file cwd) m j = holders file cwd j + one (some m) j := by
    by_cases hjm : j = m
    · rw [hjm, inc_self, one, if_pos rfl]
    · rw [inc_of_ne hjm, one, if_neg (by simpa using Ne.symm hjm), Nat.add_zero]
  rw [h] at hj
  omega

theorem holders_pos_cwd (h : cwd p = some l) : 0 < holders file cwd l := by
  have hmem : p ∈ Finset.univ.filter (fun p => cwd p = some l) := by simp [h]
  have hpos := Finset.card_pos.mpr ⟨p, hmem⟩
  rw [holders]
  omega

theorem holders_pos_file (h : inodeOf (file f) = some l) : 0 < holders file cwd l := by
  have hmem : f ∈ Finset.univ.filter (fun f => inodeOf (file f) = some l) := by simp [h]
  have hpos := Finset.card_pos.mpr ⟨f, hmem⟩
  rw [holders]
  omega

end holders

/-! ### Inside a call -/

variable {sb : Superblock} {s : FsState} {F : Nat → File} {B : Nat → Nat} {a : Act} {k k' : Kernel}
  {ip : Option Nat} {p np : Slot} {f : FileId} {cwd : Nat} {T : Prop} {E : Fault → Prop}

/-- The references when the call itself has one to `ip`. -/
def withCall (R : Nat → Nat) : Option Nat → Nat → Nat
  | none => R
  | some ip => inc R ip

/-- A call that started in `s` has reached `k`, with one reference in the inode cache for each
holder, and one of its own to the inode `ip` that it has locked. -/
def Serves (sb : Superblock) (s : FsState) (F : Nat → File) (B : Nat → Nat) (a : Act)
    (ip : Option Nat) (k : Kernel) : Prop :=
  k.Closed ∧ ∃ F', Ran sb s F B a k.fs F' (withCall k.holders ip) ip.toFinset

@[simp] theorem wp_onFs {α : Type} (q : FsM α) {Q : α → Kernel → Prop} :
    wp (onFs q) k Q E ↔ wp q k.fs (fun r s' => Q r (k.setFs s')) E := wp_zoom

variable {x : Ftable.File} {l : Nat}

theorem Kernel.Closed.setFile (h : k.Closed) (hx : x.ref = 0 → x.type = .none) :
    (k.setFile (update k.file f x)).Closed := by
  intro g hg
  change (update k.file f x g).ref = 0 at hg
  change (update k.file f x g).type = .none
  by_cases hgf : g = f
  · rw [hgf, update_self] at hg ⊢
    exact hx hg
  · rw [update_of_ne hgf] at hg ⊢
    exact h g hg

theorem Serves.setFile (h : Serves sb s F B a ip k) (hin : inodeOf x = inodeOf (k.file f))
    (hx : x.ref = 0 → x.type = .none) : Serves sb s F B a ip (k.setFile (update k.file f x)) := by
  obtain ⟨hclosed, F', hran⟩ := h
  refine ⟨hclosed.setFile hx, F', ?_⟩
  have hsame : (k.setFile (update k.file f x)).holders = k.holders := holders_file_same hin
  rw [hsame]
  exact hran

theorem Serves.setFiles {o : Fd → Option FileId} (h : Serves sb s F B a ip k) :
    Serves sb s F B a ip (k.setFiles p o) := h

theorem filecloseRef_cases (f : FileId) (file : FileId → Ftable.File) :
    (file f).ref = 0 ∧ filecloseRef f file = none ∨
    1 < (file f).ref ∧ filecloseRef f file =
      some (none, update file f { file f with ref := (file f).ref - 1 }) ∨
    (file f).ref = 1 ∧ filecloseRef f file = some (some { file f with ref := 0 },
      update file f { file f with ref := 0, type := .none }) := by
  rcases Nat.lt_trichotomy (file f).ref 1 with h | h | h
  · exact Or.inl ⟨by omega, if_pos h⟩
  · refine Or.inr (Or.inr ⟨h, ?_⟩)
    simp [filecloseRef, h]
  · refine Or.inr (Or.inl ⟨h, ?_⟩)
    rw [filecloseRef, if_neg (by omega)]
    exact if_pos (by omega)

theorem inodeOf_ref {n : Nat} (hx : 0 < x.ref) (hn : 0 < n) :
    inodeOf { x with ref := n } = inodeOf x := by
  simp [inodeOf, hx, hn]

theorem inodeOf_none (h : x.type ≠ .inode) : inodeOf x = none :=
  if_neg (fun hc => h hc.2)

theorem inodeOf_some (hr : 0 < x.ref) (ht : x.type = .inode) :
    inodeOf x = some x.ip := if_pos ⟨hr, ht⟩

/-- What changes in the kernel besides the file system and the file table. -/
def SameProcs (k k' : Kernel) : Prop := k'.cwd = k.cwd ∧ k'.initproc = k.initproc

theorem SameProcs.refl (k : Kernel) : SameProcs k k := ⟨rfl, rfl⟩

theorem SameProcs.trans {k'' : Kernel} (h : SameProcs k k') (h' : SameProcs k' k'') :
    SameProcs k k'' := ⟨h'.1.trans h.1, h'.2.trans h.2⟩

theorem fileclose_spec (h : Serves sb s F B a none k) :
    wp (fileclose f) k (fun _ k' => Serves sb s F B a none k' ∧ SameProcs k k') (Halts T) := by
  rw [fileclose, wp_bind, wp_get]
  rcases filecloseRef_cases f k.file with ⟨-, heq⟩ | ⟨hr, heq⟩ | ⟨hr, heq⟩
  · rw [heq]
    exact halts_of_panic (by decide)
  · rw [heq]
    refine ⟨h.setFile (inodeOf_ref (by omega) (by omega)) ?_, rfl, rfl⟩
    intro h0
    change (k.file f).ref - 1 = 0 at h0
    omega
  · rw [heq]
    have hnone : inodeOf { k.file f with ref := 0, type := .none } = none :=
      inodeOf_none (by simp)
    simp only [wp_bind, wp_modify]
    by_cases htype : (k.file f).type = .inode
    · rw [if_pos htype, wp_onFs]
      have hin := inodeOf_some (by omega) htype
      obtain ⟨hclosed, F', hran⟩ := h
      refine wp_mono (hran.iput (holders_pos_file hin) (Finset.notMem_empty _)) ?_
      intro _ s' hran'
      rw [withCall, Kernel.holders, ← holders_close hin hnone] at hran'
      exact ⟨⟨hclosed.setFile (fun _ => rfl), _, hran'⟩, rfl, rfl⟩
    · rw [if_neg htype, wp_pure]
      exact ⟨h.setFile (hnone.trans (inodeOf_none htype).symm) (fun _ => rfl), rfl, rfl⟩

/-! ### The calls on files -/

theorem Serves.filedup {file : FileId → Ftable.File} (h : Serves sb s F B a ip k)
    (heq : filedup f k.file = some file) : Serves sb s F B a ip (k.setFile file) := by
  rw [Ftable.filedup] at heq
  split_ifs at heq with hr
  cases heq
  refine h.setFile (inodeOf_ref (by omega) (Nat.succ_pos _)) ?_
  intro h0
  exact absurd h0 (Nat.succ_ne_zero _)

theorem Serves.filealloc {file : FileId → Ftable.File} (h : Serves sb s F B a ip k)
    (heq : filealloc k.file = some (f, file)) :
    Serves sb s F B a ip (k.setFile file) ∧ (file f).type ≠ .inode ∧ (file f).ref = 1 := by
  obtain ⟨hr, rfl⟩ := Ftable.filealloc_eq heq
  have htype := h.1 f hr
  have hplain : ({ k.file f with ref := 1 } : Ftable.File).type ≠ .inode := by
    change (k.file f).type ≠ .inode
    rw [htype]
    decide
  refine ⟨h.setFile ?_ (fun h0 => absurd h0 Nat.one_ne_zero), ?_, ?_⟩
  · rw [inodeOf_none hplain, inodeOf_none (by rw [htype]; decide)]
  · rw [update_self]
    exact hplain
  · rw [update_self]

theorem sysDup_spec {fd : Int} (h : Serves sb s F B a none k) :
    wp (sysDup p fd) k (fun _ k' => Serves sb s F B a none k' ∧ SameProcs k k') (Halts T) := by
  rw [sysDup, wp_bind, wp_get]
  split
  · exact ⟨h, rfl, rfl⟩
  · split
    · exact ⟨h, rfl, rfl⟩
    · rw [wp_bind, wp_modify]
      split
      · exact halts_of_panic (by decide)
      · next file heq => exact ⟨(h.filedup heq).setFiles, rfl, rfl⟩

theorem sysClose_spec {fd : Int} (h : Serves sb s F B a none k) :
    wp (sysClose p fd) k (fun _ k' => Serves sb s F B a none k' ∧ SameProcs k k') (Halts T) := by
  rw [sysClose, wp_bind, wp_get]
  split
  · exact ⟨h, rfl, rfl⟩
  · next fd f _ =>
    rw [wp_bind, wp_modify, wp_bind]
    exact fileclose_spec (f := f) (h.setFiles (p := p) (o := update (k.ofile p) fd none))

theorem inodeOf_piped (x : Ftable.File) (page : Nat) (w : Bool) : inodeOf (piped x page w) = none :=
  inodeOf_none (by simp [piped])

theorem pipealloc_spec {page : Option Nat} (h : Serves sb s F B a none k) :
    wp (pipealloc page) k (fun _ k' => Serves sb s F B a none k' ∧ SameProcs k k') (Halts T) := by
  rw [pipealloc, wp_bind, wp_get]
  split
  · exact ⟨h, rfl, rfl⟩
  next f0 file heq =>
  obtain ⟨h₁, ht0, hr0⟩ := h.filealloc heq
  rw [wp_bind, wp_modify]
  split
  · rw [wp_bind]
    exact fileclose_spec (f := f0) h₁
  next f1 file' heq' =>
  obtain ⟨h₂, ht1, hr1⟩ := Serves.filealloc h₁ heq'
  obtain ⟨hfree, hfile'⟩ := Ftable.filealloc_eq heq'
  have hne : f0 ≠ f1 := by
    rintro rfl
    omega
  have hsame : file' f0 = file f0 := by
    rw [hfile']
    exact update_of_ne hne _ _
  rw [wp_bind, wp_modify]
  cases page with
  | none =>
    simp only [wp_bind]
    refine wp_mono (fileclose_spec (f := f0) h₂) ?_
    rintro _ k₃ ⟨h₃, hp₃⟩
    refine wp_mono (fileclose_spec (f := f1) h₃) ?_
    rintro _ k₄ ⟨h₄, hp₄⟩
    exact ⟨h₄, hp₃.trans hp₄⟩
  | some page =>
    simp only [wp_bind, wp_modify, wp_pure]
    have h₃ : Serves sb s F B a none ((k.setFile file').setFile
        (update file' f0 (piped (file' f0) page false))) := by
      refine h₂.setFile ?_ ?_
      · rw [inodeOf_piped]
        exact (inodeOf_none (by rw [← hsame] at ht0; exact ht0)).symm
      · intro h0
        rw [← hsame] at hr0
        exact absurd (h0.symm.trans hr0) Nat.zero_ne_one
    have hsame' : update file' f0 (piped (file' f0) page false) f1 = file' f1 :=
      update_of_ne hne.symm _ _
    refine ⟨h₃.setFile ?_ ?_, rfl, rfl⟩
    · rw [inodeOf_piped]
      refine (inodeOf_none ?_).symm
      change (update file' f0 (piped (file' f0) page false) f1).type ≠ .inode
      rwa [hsame']
    · intro h0
      change (update file' f0 (piped (file' f0) page false) f1).ref = 0 at h0
      rw [hsame'] at h0
      omega

theorem sysPipe_spec {page : Option Nat} (h : Serves sb s F B a none k) :
    wp (sysPipe p page) k (fun _ k' => Serves sb s F B a none k' ∧ SameProcs k k') (Halts T) := by
  have hclose : ∀ {k₁ : Kernel} (rf wf : FileId), Serves sb s F B a none k₁ → SameProcs k k₁ →
      wp (do
        fileclose rf
        fileclose wf
        pure (-1)) k₁ (fun (_ : Int) k' => Serves sb s F B a none k' ∧ SameProcs k k') (Halts T) := by
    intro k₁ rf wf h₁ hp₁
    simp only [wp_bind]
    refine wp_mono (fileclose_spec (f := rf) h₁) ?_
    rintro _ k₂ ⟨h₂, hp₂⟩
    refine wp_mono (fileclose_spec (f := wf) h₂) ?_
    rintro _ k₃ ⟨h₃, hp₃⟩
    exact ⟨h₃, hp₁.trans (hp₂.trans hp₃)⟩
  rw [sysPipe]
  refine wp_seq (pipealloc_spec h) ?_
  rintro r k₁ ⟨h₁, hp₁⟩
  cases r with
  | none => exact ⟨h₁, hp₁⟩
  | some files =>
    obtain ⟨rf, wf⟩ := files
    simp only [wp_bind, wp_get]
    split
    · exact hclose rf wf h₁ hp₁
    · rw [wp_bind, wp_modify]
      split
      · rw [wp_bind, wp_modify]
        exact hclose rf wf h₁ hp₁
      · rw [wp_bind, wp_modify]
        exact ⟨h₁, hp₁⟩

theorem fileclose_plain (h : Serves sb s F B a ip k) (hr : (k.file f).ref = 1)
    (ht : (k.file f).type ≠ .inode) :
    wp (fileclose f) k (fun _ k' => Serves sb s F B a ip k' ∧ SameProcs k k') E := by
  rw [fileclose, wp_bind, wp_get]
  rcases filecloseRef_cases f k.file with ⟨hr', -⟩ | ⟨hr', -⟩ | ⟨-, heq⟩
  · omega
  · omega
  · rw [heq]
    simp only [wp_bind, wp_modify, if_neg ht, wp_pure]
    refine ⟨h.setFile ?_ (fun _ => rfl), rfl, rfl⟩
    rw [inodeOf_none ht]
    exact inodeOf_none (by simp)

theorem Serves.iunlockput (h : Serves sb s F B a (some l) k) :
    wp (onFs (iunlockput l)) k (fun _ k' => Serves sb s F B a none k' ∧ SameProcs k k') E := by
  obtain ⟨hclosed, F₁, hran⟩ := h
  rw [wp_onFs]
  refine wp_mono (hran.iunlockput (Finset.mem_singleton_self l)) ?_
  intro _ s' h'
  rw [withCall, dec_inc, Option.toFinset_some, Finset.erase_singleton] at h'
  exact ⟨⟨hclosed, _, h'⟩, rfl, rfl⟩

theorem Serves.openDone (omode : Nat) (h : Serves sb s F B a (some l) k)
    (hr : (k.file f).ref = 1) (ht : (k.file f).type ≠ .inode) :
    wp (do
      onFs (iunlock l)
      modify (fun k => k.setFile (update k.file f (opened (k.file f) l omode)))) k
      (fun _ k' => Serves sb s F B a none k' ∧ SameProcs k k') E := by
  obtain ⟨hclosed, F₁, hran⟩ := h
  have href : (opened (k.file f) l omode).ref = 1 := hr
  rw [wp_bind, wp_onFs]
  refine wp_mono (hran.iunlock (Finset.mem_singleton_self l)) ?_
  intro _ s' h'
  have hin : inodeOf (opened (k.file f) l omode) = some l := inodeOf_some (by omega) rfl
  rw [withCall, Kernel.holders, ← holders_open (inodeOf_none ht) hin, Option.toFinset_some,
    Finset.erase_singleton] at h'
  exact ⟨⟨hclosed.setFile (fun h0 => absurd (h0.symm.trans href) Nat.zero_ne_one), F₁, h'⟩, rfl,
    rfl⟩

theorem sysOpen_spec {path : List UInt8} {omode : Nat} (hclosed : k.Closed)
    (h : Ready sb k.fs F k.holders) (hc : 0 < k.holders cwd) :
    wp (sysOpen p cwd path omode) k
      (fun _ k' => ∃ a, Adds (openEntry F path omode (k.fs.icache cwd).inum) a ∧
        Serves sb k.fs F k.holders a none k' ∧ SameProcs k k')
      (Halts (Dangling F (k.fs.icache cwd).inum)) := by
  rw [sysOpen, wp_bind, wp_onFs]
  refine wp_mono (h.openInode hc omode) ?_
  intro r s₁ hr
  cases r with
  | none => exact ⟨.none, Adds.none, ⟨hclosed, F, hr⟩, rfl, rfl⟩
  | some l =>
    obtain ⟨a, F₁, hadds, hran⟩ := hr
    have h₁ : Serves sb k.fs F k.holders a (some l) (k.setFs s₁) := ⟨hclosed, F₁, hran⟩
    rw [wp_bind, wp_get]
    split
    · refine wp_seq h₁.iunlockput ?_
      exact fun _ k₂ h₂ => ⟨a, hadds, h₂⟩
    next f file heq =>
    obtain ⟨h₂, htype, href⟩ := h₁.filealloc heq
    rw [wp_bind, wp_modify]
    split
    · refine wp_seq (fileclose_plain h₂ href htype) ?_
      rintro _ k₃ ⟨h₃, hp₃⟩
      refine wp_seq h₃.iunlockput ?_
      exact fun _ k₄ h₄ => ⟨a, hadds, h₄.1, hp₃.trans h₄.2⟩
    next fd o _ =>
    have h₃ := h₂.setFiles (p := p) (o := o)
    have hdone := h₃.openDone omode href htype
      (E := Halts (Dangling F (k.fs.icache cwd).inum))
    simp only [wp_bind, wp_modify, wp_pure] at hdone ⊢
    exact wp_mono hdone (fun _ _ hq => ⟨a, hadds, hq⟩)

/-! ### The calls on processes -/

theorem forkFiles_spec {fds : List Fd} (h : Serves sb s F B a none k) :
    wp (forkFiles p np fds) k (fun _ k' => Serves sb s F B a none k' ∧ SameProcs k k')
      (Halts T) := by
  induction fds generalizing k with
  | nil => exact ⟨h, rfl, rfl⟩
  | cons fd fds ih =>
    rw [forkFiles, wp_bind, wp_get]
    split
    · exact ih h
    next f _ =>
    split
    · exact halts_of_panic (by decide)
    next file heq =>
    rw [wp_bind, wp_modify]
    refine wp_mono (ih ((h.filedup heq).setFiles (p := np))) ?_
    exact fun _ k' hk' => hk'

theorem ran_idup {s₁ : FsState} {F₁ : Nat → File} {R : Nat → Nat} {L : Finset Nat}
    (h : Ran sb s F B a s₁ F₁ R L) (hl : 0 < R l) :
    wp (idup l) s₁ (fun r s' => r = l ∧ Ran sb s F B a s' F₁ (inc R l) L) E := by
  refine wp_mono (h.run.toAbs.idup hl) ?_
  rintro r s₂ ⟨hr, h₂, hk₂⟩
  have hold : ∀ j, 0 < inc R l j → 0 < R j := by
    intro j hj
    by_cases hjl : j = l
    · rwa [hjl]
    · rwa [inc_of_ne hjl] at hj
  refine ⟨hr, ⟨h₂, fun j hj => ?_⟩, h.outcome, fun j hb hj => ?_⟩
  · rw [hk₂ j (hold j hj)]
    exact h.run.live j (hold j hj)
  · rw [hk₂ j (hold j hj)]
    exact h.keep j hb (hold j hj)

/-- The current directories after a call are old ones or satisfy `P`. -/
def CwdsFrom (k k' : Kernel) (P : Nat → Prop) : Prop :=
  ∀ q l, k'.cwd q = some l → (∃ q', k.cwd q' = some l) ∨ P l

theorem CwdsFrom.mono {P P' : Nat → Prop} (h : CwdsFrom k k' P) (hP : ∀ l, P l → P' l) :
    CwdsFrom k k' P' :=
  fun q l hl => (h q l hl).imp_right (hP l)

theorem SameProcs.cwdsFrom {P : Nat → Prop} (h : SameProcs k k') : CwdsFrom k k' P := by
  intro q l hl
  rw [h.1] at hl
  exact Or.inl ⟨q, hl⟩

theorem fork_spec {child : Option (Slot × Int)} (h : Serves sb s F B a none k)
    (hc : k.cwd p = some cwd) (hnp : ∀ x ∈ child, k.cwd x.1 = none) :
    wp (fork p cwd child) k (fun _ k' => Serves sb s F B a none k' ∧
        CwdsFrom k k' (fun _ => False))
      (Halts T) := by
  cases child with
  | none => exact ⟨h, (SameProcs.refl k).cwdsFrom⟩
  | some child =>
    obtain ⟨np, pid⟩ := child
    have hnp : k.cwd np = none := hnp (np, pid) rfl
    rw [fork]
    refine wp_seq (forkFiles_spec h) ?_
    rintro _ k₁ ⟨⟨hclosed, F₁, hran⟩, hcwd, -⟩
    rw [wp_bind, wp_onFs]
    refine wp_mono (ran_idup (l := cwd) hran (holders_pos_cwd (p := p) (by rw [hcwd, hc]))) ?_
    rintro c s₂ ⟨rfl, h₂⟩
    rw [withCall, Kernel.holders, ← holders_fork (p := np) (by rw [hcwd, hnp])] at h₂
    rw [wp_bind, wp_modify, wp_pure]
    refine ⟨⟨hclosed, F₁, h₂⟩, ?_⟩
    intro q l hl
    change update k₁.cwd np (some c) q = some l at hl
    by_cases hq : q = np
    · rw [hq, update_self] at hl
      exact Or.inl ⟨p, by rw [hc, hl]⟩
    · rw [update_of_ne hq, hcwd] at hl
      exact Or.inl ⟨q, hl⟩

theorem exitFiles_spec {fds : List Fd} (h : Serves sb s F B a none k) :
    wp (exitFiles p fds) k (fun _ k' => Serves sb s F B a none k' ∧ SameProcs k k') (Halts T) := by
  induction fds generalizing k with
  | nil => exact ⟨h, rfl, rfl⟩
  | cons fd fds ih =>
    rw [exitFiles, wp_bind, wp_get]
    split
    · exact ih h
    next f _ =>
    refine wp_seq (fileclose_spec h) ?_
    rintro _ k₁ ⟨h₁, hp₁⟩
    rw [wp_bind, wp_modify]
    refine wp_mono (ih (h₁.setFiles (p := p))) ?_
    exact fun _ k₂ h₂ => ⟨h₂.1, hp₁.trans h₂.2⟩

theorem exit_spec (h : Serves sb s F B a none k) (hc : k.cwd p = some cwd) :
    wp (exit p cwd) k (fun _ k' => Serves sb s F B a none k' ∧ CwdsFrom k k' (fun _ => False))
      (Halts T) := by
  rw [exit, wp_bind, wp_get]
  split_ifs
  · exact halts_of_panic (by decide)
  refine wp_seq (exitFiles_spec h) ?_
  rintro _ k₁ ⟨⟨hclosed, F₁, hran⟩, hcwd, -⟩
  have hc₁ : k₁.cwd p = some cwd := by rw [hcwd, hc]
  rw [wp_bind, wp_onFs]
  refine wp_mono (hran.iput (holders_pos_cwd hc₁) (Finset.notMem_empty cwd)) ?_
  intro _ s₂ h₂
  rw [withCall, Kernel.holders, ← holders_exit hc₁] at h₂
  rw [wp_bind, wp_modify, wp_pure]
  refine ⟨⟨hclosed, _, h₂⟩, ?_⟩
  intro q l hl
  change update k₁.cwd p none q = some l at hl
  by_cases hq : q = p
  · rw [hq, update_self] at hl
    cases hl
  · rw [update_of_ne hq, hcwd] at hl
    exact Or.inl ⟨q, hl⟩

theorem sysChdir_spec {path : List UInt8} (hclosed : k.Closed) (h : Ready sb k.fs F k.holders)
    (hc : k.cwd p = some cwd) :
    wp (sysChdir p cwd path) k (fun _ k' => Serves sb k.fs F k.holders .none none k' ∧
        CwdsFrom k k' (fun l => ∃ i name, walkPath F false path (k.fs.icache cwd).inum =
          some (i, name) ∧ (F i).type = T_DIR ∧ (k'.fs.icache l).inum = i))
      (Halts (Dangling F (k.fs.icache cwd).inum)) := by
  rw [sysChdir, wp_bind, wp_onFs]
  refine wp_mono (h.sysChdir (holders_pos_cwd hc)) ?_
  intro r s₁ hr
  cases r with
  | none => exact ⟨⟨hclosed, F, hr⟩, fun q l hl => Or.inl ⟨q, hl⟩⟩
  | some m =>
    obtain ⟨i, name, F₁, hw, hdir, hi, hran⟩ := hr
    rw [Kernel.holders, ← holders_chdir hc] at hran
    rw [wp_bind, wp_modify, wp_pure]
    refine ⟨⟨hclosed, F₁, hran⟩, ?_⟩
    intro q l hl
    change update k.cwd p (some m) q = some l at hl
    by_cases hq : q = p
    · rw [hq, update_self, Option.some.injEq] at hl
      rw [← hl]
      exact Or.inr ⟨i, name, hw, hdir, hi⟩
    · rw [update_of_ne hq] at hl
      exact Or.inl ⟨q, hl⟩

end Xv6.Syscall
