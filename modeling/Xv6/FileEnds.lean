import Xv6.FileRefs

/-!
# The ends of pipes

Every end of a pipe that is open belongs to one file, or to one `fileclose` that has dropped the
last reference to that file and has not called `pipeclose` yet. `pipeclose` is therefore called
once for each end, and the page is freed with the second one.
-/

namespace Xv6.Ftable

open Function
open Ptable (Slot Table Event Thread)

variable {k k' : Kernel} {p q : Slot} {f g : FileId} {fd : Fd} {o : Fd → Option FileId} {v : Pc}
  {page : Nat} {w : Bool} {a : After}

def File.pipeEnd (x : File) : Option (Nat × Bool) :=
  if x.type = .pipe then some (x.pipe, x.writable) else none

/-- The end that `fileclose` is about to close. -/
def Pc.pipeEnd : Pc → Option (Nat × Bool)
  | .closed ff _ => ff.pipeEnd
  | _ => none

/-- The number of files and of calls that an end belongs to. -/
def Kernel.holders (k : Kernel) (e : Nat × Bool) : Nat :=
  ∑ f, one (k.file f).pipeEnd e + ∑ p, one (k.call p).pipeEnd e

def Kernel.isOpen (k : Kernel) (page : Nat) (w : Bool) : Bool :=
  match k.pipe page with
  | some e => e.get w
  | none => false

structure Pipes (k : Kernel) : Prop where
  holders : ∀ page w, k.holders (page, w) = (k.isOpen page w).toNat
  live : ∀ page e, k.pipe page = some e → e.readopen = true ∨ e.writeopen = true
  closed : ∀ page w, k.history.count (.opened page) =
    k.history.count (.closed page w) + (k.isOpen page w).toNat
  freed : ∀ page, k.history.count (.opened page) =
    k.history.count (.freed page) + (k.pipe page).isSome.toNat

theorem Pipes.of_holders (h : Pipes k) (hends : ∀ e, k'.holders e = k.holders e)
    (hpipe : k'.pipe = k.pipe) (hhist : k'.history = k.history) : Pipes k' := by
  have hopen : k'.isOpen = k.isOpen := by
    funext page w
    rw [Kernel.isOpen, Kernel.isOpen, hpipe]
  refine ⟨?_, ?_, ?_, ?_⟩
  · intro page w
    rw [hends, hopen]
    exact h.holders page w
  · rw [hpipe]
    exact h.live
  · rw [hhist, hopen]
    exact h.closed
  · rw [hhist, hpipe]
    exact h.freed

theorem pipeEnd_goto (hv : v.pipeEnd = (k.call p).pipeEnd) (q : Slot) :
    (update k.call p v q).pipeEnd = (k.call q).pipeEnd := by
  rcases eq_or_ne q p with rfl | hq
  · rw [update_self, hv]
  · rw [update_of_ne hq]

theorem Pipes.same_ends (h : Pipes k) (hfile : ∀ f, (k'.file f).pipeEnd = (k.file f).pipeEnd)
    (hcall : ∀ q, (k'.call q).pipeEnd = (k.call q).pipeEnd) (hpipe : k'.pipe = k.pipe)
    (hhist : k'.history = k.history) : Pipes k' := by
  refine h.of_holders ?_ hpipe hhist
  intro e
  simp only [Kernel.holders, hfile, hcall]

theorem Pipes.same (h : Pipes k) (hm : Moved k k' p o v)
    (hfile : ∀ f, (k'.file f).pipeEnd = (k.file f).pipeEnd) (hv : v.pipeEnd = (k.call p).pipeEnd)
    (hpipe : k'.pipe = k.pipe) (hhist : k'.history = k.history) : Pipes k' :=
  h.same_ends hfile (hm.call ▸ pipeEnd_goto hv) hpipe hhist

/-- A step outside of `pipealloc` and of the end of `fileclose`. -/
theorem Pipes.moves {u : Pc} (h : Pipes k) (hcall : k.call p = u) (hm : Moved k k' p o v)
    (hfile : ∀ f, (k'.file f).pipeEnd = (k.file f).pipeEnd := by exact fun _ => rfl)
    (hu : u.pipeEnd = none := by rfl) (hv : v.pipeEnd = none := by rfl)
    (hpipe : k'.pipe = k.pipe := by rfl) (hhist : k'.history = k.history := by rfl)
    (hpanic : k'.panicked = k.panicked := by rfl) : Pipes k' ∧ k'.panicked = k.panicked := by
  refine ⟨h.same hm hfile ?_ hpipe hhist, hpanic⟩
  rw [hcall, hu, hv]

theorem pipeEnd_update {x : File} (h : x.pipeEnd = (k.file f).pipeEnd) (g : FileId) :
    (update k.file f x g).pipeEnd = (k.file g).pipeEnd := by
  rcases eq_or_ne g f with rfl | hg
  · rw [update_self, h]
  · rw [update_of_ne hg]

theorem holders_update (k k' : Kernel) (p : Slot) (v : Pc) (f : FileId) (x : File)
    (e : Nat × Bool) (hfile : k'.file = update k.file f x) (hcall : k'.call = update k.call p v) :
    k'.holders e + one (k.file f).pipeEnd e + one (k.call p).pipeEnd e =
      k.holders e + one x.pipeEnd e + one v.pipeEnd e := by
  have hf := sum_update (fun x : File => one x.pipeEnd e) k.file f x
  have hp := sum_update (fun v : Pc => one v.pipeEnd e) k.call p v
  simp only [Kernel.holders, hfile, hcall]
  omega

/-- An end that somebody holds is open. -/
theorem Pipes.isOpen_of_holders (h : Pipes k) (hpos : 0 < k.holders (page, w)) :
    k.isOpen page w = true := by
  rw [h.holders page w] at hpos
  exact Bool.toNat_eq_one.mp (le_antisymm (Bool.toNat_le _) hpos)

theorem Pipes.isOpen_of_file (h : Pipes k) (hf : (k.file f).pipeEnd = some (page, w)) :
    k.isOpen page w = true := by
  have hle := le_sum (fun f => one (k.file f).pipeEnd (page, w)) f
  simp only [hf, one, if_true] at hle
  exact h.isOpen_of_holders (lt_of_lt_of_le hle (Nat.le_add_right _ _))

theorem Pipes.isOpen_of_call (h : Pipes k) (hp : (k.call p).pipeEnd = some (page, w)) :
    k.isOpen page w = true := by
  have hle := le_sum (fun p => one (k.call p).pipeEnd (page, w)) p
  simp only [hp, one, if_true] at hle
  exact h.isOpen_of_holders (lt_of_lt_of_le hle (Nat.le_add_left _ _))

theorem isOpen_update {x : Option Ends} (hpipe : k'.pipe = update k.pipe page x) (page' : Nat)
    (w : Bool) : k'.isOpen page' w =
      if page' = page then (x.map (fun e => e.get w)).getD false else k.isOpen page' w := by
  rw [Kernel.isOpen, hpipe]
  split_ifs with h
  · rw [h, update_self]
    cases x <;> rfl
  · rw [update_of_ne h]
    rfl

/-! ### `pipealloc` -/

theorem Pipes.pipeInit {f0 f1 : FileId} {pg : Option Nat} (h : Pipes k) (hr : Refs k)
    (hcall : k.call p = .pipe2 f0 f1) (hk : k.pipeInit p f0 f1 pg = some k') :
    Pipes k' ∧ k'.panicked = k.panicked := by
  have hold : (k.call p).pipeEnd = none := by rw [hcall]; rfl
  cases pg with
  | none =>
    cases hk
    exact h.moves hcall (moved_goto k p _)
  | some page =>
    have hne : f0 ≠ f1 := by
      have hs := hr.shape p
      rw [hcall] at hs
      exact hs
    obtain ⟨hfree, hk'⟩ := pipeInit_some hne hk
    have hpipe : k'.pipe = update k.pipe page (some ⟨true, true⟩) := by rw [hk']
    have hhist : k'.history = k.history ++ [.opened page] := by rw [hk']
    -- neither file was an end, and the page was no pipe
    have hfresh : ∀ f, f = f0 ∨ f = f1 → (k.file f).pipeEnd = none := by
      intro f hf
      have hmem : f ∈ (k.call p).fresh := by simpa [hcall, Pc.fresh] using hf
      exact if_neg (by simp [(hr.fresh p f hmem).2])
    have hends : ∀ e, k'.holders e =
        k.holders e + one (some (page, false)) e + one (some (page, true)) e := by
      intro e
      have h0 := holders_update k (k.setFile f0 (readEnd (k.file f0) page)) p (k.call p) f0
        (readEnd (k.file f0) page) e rfl (update_eq_self _ _).symm
      have h1 := holders_update (k.setFile f0 (readEnd (k.file f0) page)) k' p
        (.piped f0 f1) f1 (writeEnd (k.file f1) page) e (by rw [hk']; rfl) (by rw [hk']; rfl)
      have hf1 : ((k.setFile f0 (readEnd (k.file f0) page)).file f1) = k.file f1 :=
        update_of_ne hne.symm _ _
      have hc1 : ((k.setFile f0 (readEnd (k.file f0) page)).call p).pipeEnd = none := hold
      have hread : (readEnd (k.file f0) page).pipeEnd = some (page, false) := rfl
      have hwrite : (writeEnd (k.file f1) page).pipeEnd = some (page, true) := rfl
      have hpiped : (Pc.piped f0 f1).pipeEnd = none := rfl
      rw [hfresh f0 (Or.inl rfl), hread, one_none] at h0
      rw [hf1, hfresh f1 (Or.inr rfl), hc1, hwrite, hpiped, one_none] at h1
      omega
    have hclosed : ∀ w, k.isOpen page w = false := by
      intro w
      rw [Kernel.isOpen, hfree]
    have hopen : ∀ page' w, k'.isOpen page' w =
        if page' = page then true else k.isOpen page' w := by
      intro page' w
      rw [isOpen_update hpipe]
      cases w <;> rfl
    refine ⟨⟨?_, ?_, ?_, ?_⟩, by rw [hk']⟩
    · intro page' w
      rw [hends, hopen, h.holders page' w]
      by_cases hp : page' = page
      · rw [hp, hclosed w]
        cases w <;> simp [one]
      · have hp' : page ≠ page' := fun heq => hp heq.symm
        simp [one, hp, hp']
    · intro page' e he
      rw [hpipe] at he
      rcases eq_or_ne page' page with rfl | hp
      · simp only [update_self, Option.some.injEq] at he
        exact Or.inl (by rw [← he])
      · rw [update_of_ne hp] at he
        exact h.live page' e he
    · intro page' w
      rw [hhist, hopen, List.count_append, List.count_append, h.closed page' w]
      by_cases hp : page' = page
      · rw [hp, hclosed w]
        simp
      · have hp' : page ≠ page' := fun heq => hp heq.symm
        simp [hp, hp']
    · intro page'
      rw [hhist, hpipe, List.count_append, List.count_append, h.freed page']
      by_cases hp : page' = page
      · rw [hp, hfree]
        simp
      · have hp' : page ≠ page' := fun heq => hp heq.symm
        simp [hp, hp']

/-! ### `pipeclose` -/

theorem Ends.get_close (e : Ends) (w w' : Bool) :
    (e.close w).get w' = if w' = w then false else e.get w' := by
  cases w <;> cases w' <;> rfl

theorem count_closed (page page' : Nat) (w w' : Bool) (l : List PipeEvent) :
    (PipeEvent.closed page w :: l).count (.closed page' w') =
      l.count (.closed page' w') + if page' = page ∧ w' = w then 1 else 0 := by
  rw [List.count_cons]
  congr 1
  by_cases h : page' = page ∧ w' = w
  · obtain ⟨rfl, rfl⟩ := h
    simp
  · have hne : PipeEvent.closed page w ≠ .closed page' w' := by
      rintro ⟨⟩
      exact h ⟨rfl, rfl⟩
    simp [h, hne]

/-- What `pipeclose` does to an open end. -/
structure Closes (k k' : Kernel) (page : Nat) (w : Bool) : Prop where
  isOpen : ∀ page' w', k'.isOpen page' w' =
    if page' = page ∧ w' = w then false else k.isOpen page' w'
  live : ∀ page' e, k'.pipe page' = some e → e.readopen = true ∨ e.writeopen = true
  opened : ∀ page', k'.history.count (.opened page') = k.history.count (.opened page')
  closed : ∀ page' w', k'.history.count (.closed page' w') =
    k.history.count (.closed page' w') + if page' = page ∧ w' = w then 1 else 0
  freed : ∀ page', k'.history.count (.freed page') + (k'.pipe page').isSome.toNat =
    k.history.count (.freed page') + (k.pipe page').isSome.toNat

theorem Pipes.pipeclose (h : Pipes k) (hopen : k.isOpen page w = true) :
    ∃ k', k.pipeclose page w = some k' ∧ Closes k k' page w ∧ k'.panicked = k.panicked := by
  cases hpipe : k.pipe page with
  | none => simp [Kernel.isOpen, hpipe] at hopen
  | some e =>
    have hget : ∀ w', k.isOpen page w' = e.get w' := by
      intro w'
      rw [Kernel.isOpen, hpipe]
    simp only [Kernel.pipeclose, hpipe]
    split_ifs with hboth
    · refine ⟨_, rfl, ⟨?_, ?_, ?_, ?_, ?_⟩, rfl⟩
      · intro page' w'
        rw [isOpen_update rfl]
        by_cases hp : page' = page
        · rw [if_pos hp, hp, hget w']
          -- the other end was closed before
          have hclosed := Ends.get_close e w w'
          have hfalse : (e.close w).get w' = false := by
            cases w' <;> simp [Ends.get, hboth]
          rw [hfalse] at hclosed
          simp only [true_and, ← hclosed]
          rfl
        · simp [hp]
      · intro page' e' he'
        rcases eq_or_ne page' page with rfl | hp
        · simp at he'
        · simp only [update_of_ne hp] at he'
          exact h.live page' e' he'
      · intro page'
        simp
      · intro page' w'
        rw [List.count_append, count_closed]
        simp
      · intro page'
        rcases eq_or_ne page' page with rfl | hp
        · simp [hpipe]
        · simp [hp, hp.symm]
    · refine ⟨_, rfl, ⟨?_, ?_, ?_, ?_, ?_⟩, rfl⟩
      · intro page' w'
        rw [isOpen_update rfl]
        by_cases hp : page' = page
        · rw [if_pos hp, hp, hget w']
          simp [Ends.get_close]
        · simp [hp]
      · intro page' e' he'
        rcases eq_or_ne page' page with rfl | hp
        · simp only [update_self, Option.some.injEq] at he'
          rw [← he']
          by_contra hcon
          simp only [not_or, Bool.not_eq_true] at hcon
          exact hboth hcon
        · simp only [update_of_ne hp] at he'
          exact h.live page' e' he'
      · intro page'
        simp
      · intro page' w'
        rw [List.count_append, count_closed]
        simp
      · intro page'
        rcases eq_or_ne page' page with rfl | hp
        · simp [hpipe]
        · simp [hp]

theorem Pipes.closes {ff : File} {k₁ : Kernel} (h : Pipes k) (hcall : k.call p = .closed ff a)
    (hff : ff.pipeEnd = some (page, w)) (hk : Closes k k₁ page w) (hfile : k₁.file = k.file)
    (hc : k₁.call = k.call) : Pipes (k₁.resume p a) := by
  have hopen : k.isOpen page w = true := h.isOpen_of_call (p := p) (by rw [hcall]; exact hff)
  have hpipe : (k₁.resume p a).pipe = k₁.pipe := by cases a <;> rfl
  have hhist : (k₁.resume p a).history = k₁.history := by cases a <;> rfl
  have hisOpen : (k₁.resume p a).isOpen = k₁.isOpen := by
    funext page' w'
    rw [Kernel.isOpen, Kernel.isOpen, hpipe]
  have hnone : a.pc.pipeEnd = none := by cases a <;> rfl
  have hholders : ∀ e, (k₁.resume p a).holders e + one (some (page, w)) e = k.holders e := by
    intro e
    have hupd := holders_update k (k₁.resume p a) p a.pc 0 (k.file 0) e
      (by rw [resume_file, hfile, update_eq_self])
      (by rw [(moved_resume k₁ p a).call, hc])
    have hp : (k.call p).pipeEnd = some (page, w) := by rw [hcall]; exact hff
    rw [hp, hnone, one_none] at hupd
    omega
  refine ⟨?_, ?_, ?_, ?_⟩
  · intro page' w'
    have hsum := hholders (page', w')
    have hold := h.holders page' w'
    rw [hisOpen, hk.isOpen]
    by_cases hpw : page' = page ∧ w' = w
    · obtain ⟨rfl, rfl⟩ := hpw
      have hone : one (some (page', w')) (page', w') = 1 := if_pos rfl
      rw [hold, hopen, hone, Bool.toNat_true] at hsum
      simp only [and_self, if_true, Bool.toNat_false]
      omega
    · have hone : one (some (page, w)) (page', w') = 0 := by
        refine if_neg ?_
        rintro ⟨⟩
        exact hpw ⟨rfl, rfl⟩
      rw [if_neg hpw, ← hold, ← hsum, hone, add_zero]
  · rw [hpipe]
    exact hk.live
  · intro page' w'
    rw [hhist, hisOpen, hk.opened, hk.closed, hk.isOpen, h.closed page' w']
    by_cases hpw : page' = page ∧ w' = w
    · obtain ⟨rfl, rfl⟩ := hpw
      simp [hopen]
    · simp [hpw]
  · intro page'
    rw [hhist, hpipe, hk.opened, hk.freed]
    exact h.freed page'

theorem Pipes.closeLast {ff : File} (h : Pipes k) (hcall : k.call p = .closed ff a) :
    Pipes (k.closeLast p ff a) ∧ (k.closeLast p ff a).panicked = k.panicked := by
  have hpanic : ∀ k₁ : Kernel, (k₁.resume p a).panicked = k₁.panicked := by
    intro k₁
    cases a <;> rfl
  have hreturn : ff.type ≠ .pipe → Pipes (k.resume p a) := by
    intro htype
    have hff : ff.pipeEnd = none := if_neg htype
    have hpc : a.pc.pipeEnd = (k.call p).pipeEnd := by
      rw [hcall]
      exact (by cases a <;> rfl : a.pc.pipeEnd = none).trans hff.symm
    refine h.same (moved_resume k p a) ?_ hpc (by cases a <;> rfl) (by cases a <;> rfl)
    intro f
    rw [resume_file]
  simp only [Kernel.closeLast]
  split
  · next htype =>
    have hff : ff.pipeEnd = some (ff.pipe, ff.writable) := if_pos htype
    have hopen : k.isOpen ff.pipe ff.writable = true :=
      h.isOpen_of_call (p := p) (by rw [hcall]; exact hff)
    obtain ⟨k₁, hk₁, hcloses, hp⟩ := h.pipeclose hopen
    obtain ⟨-, -, hc, hfile⟩ := pipeclose_frame hk₁
    rw [hk₁]
    exact ⟨h.closes hcall hff hcloses hfile hc, (hpanic k₁).trans hp⟩
  · next htype => exact ⟨hreturn (by simp [htype]), hpanic k⟩
  · next htype => exact ⟨hreturn (by simp [htype]), hpanic k⟩

theorem Pipes.fileclose (h : Pipes k) (hr : Refs k) (hcall : k.call p = .close f a) :
    Pipes (k.fileclose p f a) ∧ (k.fileclose p f a).panicked = k.panicked := by
  have hpos := (hr.fileclose hcall).1
  have hold : (k.call p).pipeEnd = none := by rw [hcall]; rfl
  rcases hpos.lt_or_eq with hmore | hlast
  · rw [fileclose_more hmore]
    refine h.moves hcall ((moved_resume _ p a).from rfl rfl rfl) (fun g => ?_) rfl
      (by cases a <;> rfl) (by cases a <;> rfl) (by cases a <;> rfl) (by cases a <;> rfl)
    rw [resume_file]
    exact pipeEnd_update (by rfl) g
  · rw [fileclose_last hlast.symm]
    refine ⟨?_, rfl⟩
    refine h.of_holders ?_ rfl rfl
    intro e
    have hupd := holders_update k ((k.setFile f { k.file f with ref := 0, type := .none }).goto
      p (.closed { k.file f with ref := 0 } a)) p (.closed { k.file f with ref := 0 } a) f
      { k.file f with ref := 0, type := .none } e rfl rfl
    have hnone : ({ k.file f with ref := 0, type := .none } : File).pipeEnd = none :=
      if_neg (by simp)
    have hsame : (Pc.closed { k.file f with ref := 0 } a).pipeEnd = (k.file f).pipeEnd := rfl
    rw [hold, hnone, hsame, one_none] at hupd
    omega

/-! ### The calls -/

theorem Pipes.enter (h : Pipes k) (hcall : k.call p = .user) (call : Syscall) :
    Pipes (k.enter p call) ∧ (k.enter p call).panicked = k.panicked := by
  have hfinish : ∀ r, Pipes (k.finish p r) ∧ (k.finish p r).panicked = k.panicked :=
    fun r => h.moves hcall (moved_finish k p r)
  cases call with
  | «open» ip omode =>
    cases ip with
    | none => exact hfinish _
    | some ip => exact h.moves hcall (moved_goto k p _)
  | dup n =>
    simp only [Kernel.enter]
    split
    · exact hfinish _
    · split
      · exact hfinish _
      · exact h.moves hcall (moved_files k p _ _)
  | close n =>
    simp only [Kernel.enter]
    split
    · exact hfinish _
    · exact h.moves hcall (moved_files k p _ _)
  | pipe | exit => exact h.moves hcall (moved_goto k p _)

/-- `filealloc` and `filedup` leave the ends alone. -/
theorem pipeEnd_ref (k : Kernel) (f : FileId) (n : Nat) (g : FileId) :
    (update k.file f { k.file f with ref := n } g).pipeEnd = (k.file g).pipeEnd :=
  pipeEnd_update (by rfl) g

theorem Pipes.openFile {ip omode : Nat} (h : Pipes k) (hcall : k.call p = .open ip omode) :
    Pipes (k.openFile p ip omode) ∧ (k.openFile p ip omode).panicked = k.panicked := by
  simp only [Kernel.openFile]
  split
  · exact h.moves hcall (moved_finish k p _)
  · next f file hfile =>
    obtain ⟨-, rfl⟩ := filealloc_eq hfile
    split
    · exact h.moves hcall ((moved_goto _ p _).from rfl rfl rfl) (pipeEnd_ref k f 1)
    · exact h.moves hcall ((moved_files _ p _ _).from rfl rfl rfl) (pipeEnd_ref k f 1)

theorem Pipes.openDone {ip omode : Nat} (h : Pipes k) (hr : Refs k)
    (hcall : k.call p = .opened fd f ip omode) :
    Pipes (k.openDone p fd f ip omode) ∧ (k.openDone p fd f ip omode).panicked = k.panicked := by
  have hfresh : f ∈ (k.call p).fresh := by simp [hcall, Pc.fresh]
  have hnone : (k.file f).pipeEnd = none := if_neg (by simp [(hr.fresh p f hfresh).2])
  refine h.moves hcall ((moved_finish _ p _).from rfl rfl rfl) (pipeEnd_update ?_)
  rw [hnone]
  exact if_neg (by simp)

theorem Pipes.pipeFds {rf wf : FileId} (h : Pipes k) (hcall : k.call p = .piped rf wf) :
    Pipes (k.pipeFds p rf wf) ∧ (k.pipeFds p rf wf).panicked = k.panicked := by
  simp only [Kernel.pipeFds]
  split
  · exact h.moves hcall (moved_goto k p _)
  · split
    · exact h.moves hcall (moved_files k p _ _)
    · next fd0 o ho fd1 o' ho' =>
      have hm : Moved k ((k.setFiles p o').finish p 0) p o' .user := ⟨rfl, rfl, rfl⟩
      exact h.moves hcall hm

theorem Pipes.forkFile {np : Slot} (h : Pipes k) (hr : Refs k) (hcall : k.call p = .fork fd.val) :
    Pipes (k.forkFile p np fd) ∧ (k.forkFile p np fd).panicked = k.panicked := by
  have hold : (k.call p).pipeEnd = none := by rw [hcall]; rfl
  simp only [Kernel.forkFile]
  split
  · exact h.moves hcall (moved_goto k p _)
  · next f hf =>
    have hown : 1 ≤ k.own p f := by
      rw [own_of_call hcall]
      exact refsOf_slot rfl hf
    rw [filedup_eq (hr.ref_pos hown)]
    exact ⟨h.same_ends (pipeEnd_ref k f _) (pipeEnd_goto hold.symm) rfl rfl, rfl⟩

theorem Pipes.next {pg : Option Nat} (h : Pipes k) (hr : Refs k) (hk : k.next p pg = some k') :
    Pipes k' ∧ k'.panicked = k.panicked := by
  simp only [Kernel.next] at hk
  split at hk
  · next hcall =>
    split at hk
    · cases hk
      exact h.moves hcall (moved_goto k p _)
    · cases hk
  · next fd0 fd f hcall =>
    rw [filedup_eq (hr.dup hcall).1] at hk
    cases hk
    exact h.moves hcall ((moved_finish _ p _).from rfl rfl rfl) (pipeEnd_ref k f _)
  · next f a hcall =>
    cases hk
    exact h.fileclose hr hcall
  · next ff a hcall =>
    cases hk
    exact h.closeLast hcall
  · next ip omode hcall =>
    cases hk
    exact h.openFile hcall
  · next fd f ip omode hcall =>
    cases hk
    exact h.openDone hr hcall
  · next hcall =>
    split at hk
    · cases hk
      exact h.moves hcall (moved_finish k p _)
    · next f file hfile =>
      obtain ⟨-, rfl⟩ := filealloc_eq hfile
      cases hk
      exact h.moves hcall ((moved_goto _ p _).from rfl rfl rfl) (pipeEnd_ref k f 1)
  · next f0 hcall =>
    split at hk
    · cases hk
      exact h.moves hcall (moved_goto k p _)
    · next f file hfile =>
      obtain ⟨-, rfl⟩ := filealloc_eq hfile
      cases hk
      exact h.moves hcall ((moved_goto _ p _).from rfl rfl rfl) (pipeEnd_ref k f 1)
  · next f0 f1 hcall => exact h.pipeInit hr hcall hk
  · next rf wf hcall =>
    cases hk
    exact h.pipeFds hcall
  · next i hcall =>
    split at hk
    · split_ifs at hk with hi
      cases hk
      exact @Pipes.forkFile k p ⟨i, hi⟩ _ h hr hcall
    · cases hk
  · next fd hcall =>
    split_ifs at hk with hfd
    cases hk
    simp only [Kernel.exitFile]
    split
    · exact h.moves hcall (moved_goto k p _)
    · exact h.moves hcall (moved_goto k p _)

end Xv6.Ftable
