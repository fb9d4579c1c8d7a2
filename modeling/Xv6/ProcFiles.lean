import Xv6.Param
import Xv6.ProcTreeRun

/-!
# What a process starts with

The process table together with the open files of each process. `allocproc` resets neither
`killed` nor `ofile`, so a child is clean only because slots that are not in use are: `wait` and
`exit` leave them so, and every operation keeps them so except a `kill` that finds the pid of a
slot that is not in use.
-/

namespace Xv6.Ptable

open Function

/-- A `struct file` is known by its place in the file table. -/
structure Procs where
  table : Table
  ofile : Slot → Fin NOFILE → Option Nat

inductive Call
  | proc (e : Event)
  | fdalloc (c : Nat) (f : Nat)
  | close (c : Nat) (fd : Fin NOFILE)
  | exec (c : Nat)
  deriving DecidableEq, Repr

/-- The loop of `fork` over the open files. -/
def dupFiles (curproc np : Slot) (ofile : Slot → Fin NOFILE → Option Nat) :
    Slot → Fin NOFILE → Option Nat :=
  update ofile np (fun fd =>
    if (ofile curproc fd).isSome then ofile curproc fd else ofile np fd)

/-- What the operations of `proc.c` do to the open files. -/
def filesAfter (s : Procs) : Event → Slot → Fin NOFILE → Option Nat
  | .forkDone c =>
    match s.table.cpu c with
    | some p =>
      match (s.table.proc p).thread with
      | .forking np => dupFiles p np s.ofile
      | _ => s.ofile
    | none => s.ofile
  | .exit c =>
    match s.table.cpu c with
    | some p => update s.ofile p (fun _ => none)
    | none => s.ofile
  | _ => s.ofile

def setFile (s : Procs) (p : Slot) (fd : Fin NOFILE) (f : Option Nat) : Procs :=
  { s with ofile := update s.ofile p (update (s.ofile p) fd f) }

/-- `fdalloc` takes the first free descriptor, if there is one. -/
def fdalloc (s : Procs) (p : Slot) (f : Nat) : Procs :=
  match (List.finRange NOFILE).find? (fun fd => s.ofile p fd = none) with
  | some fd => setFile s p fd (some f)
  | none => s

/-- A call of the process that runs on processor `c`, on the files only. -/
def fileCall (c : Nat) (s : Procs) (f : Slot → Procs) : Option Procs :=
  match s.table.cpu c with
  | some p => if (s.table.proc p).thread = .user then some (f p) else none
  | none => none

/-- `exec` replaces the memory of the process and nothing else. -/
def callStep (s : Procs) : Call → Option Procs
  | .proc e => (step s.table e).map (fun t => { table := t, ofile := filesAfter s e })
  | .fdalloc c f => fileCall c s (fun p => fdalloc s p f)
  | .close c fd => fileCall c s (fun p => setFile s p fd none)
  | .exec c => fileCall c s (fun _ => s)

def procsBoot : Procs := ⟨boot, fun _ _ => none⟩

/-! ### Slots that are not in use -/

variable {t t' : Table} {c : Nat} {p np i : Slot}

def ProcState.idle (s : ProcState) : Prop := s = .unused ∨ s = .embryo

instance (s : ProcState) : Decidable s.idle := inferInstanceAs (Decidable (_ ∨ _))

/-- The thread of a slot is in the same `fork` before and after. -/
def SameFork (x y : Proc) : Prop := ∀ np, y.thread = .forking np ↔ x.thread = .forking np

theorem SameFork.of_eq {x y : Proc} (h : y.thread = x.thread) : SameFork x y := by
  intro np
  rw [h]

theorem SameFork.of_not {x y : Proc} (hx : ∀ np, x.thread ≠ .forking np)
    (hy : ∀ np, y.thread ≠ .forking np) : SameFork x y :=
  fun np => ⟨fun h => absurd h (hy np), fun h => absurd h (hx np)⟩

/-- What a change of a slot from `x` to `y` keeps: a slot that is not in use is not killed, if
`kill` finds a process, a process does not exit, unless it calls `exit`, and it is in the same
`fork`, unless it is the one that forks. -/
structure Kept (L X F : Prop) (x y : Proc) : Prop where
  killed : L → y.state.idle → y.killed = false ∨ x.state.idle ∧ y.killed = x.killed
  active : X → x.state.active → y.state.active
  fork : F → SameFork x y

variable {L X F : Prop} {x y z : Proc} {e : Event} {s s' : Procs}

theorem Kept.refl (x : Proc) : Kept L X F x x :=
  ⟨fun _ h => Or.inr ⟨h, rfl⟩, fun _ => id, fun _ => .of_eq rfl⟩

theorem Kept.trans (h : Kept L X F x y) (h' : Kept L X F y z) : Kept L X F x z := by
  refine ⟨?_, fun hX hx => h'.active hX (h.active hX hx),
    fun hF np => (h'.fork hF np).trans (h.fork hF np)⟩
  intro hL hz
  rcases h'.killed hL hz with hk | ⟨hy, hk⟩
  · exact Or.inl hk
  · rw [hk]
    exact h.killed hL hy

theorem Kept.of_active (h : y.state.active) (ht : F → SameFork x y) : Kept L X F x y := by
  refine ⟨fun _ => ?_, fun _ _ => h, ht⟩
  rintro (hy | hy) <;> simp [hy, ProcState.active] at h

theorem Kept.of_eq (hs : y.state = x.state) (hk : y.killed = x.killed) (ht : F → SameFork x y) :
    Kept L X F x y :=
  ⟨fun _ h => Or.inr ⟨hs ▸ h, hk⟩, fun _ h => hs ▸ h, ht⟩

theorem kept_set (h : i = p → Kept L X F (t.proc p) x) :
    Kept L X F (t.proc i) ((t.set p x).proc i) := by
  rcases eq_or_ne i p with rfl | hne
  · simpa [Table.set] using h rfl
  · simpa [Table.set, hne] using Kept.refl _

theorem kept_field (hs : x.state = (t.proc p).state) (hk : x.killed = (t.proc p).killed)
    (ht : x.thread = (t.proc p).thread) (i : Slot) :
    Kept L X F (t.proc i) ((t.set p x).proc i) :=
  kept_set (fun _ => Kept.of_eq hs hk (fun _ => .of_eq ht))

theorem kept_active (h : x.state.active) (ht : x.thread = (t.proc p).thread) (i : Slot) :
    Kept L X F (t.proc i) ((t.set p x).proc i) :=
  kept_set (fun _ => Kept.of_active h (fun _ => .of_eq ht))

/-- The thread of `p` goes on outside of `fork`. -/
theorem kept_thread (hp : i = p → F → ∀ np, (t.proc p).thread ≠ .forking np) :
    Kept L X F (t.proc i) ((t.set p { t.proc p with thread := .user }).proc i) :=
  kept_set (fun hi => Kept.of_eq rfl rfl (fun hF => .of_not (hp hi hF) (by simp)))

theorem kept_sched (c : Nat) (p : Slot) (t : Table) (i : Slot) :
    Kept L X F (t.proc i) ((sched c p t).proc i) :=
  kept_field (t := t.setCpu c none) (by rfl) (by rfl) (by rfl) i

theorem kept_sleep {chan : Chan} {thread : Thread} (c : Nat)
    (hp : ∀ np, (t.proc p).thread ≠ .forking np) (hth : ∀ np, thread ≠ .forking np) (i : Slot) :
    Kept L X F (t.proc i) ((sleep c p chan thread t).proc i) := by
  refine Kept.trans (kept_set (p := p) (fun _ => Kept.of_active ?_ ?_)) (kept_sched c p _ i)
  · exact Or.inl rfl
  · exact fun _ => .of_not hp hth

theorem kept_wakeup1 (chan : Option Chan) (t : Table) (i : Slot) :
    Kept L X F (t.proc i) ((wakeup1 chan t).proc i) := by
  simp only [wakeup1]
  split_ifs
  · exact Kept.of_active (Or.inr (Or.inl rfl)) (fun _ => .of_eq rfl)
  · exact Kept.refl _

theorem kept_passChildren (p init : Slot) (t : Table) (i : Slot) :
    Kept L X F (t.proc i) ((passChildren p init t).proc i) := by
  unfold passChildren
  generalize slots = is
  induction is generalizing t with
  | nil => exact Kept.refl _
  | cons j is ih =>
    refine Kept.trans ?_ (ih _)
    simp only
    split_ifs
    · exact Kept.trans (kept_field (by rfl) (by rfl) (by rfl) i) (kept_wakeup1 _ _ i)
    · exact kept_field (by rfl) (by rfl) (by rfl) i
    · exact Kept.refl _

theorem kept_waitScan (c : Nat) (t : Table) (hp : ∀ np, (t.proc p).thread ≠ .forking np)
    (i : Slot) : Kept L X F (t.proc i) ((waitScan c p t).2.proc i) := by
  simp only [waitScan]
  split
  · next j hj =>
    have hz := List.find?_some hj
    simp only [decide_eq_true_eq] at hz
    refine Kept.trans (kept_set (p := j) fun _ => ⟨fun _ _ => Or.inl rfl, ?_, ?_⟩)
      (kept_thread fun _ _ np => ?_)
    · simp [hz.2, ProcState.active]
    · exact fun _ => .of_eq rfl
    · rcases eq_or_ne p j with rfl | hpj
      · simpa [Table.set] using hp np
      · simpa [Table.set, hpj] using hp np
  · split_ifs
    · exact kept_thread (fun _ _ => hp)
    · exact kept_sleep c hp (by simp) i

theorem kept_resume (c : Nat) (p : Slot) (t : Table) (i : Slot) :
    Kept L X F (t.proc i) ((resume c p t).proc i) := by
  simp only [resume]
  split
  · exact Kept.refl _
  · exact Kept.refl _
  · next hth =>
    exact kept_set fun _ => Kept.of_eq rfl rfl (fun _ => .of_not (by simp [hth]) (by simp))
  · next hth =>
    refine Kept.trans (kept_field (by rfl) (by rfl) (by rfl) i) (kept_waitScan c _ ?_ i)
    simp [Table.set, hth]

theorem kept_scheduler (c : Nat) (t : Table) (i : Slot) :
    Kept L X F (t.proc i) ((scheduler c t).2.proc i) := by
  rcases scheduler_cases c t with ⟨p, -, -, heq⟩ | ⟨-, heq | heq⟩
  · rw [heq, dispatch]
    refine Kept.trans ?_ (kept_resume c p _ i)
    exact kept_active (t := t.setCpu c (some p)) (Or.inr (Or.inr rfl)) (by rfl) i
  · rw [heq]
    exact Kept.refl _
  · rw [heq]
    exact Kept.refl _

theorem kept_allocproc (h : allocproc t = some (np, t')) (i : Slot) :
    Kept L X F (t.proc i) (t'.proc i) := by
  unfold allocproc at h
  split at h
  · cases h
  · next j hj =>
    have hu := List.find?_some hj
    simp only [decide_eq_true_eq] at hu
    cases h
    refine kept_set (fun _ => ⟨fun _ _ => Or.inr ⟨Or.inl hu, rfl⟩, ?_, fun _ => .of_eq rfl⟩)
    simp [hu, ProcState.active]

/-- The slot that `kill` finds is in use. -/
def KillsLive (t : Table) (pid : Int) : Prop :=
  ∀ i, slots.find? (fun i => (t.proc i).pid = pid) = some i → ¬ (t.proc i).state.idle

theorem kept_kill {pid : Int} (h : L → KillsLive t pid) (i : Slot) :
    Kept L X F (t.proc i) ((kill pid t).2.proc i) := by
  simp only [kill]
  split
  · exact Kept.refl _
  · next j hj =>
    refine kept_set (fun _ => ⟨fun hL => ?_, fun _ => ?_, fun _ => .of_eq rfl⟩)
    · simp only
      split_ifs
      · simp [ProcState.idle]
      · exact fun hidle => absurd hidle (h hL j hj)
    · simp only
      split_ifs
      · simp [ProcState.active]
      · exact id

theorem kept_exit {init : Slot} (c : Nat) (hX : X → i ≠ p) :
    Kept L X F (t.proc i) ((exit c p init t).proc i) := by
  have hzombie : ∀ t₁ : Table, Kept L X F (t₁.proc i)
      ((t₁.set p { t₁.proc p with state := .zombie }).proc i) := fun t₁ =>
    kept_set fun hi => ⟨by simp [ProcState.idle], fun h => absurd hi (hX h), fun _ => .of_eq rfl⟩
  exact Kept.trans (((kept_wakeup1 _ t i).trans (kept_passChildren p init _ i)).trans
    (hzombie _)) (kept_sched c p _ i)

/-- The processor whose process begins, fails or finishes a `fork` in the event. -/
def Event.forker : Event → Option Nat
  | .fork c | .forkFail c | .forkDone c => some c
  | _ => none

/-- What every operation does to every slot. -/
theorem kept_step (hsound : (t.tree []).Sound) (h : step t e = some t') (i : Slot) :
    Kept (∀ pid, e = .kill pid → KillsLive t pid) (∀ c, e = .exit c → t.cpu c ≠ some i)
      (∀ c, e.forker = some c → t.cpu c ≠ some i) (t.proc i) (t'.proc i) := by
  have hembryo : ∀ {p np}, (t.proc p).thread = .forking np → (t.proc np).state = .embryo :=
    fun hth => (hsound.threads.forking _ _ hth).2.1
  cases e with
  | userinit =>
    simp only [step] at h
    split at h
    · cases h
    · obtain ⟨⟨np, t₁⟩, ha, rfl⟩ := Option.map_eq_some_iff.mp h
      exact kept_allocproc ha i
  | userinitDone =>
    simp only [step] at h
    split at h
    · split_ifs at h
      cases h
      exact kept_active (Or.inr (Or.inl rfl)) (by rfl) i
    · cases h
  | schedule c =>
    simp only [step] at h
    split at h
    · cases h
      exact kept_scheduler c t i
    · cases h
  | fork c =>
    obtain ⟨p, hc, -, hf⟩ := syscall_eq h
    split at hf
    · next np t₁ ha =>
      cases hf
      refine Kept.trans (kept_allocproc ha i) (kept_set fun hi => Kept.of_eq rfl rfl ?_)
      exact fun hF => absurd (hi ▸ hc) (hF c rfl)
    · cases hf
      exact Kept.refl _
  | forkFail c =>
    obtain ⟨p, np, hc, hth, rfl⟩ := infork_eq h
    have he := hembryo hth
    refine Kept.trans (y := (forkFail np t).proc i) (kept_set fun _ => ⟨?_, ?_, ?_⟩) (kept_thread ?_)
    · exact fun _ _ => Or.inr ⟨Or.inr he, rfl⟩
    · simp [he, ProcState.active]
    · exact fun _ => .of_eq rfl
    · rintro rfl hF
      exact absurd hc (hF c rfl)
  | forkDone c =>
    obtain ⟨p, np, hc, -, rfl⟩ := infork_eq h
    refine Kept.trans (kept_active (p := np) (Or.inr (Or.inl rfl)) (by rfl) i) (kept_thread ?_)
    rintro rfl hF
    exact absurd hc (hF c rfl)
  | settickets c n =>
    obtain ⟨p, -, -, hf⟩ := syscall_eq h
    cases hf
    simp only [sysSettickets]
    split_ifs
    · exact Kept.refl _
    · exact kept_field (by rfl) (by rfl) (by rfl) i
  | sleep c chan =>
    obtain ⟨p, -, hth, hf⟩ := syscall_eq h
    cases hf
    exact kept_sleep c (by simp [hth]) (by simp) i
  | wakeup chan =>
    cases h
    exact kept_wakeup1 _ t i
  | yield c =>
    obtain ⟨p, -, rfl⟩ := Option.map_eq_some_iff.mp h
    exact Kept.trans (kept_active (Or.inr (Or.inl rfl)) (by rfl) i) (kept_sched c p _ i)
  | kill pid =>
    cases h
    exact kept_kill (fun hL => hL pid rfl) i
  | exit c =>
    obtain ⟨p, hc, -, hf⟩ := syscall_eq h
    split at hf
    · next init hinit =>
      split_ifs at hf
      cases hf
      refine kept_exit c ?_
      rintro hX rfl
      exact hX c rfl hc
    · cases hf
  | wait c =>
    obtain ⟨p, hc, hth, hf⟩ := syscall_eq h
    cases hf
    exact kept_waitScan c t (by simp [hth]) i

/-! ### Runs -/

structure Clean (s : Procs) : Prop where
  sound : (s.table.tree []).Sound
  killed : ∀ i, (s.table.proc i).state.idle → (s.table.proc i).killed = false
  files : ∀ i, ¬ (s.table.proc i).state.active → ∀ fd, s.ofile i fd = none

theorem clean_procsBoot : Clean procsBoot :=
  ⟨boot_sound [], fun _ _ => rfl, fun _ _ _ => rfl⟩

theorem sound_reaped {rs rs' : List Int} (h : (t.tree rs).Sound) : (t.tree rs').Sound :=
  ⟨⟨h.threads.running, h.threads.cpu, h.threads.forking, h.threads.forkInj, h.threads.fresh⟩,
    ⟨h.init.noInit, h.init.init⟩⟩

theorem exit_zombie (c : Nat) (p init : Slot) (t : Table) :
    ((exit c p init t).proc p).state = .zombie := by
  simp [exit, sched, Table.set, Table.setCpu]

theorem step_exit (h : step t (.exit c) = some t') :
    ∃ p, t.cpu c = some p ∧ (t'.proc p).state = .zombie := by
  obtain ⟨p, hc, -, hf⟩ := syscall_eq h
  split at hf
  · split_ifs at hf
    cases hf
    exact ⟨p, hc, exit_zombie c p _ t⟩
  · cases hf

theorem filesAfter_inactive {s : Procs} (hs : Clean s) (h : step s.table e = some t')
    (hi : ¬ (t'.proc i).state.active) (hold : ¬ (s.table.proc i).state.active) :
    filesAfter s e i = s.ofile i := by
  cases e with
  | forkDone c =>
    obtain ⟨p, np, hc, hth, rfl⟩ := infork_eq h
    simp only [filesAfter, hc, hth, dupFiles]
    have hne : i ≠ np := by
      rintro rfl
      refine hi ?_
      rcases eq_or_ne i p with rfl | hip
      · simp [Table.set, forkDone, ProcState.active]
      · simp [Table.set, forkDone, hip, ProcState.active]
    exact update_of_ne hne _ _
  | exit c =>
    obtain ⟨p, hc, -, -⟩ := syscall_eq h
    have hrun := hs.sound.threads.running c p hc
    simp only [filesAfter, hc]
    refine update_of_ne ?_ _ _
    rintro rfl
    exact hold (Or.inr (Or.inr hrun))
  | _ => rfl

theorem clean_proc {s : Procs} (hs : Clean s) (h : step s.table e = some t')
    (hkill : ∀ pid, e = .kill pid → KillsLive s.table pid) :
    Clean { table := t', ofile := filesAfter s e } := by
  have hkept := kept_step hs.sound h
  -- the exiting process is the exception to `kept_step`
  have hexit : ∀ i, (∃ c, e = .exit c ∧ s.table.cpu c = some i) →
      (t'.proc i).state = .zombie ∧ ∀ fd, filesAfter s e i fd = none := by
    rintro i ⟨c, rfl, hi⟩
    obtain ⟨p, hc, hz⟩ := step_exit h
    obtain rfl : i = p := Option.some.inj (hi.symm.trans hc)
    refine ⟨hz, ?_⟩
    simp [filesAfter, hi]
  refine ⟨sound_reaped (step_sound hs.sound h), ?_, ?_⟩
  · intro i hi
    by_cases he : ∃ c, e = .exit c ∧ s.table.cpu c = some i
    · have hz := (hexit i he).1
      rcases hi with hi | hi <;> simp [hz] at hi
    · rcases (hkept i).killed hkill hi with hk | ⟨hidle, hk⟩
      · exact hk
      · exact hk.trans (hs.killed i hidle)
  · intro i hi fd
    by_cases he : ∃ c, e = .exit c ∧ s.table.cpu c = some i
    · exact (hexit i he).2 fd
    · have hold : ¬ (s.table.proc i).state.active :=
        fun ha => hi ((hkept i).active (fun c hc hi => he ⟨c, hc, hi⟩) ha)
      have hsame := filesAfter_inactive hs h hi hold
      simp only [hsame]
      exact hs.files i hold fd

theorem clean_setFile {s : Procs} (hs : Clean s) (hc : s.table.cpu c = some p) (fd : Fin NOFILE)
    (f : Option Nat) : Clean (setFile s p fd f) := by
  refine ⟨hs.sound, hs.killed, ?_⟩
  intro i hi fd'
  have hne : i ≠ p := by
    rintro rfl
    exact hi (Or.inr (Or.inr (hs.sound.threads.running c i hc)))
  simp only [setFile, update_of_ne hne]
  exact hs.files i hi fd'

theorem fileCall_eq {f : Slot → Procs} (h : fileCall c s f = some s') :
    ∃ p, s.table.cpu c = some p ∧ s' = f p := by
  simp only [fileCall] at h
  split at h
  · next p hp =>
    split_ifs at h
    exact ⟨p, hp, (Option.some.inj h).symm⟩
  · cases h

/-- The step is not a `kill` that finds a slot that is not in use. -/
def KillsProcess (s : Procs) (e : Call) : Prop := ∀ pid, e = .proc (.kill pid) → KillsLive s.table pid

theorem clean_callStep {e : Call} (hs : Clean s) (hkill : KillsProcess s e)
    (h : callStep s e = some s') : Clean s' := by
  cases e with
  | proc e =>
    obtain ⟨t', ht', rfl⟩ := Option.map_eq_some_iff.mp h
    exact clean_proc hs ht' (fun pid he => hkill pid (he ▸ rfl))
  | fdalloc c f =>
    obtain ⟨p, hc, rfl⟩ := fileCall_eq h
    simp only [fdalloc]
    split
    · exact clean_setFile hs hc _ _
    · exact hs
  | close c fd =>
    obtain ⟨p, hc, rfl⟩ := fileCall_eq h
    exact clean_setFile hs hc _ _
  | exec c =>
    obtain ⟨p, hc, rfl⟩ := fileCall_eq h
    exact hs

/-- The process `np` that a `fork` of `p` has started. -/
structure StartsClean (s s' : Procs) (p np : Slot) : Prop where
  killed : (s'.table.proc np).killed = false
  ticks : (s'.table.proc np).ticks = 0
  parent : (s'.table.proc np).parent = some p
  files : ∀ fd, s'.ofile np fd = s.ofile p fd

theorem forkDone_startsClean (hs : Clean s) (hc : s.table.cpu c = some p)
    (hth : (s.table.proc p).thread = .forking np)
    (h : callStep s (.proc (.forkDone c)) = some s') : StartsClean s s' p np := by
  obtain ⟨t', ht', rfl⟩ := Option.map_eq_some_iff.mp h
  obtain ⟨q, nq, hq, hthq, rfl⟩ := infork_eq ht'
  obtain rfl : p = q := Option.some.inj (hc.symm.trans hq)
  obtain rfl : np = nq := by simpa [hth] using hthq
  obtain ⟨hst, he, -⟩ := hs.sound.threads.forking p np hth
  have hst' : (s.table.proc p).state = .running ∨ (s.table.proc p).state = .runnable := hst
  have he' : (s.table.proc np).state = .embryo := he
  have hne : np ≠ p := by
    rintro rfl
    simp [he'] at hst'
  refine ⟨?_, ?_, ?_, ?_⟩
  · simpa [Table.set, forkDone, hne] using hs.killed np (Or.inr he')
  · simp [Table.set, forkDone, hne]
  · simp [Table.set, forkDone, hne]
  · intro fd
    have hnone := hs.files np (by simp [he', ProcState.active]) fd
    simp only [filesAfter, hc, hth, dupFiles, update_self, hnone]
    split_ifs with hf
    · rfl
    · exact (Option.not_isSome_iff_eq_none.mp hf).symm

/-- A child starts clean, in every run in which `kill` finds only processes. -/
theorem forkDone_clean {es : List Call} {s s' : Procs} {c : Nat} {p np : Slot}
    (hrun : run callStep procsBoot es = some s) (halong : Along callStep KillsProcess procsBoot es)
    (hc : s.table.cpu c = some p) (hth : (s.table.proc p).thread = .forking np)
    (h : callStep s (.proc (.forkDone c)) = some s') : StartsClean s s' p np := by
  have hs : Clean s := run_invariant_along callStep
    (fun _ _ _ hs hk h => clean_callStep hs hk h) clean_procsBoot halong hrun
  exact forkDone_startsClean hs hc hth h

/-- A test for `KillsProcess`. -/
def killsProcess (s : Procs) : Call → Bool
  | .proc (.kill pid) =>
    (slots.find? (fun i => (s.table.proc i).pid = pid)).all (fun i => ¬ (s.table.proc i).state.idle)
  | _ => true

theorem killsProcess_sound {s : Procs} {e : Call} (h : killsProcess s e = true) :
    KillsProcess s e := by
  rintro pid rfl i hi
  simpa [killsProcess, hi] using h

/-- The child of init is killed and exits, init waits for it, opens a file and forks again. -/
def slotReused : List Call :=
  [.proc .userinit, .proc .userinitDone, .proc (.schedule 0), .proc (.fork 0), .proc (.forkDone 0),
    .proc (.kill 2), .proc (.wait 0), .proc (.schedule 0), .proc (.exit 0), .proc (.schedule 0),
    .fdalloc 0 7, .proc (.fork 0)]

theorem slotReused_clean : ∃ s s', run callStep procsBoot slotReused = some s ∧
    callStep s (.proc (.forkDone 0)) = some s' ∧ s.ofile 0 0 = some 7 ∧ (s'.table.proc 1).pid = 3 ∧
    StartsClean s s' 0 1 := by
  obtain ⟨s, hs, hstate⟩ := Option.map_eq_some_iff.mp (by decide +kernel :
    (run callStep procsBoot slotReused).map (fun s => (s.table.cpu 0, (s.table.proc 0).thread,
      s.ofile 0 0, (callStep s (.proc (.forkDone 0))).map (fun s' => (s'.table.proc 1).pid))) =
      some (some 0, .forking 1, some 7, some 3))
  simp only [Prod.mk.injEq, Option.map_eq_some_iff] at hstate
  obtain ⟨hc, hth, hf, s', hs', hpid⟩ := hstate
  have halong := along_of_alongB (s := procsBoot) (C := KillsProcess) callStep
    (fun _ _ => killsProcess_sound) (by decide +kernel : alongB _ _ _ slotReused = true)
  exact ⟨s, s', hs, hs', hf, hpid, forkDone_clean hs halong hc hth hs'⟩

/-- Init calls `kill(0)` before it forks. -/
def killZeroForks : List Call :=
  [.proc .userinit, .proc .userinitDone, .proc (.schedule 0), .proc (.kill 0), .proc (.fork 0)]

/-- Zero is the pid of the slots that are not in use, and the child starts killed. -/
theorem killZeroForks_killed : ∃ s s', run callStep procsBoot killZeroForks = some s ∧
    s.table.cpu 0 = some 0 ∧ (s.table.proc 0).thread = .forking 1 ∧
    callStep s (.proc (.forkDone 0)) = some s' ∧ (s'.table.proc 1).state = .runnable ∧
    ¬ StartsClean s s' 0 1 := by
  obtain ⟨s, hs, hstate⟩ := Option.map_eq_some_iff.mp (by decide +kernel :
    (run callStep procsBoot killZeroForks).map (fun s => (s.table.cpu 0, (s.table.proc 0).thread,
      (callStep s (.proc (.forkDone 0))).map (fun s' =>
        ((s'.table.proc 1).state, (s'.table.proc 1).killed)))) =
      some (some 0, .forking 1, some (.runnable, true)))
  simp only [Prod.mk.injEq, Option.map_eq_some_iff] at hstate
  obtain ⟨hc, hth, s', hs', hrunnable, hkilled⟩ := hstate
  refine ⟨s, s', hs, hc, hth, hs', hrunnable, ?_⟩
  intro hclean
  simp [hclean.killed] at hkilled

end Xv6.Ptable
