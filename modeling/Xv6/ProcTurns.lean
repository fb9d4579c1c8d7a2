import Xv6.ProcTreeRun

/-!
# What an event does to one process

`Standing` is what scheduling has to do with in one slot of the process table: the state, the
tickets and the ticks. A pass of the scheduler that dispatches a process hands it the lock in
`entered`; every event then takes each slot from its standing in `entered` through at most one
`Turn`. The properties of states, tickets and ticks over whole runs are derived from `step_turn`.
-/

namespace Xv6.Ptable

open Function

variable {t t' : Table} {e : Event} {c : Nat} {p np i : Slot} {rs : List Int}

structure Standing where
  state : ProcState
  tickets : Int
  ticks : Int

def Proc.standing (x : Proc) : Standing := ⟨x.state, x.tickets, x.ticks⟩

def Table.standing (t : Table) (i : Slot) : Standing := (t.proc i).standing

/-- The process that the event dispatches. -/
def dispatched (t : Table) : Event → Option Slot
  | .schedule c => (scheduler c t).1
  | _ => none

/-- The process that the event makes RUNNABLE for the first time. -/
def started (t : Table) : Event → Option Slot
  | .userinitDone => t.initproc
  | .forkDone c => (t.cpu c).bind (fun p =>
    match (t.proc p).thread with
    | .forking np => some np
    | _ => none)
  | _ => none

/-- The table when the process that the event dispatches, if any, gets the processor. -/
def entered (t : Table) (e : Event) : Table :=
  match e, dispatched t e with
  | .schedule c, some p => switched c p { t with rseed := random t.rseed }
  | _, _ => t

inductive Turn (t : Table) (e : Event) (i : Slot) : Standing → Standing → Prop
  | keep (s : Standing) : Turn t e i s s
  | alloc {tickets ticks : Int} : Turn t e i ⟨.unused, tickets, ticks⟩ ⟨.embryo, tickets, ticks⟩
  | fail {tickets ticks : Int} : Turn t e i ⟨.embryo, tickets, ticks⟩ ⟨.unused, tickets, ticks⟩
  | start {tickets ticks n : Int} (hi : started t e = some i) (hn : 10 ≤ n) :
      Turn t e i ⟨.embryo, tickets, ticks⟩ ⟨.runnable, n, 0⟩
  | leave {tickets ticks : Int} {s : ProcState}
      (hs : s = .runnable ∨ s = .sleeping ∨ s = .zombie) :
      Turn t e i ⟨.running, tickets, ticks⟩ ⟨s, tickets, wrap32 (ticks + 1)⟩
  | wake {tickets ticks : Int} : Turn t e i ⟨.sleeping, tickets, ticks⟩ ⟨.runnable, tickets, ticks⟩
  | reap {tickets ticks : Int} : Turn t e i ⟨.zombie, tickets, ticks⟩ ⟨.unused, tickets, ticks⟩
  | settickets {tickets ticks n : Int} {c : Nat} (he : e = .settickets c n) (hc : t.cpu c = some i)
      (hn : 10 ≤ n) : Turn t e i ⟨.running, tickets, ticks⟩ ⟨.running, n, ticks⟩

theorem standing_set (t : Table) (p : Slot) (x : Proc) (i : Slot) :
    (t.set p x).standing i = if i = p then x.standing else t.standing i := by
  rcases eq_or_ne i p with rfl | hi
  · simp [Table.standing, Table.set]
  · simp [Table.standing, Table.set, hi]

variable {x : Proc} {u : Table}

theorem standing_set_same (h : x.standing = t.standing p) (i : Slot) :
    (t.set p x).standing i = t.standing i := by
  rw [standing_set]
  split_ifs with hi
  · rw [hi, h]
  · rfl

theorem Turn.set_same {s : Standing} (h : Turn u e i s (t.standing i))
    (hx : x.standing = t.standing p) : Turn u e i s ((t.set p x).standing i) := by
  rwa [standing_set_same hx]

theorem Turn.set (h : Turn t' e p (t.standing p) x.standing) (i : Slot) :
    Turn t' e i (t.standing i) ((t.set p x).standing i) := by
  rw [standing_set]
  split_ifs with hi
  · rw [hi]
    exact h
  · exact .keep _

theorem standing_eq {s : ProcState} (h : (t.proc p).state = s) :
    t.standing p = ⟨s, (t.proc p).tickets, (t.proc p).ticks⟩ := by
  rw [← h]
  rfl

/-! ### Single operations -/

theorem allocproc_turn (h : allocproc t = some (np, t')) (i : Slot) :
    Turn t e i (t.standing i) (t'.standing i) := by
  have hu := (@allocproc_tree t t' np [] h).1
  unfold allocproc at h
  split at h
  · cases h
  · cases h
    refine Turn.set ?_ i
    rw [standing_eq hu]
    exact .alloc

theorem sched_turn (hp : (t.proc p).state = .running)
    (hs : x.state = .runnable ∨ x.state = .sleeping ∨ x.state = .zombie)
    (htickets : x.tickets = (t.proc p).tickets) (hticks : x.ticks = (t.proc p).ticks) (i : Slot) :
    Turn t' e i (t.standing i) ((sched c p (t.set p x)).standing i) := by
  have hsame : ((sched c p (t.set p x)).standing i) =
      (t.set p { x with ticks := wrap32 (x.ticks + 1) }).standing i := by
    rw [sched, standing_set, standing_set]
    split_ifs with hi
    · simp [Table.set]
    · have hne : (t.set p x).standing i = t.standing i := by
        rw [standing_set, if_neg hi]
      exact hne
  rw [hsame]
  refine Turn.set ?_ i
  rw [standing_eq hp]
  simp only [Proc.standing, htickets, hticks]
  exact .leave hs

/-- Some processes have been woken, nothing else has changed in the standings. -/
def Woken (t t' : Table) : Prop :=
  ∀ i, t'.standing i = t.standing i ∨
    (t.proc i).state = .sleeping ∧ t'.standing i = { t.standing i with state := .runnable }

theorem Woken.refl (t : Table) : Woken t t := fun _ => Or.inl rfl

theorem Woken.trans (h : Woken t t') (h' : Woken t' u) : Woken t u := by
  intro i
  rcases h i with heq | ⟨hs, heq⟩
  · rcases h' i with heq' | ⟨hs', heq'⟩
    · exact Or.inl (heq'.trans heq)
    · have hsleep : (t.proc i).state = .sleeping := (congrArg Standing.state heq).symm.trans hs'
      exact Or.inr ⟨hsleep, by rw [heq', heq]⟩
  · rcases h' i with heq' | ⟨hs', -⟩
    · exact Or.inr ⟨hs, heq'.trans heq⟩
    · have hrun : (t'.proc i).state = .runnable := congrArg Standing.state heq
      simp [hrun] at hs'

theorem Woken.standing_eq (h : Woken t t') (hi : (t.proc i).state ≠ .sleeping) :
    t'.standing i = t.standing i := by
  rcases h i with heq | ⟨hs, -⟩
  · exact heq
  · exact absurd hs hi

theorem Woken.turn (h : Woken t t') (i : Slot) : Turn u e i (t.standing i) (t'.standing i) := by
  rcases h i with heq | ⟨hs, heq⟩
  · rw [heq]
    exact .keep _
  · rw [heq, Ptable.standing_eq hs]
    exact .wake

theorem wakeup1_woken (chan : Option Chan) (t : Table) : Woken t (wakeup1 chan t) := by
  intro i
  simp only [wakeup1, Table.standing]
  split_ifs with h
  · exact Or.inr ⟨h.1, rfl⟩
  · exact Or.inl rfl

theorem passChildren_woken (curproc initproc : Slot) (t : Table) :
    Woken t (passChildren curproc initproc t) := by
  unfold passChildren
  -- the children that have been passed on are woken at most once each
  generalize slots = is
  induction is generalizing t with
  | nil => exact Woken.refl t
  | cons j is ih =>
    rw [List.foldl_cons]
    refine Woken.trans ?_ (ih _)
    split_ifs with hp
    · have hset : Woken t (t.set j { t.proc j with parent := some initproc }) := by
        intro i
        exact Or.inl (standing_set_same (by rfl) i)
      simp only
      split_ifs
      · exact hset.trans (wakeup1_woken _ _)
      · exact hset
    · exact Woken.refl t

theorem kill_woken (pid : Int) (t : Table) : Woken t (kill pid t).2 := by
  simp only [kill]
  split
  · exact Woken.refl t
  · next j _ =>
    intro i
    rw [standing_set]
    split_ifs with hi hs
    · subst hi
      exact Or.inr ⟨hs, rfl⟩
    · subst hi
      exact Or.inl rfl
    · exact Or.inl rfl

theorem exit_turn {init : Slot} (hp : (t.proc p).state = .running) (i : Slot) :
    Turn t' e i (t.standing i) ((exit c p init t).standing i) := by
  simp only [exit]
  obtain ⟨t₂, ht₂⟩ : ∃ t₂, t₂ =
      passChildren p init (wakeup1 ((t.proc p).parent.map Chan.proc) t) := ⟨_, rfl⟩
  have hw : Woken t t₂ := by
    rw [ht₂]
    exact (wakeup1_woken _ _).trans (passChildren_woken _ _ _)
  rw [← ht₂]
  -- the caller itself is not woken, it runs
  have hsame := hw.standing_eq (i := p) (by simp [hp])
  have hp₂ : (t₂.proc p).state = .running := (congrArg Standing.state hsame).trans hp
  rcases eq_or_ne i p with rfl | hi
  · rw [← hsame]
    exact sched_turn hp₂ (by simp) (by rfl) (by rfl) i
  · have hother : ((sched c p (t₂.set p { t₂.proc p with state := .zombie })).standing i) =
        t₂.standing i := by
      rw [sched, standing_set, if_neg hi]
      exact (standing_set _ _ _ _).trans (if_neg hi)
    rw [hother]
    exact hw.turn i

theorem waitScan_turn (hp : (t.proc p).state = .running) (i : Slot) :
    Turn t' e i (t.standing i) ((waitScan c p t).2.standing i) := by
  simp only [waitScan]
  split
  · next j hj =>
    have hfound := List.find?_some hj
    simp only [decide_eq_true_eq] at hfound
    refine Turn.set_same (Turn.set ?_ i) (by rfl)
    rw [standing_eq hfound.2]
    exact .reap
  · split_ifs
    · exact Turn.set_same (.keep _) (by rfl)
    · exact sched_turn hp (by simp) (by rfl) (by rfl) i

theorem resume_turn (hp : (t.proc p).state = .running) (i : Slot) :
    Turn t' e i (t.standing i) ((resume c p t).standing i) := by
  simp only [resume]
  split
  · exact .keep _
  · exact .keep _
  · exact Turn.set_same (.keep _) (by rfl)
  · have hset : (t.set p { t.proc p with chan := none }).standing i = t.standing i :=
      standing_set_same (by rfl) i
    rw [← hset]
    exact waitScan_turn (by simp [Table.set, hp]) i

/-! ### Events -/

theorem entered_schedule (h : (scheduler c t).1 = some p) :
    entered t (.schedule c) = switched c p { t with rseed := random t.rseed } := by
  simp only [entered, dispatched, h]

theorem entered_none (h : dispatched t e = none) : entered t e = t := by
  cases e with
  | schedule c => simp only [entered, h]
  | _ => rfl

theorem dispatched_runnable (h : dispatched t e = some p) : (t.proc p).state = .runnable := by
  cases e with
  | schedule c =>
    rcases scheduler_cases c t with ⟨q, hq, hrun, -⟩ | ⟨hnone, -⟩
    · have heq : q = p := Option.some.inj (hq.symm.trans h)
      rwa [← heq]
    · rw [dispatched, hnone] at h
      cases h
  | _ => cases h

theorem entered_standing (t : Table) (e : Event) (i : Slot) :
    (entered t e).standing i =
      if dispatched t e = some i then { t.standing i with state := .running } else t.standing i := by
  cases hd : dispatched t e with
  | none => simp [entered_none hd]
  | some p =>
    cases e with
    | schedule c =>
      rw [entered_schedule hd, switched]
      refine (standing_set _ _ _ _).trans ?_
      simp only [Option.some.injEq]
      split_ifs with h₁ h₂ h₂
      · subst h₁
        rfl
      · exact absurd h₁.symm h₂
      · exact absurd h₂.symm h₁
      · rfl
    | _ => cases hd

theorem cpu_running (h : (t.tree rs).Sound) (hc : t.cpu c = some p) : (t.proc p).state = .running :=
  h.threads.running c p hc

theorem forking_embryo (h : (t.tree rs).Sound) (hp : (t.proc p).thread = .forking np) :
    (t.proc np).state = .embryo :=
  (h.threads.forking p np hp).2.1

/-- Every event takes each slot through at most one turn. -/
theorem step_turn (hsound : (t.tree rs).Sound) (h : step t e = some t') (i : Slot) :
    Turn t e i ((entered t e).standing i) (t'.standing i) := by
  cases e with
  | userinit =>
    simp only [step] at h
    split at h
    · cases h
    · obtain ⟨⟨np, t₁⟩, ha, rfl⟩ := Option.map_eq_some_iff.mp h
      exact allocproc_turn ha i
  | userinitDone =>
    simp only [step] at h
    split at h
    · next p hp =>
      split_ifs at h with he
      cases h
      refine Turn.set ?_ i
      have hstart : started t .userinitDone = some p := hp
      rw [entered_none rfl, standing_eq he]
      exact .start hstart le_rfl
    · cases h
  | schedule c =>
    simp only [step] at h
    split at h
    · cases h
      rcases scheduler_cases c t with ⟨p, hp, hrun, heq⟩ | ⟨hnone, heq⟩
      · rw [heq, entered_schedule hp]
        exact resume_turn (by simp [switched, Table.set]) i
      · have hd : dispatched t (.schedule c) = none := hnone
        rw [entered_none hd]
        rcases heq with heq | heq
        · rw [heq]
          exact .keep _
        · rw [heq]
          exact .keep _
    · cases h
  | fork c =>
    obtain ⟨p, hc, -, hf⟩ := syscall_eq h
    split at hf
    · next np t₁ ha =>
      cases hf
      exact Turn.set_same (allocproc_turn ha i) (by rfl)
    · cases hf
      exact .keep _
  | forkFail c =>
    obtain ⟨p, np, hc, hth, rfl⟩ := infork_eq h
    refine Turn.set_same (Turn.set ?_ i) (by rfl)
    rw [entered_none rfl, standing_eq (forking_embryo hsound hth)]
    exact .fail
  | forkDone c =>
    obtain ⟨p, np, hc, hth, rfl⟩ := infork_eq h
    refine Turn.set_same (Turn.set ?_ i) (by rfl)
    have hstart : started t (.forkDone c) = some np := by
      simp only [started, hc, Option.bind_some, hth]
    rw [entered_none rfl, standing_eq (forking_embryo hsound hth)]
    refine .start hstart ?_
    split_ifs with hle
    · exact le_rfl
    · exact (not_le.mp hle).le
  | settickets c n =>
    obtain ⟨p, hc, -, hf⟩ := syscall_eq h
    cases hf
    simp only [sysSettickets, settickets]
    split_ifs with hn
    · exact .keep _
    · refine Turn.set ?_ i
      rw [entered_none rfl, standing_eq (cpu_running hsound hc)]
      simp only [Proc.standing, cpu_running hsound hc]
      exact .settickets rfl hc (not_lt.mp hn)
  | sleep c chan =>
    obtain ⟨p, hc, -, hf⟩ := syscall_eq h
    cases hf
    exact sched_turn (cpu_running hsound hc) (by simp) (by rfl) (by rfl) i
  | wakeup chan =>
    cases h
    exact (wakeup1_woken _ t).turn i
  | yield c =>
    obtain ⟨p, hc, rfl⟩ := Option.map_eq_some_iff.mp h
    exact sched_turn (cpu_running hsound hc) (by simp) (by rfl) (by rfl) i
  | kill pid =>
    cases h
    exact (kill_woken pid t).turn i
  | exit c =>
    obtain ⟨p, hc, -, hf⟩ := syscall_eq h
    split at hf
    · split_ifs at hf with hne
      cases hf
      exact exit_turn (cpu_running hsound hc) i
    · cases hf
  | wait c =>
    obtain ⟨p, hc, -, hf⟩ := syscall_eq h
    cases hf
    exact waitScan_turn (cpu_running hsound hc) i

end Xv6.Ptable
