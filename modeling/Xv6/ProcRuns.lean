import Xv6.ProcTurns

/-!
# States, tickets and ticks over whole runs

In every table that a run reaches, the RUNNING processes are the ones on the processors, every
process that was started has its ten tickets, and its ticks are the dispatches since its `fork`
that have come to an end. Each of these follows from the turns that an event can take.
-/

namespace Xv6.Ptable

open Function
open Relation (ReflTransGen ReflGen)

variable {t t' : Table} {e : Event} {es : List Event} {c : Nat} {p np i : Slot} {rs : List Int}

theorem sound_of_run (h : run step boot es = some t) : ∃ rs, (t.tree rs).Sound :=
  run_invariant step (I := fun t => ∃ rs, (t.tree rs).Sound)
    (fun _ _ _ ⟨_, hs⟩ ht => ⟨_, step_sound hs ht⟩) ⟨[], boot_sound []⟩ h

/-! ### States -/

/-- The changes of `p->state` that there are. -/
inductive StateChange : ProcState → ProcState → Prop
  | alloc : StateChange .unused .embryo
  | start : StateChange .embryo .runnable
  | fail : StateChange .embryo .unused
  | dispatch : StateChange .runnable .running
  | yield : StateChange .running .runnable
  | sleep : StateChange .running .sleeping
  | wake : StateChange .sleeping .runnable
  | exit : StateChange .running .zombie
  | reap : StateChange .zombie .unused

/-- Every RUNNING process is on a processor. -/
def Tree.Placed (v : Tree) : Prop := ∀ p, v.state p = .running → ∃ c, v.cpu c = some p

variable {v v' : Tree} {s s' : Standing}

namespace Tree.Placed

variable (h : v.Placed)
include h

theorem mono (hcpu : v'.cpu = v.cpu)
    (hs : ∀ p, v'.state p = .running → v.state p = .running) : v'.Placed := by
  intro p hp
  rw [hcpu]
  exact h p (hs p hp)

theorem restate {s : ProcState} (hcpu : v'.cpu = v.cpu)
    (hs : v'.state = update v.state p s) (hrun : s ≠ .running) : v'.Placed := by
  refine h.mono hcpu ?_
  intro q hq
  rw [hs] at hq
  rcases eq_or_ne q p with rfl | hne
  · rw [update_self] at hq
    exact absurd hq hrun
  · rwa [update_of_ne hne] at hq

theorem leave (hc : v.cpu c = some p)
    (hcpu : v'.cpu = Function.update v.cpu c none) (hp : v'.state p ≠ .running)
    (hs : ∀ q, v'.state q = .running → q ≠ p → v.state q = .running) : v'.Placed := by
  intro q hq
  have hne : q ≠ p := by
    rintro rfl
    exact hp hq
  obtain ⟨c', hc'⟩ := h q (hs q hq hne)
  have hcc : c' ≠ c := by
    rintro rfl
    exact hne (Option.some.inj (hc'.symm.trans hc))
  refine ⟨c', ?_⟩
  rw [hcpu, update_of_ne hcc, hc']

theorem alloc (hc : Alloc v v') : v'.Placed := by
  cases hc with
  | init hinit hnp => exact h.restate rfl rfl (by simp)
  | fork hc hp hnp => exact h.restate rfl rfl (by simp)

theorem change (hc : Change v v') : v'.Placed := by
  have hother : ∀ {p s} q, update v.state p s q = .running → q ≠ p → v.state q = .running := by
    intro p s q hq hne
    rwa [update_of_ne hne] at hq
  cases hc with
  | startInit hinit hp => exact h.restate rfl rfl (by simp)
  | startFork hc hp => exact h.restate rfl rfl (by simp)
  | failFork hc hp => exact h.restate rfl rfl (by simp)
  | @dispatch c p hc hp =>
    intro q hq
    rcases eq_or_ne q p with rfl | hne
    · exact ⟨c, update_self _ _ _⟩
    · obtain ⟨c', hc'⟩ := h q (hother q hq hne)
      have hcc : c' ≠ c := by
        rintro rfl
        simp [hc] at hc'
      exact ⟨c', (update_of_ne hcc _ _).trans hc'⟩
  | resume hc hp => exact h.mono rfl (fun _ hq => hq)
  | reap hc hp hpar hi => exact h.restate rfl rfl (by simp)
  | wait hc hp hnone => exact h.leave hc rfl (by simp) hother
  | sleep hc hp => exact h.leave hc rfl (by simp) hother
  | wake hw =>
    refine h.mono rfl ?_
    intro q hq
    rcases hw q with heq | ⟨-, hr⟩
    · exact heq.symm.trans hq
    · simp [hr] at hq
  | yield hc => exact h.leave hc rfl (by simp) hother
  | exit hc hp hinit hne hw hparent horphan =>
    refine h.leave hc rfl (by simp) ?_
    intro q hq hqp
    simp only [update_of_ne hqp] at hq
    rcases hw q with heq | ⟨-, hr⟩
    · exact heq.symm.trans hq
    · simp [hr] at hq

end Tree.Placed

theorem step_placed (h : (t.tree rs).Placed) (hs : step t e = some t') : (t'.tree rs).Placed := by
  rcases step_tree hs rs with ⟨-, -, ha⟩ | hc
  · exact h.alloc ha
  · have hall : ∀ v, ReflTransGen Change (t.tree rs) v → v.Placed := by
      intro v hv
      induction hv with
      | refl => exact h
      | tail _ hc ih => exact ih.change hc
    have hplaced : (t'.tree (rs ++ returnedPids t e)).Placed := hall _ hc
    exact hplaced

theorem placed_of_run (h : run step boot es = some t) : (t.tree []).Placed :=
  run_invariant step (I := fun t => (t.tree []).Placed) (fun _ _ _ => step_placed)
    (fun p hp => absurd hp (by simp [boot, Table.tree])) h

theorem Turn.stateChange (h : Turn t e i s s') : ReflGen StateChange s.state s'.state := by
  cases h with
  | keep => exact .refl
  | alloc => exact .single .alloc
  | fail => exact .single .fail
  | start => exact .single .start
  | leave hs =>
    rcases hs with rfl | rfl | rfl
    · exact .single .yield
    · exact .single .sleep
    · exact .single .exit
  | wake => exact .single .wake
  | reap => exact .single .reap
  | settickets => exact .refl

theorem entered_stateChange (t : Table) (e : Event) (i : Slot) :
    ReflGen StateChange (t.proc i).state ((entered t e).proc i).state := by
  have hs := congrArg Standing.state (entered_standing t e i)
  split_ifs at hs with hd
  · have hrun : ((entered t e).proc i).state = .running := hs
    rw [hrun, dispatched_runnable hd]
    exact .single .dispatch
  · have hsame : ((entered t e).proc i).state = (t.proc i).state := hs
    rw [hsame]

/-- A process is RUNNING if and only if exactly one processor has it, no two processors have the
same, only RUNNABLE processes are dispatched, and every event changes the state of a process only
along `StateChange`: once when it is dispatched and at most once before the lock is free again. -/
theorem running_iff_on_cpu (h : run step boot es = some t) :
    (∀ p, (t.proc p).state = .running ↔ ∃! c, t.cpu c = some p) ∧
    (∀ c c' p, t.cpu c = some p → t.cpu c' = some p → c = c') ∧
    ∀ e t', step t e = some t' →
      (∀ p, dispatched t e = some p → (t.proc p).state = .runnable) ∧
      ∀ i, ReflGen StateChange (t.proc i).state ((entered t e).proc i).state ∧
        ReflGen StateChange ((entered t e).proc i).state (t'.proc i).state := by
  obtain ⟨rs, hsound⟩ := sound_of_run h
  refine ⟨?_, hsound.threads.cpu, ?_⟩
  · intro p
    constructor
    · intro hp
      obtain ⟨c, hc⟩ := placed_of_run h p hp
      exact ⟨c, hc, fun c' hc' => hsound.threads.cpu c' c p hc' hc⟩
    · rintro ⟨c, hc, -⟩
      exact hsound.threads.running c p hc
  · intro e t' hs
    refine ⟨fun p => dispatched_runnable, fun i => ⟨entered_stateChange t e i, ?_⟩⟩
    exact (step_turn hsound hs i).stateChange

theorem childReaped_on_cpu : ∃ t, run step boot childReaped = some t ∧
    ∀ p, (t.proc p).state = .running ↔ ∃! c, t.cpu c = some p := by
  have h : (run step boot childReaped).isSome = true := by decide +kernel
  obtain ⟨t, ht⟩ := Option.isSome_iff_exists.mp h
  exact ⟨t, ht, (running_iff_on_cpu ht).1⟩

/-! ### Tickets -/

theorem Turn.tickets_ge (h : Turn t e i s s') (hs : s.state.started → 10 ≤ s.tickets)
    (hs' : s'.state.started) : 10 ≤ s'.tickets := by
  cases h with
  | keep => exact hs hs'
  | alloc => simp [ProcState.started, ProcState.active] at hs'
  | fail => simp [ProcState.started, ProcState.active] at hs'
  | start hi hn => exact hn
  | leave => exact hs (by simp [ProcState.started, ProcState.active])
  | wake => exact hs (by simp [ProcState.started, ProcState.active])
  | reap => simp [ProcState.started, ProcState.active] at hs'
  | settickets he hc hn => exact hn

/-- A process that has been started keeps its tickets, unless it sets them itself. -/
theorem Turn.tickets_eq (h : Turn t e i s s') (hs : s.state.started) :
    s'.tickets = s.tickets ∨
      ∃ c, e = .settickets c s'.tickets ∧ t.cpu c = some i ∧ 10 ≤ s'.tickets := by
  cases h with
  | start => simp [ProcState.started, ProcState.active] at hs
  | settickets he hc hn => exact Or.inr ⟨_, he, hc, hn⟩
  | _ => exact Or.inl rfl

theorem entered_started (t : Table) (e : Event) (i : Slot) :
    (((entered t e).proc i).state.started ↔ (t.proc i).state.started) ∧
      ((entered t e).proc i).tickets = (t.proc i).tickets := by
  have h := entered_standing t e i
  split_ifs at h with hd
  · have hrun : ((entered t e).proc i).state = .running := congrArg Standing.state h
    refine ⟨?_, congrArg Standing.tickets h⟩
    simp [hrun, dispatched_runnable hd, ProcState.started, ProcState.active]
  · have hsame : ((entered t e).proc i).state = (t.proc i).state := congrArg Standing.state h
    exact ⟨by rw [hsame], congrArg Standing.tickets h⟩

def Ticketed (t : Table) : Prop := ∀ i, (t.proc i).state.started → 10 ≤ (t.proc i).tickets

theorem step_ticketed (hsound : (t.tree rs).Sound) (h : Ticketed t) (hs : step t e = some t') :
    Ticketed t' := by
  intro i hi
  obtain ⟨hst, htk⟩ := entered_started t e i
  refine (step_turn hsound hs i).tickets_ge ?_ hi
  intro hi'
  have hge := h i (hst.mp hi')
  rwa [← htk] at hge

theorem ticketed_of_run (h : run step boot es = some t) : Ticketed t := by
  have hall : (∃ rs, (t.tree rs).Sound) ∧ Ticketed t :=
    run_invariant step (I := fun t => (∃ rs, (t.tree rs).Sound) ∧ Ticketed t)
      (fun _ _ _ ⟨⟨_, hsound⟩, htk⟩ hs => ⟨⟨_, step_sound hsound hs⟩, step_ticketed hsound htk hs⟩)
      ⟨⟨[], boot_sound []⟩,
        fun i hi => by simp [boot, ProcState.started, ProcState.active] at hi⟩ h
  exact hall.2

theorem forkDone_tickets (hsound : (t.tree rs).Sound) (htk : Ticketed t) (hc : t.cpu c = some p)
    (hp : (t.proc p).thread = .forking np) (hs : step t (.forkDone c) = some t') :
    (t'.proc np).tickets = (t.proc p).tickets := by
  obtain ⟨q, nq, hcq, hq, rfl⟩ := infork_eq hs
  obtain rfl : p = q := Option.some.inj (hc.symm.trans hcq)
  obtain rfl : np = nq := Thread.forking.inj (hp.symm.trans hq)
  have hrun := cpu_running hsound hc
  have hne : np ≠ p := by
    rintro rfl
    have he := forking_embryo hsound hp
    simp [hrun] at he
  have hge : 10 ≤ (t.proc p).tickets :=
    htk p (by simp [hrun, ProcState.started, ProcState.active])
  simp only [Table.set, forkDone, update_of_ne hne, update_self]
  split_ifs with hle
  · exact le_antisymm hge hle
  · rfl

/-- Every started process has ten tickets or more, a child has those of its parent, and the tickets
of a process change only by its own calls of `settickets`, which accept numbers from ten on. -/
theorem tickets_kept (h : run step boot es = some t) :
    (∀ i, (t.proc i).state = .sleeping ∨ (t.proc i).state = .runnable ∨
      (t.proc i).state = .running ∨ (t.proc i).state = .zombie → 10 ≤ (t.proc i).tickets) ∧
    (∀ c p np t', t.cpu c = some p → (t.proc p).thread = .forking np →
      step t (.forkDone c) = some t' → (t'.proc np).tickets = (t.proc p).tickets) ∧
    (∀ p n, sysSettickets p n t =
      if 10 ≤ n then (0, t.set p { t.proc p with tickets := n }) else (-1, t)) ∧
    ∀ e t' i, step t e = some t' → (t.proc i).state.started →
      (t'.proc i).tickets = (t.proc i).tickets ∨
        ∃ c, e = .settickets c (t'.proc i).tickets ∧ t.cpu c = some i ∧
          10 ≤ (t'.proc i).tickets := by
  obtain ⟨rs, hsound⟩ := sound_of_run h
  have htk := ticketed_of_run h
  refine ⟨?_, ?_, ?_, ?_⟩
  · intro i hi
    refine htk i ?_
    simp only [ProcState.started, ProcState.active]
    tauto
  · exact fun c p np t' hc hp hs => forkDone_tickets hsound htk hc hp hs
  · intro p n
    simp only [sysSettickets, settickets]
    split_ifs with h₁ h₂ h₂
    · omega
    · rfl
    · rfl
    · omega
  · intro e t' i hs hi
    obtain ⟨hst, heq⟩ := entered_started t e i
    have hturn := (step_turn hsound hs i).tickets_eq (hst.mpr hi)
    rw [← heq]
    exact hturn

theorem childReaped_tickets : ∃ t, run step boot childReaped = some t ∧
    ∀ p n, sysSettickets p n t =
      if 10 ≤ n then (0, t.set p { t.proc p with tickets := n }) else (-1, t) := by
  have h : (run step boot childReaped).isSome = true := by decide +kernel
  obtain ⟨t, ht⟩ := Option.isSome_iff_exists.mp h
  exact ⟨t, ht, (tickets_kept ht).2.2.1⟩

/-! ### Ticks -/

/-- What happens to a process as the scheduler sees it. -/
inductive Entry
  | started (i : Slot)
  | dispatched (i : Slot)
  deriving DecidableEq

/-- A table with the entries of all events so far, the latest first. -/
structure Logged where
  table : Table
  log : List Entry

def entries (t : Table) (e : Event) : List Entry :=
  [((started t e).map Entry.started).toList, ((dispatched t e).map Entry.dispatched).toList].flatten

def logStep (l : Logged) (e : Event) : Option Logged :=
  (step l.table e).map (fun t => ⟨t, entries l.table e ++ l.log⟩)

/-- How often process `i` was dispatched since it was started. -/
def dispatchCount (i : Slot) : List Entry → Nat
  | [] => 0
  | .started j :: log => if j = i then 0 else dispatchCount i log
  | .dispatched j :: log => if j = i then dispatchCount i log + 1 else dispatchCount i log

/-- The dispatch of a process that is on a processor has not come to its end. -/
def unfinished (s : ProcState) : Nat := if s = .running then 1 else 0

def Accounted (log : List Entry) (t : Table) : Prop :=
  ∀ i, (t.proc i).state.started →
    (t.proc i).ticks = wrap32 (dispatchCount i log - unfinished (t.proc i).state)

theorem started_embryo (hsound : (t.tree rs).Sound) (hs : step t e = some t')
    (hi : started t e = some i) : (t.proc i).state = .embryo := by
  cases e with
  | userinitDone =>
    simp only [step, show t.initproc = some i from hi] at hs
    split_ifs at hs with he
    exact he
  | forkDone c =>
    obtain ⟨p, np, hc, hth, -⟩ := infork_eq hs
    simp only [started, hc, Option.bind_some, hth] at hi
    cases hi
    exact forking_embryo hsound hth
  | _ => cases hi

/-- No event both starts and dispatches. -/
theorem started_or_dispatched (t : Table) (e : Event) :
    dispatched t e = none ∨ started t e = none := by
  cases e with
  | schedule c => exact Or.inr rfl
  | _ => exact Or.inl rfl

theorem dispatchCount_started (log : List Entry) (hi : started t e = some i) :
    dispatchCount i (entries t e ++ log) = 0 := by
  simp [entries, hi, dispatchCount]

theorem dispatchCount_other (log : List Entry) (hi : started t e ≠ some i) :
    dispatchCount i (entries t e ++ log) =
      dispatchCount i log + if dispatched t e = some i then 1 else 0 := by
  rcases started_or_dispatched t e with hd | hst
  · cases hst : started t e with
    | none => simp [entries, hd, hst]
    | some j =>
      have hji : j ≠ i := by
        rintro rfl
        exact hi hst
      simp [entries, hd, hst, dispatchCount, hji]
  · cases hd : dispatched t e with
    | none => simp [entries, hd, hst]
    | some j =>
      rcases eq_or_ne j i with rfl | hji
      · simp [entries, hd, hst, dispatchCount]
      · simp [entries, hd, hst, dispatchCount, hji]

theorem Turn.ticks_start (h : Turn t e i s s') (hs : s.state = .embryo)
    (hs' : s'.state.started) : s'.state = .runnable ∧ s'.ticks = 0 := by
  cases h with
  | start => exact ⟨rfl, rfl⟩
  | keep =>
    rw [hs] at hs'
    simp [ProcState.started, ProcState.active] at hs'
  | fail => simp [ProcState.started, ProcState.active] at hs'
  | _ => cases hs

/-- A turn counts a dispatch when it ends. -/
theorem Turn.ticks_eq {n : Int} (h : Turn t e i s s') (hi : started t e ≠ some i)
    (hs' : s'.state.started) (hs : s.state.started → s.ticks = wrap32 (n - unfinished s.state)) :
    s'.ticks = wrap32 (n - unfinished s'.state) := by
  cases h with
  | keep => exact hs hs'
  | alloc => simp [ProcState.started, ProcState.active] at hs'
  | fail => simp [ProcState.started, ProcState.active] at hs'
  | start hst hn => exact absurd hst hi
  | @leave tickets ticks s hst =>
    have hold : ticks = wrap32 (n - 1) := hs (by simp [ProcState.started, ProcState.active])
    have hnew : unfinished s = 0 := by
      rcases hst with rfl | rfl | rfl <;> rfl
    simp [hold, hnew]
  | wake => exact hs (by simp [ProcState.started, ProcState.active])
  | reap => simp [ProcState.started, ProcState.active] at hs'
  | settickets => exact hs (by simp [ProcState.started, ProcState.active])

theorem entered_ticks {log : List Entry} (h : Accounted log t)
    (hi : ((entered t e).proc i).state.started) : ((entered t e).proc i).ticks =
      wrap32 ((dispatchCount i log + if dispatched t e = some i then 1 else 0 : Nat) -
        unfinished ((entered t e).proc i).state) := by
  have hst := (entered_started t e i).1.mp hi
  have hold := h i hst
  have hen := entered_standing t e i
  split_ifs at hen ⊢ with hd
  · have hticks : ((entered t e).proc i).ticks = (t.proc i).ticks := congrArg Standing.ticks hen
    have hrun : ((entered t e).proc i).state = .running := congrArg Standing.state hen
    rw [hticks, hold, hrun, dispatched_runnable hd]
    simp [unfinished]
  · have hticks : ((entered t e).proc i).ticks = (t.proc i).ticks := congrArg Standing.ticks hen
    have hsame : ((entered t e).proc i).state = (t.proc i).state := congrArg Standing.state hen
    rw [hticks, hold, hsame, Nat.add_zero]

theorem step_accounted {log : List Entry} (hsound : (t.tree rs).Sound) (h : Accounted log t)
    (hs : step t e = some t') : Accounted (entries t e ++ log) t' := by
  intro i hi
  have hturn := step_turn hsound hs i
  by_cases hst : started t e = some i
  · -- a process starts without ticks, whatever the slot had before
    have hd : dispatched t e = none :=
      (started_or_dispatched t e).resolve_right (by simp [hst])
    rw [entered_none hd] at hturn
    obtain ⟨hrun, hticks⟩ := hturn.ticks_start (started_embryo hsound hs hst) hi
    have hrun' : (t'.proc i).state = .runnable := hrun
    have hticks' : (t'.proc i).ticks = 0 := hticks
    simp [hticks', hrun', dispatchCount_started log hst, unfinished]
  · rw [dispatchCount_other log hst]
    exact hturn.ticks_eq hst hi (entered_ticks h)

/-- The ticks of a started process are the dispatches since it was started, without the one that
goes on if it is RUNNING. -/
theorem ticks_accounted {l : Logged} (h : run logStep ⟨boot, []⟩ es = some l) :
    ∀ i, (l.table.proc i).state = .sleeping ∨ (l.table.proc i).state = .runnable ∨
      (l.table.proc i).state = .running ∨ (l.table.proc i).state = .zombie →
      (l.table.proc i).ticks = wrap32 (dispatchCount i l.log -
        if (l.table.proc i).state = .running then 1 else 0) := by
  have hinv : (∃ rs, (l.table.tree rs).Sound) ∧ Accounted l.log l.table := by
    refine run_invariant logStep (I := fun l => (∃ rs, (l.table.tree rs).Sound) ∧
      Accounted l.log l.table) ?_ ⟨⟨[], boot_sound []⟩, ?_⟩ h
    · rintro l e l' ⟨⟨rs, hsound⟩, hacc⟩ hl
      obtain ⟨t', ht', rfl⟩ := Option.map_eq_some_iff.mp hl
      exact ⟨⟨_, step_sound hsound ht'⟩, step_accounted hsound hacc ht'⟩
    · intro i hi
      simp [boot, ProcState.started, ProcState.active] at hi
  intro i hi
  have hst : (l.table.proc i).state.started := by
    simp only [ProcState.started, ProcState.active]
    tauto
  have hticks := hinv.2 i hst
  simpa [unfinished] using hticks

/-- Init waits for its child; both have been dispatched, init twice. -/
theorem childReaped_ticks : ∃ l, run logStep ⟨boot, []⟩ childReaped = some l ∧
    (l.table.proc 0).ticks = 1 ∧ dispatchCount 0 l.log = 2 := by
  have h : (run logStep ⟨boot, []⟩ childReaped).isSome = true ∧
      (run logStep ⟨boot, []⟩ childReaped).map (fun l => (l.table.proc 0).state) = some .running ∧
      (run logStep ⟨boot, []⟩ childReaped).map (fun l => dispatchCount 0 l.log) = some 2 := by
    decide +kernel
  obtain ⟨l, hl⟩ := Option.isSome_iff_exists.mp h.1
  rw [hl] at h
  have hrun : (l.table.proc 0).state = .running := Option.some.inj h.2.1
  have hdisp : dispatchCount 0 l.log = 2 := Option.some.inj h.2.2
  have hticks := ticks_accounted hl 0 (by simp [hrun])
  refine ⟨l, hl, ?_, hdisp⟩
  rw [hticks, hdisp, hrun]
  decide

end Xv6.Ptable
