import Xv6.ProcFamily
import Xv6.WorkConservation

/-!
# Runs of the process table and the process tree

Every event of the process table is a sequence of changes of its tree, so the invariant of the
tree holds in every table that a run reaches, as long as `nextpid` does not overflow. `returned`
says which child a call of `wait` has reaped in an event.
-/

namespace Xv6.Ptable

open Function
open Relation (ReflTransGen)

variable {t t' : Table} {c : Nat} {p np : Slot} {rs : List Int}

def Table.tree (t : Table) (reaped : List Int) : Tree where
  state i := (t.proc i).state
  pid i := (t.proc i).pid
  parent i := (t.proc i).parent
  chan i := (t.proc i).chan
  thread i := (t.proc i).thread
  cpu := t.cpu
  initproc := t.initproc
  nextpid := t.nextpid
  reaped := reaped

theorem tree_set (t : Table) (i : Slot) (x : Proc) (rs : List Int) : (t.set i x).tree rs =
    { t.tree rs with
      state := update (t.tree rs).state i x.state
      pid := update (t.tree rs).pid i x.pid
      parent := update (t.tree rs).parent i x.parent
      chan := update (t.tree rs).chan i x.chan
      thread := update (t.tree rs).thread i x.thread } := by
  have hset : ∀ {β : Type} (f : Proc → β), (fun j => f ((t.set i x).proc j)) =
      update (fun j => f (t.proc j)) i (f x) := by
    intro β f
    funext j
    rcases eq_or_ne j i with rfl | hj
    · simp [Table.set]
    · simp [Table.set, hj]
  simp only [Table.tree]
  rw [hset Proc.state, hset Proc.pid, hset Proc.parent, hset Proc.chan, hset Proc.thread]
  rfl

theorem tree_setCpu (t : Table) (c : Nat) (x : Option Slot) (rs : List Int) :
    (t.setCpu c x).tree rs = { t.tree rs with cpu := update (t.tree rs).cpu c x } := rfl

@[simp] theorem update_state : update (t.tree rs).state p (t.proc p).state = (t.tree rs).state :=
  update_eq_self p _

@[simp] theorem update_pid : update (t.tree rs).pid p (t.proc p).pid = (t.tree rs).pid :=
  update_eq_self p _

@[simp] theorem update_parent :
    update (t.tree rs).parent p (t.proc p).parent = (t.tree rs).parent :=
  update_eq_self p _

@[simp] theorem update_chan : update (t.tree rs).chan p (t.proc p).chan = (t.tree rs).chan :=
  update_eq_self p _

@[simp] theorem update_thread :
    update (t.tree rs).thread p (t.proc p).thread = (t.tree rs).thread :=
  update_eq_self p _

theorem tree_setThread (t : Table) (p : Slot) (th : Thread) (rs : List Int) :
    (t.set p { t.proc p with thread := th }).tree rs =
      { t.tree rs with thread := update (t.tree rs).thread p th } := by
  rw [tree_set]
  simp only [update_state, update_pid, update_parent, update_chan]

theorem tree_sched (c : Nat) (p : Slot) (t : Table) (rs : List Int) :
    (sched c p t).tree rs = { t.tree rs with cpu := update t.cpu c none } := by
  rw [sched, tree_set, tree_setCpu]
  have h : ∀ {β : Type} (f : Slot → β), update f p (f p) = f := fun f => update_eq_self p f
  simp only [Table.tree, h (fun i => (t.proc i).state), h (fun i => (t.proc i).pid),
    h (fun i => (t.proc i).parent), h (fun i => (t.proc i).chan), h (fun i => (t.proc i).thread)]

/-! ### Single operations -/

theorem allocproc_tree (h : allocproc t = some (np, t')) :
    (t.proc np).state = .unused ∧ t'.tree rs =
      { t.tree rs with
        state := update (t.tree rs).state np .embryo
        pid := update (t.tree rs).pid np t.nextpid
        nextpid := wrap32 (t.nextpid + 1) } := by
  unfold allocproc at h
  split at h
  · cases h
  · next i hi =>
    have hunused := List.find?_some hi
    simp only [decide_eq_true_eq] at hunused
    cases h
    refine ⟨hunused, ?_⟩
    have htree := tree_set t np { t.proc np with state := .embryo, pid := t.nextpid } rs
    simp only [update_parent, update_chan, update_thread] at htree
    have hnext : ({ t.set np { t.proc np with state := .embryo, pid := t.nextpid } with
        nextpid := wrap32 (t.nextpid + 1) } : Table).tree rs =
        { (t.set np { t.proc np with state := .embryo, pid := t.nextpid }).tree rs with
          nextpid := wrap32 (t.nextpid + 1) } := rfl
    rw [hnext, htree]

theorem wakeup1_state (chan : Option Chan) (t : Table) (i : Slot) :
    ((wakeup1 chan t).proc i).state = (t.proc i).state ∨
      (t.proc i).state = .sleeping ∧ ((wakeup1 chan t).proc i).state = .runnable := by
  simp only [wakeup1]
  split_ifs with h
  · exact Or.inr ⟨h.1, rfl⟩
  · exact Or.inl rfl

theorem wakeup1_same (chan : Option Chan) (t : Table) (i : Slot) :
    ((wakeup1 chan t).proc i).pid = (t.proc i).pid ∧
      ((wakeup1 chan t).proc i).parent = (t.proc i).parent ∧
      ((wakeup1 chan t).proc i).chan = (t.proc i).chan ∧
      ((wakeup1 chan t).proc i).thread = (t.proc i).thread := by
  simp only [wakeup1]
  split_ifs <;> exact ⟨rfl, rfl, rfl, rfl⟩

theorem wakeup1_tree (chan : Option Chan) (t : Table) (rs : List Int) :
    (wakeup1 chan t).tree rs =
      { t.tree rs with state := fun i => ((wakeup1 chan t).proc i).state } := by
  have h := wakeup1_same chan t
  simp only [Table.tree, (h _).1, (h _).2.1, (h _).2.2.1, (h _).2.2.2]
  rfl

/-- No process sleeps on a channel after it was woken. -/
theorem wakeup1_chan {chan : Chan} {i : Slot}
    (h : ((wakeup1 (some chan) t).proc i).state = .sleeping) : (t.proc i).chan ≠ some chan := by
  intro hc
  simp only [wakeup1] at h
  split_ifs at h with hcond
  exact hcond ⟨h, hc⟩

/-! ### `exit` -/

/-- What `passChildren` has done after the slots of `is`. -/
structure Passed (t t' : Table) (p init : Slot) (is : List Slot) : Prop where
  same : ∀ i, (t'.proc i).pid = (t.proc i).pid ∧ (t'.proc i).chan = (t.proc i).chan ∧
    (t'.proc i).thread = (t.proc i).thread
  parent : ∀ i, (t'.proc i).parent =
    if i ∈ is ∧ (t.proc i).parent = some p then some init else (t.proc i).parent
  state : ∀ i, (t'.proc i).state = (t.proc i).state ∨
    (t.proc i).state = .sleeping ∧ (t'.proc i).state = .runnable
  woken : (∃ j ∈ is, (t.proc j).parent = some p ∧ (t.proc j).state = .zombie) →
    ∀ i, (t'.proc i).state = .sleeping → (t.proc i).chan ≠ some (.proc init)
  frame : t'.cpu = t.cpu ∧ t'.initproc = t.initproc ∧ t'.nextpid = t.nextpid

theorem Passed.refl (t : Table) (p init : Slot) : Passed t t p init [] :=
  ⟨fun _ => ⟨rfl, rfl, rfl⟩, fun _ => by simp, fun _ => Or.inl rfl, by simp, ⟨rfl, rfl, rfl⟩⟩

theorem Passed.snoc {init : Slot} {is : List Slot} (h : Passed t t' p init is) {j : Slot}
    (hj : j ∉ is) : Passed t
      (if (t'.proc j).parent = some p then
        let t' := t'.set j { t'.proc j with parent := some init }
        if (t'.proc j).state = .zombie then wakeup1 (some (.proc init)) t' else t'
      else t') p init (is ++ [j]) := by
  have hpar : (t'.proc j).parent = (t.proc j).parent := by
    rw [h.parent j, if_neg (fun hc => hj hc.1)]
  -- the part of the statement about parents, whatever happens to the states
  have hlist : ∀ i, (if i = j ∧ (t.proc j).parent = some p then some init else (t'.proc i).parent) =
      if i ∈ is ++ [j] ∧ (t.proc i).parent = some p then some init else (t.proc i).parent := by
    intro i
    rcases eq_or_ne i j with rfl | hij
    · simp [hpar]
    · simp [hij, h.parent i]
  split_ifs with hp
  · rw [hpar] at hp
    have hset : ∀ i, (t'.set j { t'.proc j with parent := some init }).proc i =
        if i = j then { t'.proc j with parent := some init } else t'.proc i := by
      intro i
      rcases eq_or_ne i j with rfl | hij <;> simp [Table.set, *]
    obtain ⟨t₁, ht₁⟩ : ∃ t₁, t₁ = t'.set j { t'.proc j with parent := some init } := ⟨_, rfl⟩
    have hsame : ∀ i, (t₁.proc i).pid = (t.proc i).pid ∧ (t₁.proc i).chan = (t.proc i).chan ∧
        (t₁.proc i).thread = (t.proc i).thread ∧ (t₁.proc i).state = (t'.proc i).state := by
      intro i
      obtain ⟨h₁, h₂, h₃⟩ := h.same i
      rw [ht₁, hset]
      rcases eq_or_ne i j with rfl | hij
      · simp [h₁, h₂, h₃]
      · simp [hij, h₁, h₂, h₃]
    have hparent : ∀ i, (t₁.proc i).parent =
        if i ∈ is ++ [j] ∧ (t.proc i).parent = some p then some init else (t.proc i).parent := by
      intro i
      rw [← hlist i, ht₁, hset]
      rcases eq_or_ne i j with rfl | hij
      · simp [hp]
      · simp [hij]
    have hframe : t₁.cpu = t.cpu ∧ t₁.initproc = t.initproc ∧ t₁.nextpid = t.nextpid := by
      rw [ht₁]
      exact h.frame
    simp only [← ht₁]
    split_ifs with hz
    · refine ⟨?_, ?_, ?_, ?_, hframe⟩
      · intro i
        obtain ⟨h₁, -, h₃, h₄⟩ := wakeup1_same (some (.proc init)) t₁ i
        rw [h₁, h₃, h₄]
        exact ⟨(hsame i).1, (hsame i).2.1, (hsame i).2.2.1⟩
      · intro i
        rw [(wakeup1_same (some (.proc init)) t₁ i).2.1, hparent]
      · intro i
        rcases wakeup1_state (some (.proc init)) t₁ i with heq | ⟨hs, hr⟩
        · rw [heq, (hsame i).2.2.2]
          exact h.state i
        · rw [(hsame i).2.2.2] at hs
          rcases h.state i with heq | ⟨hs', -⟩
          · exact Or.inr ⟨heq ▸ hs, hr⟩
          · exact Or.inr ⟨hs', hr⟩
      · intro _ i hi
        rw [← (hsame i).2.1]
        exact wakeup1_chan hi
    · refine ⟨fun i => ⟨(hsame i).1, (hsame i).2.1, (hsame i).2.2.1⟩, hparent, ?_, ?_, hframe⟩
      · intro i
        rw [(hsame i).2.2.2]
        exact h.state i
      · rintro ⟨l, hl, hlp, hlz⟩ i hi
        rw [(hsame i).2.2.2] at hi
        refine h.woken ⟨l, ?_, hlp, hlz⟩ i hi
        refine (List.mem_append.mp hl).resolve_right (fun hlj => hz ?_)
        rw [List.mem_singleton.mp hlj] at hlz
        rw [(hsame j).2.2.2]
        rcases h.state j with heq | ⟨hs, -⟩
        · rw [heq, hlz]
        · simp [hlz] at hs
  · rw [hpar] at hp
    refine ⟨h.same, ?_, h.state, ?_, h.frame⟩
    · intro i
      rw [← hlist i, if_neg (fun hc => hp hc.2)]
    · rintro ⟨l, hl, hlp, hlz⟩
      refine h.woken ⟨l, (List.mem_append.mp hl).resolve_right (fun hlj => hp ?_), hlp, hlz⟩
      rwa [← List.mem_singleton.mp hlj]

theorem passChildren_passed (p init : Slot) (t : Table) :
    Passed t (passChildren p init t) p init slots := by
  -- the slots that are left follow those that have been passed
  suffices hall : ∀ (rest is : List Slot) (t' : Table), (is ++ rest).Nodup → Passed t t' p init is →
      Passed t (rest.foldl (fun t i =>
        if (t.proc i).parent = some p then
          let t := t.set i { t.proc i with parent := some init }
          if (t.proc i).state = .zombie then wakeup1 (some (.proc init)) t else t
        else t) t') p init (is ++ rest) from
    hall slots [] t (List.nodup_finRange NPROC) (Passed.refl t p init)
  intro rest
  induction rest with
  | nil =>
    intro is t' _ h
    rwa [List.append_nil]
  | cons j rest ih =>
    intro is t' hnodup h
    rw [List.append_cons] at hnodup ⊢
    have hj : j ∉ is := by
      have := (List.nodup_append.mp hnodup).1
      rw [List.nodup_append] at this
      exact fun hc => this.2.2 j hc j (List.mem_singleton_self j) rfl
    exact ih (is ++ [j]) _ hnodup (h.snoc hj)

theorem exit_tree {init : Slot} (hc : t.cpu c = some p) (hp : (t.proc p).thread = .user)
    (hinit : t.initproc = some init) (hne : p ≠ init) :
    Change (t.tree rs) ((exit c p init t).tree rs) := by
  obtain ⟨t₁, ht₁⟩ : ∃ t₁, t₁ = wakeup1 ((t.proc p).parent.map Chan.proc) t := ⟨_, rfl⟩
  have hw₁ : ∀ i, (t₁.proc i).state = (t.proc i).state ∨
      (t.proc i).state = .sleeping ∧ (t₁.proc i).state = .runnable := by
    rw [ht₁]
    exact wakeup1_state _ t
  have hs₁ : ∀ i, (t₁.proc i).pid = (t.proc i).pid ∧ (t₁.proc i).parent = (t.proc i).parent ∧
      (t₁.proc i).chan = (t.proc i).chan ∧ (t₁.proc i).thread = (t.proc i).thread := by
    rw [ht₁]
    exact wakeup1_same _ t
  have hpass := passChildren_passed p init t₁
  obtain ⟨t₂, ht₂⟩ : ∃ t₂, t₂ = passChildren p init t₁ := ⟨_, rfl⟩
  rw [← ht₂] at hpass
  have hframe : t₂.cpu = t.cpu ∧ t₂.initproc = t.initproc ∧ t₂.nextpid = t.nextpid := by
    have := hpass.frame
    rw [ht₁] at this
    exact this
  have hw₂ : ∀ i, (t₂.proc i).state = (t.proc i).state ∨
      (t.proc i).state = .sleeping ∧ (t₂.proc i).state = .runnable := by
    intro i
    rcases hpass.state i with heq | ⟨hs, hr⟩
    · rw [heq]
      exact hw₁ i
    · rcases hw₁ i with heq | ⟨hs', -⟩
      · exact Or.inr ⟨heq ▸ hs, hr⟩
      · exact Or.inr ⟨hs', hr⟩
  -- who sleeps at the end has slept all the time
  have hsleep₁ : ∀ i, (t₂.proc i).state = .sleeping → (t₁.proc i).state = .sleeping := by
    intro i hi
    rcases hpass.state i with heq | ⟨hs, -⟩
    · rwa [← heq]
    · exact hs
  have htree : (exit c p init t).tree rs = { t.tree rs with
      state := update (fun i => (t₂.proc i).state) p .zombie
      parent := fun i => if (t.proc i).parent = some p then some init else (t.proc i).parent
      cpu := update t.cpu c none } := by
    simp only [exit, ← ht₁, ← ht₂, tree_sched, tree_set, update_pid, update_parent, update_chan,
      update_thread]
    have h₁ : ∀ i, (t₂.proc i).pid = (t.proc i).pid := fun i =>
      (hpass.same i).1.trans (hs₁ i).1
    have h₂ : ∀ i, (t₂.proc i).chan = (t.proc i).chan := fun i =>
      (hpass.same i).2.1.trans (hs₁ i).2.2.1
    have h₃ : ∀ i, (t₂.proc i).thread = (t.proc i).thread := fun i =>
      (hpass.same i).2.2.trans (hs₁ i).2.2.2
    have h₄ : ∀ i, (t₂.proc i).parent =
        if (t.proc i).parent = some p then some init else (t.proc i).parent := by
      intro i
      rw [hpass.parent i, (hs₁ i).2.1]
      simp [mem_slots]
    simp only [Table.tree, Table.set, h₁, h₂, h₃, h₄, hframe]
  rw [htree]
  refine Change.exit hc hp hinit hne hw₂ ?_ ?_
  · intro i hi hchan hpar
    have hi₁ := hsleep₁ i hi
    rw [ht₁, show (t.proc p).parent = some i from hpar] at hi₁
    exact wakeup1_chan hi₁ hchan
  · intro hi hchan j hj hz
    refine hpass.woken ⟨j, mem_slots j, ?_, ?_⟩ init hi ?_
    · rw [(hs₁ j).2.1]
      exact hj
    · rcases hw₁ j with heq | ⟨hs, -⟩
      · rw [heq]
        exact hz
      · simp [show (t.proc j).state = .zombie from hz] at hs
    · rw [(hs₁ init).2.2.1]
      exact hchan

/-! ### `wait` -/

/-- The pid that a round of `wait` returns. -/
def WaitResult.pid : WaitResult → Option Int
  | .reaped pid => some pid
  | .failed | .slept => none

theorem waitScan_tree (hc : t.cpu c = some p) :
    ReflTransGen Change { t.tree rs with thread := update (t.tree rs).thread p .user }
      ((waitScan c p t).2.tree (rs ++ (waitScan c p t).1.pid.toList)) := by
  have hthread : update (t.tree rs).thread p .user p = .user := update_self _ _ _
  simp only [waitScan]
  split
  · next i hi =>
    have hfound := List.find?_some hi
    simp only [decide_eq_true_eq] at hfound
    have hreap := Change.reap (v := { t.tree rs with
      thread := update (t.tree rs).thread p .user }) (c := c) (p := p) (i := i) hc hthread
      hfound.1 hfound.2
    refine ReflTransGen.single ?_
    convert hreap using 1
    rw [tree_setThread, tree_set]
    simp only [update_chan, update_thread]
    rfl
  · next hnone =>
    have hkids : ∀ i, (t.proc i).parent = some p → (t.proc i).state ≠ .zombie := by
      intro i hpar hz
      have := List.find?_eq_none.mp hnone i (mem_slots i)
      simp [hpar, hz] at this
    split_ifs
    · simp only [WaitResult.pid, Option.toList_none, List.append_nil, tree_setThread]
      exact .refl
    · have hwait := Change.wait (v := { t.tree rs with
        thread := update (t.tree rs).thread p .user }) (c := c) (p := p) hc hthread hkids
      refine ReflTransGen.single ?_
      convert hwait using 1
      simp only [WaitResult.pid, Option.toList_none, List.append_nil, sleep, tree_sched, tree_set,
        update_pid, update_parent, update_idem]
      rfl

/-- The pid that `wait` returns is the one of a zombie whose parent the caller is. -/
theorem waitScan_pid {pid : Int} (h : (waitScan c p t).1.pid = some pid) :
    ∃ i, (t.proc i).state = .zombie ∧ (t.proc i).pid = pid ∧ (t.proc i).parent = some p := by
  simp only [waitScan] at h
  split at h
  · next i hi =>
    have hfound := List.find?_some hi
    simp only [decide_eq_true_eq] at hfound
    exact ⟨i, hfound.2, Option.some.inj h, hfound.1⟩
  · split_ifs at h <;> cases h

/-! ### The scheduler -/

/-- The table that a process finds when `swtch` has given it the processor. -/
def switched (c : Nat) (p : Slot) (t : Table) : Table :=
  (t.setCpu c (some p)).set p { t.proc p with state := .running }

theorem switched_tree (c : Nat) (p : Slot) (t : Table) (rs : List Int) :
    (switched c p t).tree rs = { t.tree rs with
      state := update (t.tree rs).state p .running
      cpu := update (t.tree rs).cpu c (some p) } := by
  rw [switched, tree_set, tree_setCpu]
  simp only [update_pid, update_parent, update_chan, update_thread]

/-- What `wait` returns in a process that is resumed inside its loop. -/
def resumeReturned (c : Nat) (p : Slot) (t : Table) : Option Int :=
  match (t.proc p).thread with
  | .waiting => (waitScan c p (t.set p { t.proc p with chan := none })).1.pid
  | _ => none

theorem resume_tree (hc : t.cpu c = some p) :
    ReflTransGen Change (t.tree rs)
      ((resume c p t).tree (rs ++ (resumeReturned c p t).toList)) := by
  simp only [resume, resumeReturned]
  split
  · next hth => simp [hth, ReflTransGen.refl]
  · next hth => simp [hth, ReflTransGen.refl]
  · next hth =>
    have hres := Change.resume (v := t.tree rs) hc (Or.inl hth)
    simp only [hth, Option.toList_none, List.append_nil, tree_set, update_state, update_pid,
      update_parent]
    exact .single hres
  · next hth =>
    have hres := Change.resume (v := t.tree rs) hc (Or.inr hth)
    simp only [hth]
    refine .head hres ?_
    have hscan := @waitScan_tree (t.set p { t.proc p with chan := none }) c p rs hc
    simp only [tree_set, update_state, update_pid, update_parent, update_thread] at hscan
    simpa only [hth] using hscan

theorem dispatch_tree (hc : t.cpu c = none) (hp : (t.proc p).state = .runnable) :
    ReflTransGen Change (t.tree rs)
      ((dispatch c p t).tree (rs ++ (resumeReturned c p (switched c p t)).toList)) := by
  have hdisp := Change.dispatch (v := t.tree rs) hc hp
  rw [← switched_tree] at hdisp
  exact .head hdisp (resume_tree (by simp [switched, Table.set, Table.setCpu]))

/-- A pass that switches to a process has drawn it among the runnable ones. -/
theorem scheduler_cases (c : Nat) (t : Table) :
    (∃ p, (scheduler c t).1 = some p ∧ (t.proc p).state = .runnable ∧
      (scheduler c t).2 = dispatch c p { t with rseed := random t.rseed }) ∨
    (scheduler c t).1 = none ∧ ((scheduler c t).2 = t ∨
      (scheduler c t).2 = { t with rseed := random t.rseed }) := by
  simp only [scheduler]
  split_ifs
  · split
    · next p hp => exact Or.inl ⟨p, rfl, findWinner_runnable hp, rfl⟩
    · exact Or.inr ⟨rfl, Or.inr rfl⟩
  · exact Or.inr ⟨rfl, Or.inl rfl⟩

/-! ### Events -/

/-- The caller and the pid, if a call of `wait` returns a pid in the event. -/
def returned (t : Table) : Event → Option (Slot × Int)
  | .wait c => (t.cpu c).bind (fun p => (waitScan c p t).1.pid.map (fun pid => (p, pid)))
  | .schedule c => (scheduler c t).1.bind (fun p =>
    (resumeReturned c p (switched c p { t with rseed := random t.rseed })).map
      (fun pid => (p, pid)))
  | _ => none

/-- The pids that the event adds to those returned by `wait`. -/
def returnedPids (t : Table) (e : Event) : List Int := ((returned t e).map Prod.snd).toList

/-- The events that call `allocproc`. -/
def Event.allocates : Event → Bool
  | .userinit | .fork _ => true
  | _ => false

variable {e : Event}

theorem append_returnedPids (h : returned t e = none) : rs ++ returnedPids t e = rs := by
  rw [returnedPids, h]
  exact List.append_nil rs

theorem map_pair_snd (p : Slot) (o : Option Int) :
    (o.map (fun pid => (p, pid))).map Prod.snd = o := by
  rw [Option.map_map]
  exact Option.map_id'

theorem syscall_eq {f : Slot → Option Table} (h : syscall c t f = some t') :
    ∃ p, t.cpu c = some p ∧ (t.proc p).thread = .user ∧ f p = some t' := by
  simp only [syscall] at h
  split at h
  · next p hp =>
    split_ifs at h with hth
    exact ⟨p, hp, hth, h⟩
  · cases h

theorem infork_eq {f : Slot → Slot → Table} (h : infork c t f = some t') :
    ∃ p np, t.cpu c = some p ∧ (t.proc p).thread = .forking np ∧
      t' = (f p np).set p { (f p np).proc p with thread := .user } := by
  simp only [infork] at h
  split at h
  · next p hp =>
    split at h
    · next np hth => exact ⟨p, np, hp, hth, (Option.some.inj h).symm⟩
    · cases h
  · cases h

theorem kill_tree (pid : Int) (t : Table) (rs : List Int) :
    Change (t.tree rs) ((kill pid t).2.tree rs) := by
  simp only [kill]
  split
  · exact Change.wake (fun _ => Or.inl rfl)
  · next i hi =>
    rw [tree_set]
    simp only [update_pid, update_parent, update_chan, update_thread]
    refine Change.wake (fun j => ?_)
    rcases eq_or_ne j i with rfl | hj
    · rw [update_self]
      split_ifs with hs
      · exact Or.inr ⟨hs, rfl⟩
      · exact Or.inl rfl
    · exact Or.inl (update_of_ne hj _ _)

/-- Every event is a call of `allocproc` or a sequence of changes of the tree. -/
theorem step_tree (h : step t e = some t') (rs : List Int) :
    e.allocates = true ∧ returned t e = none ∧ Alloc (t.tree rs) (t'.tree rs) ∨
      ReflTransGen Change (t.tree rs) (t'.tree (rs ++ returnedPids t e)) := by
  cases e with
  | userinit =>
    simp only [step] at h
    split at h
    · cases h
    · next hinit =>
      obtain ⟨⟨np, t₁⟩, ha, rfl⟩ := Option.map_eq_some_iff.mp h
      obtain ⟨hnp, htree⟩ := @allocproc_tree t t₁ np rs ha
      have hset : ({ t₁ with initproc := some np } : Table).tree rs =
          { t₁.tree rs with initproc := some np } := rfl
      refine Or.inl ⟨rfl, rfl, ?_⟩
      rw [hset, htree]
      exact Alloc.init hinit hnp
  | userinitDone =>
    simp only [step] at h
    split at h
    · next p hp =>
      split_ifs at h with he
      cases h
      have hch := Change.startInit (v := t.tree rs) hp he
      rw [append_returnedPids rfl,
        userinitDone, tree_set]
      simp only [update_pid, update_parent, update_chan, update_thread]
      exact Or.inr (.single hch)
    · cases h
  | schedule c =>
    simp only [step] at h
    split at h
    · next hc =>
      cases h
      rcases scheduler_cases c t with ⟨p, hp, hrun, heq⟩ | ⟨hnone, heq⟩
      · have hd := @dispatch_tree { t with rseed := random t.rseed } c p rs hc hrun
        rw [heq, returnedPids, returned, hp, Option.bind_some, map_pair_snd]
        exact Or.inr hd
      · rw [append_returnedPids (by rw [returned, hnone, Option.bind_none])]
        rcases heq with heq | heq
        · rw [heq]
          exact Or.inr .refl
        · rw [heq]
          exact Or.inr .refl
    · cases h
  | fork c =>
    obtain ⟨p, hc, hth, hf⟩ := syscall_eq h
    split at hf
    · next np t₁ ha =>
      cases hf
      obtain ⟨hnp, htree⟩ := @allocproc_tree t t₁ np rs ha
      refine Or.inl ⟨rfl, rfl, ?_⟩
      rw [tree_setThread, htree]
      exact Alloc.fork hc hth hnp
    · cases hf
      rw [append_returnedPids rfl]
      exact Or.inr .refl
  | forkFail c =>
    obtain ⟨p, np, hc, hth, rfl⟩ := infork_eq h
    have hch := Change.failFork (v := t.tree rs) hc hth
    rw [append_returnedPids rfl,
      tree_setThread, forkFail, tree_set]
    simp only [update_pid, update_parent, update_chan, update_thread]
    exact Or.inr (.single hch)
  | forkDone c =>
    obtain ⟨p, np, hc, hth, rfl⟩ := infork_eq h
    have hch := Change.startFork (v := t.tree rs) hc hth
    rw [append_returnedPids rfl,
      tree_setThread, forkDone, tree_set]
    simp only [update_pid, update_chan, update_thread]
    exact Or.inr (.single hch)
  | settickets c n =>
    obtain ⟨p, hc, hth, hf⟩ := syscall_eq h
    cases hf
    rw [append_returnedPids rfl]
    simp only [sysSettickets, settickets]
    split_ifs
    · exact Or.inr .refl
    · rw [tree_set]
      simp only [update_state, update_pid, update_parent, update_chan, update_thread]
      exact Or.inr .refl
  | sleep c chan =>
    obtain ⟨p, hc, hth, hf⟩ := syscall_eq h
    cases hf
    have hch := @Change.sleep (t.tree rs) c p chan hc hth
    rw [append_returnedPids rfl, sleep,
      tree_sched, tree_set]
    simp only [update_pid, update_parent]
    exact Or.inr (.single hch)
  | wakeup chan =>
    cases h
    rw [append_returnedPids rfl,
      wakeup1_tree]
    exact Or.inr (.single (Change.wake (wakeup1_state (some chan) t)))
  | yield c =>
    obtain ⟨p, hc, rfl⟩ := Option.map_eq_some_iff.mp h
    have hch := Change.yield (v := t.tree rs) hc
    rw [append_returnedPids rfl, yield,
      tree_sched, tree_set]
    simp only [update_pid, update_parent, update_chan, update_thread]
    exact Or.inr (.single hch)
  | kill pid =>
    cases h
    rw [append_returnedPids rfl]
    exact Or.inr (.single (kill_tree pid t rs))
  | exit c =>
    obtain ⟨p, hc, hth, hf⟩ := syscall_eq h
    rw [append_returnedPids rfl]
    split at hf
    · next init hinit =>
      split_ifs at hf with hne
      cases hf
      exact Or.inr (.single (exit_tree hc hth hinit hne))
    · cases hf
  | wait c =>
    obtain ⟨p, hc, hth, hf⟩ := syscall_eq h
    cases hf
    have hscan := @waitScan_tree t c p rs hc
    have huser : update (t.tree rs).thread p .user = (t.tree rs).thread := by
      rw [← hth]
      exact update_thread
    rw [huser] at hscan
    rw [returnedPids, returned, hc, Option.bind_some, map_pair_snd]
    exact Or.inr hscan

/-- Whoever gets a pid from `wait` is the parent of the zombie that has the pid. -/
theorem returned_zombie {pid : Int} (h : returned t e = some (p, pid)) :
    ∃ i, (t.proc i).state = .zombie ∧ (t.proc i).pid = pid ∧ (t.proc i).parent = some p := by
  cases e with
  | wait c =>
    obtain ⟨q, -, hq⟩ := Option.bind_eq_some_iff.mp h
    obtain ⟨r, hr, heq⟩ := Option.map_eq_some_iff.mp hq
    cases heq
    exact waitScan_pid hr
  | schedule c =>
    obtain ⟨q, -, hq⟩ := Option.bind_eq_some_iff.mp h
    obtain ⟨r, hr, heq⟩ := Option.map_eq_some_iff.mp hq
    cases heq
    simp only [resumeReturned] at hr
    split at hr
    · obtain ⟨i, hz, hpid, hpar⟩ := waitScan_pid hr
      have hip : i ≠ p := by
        rintro rfl
        simp [switched, Table.set] at hz
      simp only [switched, Table.set, Table.setCpu, update_of_ne hip] at hz hpid hpar
      exact ⟨i, hz, hpid, hpar⟩
    · cases hr
  | _ => cases h

/-! ### Runs -/

/-- A table with the pids that calls of `wait` have returned and the number of calls of
`allocproc`. -/
structure Watched where
  table : Table
  returned : List Int
  allocs : Nat

def watch (w : Watched) (e : Event) : Option Watched :=
  (step w.table e).map (fun t =>
    { table := t
      returned := w.returned ++ returnedPids w.table e
      allocs := w.allocs + if e.allocates then 1 else 0 })

def watchedBoot : Watched := ⟨boot, [], 0⟩

structure Watched.Ok (w : Watched) : Prop where
  tree : (w.table.tree w.returned).Ok
  nextpid : w.table.nextpid ≤ w.allocs + 1

theorem boot_sound (rs : List Int) : (boot.tree rs).Sound := by
  refine ⟨⟨?_, ?_, ?_, ?_, fun _ _ => rfl⟩, fun _ _ => rfl, ?_⟩
  · exact fun c p hc => absurd hc (by simp [boot, Table.tree])
  · exact fun c c' p hc => absurd hc (by simp [boot, Table.tree])
  · exact fun p np hp => absurd hp (by simp [boot, Table.tree])
  · exact fun p q np hp => absurd hp (by simp [boot, Table.tree])
  · exact fun i hi => absurd hi (by simp [boot, Table.tree])

theorem step_sound (h : (t.tree rs).Sound) (hs : step t e = some t') :
    (t'.tree (rs ++ returnedPids t e)).Sound := by
  rcases step_tree hs rs with ⟨-, hret, ha⟩ | hc
  · rw [append_returnedPids hret]
    exact h.alloc ha
  · exact h.changes hc

theorem watchedBoot_ok : watchedBoot.Ok := by
  refine ⟨⟨boot_sound [], ⟨?_, ?_, ?_, ?_, ?_, List.nodup_nil, Int.one_pos⟩, ?_, ?_⟩, le_refl _⟩
  · exact fun i hi => absurd rfl hi
  · exact fun i j hi => absurd rfl hi
  · exact fun p np hp => absurd hp (by simp [watchedBoot, boot, Table.tree])
  · exact fun r hr => absurd hr List.not_mem_nil
  · exact fun r hr => absurd hr List.not_mem_nil
  · intro i hi
    simp [watchedBoot, boot, Table.tree, ProcState.started, ProcState.active] at hi
  · exact fun i hi => absurd hi (by simp [watchedBoot, boot, Table.tree])

theorem watch_ok {w w' : Watched} (h : w.allocs < 2 ^ 31 - 1 → w.Ok)
    (hw : watch w e = some w') : w'.allocs < 2 ^ 31 - 1 → w'.Ok := by
  intro hlt
  obtain ⟨t', ht', rfl⟩ := Option.map_eq_some_iff.mp hw
  simp only at hlt
  have hok := h (by omega)
  have hpos : 0 < w.table.nextpid := hok.tree.pids.pos
  have hn := hok.nextpid
  rcases step_tree ht' w.returned with ⟨he, hret, ha⟩ | hc
  · simp only [he, if_true] at hlt
    have hbound : w.table.nextpid < 2 ^ 31 - 1 := by omega
    refine ⟨?_, ?_⟩
    · rw [append_returnedPids hret]
      exact hok.tree.alloc ha hbound
    · have hnext : t'.nextpid = wrap32 (w.table.nextpid + 1) := ha.nextpid
      simp only [hnext, he, if_true]
      rw [wrap32_of_range (by omega) (by omega)]
      omega
  · refine ⟨hok.tree.changes hc, ?_⟩
    have hnext : t'.nextpid = w.table.nextpid := Change.nextpid_eq hc
    simp only [hnext]
    omega

/-- The tree of processes as `wait`, `exit` and `kill` rely on it. -/
structure WellFormedTree (t : Table) : Prop where
  pid_pos : ∀ i, (t.proc i).state ≠ .unused → 0 < (t.proc i).pid
  pid_inj : ∀ i j, (t.proc i).state ≠ .unused → (t.proc j).state ≠ .unused →
    (t.proc i).pid = (t.proc j).pid → i = j
  parent : ∀ i, (t.proc i).state.started → t.initproc ≠ some i → ∃ q, (t.proc i).parent = some q ∧
    (t.proc q).state ≠ .unused ∧ (t.proc q).state ≠ .zombie ∧
    (t.initproc = some q ∨ (t.proc q).pid < (t.proc i).pid)
  ancestor : ∀ i, (t.proc i).state.started → ∃ init, t.initproc = some init ∧
    ReflTransGen (fun j q => (t.proc j).parent = some q) i init
  waiting : ∀ i, (t.proc i).state = .sleeping → (t.proc i).thread = .waiting →
    ∀ j, (t.proc j).parent = some i → (t.proc j).state ≠ .zombie

theorem Tree.Ok.wellFormed (h : (t.tree rs).Ok) : WellFormedTree t where
  pid_pos i hi := (h.pids.range i hi).1
  pid_inj := h.pids.inj
  parent i hi hne := by
    obtain ⟨q, hq, hqa, hlt⟩ := h.family.parent i hi hne
    have hqs : (t.proc q).state.active := hqa
    refine ⟨q, hq, ?_, ?_, hlt⟩
    · intro hc
      simp [hc, ProcState.active] at hqs
    · intro hc
      simp [hc, ProcState.active] at hqs
  ancestor _ hi := h.ancestor hi
  waiting i hi hth := (h.family.waiting i hi hth).2

/-- The process tree is well formed in every table that a run reaches, no pid is returned by two
calls of `wait`, and a pid that `wait` returns next is the one of a child of the caller. -/
theorem watched_wellFormed {es : List Event} {w : Watched} (h : run watch watchedBoot es = some w)
    (hlt : w.allocs < 2 ^ 31 - 1) :
    WellFormedTree w.table ∧ w.returned.Nodup ∧
      ∀ e p pid, returned w.table e = some (p, pid) → pid ∉ w.returned ∧
        ∃ i, (w.table.proc i).state = .zombie ∧ (w.table.proc i).pid = pid ∧
          (w.table.proc i).parent = some p := by
  have hok : w.Ok := run_invariant watch (I := fun w => w.allocs < 2 ^ 31 - 1 → w.Ok)
    (fun _ _ _ h hw => watch_ok h hw) (fun _ => watchedBoot_ok) h hlt
  refine ⟨hok.tree.wellFormed, hok.tree.pids.once, ?_⟩
  intro e p pid hret
  obtain ⟨i, hz, hpid, hpar⟩ := returned_zombie hret
  refine ⟨?_, i, hz, hpid, hpar⟩
  intro hmem
  have hlive : (w.table.tree w.returned).state i ≠ .unused := by
    intro hc
    simp [Table.tree, hz] at hc
  exact hok.tree.pids.gone pid hmem i hlive hpid

/-- Init forks and waits; the child runs and exits, and init reaps it. -/
def childReaped : List Event :=
  [.userinit, .userinitDone, .schedule 0, .fork 0, .forkDone 0, .wait 0, .schedule 0, .exit 0,
    .schedule 0]

theorem childReaped_wellFormed : ∃ w, run watch watchedBoot childReaped = some w ∧
    w.returned = [2] ∧ WellFormedTree w.table := by
  have h : (run watch watchedBoot childReaped).isSome = true ∧
      ((run watch watchedBoot childReaped).map Watched.returned) = some [2] ∧
      ((run watch watchedBoot childReaped).map Watched.allocs) = some 2 := by decide +kernel
  obtain ⟨w, hw⟩ := Option.isSome_iff_exists.mp h.1
  rw [hw] at h
  have hallocs : w.allocs = 2 := Option.some.inj h.2.2
  exact ⟨w, hw, Option.some.inj h.2.1, (watched_wellFormed hw (by omega)).1⟩

end Xv6.Ptable
