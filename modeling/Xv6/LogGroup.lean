import Xv6.LogReserve

/-!
# Group commit

Operations of any number of processes share one transaction, which the last of them to end
commits. Here an operation may log as many blocks as it likes. `Group` records, next to the log,
the blocks logged since the last commit ended and the blocks that the commit in progress has
copied to the log and installed.
-/

namespace Xv6.Log

open Function

variable {N : Nat}

def Op.proc : Op N → Fin N
  | .beginOp p | .logCheck p _ | .logAppend p | .endOp p | .commit p | .endCommit p => p

theorem setPc_of_ne (s : State N) {p q : Fin N} (v : Pc) (h : q ≠ p) :
    (s.setPc p v).pc q = s.pc q := update_of_ne h _ _

/-- A process is not moved by the steps of others. -/
theorem logStep_pc_of_ne {s s' : State N} {o : Op N} (h : logStep s o = some s') {q : Fin N}
    (hq : q ≠ o.proc) : s'.pc q = s.pc q := by
  cases steps_of_limitStep h with
  | beginOp | logAppend | endCommit => exact setPc_of_ne s _ hq
  | logCheck =>
    unfold logCheck
    split_ifs
    · rfl
    · rfl
    · exact setPc_of_ne s _ hq
  | endOp =>
    simp only [endOp]
    split_ifs
    · rfl
    · exact setPc_of_ne _ _ hq
    · exact setPc_of_ne _ _ hq
  | commit hc =>
    obtain ⟨-, ⟨v, -, rfl⟩ | ⟨-, rfl⟩⟩ := commitStep_cases hc
    · exact setPc_of_ne s v hq
    · exact setPc_of_ne s _ hq

structure Group (N : Nat) where
  log : State N
  /-- The blocks logged since the last commit ended. -/
  logged : Finset Nat
  /-- The blocks that `write_log` of the commit in progress has copied. -/
  copied : Finset Nat
  /-- The blocks that `install_trans` of the commit in progress has written. -/
  installed : Finset Nat

def Group.init (N : Nat) : Group N := ⟨initlog N, ∅, ∅, ∅⟩

/-- What an event adds to the records, in the state before it. -/
def Group.record (g : Group N) : Op N → Group N
  | .logAppend p =>
    match g.log.pc p with
    | .checked _ b => { g with logged := insert b g.logged }
    | _ => g
  | .endOp _ => { g with copied := ∅, installed := ∅ }
  | .commit p =>
    match g.log.pc p with
    | .writeLog tail => { g with copied := g.copied ∪ (g.log.lh[tail]?).toFinset }
    | .install tail => { g with installed := g.installed ∪ (g.log.lh[tail]?).toFinset }
    | _ => g
  | .endCommit _ => { g with logged := ∅ }
  | _ => g

def groupStep (g : Group N) (o : Op N) : Option (Group N) :=
  (logStep g.log o).map (fun s => { g.record o with log := s })

/-! ### The records -/

theorem toFinset_take_succ (bs : List Nat) (tail : Nat) :
    (bs.take (tail + 1)).toFinset = (bs.take tail).toFinset ∪ (bs[tail]?).toFinset := by
  rw [List.take_add_one, List.toFinset_append]
  congr 1
  cases bs[tail]? <;> rfl

/-- How far the commit has come that a process at `pc` performs. -/
def Group.Done (g : Group N) : Pc → Prop
  | .writeLog tail => tail ≤ g.log.lh.length ∧ g.logged = g.log.lh.toFinset ∧
      g.copied = (g.log.lh.take tail).toFinset ∧ g.installed = ∅
  | .writeHead => g.logged = g.log.lh.toFinset ∧ g.copied = g.logged ∧ g.installed = ∅
  | .install tail => tail ≤ g.log.lh.length ∧ g.logged = g.log.lh.toFinset ∧
      g.copied = g.logged ∧ g.installed = (g.log.lh.take tail).toFinset
  | .clearHead => g.copied = g.logged ∧ g.installed = g.logged
  | .committed => g.log.lh = [] ∧ g.copied = g.logged ∧ g.installed = g.logged
  | _ => True

structure Isolated (g : Group N) : Prop where
  serial : Serial g.log.outstanding g.log.committing g.log.pc
  panic : g.log.panic ≠ some "log.committing"
  logged : (∀ p, ¬ (g.log.pc p).inCommit) → g.logged = g.log.lh.toFinset
  done : ∀ p, g.Done (g.log.pc p)

theorem Group.done_of_not_inCommit (g : Group N) {v : Pc} (h : ¬ v.inCommit) : g.Done v := by
  cases v with
  | idle => trivial
  | op logged => trivial
  | checked logged b => trivial
  | _ => exact absurd trivial h

namespace Isolated

variable {g : Group N} {p : Fin N} {v : Pc}

variable {g' : Group N} {logged : Finset Nat}

/-- Without a commit in progress nothing is asked of the records but `logged`. -/
theorem of_quiet (hs : Serial g'.log.outstanding g'.log.committing g'.log.pc)
    (hpanic : g'.log.panic ≠ some "log.committing") (hl : g'.logged = g'.log.lh.toFinset)
    (hq : ∀ q, ¬ (g'.log.pc q).inCommit) : Isolated g' :=
  ⟨hs, hpanic, fun _ => hl, fun q => g'.done_of_not_inCommit (hq q)⟩

theorem not_inCommit (h : Isolated g) (hp : (g.log.pc p).inOp = 1) (q : Fin N) :
    ¬ (g.log.pc q).inCommit := by
  intro hq
  have := h.serial.not_inOp hq p
  omega

theorem update_not_inCommit {pc : Fin N → Pc} (h : ∀ q, ¬ (pc q).inCommit) (hv : ¬ v.inCommit)
    (q : Fin N) : ¬ (update pc p v q).inCommit := by
  by_cases hq : q = p
  · rwa [hq, update_self]
  · rw [update_of_ne hq]
    exact h q

section

variable (h : Isolated g)
include h

theorem beginOp (hpc : g.log.pc p = .idle) (hc : g.log.committing = false) :
    Isolated { g with log :=
      { g.log.setPc p (.op ∅) with outstanding := g.log.outstanding + 1 } } := by
  have hq : ∀ q, ¬ (g.log.pc q).inCommit := by
    intro q hq
    have := h.serial.committing q hq
    rw [hc] at this
    cases this
  exact of_quiet (h.serial.begin hpc hc) h.panic (h.logged hq)
    (update_not_inCommit hq (by simp [Pc.inCommit]))

theorem setPc (hp : (g.log.pc p).inOp = 1) (hv : v.inOp = 1) :
    Isolated { g with log := g.log.setPc p v } := by
  have hq := h.not_inCommit hp
  have hvc : ¬ v.inCommit := fun hc => by
    have := hc.inOp
    omega
  have hmove : Serial g.log.outstanding g.log.committing (update g.log.pc p v) :=
    h.serial.move (by rw [hp, hv]) h.serial.quiet (fun hc => absurd hc hvc)
  exact of_quiet hmove h.panic (h.logged hq) (update_not_inCommit hq hvc)

theorem logCheck {b : Nat} (hpc : g.log.pc p = .op logged) :
    Isolated { g with log := Log.logCheck p logged b g.log } := by
  have hp : (g.log.pc p).inOp = 1 := by rw [hpc]; rfl
  simp only [Log.logCheck]
  split_ifs
  · exact of_quiet h.serial (by simp) (h.logged (h.not_inCommit hp)) (h.not_inCommit hp)
  · exact of_quiet h.serial (by simp) (h.logged (h.not_inCommit hp)) (h.not_inCommit hp)
  · exact h.setPc hp rfl

theorem logAppend {b : Nat}
    (hpc : g.log.pc p = .checked logged b) :
    Isolated { g with log := Log.logAppend p logged b g.log, logged := insert b g.logged } := by
  have hp : (g.log.pc p).inOp = 1 := by rw [hpc]; rfl
  have hnext := h.setPc (v := .op (insert b logged)) hp rfl
  refine of_quiet hnext.serial hnext.panic ?_ (update_not_inCommit (h.not_inCommit hp) id)
  simp only [Log.logAppend, h.logged (h.not_inCommit hp)]
  split_ifs with hb
  · exact Finset.insert_eq_of_mem (List.mem_toFinset.mpr hb)
  · rw [List.toFinset_append, Finset.union_comm]
    rfl

theorem endOp (hpc : g.log.pc p = .op logged) :
    Isolated { g with log := Log.endOp p g.log, copied := ∅, installed := ∅ } := by
  have hp : (g.log.pc p).inOp = 1 := by rw [hpc]; rfl
  have hq := h.not_inCommit hp
  rcases h.serial.endOp_cases hpc with ⟨heq, hserial⟩ | ⟨heq, hserial⟩
  · rw [heq]
    refine ⟨hserial, h.panic, ?_, ?_⟩
    · intro hnone
      exact absurd trivial (by simpa [State.setPc, Pc.inCommit] using hnone p)
    · intro q
      by_cases hqp : q = p
      · simp only [hqp, State.setPc, update_self]
        exact ⟨Nat.zero_le _, h.logged hq, rfl, rfl⟩
      · apply Group.done_of_not_inCommit
        simp only [State.setPc, update_of_ne hqp]
        exact hq q
  · rw [heq]
    exact of_quiet hserial h.panic (h.logged hq) (update_not_inCommit hq id)

theorem commit (hp : (g.log.pc p).inCommit) (hv : v.inCommit)
    (hlog : g'.log.outstanding = g.log.outstanding ∧ g'.log.committing = g.log.committing ∧
      g'.log.pc = update g.log.pc p v ∧ g'.log.panic = g.log.panic)
    (hdone : g'.Done v) : Isolated g' := by
  obtain ⟨hout, hcom, hpc, hpanic⟩ := hlog
  refine ⟨?_, by rw [hpanic]; exact h.panic, ?_, ?_⟩
  · rw [hout, hcom, hpc]
    exact h.serial.move (by rw [hp.inOp, hv.inOp]) h.serial.quiet (fun _ => hp)
  · intro hnone
    have hpv := hnone p
    rw [hpc, update_self] at hpv
    exact absurd hv hpv
  · intro q
    rw [hpc]
    by_cases hqp : q = p
    · rwa [hqp, update_self]
    · rw [update_of_ne hqp]
      exact g'.done_of_not_inCommit (fun hq => hqp (h.serial.committer q p hq hp))

theorem endCommit (hpc : g.log.pc p = .committed) :
    Isolated { g with log := { g.log.setPc p .idle with committing := false }, logged := ∅ } := by
  have hin : (g.log.pc p).inCommit := by rw [hpc]; trivial
  have hdone := h.done p
  rw [hpc] at hdone
  refine of_quiet (h.serial.leave hin) h.panic ?_ ?_
  · change ∅ = g.log.lh.toFinset
    rw [hdone.1]
    rfl
  · intro q hq
    by_cases hqp : q = p
    · simp only [hqp, State.setPc, update_self] at hq
      exact hq
    · simp only [State.setPc, update_of_ne hqp] at hq
      exact hqp (h.serial.committer q p hq hin)

theorem commitStep {s' : State N} (hs : Log.commitStep p g.log = some s') :
    Isolated { g.record (.commit p) with log := s' } := by
  have hdone := h.done p
  unfold Log.commitStep at hs
  cases hpc : g.log.pc p with
  | writeLog tail =>
    have hin : (g.log.pc p).inCommit := by rw [hpc]; trivial
    rw [hpc] at hdone
    obtain ⟨hle, hl, hcop, hinst⟩ := hdone
    simp only [hpc] at hs
    simp only [Group.record, hpc]
    split_ifs at hs with hempty hlt
    · cases hs
      have hnil : g.log.lh = [] := List.length_eq_zero_iff.mp hempty
      refine h.commit hin (v := .committed) trivial ⟨rfl, rfl, rfl, rfl⟩ ⟨hnil, ?_, ?_⟩
      · simp [hcop, hl, hnil]
      · simp [hinst, hl, hnil]
    · cases hs
      refine h.commit hin (v := .writeLog (tail + 1)) trivial ⟨rfl, rfl, rfl, rfl⟩
        ⟨hlt, hl, ?_, hinst⟩
      simp only [hcop]
      exact (toFinset_take_succ _ _).symm
    · cases hs
      have hall : g.log.lh.take tail = g.log.lh := List.take_of_length_le (by omega)
      refine h.commit hin (v := .writeHead) trivial ⟨rfl, rfl, rfl, rfl⟩ ⟨hl, ?_, hinst⟩
      simp only [hcop, hall, hl, List.getElem?_eq_none (show g.log.lh.length ≤ tail by omega)]
      simp
  | writeHead =>
    have hin : (g.log.pc p).inCommit := by rw [hpc]; trivial
    rw [hpc] at hdone
    obtain ⟨hl, hcop, hinst⟩ := hdone
    simp only [hpc] at hs
    simp only [Group.record, hpc]
    cases hs
    exact h.commit hin (v := .install 0) trivial ⟨rfl, rfl, rfl, rfl⟩
      ⟨Nat.zero_le _, hl, hcop, hinst⟩
  | install tail =>
    have hin : (g.log.pc p).inCommit := by rw [hpc]; trivial
    rw [hpc] at hdone
    obtain ⟨hle, hl, hcop, hinst⟩ := hdone
    simp only [hpc] at hs
    simp only [Group.record, hpc]
    split_ifs at hs with hlt
    · cases hs
      refine h.commit hin (v := .install (tail + 1)) trivial ⟨rfl, rfl, rfl, rfl⟩
        ⟨hlt, hl, hcop, ?_⟩
      simp only [hinst]
      exact (toFinset_take_succ _ _).symm
    · cases hs
      have hall : g.log.lh.take tail = g.log.lh := List.take_of_length_le (by omega)
      refine h.commit hin (v := .clearHead) trivial ⟨rfl, rfl, rfl, rfl⟩ ⟨hcop, ?_⟩
      simp only [hinst, hall, hl, List.getElem?_eq_none (show g.log.lh.length ≤ tail by omega)]
      simp
  | clearHead =>
    have hin : (g.log.pc p).inCommit := by rw [hpc]; trivial
    rw [hpc] at hdone
    simp only [hpc] at hs
    simp only [Group.record, hpc]
    cases hs
    exact h.commit hin (v := .committed) trivial ⟨rfl, rfl, rfl, rfl⟩ ⟨rfl, hdone⟩
  | _ => simp [hpc] at hs

theorem step {o : Op N} (hs : groupStep g o = some g') : Isolated g' := by
  obtain ⟨s', hs', rfl⟩ := Option.map_eq_some_iff.mp hs
  cases steps_of_limitStep hs' with
  | beginOp hpc hc => exact h.beginOp hpc hc
  | logCheck hpc => exact h.logCheck hpc
  | logAppend hpc =>
    simp only [Group.record, hpc]
    exact h.logAppend hpc
  | endOp hpc => exact h.endOp hpc
  | commit hc => exact h.commitStep hc
  | endCommit hpc => exact h.endCommit hpc

end

theorem init (N : Nat) : Isolated (Group.init N) :=
  of_quiet (.init N) (by simp [Group.init, initlog]) rfl (fun _ => id)

theorem committer_only (h : Isolated g) (hp : (g.log.pc p).inCommit) {o : Op N}
    (hs : groupStep g o = some g') : o = .commit p ∨ o = .endCommit p := by
  have hout : ∀ {q}, (g.log.pc q).inOp ≠ 1 := fun {q} hq => by
    have := h.serial.not_inOp hp q
    omega
  obtain ⟨s', hs', -⟩ := Option.map_eq_some_iff.mp hs
  cases steps_of_limitStep hs' with
  | beginOp _ hc => exact absurd ((h.serial.committing p hp).symm.trans hc) (by simp)
  | logCheck hpc | logAppend hpc | endOp hpc => exact absurd (by rw [hpc]; rfl) hout
  | commit hc => exact Or.inl (by rw [h.serial.committer p _ hp (commitStep_cases hc).1])
  | endCommit hpc => exact Or.inr (by rw [h.serial.committer p _ hp (by rw [hpc]; trivial)])

end Isolated

/-- In every state of every run: no operation is outstanding during a commit, at most one process
commits and nobody else takes a step meanwhile, `end_op` does not panic, and a finished commit has
copied and installed exactly the blocks logged since the one before it. -/
theorem groupCommit_isolated {os : List (Op N)} {g : Group N}
    (h : run groupStep (Group.init N) os = some g) :
    (g.log.committing = true → g.log.outstanding = 0) ∧
      g.log.panic ≠ some "log.committing" ∧
      (∀ p q, (g.log.pc p).inCommit → (g.log.pc q).inCommit → p = q) ∧
      (∀ p, (g.log.pc p).inCommit → (∀ q, (g.log.pc q).inOp = 0) ∧
        ∀ o g', groupStep g o = some g' → o = .commit p ∨ o = .endCommit p) ∧
      ∀ p, g.log.pc p = .committed → g.copied = g.logged ∧ g.installed = g.logged := by
  have hg : Isolated g := run_invariant groupStep (fun _ _ _ h hs => h.step hs) (Isolated.init N) h
  refine ⟨hg.serial.quiet, hg.panic, hg.serial.committer, ?_, ?_⟩
  · intro p hp
    exact ⟨hg.serial.not_inOp hp, fun o g' hs => hg.committer_only hp hs⟩
  · intro p hp
    have hdone := hg.done p
    rw [hp] at hdone
    exact hdone.2

theorem twoOpsCommit_isolated : ∃ g, run groupStep (Group.init 2) twoOpsCommit = some g ∧
    g.log.pc 1 = .committed ∧ g.logged = {40, 41} ∧ g.installed = {40, 41} := by
  refine ⟨_, rfl, by decide, by decide, ?_⟩
  exact ((@groupCommit_isolated 2 twoOpsCommit _ rfl).2.2.2.2 1 (by decide)).2.trans (by decide)

end Xv6.Log
