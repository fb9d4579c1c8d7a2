import Xv6.Counts
import Xv6.LogOps

/-!
# Log space reservation

`begin_op` reserves against `LOGSIZE`, while `log_write` panics one block earlier and before it
looks for an absorbed block. The reservation is sound as long as the demand of the admitted
operations leaves two blocks of the log region unused: one for the header and one because
`log_write` wants the log to be not yet full even when it adds nothing.
-/

namespace Xv6.Log

open Function

variable {N : Nat}

namespace Pc

/-- One while an operation is in progress. -/
def inOp : Pc → Nat
  | .op _ | .checked _ _ => 1
  | _ => 0

@[simp] theorem inOp_idle : Pc.idle.inOp = 0 := rfl

def inCommit : Pc → Prop
  | .writeLog _ | .writeHead | .install _ | .clearHead | .committed => True
  | _ => False

def logged : Pc → Finset Nat
  | .op logged | .checked logged _ => logged
  | _ => ∅

/-- The blocks of the operation, the one being logged included. -/
def touched : Pc → Finset Nat
  | .op logged => logged
  | .checked logged b => insert b logged
  | _ => ∅

variable {v : Pc}

theorem inCommit.inOp (h : v.inCommit) : v.inOp = 0 := by
  cases v <;> first | rfl | exact h.elim

end Pc

/-- Everything a step can do. -/
inductive Steps (limit : Option Nat) (s : State N) : Op N → State N → Prop
  | beginOp {p : Fin N} (hpc : s.pc p = .idle) (hc : s.committing = false) :
      Steps limit s (.beginOp p) { s.setPc p (.op ∅) with outstanding := s.outstanding + 1 }
  | logCheck {p : Fin N} {logged : Finset Nat} {b : Nat} (hpc : s.pc p = .op logged)
      (hcard : ∀ n ∈ limit, (insert b logged).card ≤ n) :
      Steps limit s (.logCheck p b) (logCheck p logged b s)
  | logAppend {p : Fin N} {logged : Finset Nat} {b : Nat} (hpc : s.pc p = .checked logged b) :
      Steps limit s (.logAppend p) (logAppend p logged b s)
  | endOp {p : Fin N} {logged : Finset Nat} (hpc : s.pc p = .op logged) :
      Steps limit s (.endOp p) (endOp p s)
  | commit {p : Fin N} {s' : State N} (hs : commitStep p s = some s') : Steps limit s (.commit p) s'
  | endCommit {p : Fin N} (hpc : s.pc p = .committed) :
      Steps limit s (.endCommit p) { s.setPc p .idle with committing := false }

theorem steps_of_limitStep {limit : Option Nat} {s s' : State N} {o : Op N}
    (h : limitStep limit s o = some s') : Steps limit s o s' := by
  unfold limitStep at h
  split_ifs at h
  cases o with
  | beginOp p =>
    simp only [beginOp] at h
    split_ifs at h with hpc hc
    cases h
    exact .beginOp hpc (by simpa using hc)
  | logCheck p b =>
    cases hpc : s.pc p with
    | op logged =>
      simp only [hpc] at h
      split_ifs at h with hcard
      cases h
      exact .logCheck hpc (by simpa [Option.all_eq_true] using hcard)
    | _ => simp [hpc] at h
  | logAppend p =>
    cases hpc : s.pc p with
    | checked logged b =>
      simp only [hpc] at h
      cases h
      exact .logAppend hpc
    | _ => simp [hpc] at h
  | endOp p =>
    cases hpc : s.pc p with
    | op logged =>
      simp only [hpc] at h
      cases h
      exact .endOp hpc
    | _ => simp [hpc] at h
  | commit p => exact .commit h
  | endCommit p =>
    simp only at h
    split_ifs at h with hpc
    cases h
    exact .endCommit hpc

variable {p : Fin N} {s : State N} {logged : Finset Nat} {b : Nat} {v : Pc}

theorem commitStep_cases {s s' : State N} (h : commitStep p s = some s') :
    (s.pc p).inCommit ∧ ((∃ v, v.inCommit ∧ s' = s.setPc p v) ∨
      s.pc p = .clearHead ∧ s' = { s.setPc p .committed with lh := [] }) := by
  unfold commitStep at h
  cases hpc : s.pc p with
  | clearHead =>
    simp only [hpc] at h
    exact ⟨trivial, Or.inr ⟨rfl, (Option.some.inj h).symm⟩⟩
  | writeLog tail =>
    simp only [hpc] at h
    refine ⟨trivial, Or.inl ?_⟩
    split_ifs at h
    · exact ⟨.committed, trivial, (Option.some.inj h).symm⟩
    · exact ⟨.writeLog (tail + 1), trivial, (Option.some.inj h).symm⟩
    · exact ⟨.writeHead, trivial, (Option.some.inj h).symm⟩
  | writeHead =>
    simp only [hpc] at h
    exact ⟨trivial, Or.inl ⟨.install 0, trivial, (Option.some.inj h).symm⟩⟩
  | install tail =>
    simp only [hpc] at h
    refine ⟨trivial, Or.inl ?_⟩
    split_ifs at h
    · exact ⟨.install (tail + 1), trivial, (Option.some.inj h).symm⟩
    · exact ⟨.clearHead, trivial, (Option.some.inj h).symm⟩
  | _ => simp [hpc] at h

/-! ### Operations and the committer -/

/-- `outstanding` counts the operations, there are none while a process is in `commit`, and there
is at most one such process. -/
structure Serial (outstanding : Nat) (committing : Bool) (pc : Fin N → Pc) : Prop where
  count : outstanding = ∑ p, (pc p).inOp
  quiet : committing = true → outstanding = 0
  committing : ∀ p, (pc p).inCommit → committing = true
  committer : ∀ p q, (pc p).inCommit → (pc q).inCommit → p = q

namespace Serial

variable {n n' : Nat} {committing : Bool} {pc : Fin N → Pc} {p q : Fin N} {v : Pc}

section

variable (h : Serial n committing pc)
include h

theorem pos (hp : (pc p).inOp = 1) : 0 < n := by
  have hle : (pc p).inOp ≤ ∑ q, (pc q).inOp :=
    Finset.single_le_sum (f := fun q => (pc q).inOp) (fun _ _ => Nat.zero_le _) (Finset.mem_univ p)
  rw [h.count]
  omega

theorem not_committing (hp : (pc p).inOp = 1) :
    committing = false := by
  have hpos := h.pos hp
  cases hc : committing with
  | false => rfl
  | true =>
    have := h.quiet hc
    omega

theorem not_inOp (hp : (pc p).inCommit) (q : Fin N) :
    (pc q).inOp = 0 := by
  have h0 := h.quiet (h.committing p hp)
  rw [h.count] at h0
  exact (Finset.sum_eq_zero_iff.mp h0) q (Finset.mem_univ q)

theorem move (hn : n' + (pc p).inOp = n + v.inOp)
    (hq : committing = true → n' = 0) (hv : v.inCommit → (pc p).inCommit) :
    Serial n' committing (update pc p v) := by
  have hold : ∀ q, (update pc p v q).inCommit → (pc q).inCommit := by
    intro q
    by_cases hqp : q = p
    · rw [hqp, update_self]
      exact hv
    · rw [update_of_ne hqp]
      exact id
  refine ⟨?_, hq, fun q hc => h.committing q (hold q hc),
    fun q r hq hr => h.committer q r (hold q hq) (hold r hr)⟩
  have hsum := sum_update Pc.inOp pc p v
  have := h.count
  omega

theorem begin (hpc : pc p = .idle) (hc : committing = false) :
    Serial (n + 1) committing (update pc p (.op ∅)) :=
  h.move (by rw [hpc]; rfl) (fun ht => absurd (hc.symm.trans ht) (by simp)) False.elim

end

theorem init (N : Nat) : Serial 0 false (initlog N).pc :=
  ⟨by simp [initlog], fun _ => rfl, fun _ hp => hp.elim, fun _ _ hp => hp.elim⟩

theorem enter (h : Serial n false pc) (hp : (pc p).inOp = 1) (hlast : n = 1) :
    Serial 0 true (update pc p (.writeLog 0)) := by
  have hin : ∀ q, (update pc p (.writeLog 0) q).inCommit → q = p := by
    intro q hq
    by_contra hqp
    rw [update_of_ne hqp] at hq
    cases h.committing q hq
  refine ⟨?_, fun _ => rfl, fun _ _ => rfl, fun q r hq hr => (hin q hq).trans (hin r hr).symm⟩
  have hsum := sum_update Pc.inOp pc p (.writeLog 0)
  have hcount := h.count
  rw [show (Pc.writeLog 0).inOp = 0 from rfl] at hsum
  omega

theorem leave (h : Serial n committing pc) (hp : (pc p).inCommit) :
    Serial n false (update pc p .idle) := by
  have hin : ∀ q, ¬ (update pc p .idle q).inCommit := by
    intro q hq
    by_cases hqp : q = p
    · rw [hqp, update_self] at hq
      exact hq
    · rw [update_of_ne hqp] at hq
      exact hqp (h.committer q p hq hp)
  refine ⟨?_, fun hc => absurd hc (by simp), fun q hq => absurd hq (hin q),
    fun q _ hq => absurd hq (hin q)⟩
  have hsum := sum_update Pc.inOp pc p .idle
  have hcount := h.count
  rw [hp.inOp, Pc.inOp_idle] at hsum
  omega

end Serial

/-- What `end_op` of the last operation does, and of any other. -/
theorem Serial.endOp_cases (h : Serial s.outstanding s.committing s.pc) (hpc : s.pc p = .op logged) :
    (endOp p s = { s.setPc p (.writeLog 0) with outstanding := 0, committing := true } ∧
      Serial 0 true (update s.pc p (.writeLog 0))) ∨
    (endOp p s = { s.setPc p .idle with outstanding := s.outstanding - 1 } ∧
      Serial (s.outstanding - 1) s.committing (update s.pc p .idle)) := by
  have hp : (s.pc p).inOp = 1 := by rw [hpc]; rfl
  have hpos := h.pos hp
  have hc := h.not_committing hp
  rw [endOp, if_neg (by simp [hc])]
  split_ifs with hzero
  · change s.outstanding - 1 = 0 at hzero
    rw [hc] at h
    refine Or.inl ⟨?_, h.enter hp (by omega)⟩
    simp only [State.setPc, hzero]
  · refine Or.inr ⟨rfl, h.move ?_ (fun ht => absurd (hc.symm.trans ht) (by simp)) False.elim⟩
    rw [hp, Pc.inOp_idle]
    omega

/-! ### The reservation -/

structure Reserved (s : State N) : Prop where
  noPanic : s.panic = none
  size : s.size = LOGSIZE
  serial : Serial s.outstanding s.committing s.pc
  logged : ∀ p, ∀ b ∈ (s.pc p).logged, b ∈ s.lh
  touched : ∀ p, (s.pc p).touched.card ≤ MAXOPBLOCKS
  within : demand s ≤ s.size - 2

/-- The condition on an admission: with the new operation's reservation the demand leaves two
blocks of the log region unused. The other events are not restricted. -/
def Admits (s : State N) : Op N → Prop
  | .beginOp _ => demand s + MAXOPBLOCKS ≤ s.size - 2
  | _ => True

instance (s : State N) : (o : Op N) → Decidable (Admits s o)
  | .beginOp _ => inferInstanceAs (Decidable (_ ≤ _))
  | .logCheck _ _ | .logAppend _ | .endOp _ | .commit _ | .endCommit _ => isTrue trivial

theorem demand_setPc (s : State N) (p : Fin N) (v : Pc) :
    demand (s.setPc p v) + (s.pc p).remaining = demand s + v.remaining := by
  have h := sum_update Pc.remaining s.pc p v
  simp only [demand, State.setPc]
  omega

/-- The log is never full while the demand leaves two blocks. -/
theorem Reserved.logCheck_eq (hs : Reserved s) (hpc : s.pc p = .op logged) :
    logCheck p logged b s = s.setPc p (.checked logged b) := by
  have hd : s.lh.length ≤ demand s := Nat.le_add_right _ _
  have hdem := hs.within
  have hsize := hs.size
  have hpos : 0 < s.outstanding := hs.serial.pos (p := p) (by rw [hpc]; rfl)
  unfold logCheck
  rw [if_neg (by simp only [LOGSIZE, MAXOPBLOCKS] at *; omega), if_neg (by omega)]

theorem forall_setPc {P : Pc → Prop} (hv : P v)
    (h : ∀ q, P (s.pc q)) (q : Fin N) : P ((s.setPc p v).pc q) := by
  by_cases hq : q = p
  · subst hq
    simpa [State.setPc] using hv
  · simpa [State.setPc, hq] using h q

section

variable (hs : Reserved s)
include hs

/-- Process `p` goes to `v`, and its part of the demand pays for what the log has got longer. -/
theorem Reserved.moved {s' : State N} (hpc' : s'.pc = (s.setPc p v).pc)
    (hserial : Serial s'.outstanding s'.committing s'.pc) (hlh : ∀ c ∈ s.lh, c ∈ s'.lh)
    (hlogged : ∀ c ∈ v.logged, c ∈ s'.lh) (htouched : v.touched.card ≤ MAXOPBLOCKS)
    (hwithin : demand s + v.remaining + s'.lh.length ≤
      s.size - 2 + (s.pc p).remaining + s.lh.length)
    (hsame : s'.panic = s.panic ∧ s'.size = s.size := by exact ⟨rfl, rfl⟩) : Reserved s' := by
  refine ⟨hsame.1 ▸ hs.noPanic, hsame.2 ▸ hs.size, hserial, ?_, ?_, ?_⟩
  · rw [hpc']
    exact forall_setPc (P := fun v => ∀ c ∈ v.logged, c ∈ s'.lh) hlogged
      (fun q c hc => hlh c (hs.logged q c hc))
  · rw [hpc']
    exact forall_setPc (P := fun v => v.touched.card ≤ MAXOPBLOCKS) htouched hs.touched
  · have h := demand_setPc s p v
    simp only [demand] at h hwithin ⊢
    rw [hpc', hsame.2]
    simp only [State.setPc] at h ⊢
    omega

theorem Reserved.beginOp (hpc : s.pc p = .idle)
    (hc : s.committing = false) (hd : demand s + MAXOPBLOCKS ≤ s.size - 2) :
    Reserved { s.setPc p (.op ∅) with outstanding := s.outstanding + 1 } := by
  refine hs.moved (v := .op ∅) rfl (hs.serial.begin hpc hc) (fun _ h => h) (by simp [Pc.logged])
    (by simp [Pc.touched]) ?_
  simp only [hpc, Pc.remaining, Finset.card_empty, State.setPc]
  omega

theorem Reserved.logCheck (hpc : s.pc p = .op logged)
    (hcard : (insert b logged).card ≤ MAXOPBLOCKS) : Reserved (s.setPc p (.checked logged b)) := by
  have hl := hs.logged p
  rw [hpc] at hl
  refine hs.moved rfl (hs.serial.move (by rw [hpc]; rfl) hs.serial.quiet False.elim) (fun _ h => h)
    hl hcard ?_
  have := hs.within
  simp only [hpc, Pc.remaining, State.setPc]
  omega

/-- Appending a block uses up the part of the demand that was reserved for it. -/
theorem Reserved.logAppend (hpc : s.pc p = .checked logged b) :
    Reserved (logAppend p logged b s) := by
  have ht := hs.touched p
  have hl := hs.logged p
  rw [hpc] at ht hl
  simp only [Pc.touched] at ht
  have hsub : ∀ c ∈ s.lh, c ∈ (Log.logAppend p logged b s).lh := by
    intro c hc
    simp only [Log.logAppend]
    split_ifs
    · exact hc
    · exact List.mem_append_left _ hc
  have hb : b ∈ (Log.logAppend p logged b s).lh := by
    simp only [Log.logAppend]
    split_ifs with h
    · exact h
    · simp
  refine hs.moved (v := .op (insert b logged)) rfl
    (hs.serial.move (by rw [hpc]; rfl) hs.serial.quiet False.elim) hsub ?_ ht ?_
  · intro c hc
    rcases Finset.mem_insert.mp hc with rfl | hc
    · exact hb
    · exact hsub c (hl c hc)
  · have hw := hs.within
    have hle : logged.card ≤ (insert b logged).card :=
      Finset.card_le_card (Finset.subset_insert b logged)
    simp only [hpc, Pc.remaining, Log.logAppend]
    split_ifs with hb
    · omega
    · have hnew : (insert b logged).card = logged.card + 1 :=
        Finset.card_insert_of_notMem (fun hm => hb (hl b hm))
      rw [List.length_append, List.length_singleton]
      omega

/-- A process that is not in an operation needs no block of the log. -/
structure Pc.Outside (v : Pc) : Prop where
  remaining : v.remaining = 0
  logged : v.logged = ∅
  touched : v.touched = ∅

omit hs in
theorem Pc.outside (h : v.inOp = 0) : v.Outside := by
  cases v <;> first | exact ⟨rfl, rfl, rfl⟩ | cases h

/-- The log stays as it is, and process `p` is in no operation any more. -/
theorem Reserved.left {n : Nat} {committing : Bool} (hv : v.inOp = 0)
    (hserial : Serial n committing (update s.pc p v)) :
    Reserved { s.setPc p v with outstanding := n, committing := committing } := by
  have hout := Pc.outside hv
  have := hs.within
  refine hs.moved (v := v) rfl hserial (fun _ h => h) (by simp [hout.logged])
    (by simp [hout.touched]) ?_
  rw [hout.remaining]
  simp only [State.setPc]
  omega

theorem Reserved.endOp (hpc : s.pc p = .op logged) : Reserved (endOp p s) := by
  rcases hs.serial.endOp_cases hpc with ⟨heq, hserial⟩ | ⟨heq, hserial⟩
  · rw [heq]
    exact hs.left rfl hserial
  · rw [heq]
    exact hs.left rfl hserial

theorem Reserved.commitStep (hp : (s.pc p).inCommit) (hv : v.inCommit) :
    Reserved (s.setPc p v) :=
  hs.left hv.inOp (hs.serial.move (by rw [hp.inOp, hv.inOp]) hs.serial.quiet (fun _ => hp))

theorem Reserved.clearHead
    (hp : s.pc p = .clearHead) : Reserved { s.setPc p .committed with lh := [] } := by
  have hin : (s.pc p).inCommit := by rw [hp]; trivial
  have hnext := hs.commitStep (v := .committed) hin trivial
  have hnone : ∀ q, ((s.setPc p .committed).pc q).inOp = 0 := hnext.serial.not_inOp (p := p) (by
    simp only [State.setPc, update_self]
    trivial)
  refine ⟨hnext.noPanic, hnext.size, hnext.serial, ?_, hnext.touched, ?_⟩
  · intro q b hb
    rw [show _ = (∅ : Finset Nat) from (Pc.outside (hnone q)).logged] at hb
    simp at hb
  · have hsum : ∑ q, ((s.setPc p .committed).pc q).remaining = 0 :=
      Finset.sum_eq_zero (fun q _ => (Pc.outside (hnone q)).remaining)
    change 0 + ∑ q, ((s.setPc p .committed).pc q).remaining ≤ s.size - 2
    omega

end

theorem opStep_reserved {s s' : State N} {o : Op N} (hs : Reserved s) (ha : Admits s o)
    (h : opStep s o = some s') : Reserved s' := by
  cases steps_of_limitStep h with
  | beginOp hpc hc => exact hs.beginOp hpc hc ha
  | logCheck hpc hcard =>
    rw [hs.logCheck_eq hpc]
    exact hs.logCheck hpc (hcard MAXOPBLOCKS rfl)
  | logAppend hpc => exact hs.logAppend hpc
  | endOp hpc => exact hs.endOp hpc
  | commit hc =>
    obtain ⟨hp, ⟨v, hv, rfl⟩ | ⟨hpc, rfl⟩⟩ := commitStep_cases hc
    · exact hs.commitStep hp hv
    · exact hs.clearHead hpc
  | @endCommit p hpc => exact hs.left rfl (hs.serial.leave (p := p) (by rw [hpc]; trivial))

theorem initlog_reserved (N : Nat) : Reserved (initlog N) where
  noPanic := rfl
  size := rfl
  serial := .init N
  logged := by simp [initlog, Pc.logged]
  touched := by simp [initlog, Pc.touched]
  within := by simp [initlog, demand, Pc.remaining]

theorem Reserved.safe (hs : Reserved s) : Safe s := by
  have hd : s.lh.length ≤ demand s := Nat.le_add_right _ _
  have hw := hs.within
  have hsize := hs.size
  simp only [LOGSIZE, MAXOPBLOCKS] at hsize
  refine ⟨hs.noPanic, by omega, ?_⟩
  intro p b hb
  unfold nextLogBlock at hb
  split at hb
  · split_ifs at hb with ht
    cases hb
    omega
  · simp at hb

/-- In every run whose admissions all leave two blocks of the log region unused, every state is
safe. -/
theorem run_safe_of_admits {s : State N} {es : List (Op N)}
    (ha : Along opStep Admits (initlog N) es) (hr : run opStep (initlog N) es = some s) : Safe s :=
  (run_invariant_along opStep (fun _ _ _ hs ha h => opStep_reserved hs ha h)
    (initlog_reserved N) ha hr).safe

/-- Two operations that overlap, and the commit by the process whose operation ends last. -/
def twoOpsCommit : List (Op 2) :=
  [.beginOp 0, .beginOp 1, .logCheck 0 40, .logAppend 0, .logCheck 1 41, .logAppend 1, .endOp 0,
    .endOp 1, .commit 1, .commit 1, .commit 1, .commit 1, .commit 1, .commit 1, .commit 1, .commit 1]

theorem twoOpsCommit_safe : ∃ s, run opStep (initlog 2) twoOpsCommit = some s ∧
    s.pc 1 = .committed ∧ Safe s := by
  have halong : Along opStep Admits (initlog 2) twoOpsCommit :=
    along_of_alongB opStep (fun _ _ => of_decide_eq_true) (by decide +kernel)
  exact ⟨_, rfl, rfl, run_safe_of_admits halong rfl⟩

/-- The events of an operation of process `p` that logs `n` blocks of its own. -/
def logBlocks (p : Fin 3) (n : Nat) : List (Op 3) :=
  (List.range n).flatMap (fun i => [.logCheck p (100 * (p + 1) + i), .logAppend p])

def threeOps : List (Op 3) :=
  [Op.beginOp 0, .beginOp 1, .beginOp 2] ++ logBlocks 0 10 ++ logBlocks 1 10 ++ logBlocks 2 9 ++
    [Op.logCheck 2 309]

/-- Two operations pass the size check when one block is left, and both append. -/
def racingOps : List (Op 3) :=
  [Op.beginOp 0, .beginOp 1, .beginOp 2] ++ logBlocks 0 10 ++ logBlocks 1 9 ++ logBlocks 2 9 ++
    [Op.logCheck 1 209, .logCheck 2 309, .logAppend 1, .logAppend 2]

/-- Three full operations are admitted together: the last block of the third one panics, and with
another order of the checks the transaction outgrows the log region. -/
theorem threeOps_not_safe :
    ¬ (∀ s, run opStep (initlog 3) threeOps = some s → Safe s) ∧
      ¬ (∀ s, run opStep (initlog 3) racingOps = some s → Safe s) := by
  have hpanic : (run opStep (initlog 3) threeOps).bind State.panic =
      some "too big a transaction" := by decide +kernel
  have hfull : (run opStep (initlog 3) racingOps).map (fun s => s.lh.length) = some 30 := by
    decide +kernel
  constructor
  · intro h
    obtain ⟨s, hs, hp⟩ := Option.bind_eq_some_iff.mp hpanic
    rw [(h s hs).noPanic] at hp
    cases hp
  · intro h
    obtain ⟨s, hs, hl⟩ := Option.map_eq_some_iff.mp hfull
    have hsize : s.size = LOGSIZE := by
      have hall : (run opStep (initlog 3) racingOps).map State.size = some LOGSIZE := by
        decide +kernel
      rw [hs] at hall
      exact Option.some.inj hall
    have := (h s hs).fits
    simp only [LOGSIZE, MAXOPBLOCKS] at hsize
    omega

end Xv6.Log
