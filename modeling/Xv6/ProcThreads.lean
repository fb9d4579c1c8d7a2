import Xv6.ProcTree

/-!
# Processors and forks in progress

Every change of the process tree keeps a process of its own on each processor and the slot of
each `fork` in progress apart from all others, and init stays alive. None of this rests on the pids.
-/

namespace Xv6.Ptable.Tree

open Function

variable {v v' : Tree} {p q np : Slot}

theorem ThreadsOk.mono (h : ThreadsOk v)
    (hcpu : ∀ c q, v'.cpu c = some q → v.cpu c = some q ∧ v'.state q = .running)
    (hfork : ∀ q nq, v'.thread q = .forking nq → v.thread q = .forking nq ∧ (v'.state q = .running ∨
      v'.state q = .runnable) ∧ v'.state nq = .embryo) (hinit : v'.initproc = v.initproc)
    (hfresh : ∀ q, ¬ (v'.state q).active → v'.thread q = .user) : ThreadsOk v' := by
  refine ⟨fun c q hq => (hcpu c q hq).2,
    fun c c' q hq hq' => h.cpu c c' q (hcpu c q hq).1 (hcpu c' q hq').1, ?_,
    fun q r nq hq hr => h.forkInj q r nq (hfork q nq hq).1 (hfork r nq hr).1, hfresh⟩
  intro q nq hq
  obtain ⟨hold, hs, he⟩ := hfork q nq hq
  obtain ⟨-, -, hni⟩ := h.forking q nq hold
  exact ⟨hs, he, by rwa [hinit]⟩

/-- The slots of a `fork` in progress are its own. -/
theorem ThreadsOk.forking_ne (h : ThreadsOk v) (hp : v.thread p = .forking np) {nq : Slot}
    (hqp : q ≠ p) (hq : v.thread q = .forking nq) : q ≠ np ∧ nq ≠ np := by
  obtain ⟨hs, -, -⟩ := h.forking q nq hq
  obtain ⟨-, he, -⟩ := h.forking p np hp
  refine ⟨?_, ?_⟩
  · rintro rfl
    rw [he] at hs
    simp at hs
  · rintro rfl
    exact hqp (h.forkInj q p nq hq hp)

variable {state : Slot → ProcState} {s : ProcState}

section

variable (hw : ∀ i, state i = v.state i ∨ v.state i = .sleeping ∧ state i = .runnable)
include hw

theorem wake_eq
    {i : Slot} (hi : v.state i ≠ .sleeping) : state i = v.state i := by
  rcases hw i with heq | ⟨hs, -⟩
  · exact heq
  · exact absurd hs hi

theorem wake_active
    (i : Slot) : (state i).active ↔ (v.state i).active := by
  rcases hw i with heq | ⟨hs, hr⟩
  · rw [heq]
  · simp [hs, hr, ProcState.active]

end

theorem ThreadsOk.leave (h : ThreadsOk v) {c : Nat} (hc : v.cpu c = some p) (th : Thread)
    (hw : ∀ i, state i = v.state i ∨ v.state i = .sleeping ∧ state i = .runnable)
    (hs : v'.state = update state p s) (hcpu : v'.cpu = update v.cpu c none)
    (hth : v'.thread = update v.thread p th) (hinit : v'.initproc = v.initproc)
    (hfork : ∀ nq, th = .forking nq → v.thread p = .forking nq ∧ s = .runnable)
    (hfresh : ¬ s.active → th = .user) : ThreadsOk v' := by
  have hrun := h.running c p hc
  refine h.mono ?_ ?_ hinit ?_
  · intro c' q hq
    rw [hcpu] at hq
    rcases eq_or_ne c' c with rfl | hcc
    · simp at hq
    · rw [update_of_ne hcc] at hq
      have hqrun := h.running c' q hq
      have hqp : q ≠ p := fun hc' => hcc (h.cpu c' c p (hc' ▸ hq) hc)
      rw [hs, update_of_ne hqp, wake_eq hw (by simp [hqrun])]
      exact ⟨hq, hqrun⟩
  · intro q nq hq
    rw [hth] at hq
    have hnp : ∀ {q nq}, v.thread q = .forking nq → v'.state nq = .embryo := by
      intro q nq hq
      obtain ⟨-, he, -⟩ := h.forking q nq hq
      have hne : nq ≠ p := by
        rintro rfl
        simp [hrun] at he
      rw [hs, update_of_ne hne, wake_eq hw (by simp [he]), he]
    rcases eq_or_ne q p with rfl | hqp
    · rw [update_self] at hq
      obtain ⟨hold, hsr⟩ := hfork nq hq
      refine ⟨hold, Or.inr ?_, hnp hold⟩
      rw [hs, update_self, hsr]
    · rw [update_of_ne hqp] at hq
      obtain ⟨hst, -, -⟩ := h.forking q nq hq
      have hsame : v'.state q = v.state q := by
        rw [hs, update_of_ne hqp]
        apply wake_eq hw
        rcases hst with hst | hst <;> simp [hst]
      exact ⟨hq, by rwa [hsame], hnp hq⟩
  · intro q hq
    rw [hth]
    rcases eq_or_ne q p with rfl | hqp
    · rw [hs, update_self] at hq
      rw [update_self, hfresh hq]
    · rw [hs, update_of_ne hqp, wake_active hw] at hq
      rw [update_of_ne hqp, h.fresh q hq]

theorem ThreadsOk.endFork (h : ThreadsOk v) (hp : v.thread p = .forking np)
    (hs : v'.state = update v.state np s) (hth : v'.thread = update v.thread p .user)
    (hcpu : v'.cpu = v.cpu) (hinit : v'.initproc = v.initproc) : ThreadsOk v' := by
  obtain ⟨-, he, -⟩ := h.forking p np hp
  refine h.mono ?_ ?_ hinit ?_
  · intro c q hq
    rw [hcpu] at hq
    have hrun := h.running c q hq
    have hne : q ≠ np := by
      rintro rfl
      simp [hrun] at he
    exact ⟨hq, by rw [hs, update_of_ne hne, hrun]⟩
  · intro q nq hq
    rw [hth] at hq
    rcases eq_or_ne q p with rfl | hqp
    · simp at hq
    · rw [update_of_ne hqp] at hq
      obtain ⟨hst, hnq, -⟩ := h.forking q nq hq
      obtain ⟨hne, hne'⟩ := h.forking_ne hp hqp hq
      rw [hs, update_of_ne hne, update_of_ne hne']
      exact ⟨hq, hst, hnq⟩
  · intro q hq
    rw [hth]
    rcases eq_or_ne q p with rfl | hqp
    · rw [update_self]
    · rw [update_of_ne hqp]
      apply h.fresh
      rcases eq_or_ne q np with rfl | hne
      · simp [he, ProcState.active]
      · rwa [hs, update_of_ne hne] at hq

theorem ThreadsOk.restate (h : ThreadsOk v) {pid : Slot → Int}
    {parent : Slot → Option Slot} {reaped : List Int} (hp : v.state p ≠ .running)
    (hfork : ∀ q nq, v.thread q = .forking nq → q ≠ p ∧ nq ≠ p)
    (hact : (v.state p).active → s.active) :
    ThreadsOk { v with
      state := update v.state p s, pid := pid, parent := parent, reaped := reaped } := by
  refine h.mono ?_ ?_ rfl ?_
  · intro c q hq
    have hrun := h.running c q hq
    have hne : q ≠ p := by
      rintro rfl
      exact hp hrun
    exact ⟨hq, by simp only [update_of_ne hne, hrun]⟩
  · intro q nq hq
    obtain ⟨hne, hne'⟩ := hfork q nq hq
    obtain ⟨hst, hnq, -⟩ := h.forking q nq hq
    simp only [update_of_ne hne, update_of_ne hne']
    exact ⟨hq, hst, hnq⟩
  · intro q hq
    apply h.fresh
    rcases eq_or_ne q p with rfl | hne
    · simp only [update_self] at hq
      exact fun hc => hq (hact hc)
    · simpa only [update_of_ne hne] using hq

theorem ThreadsOk.beginFork (h : Sound v) {c : Nat} {pid : Slot → Int} {nextpid : Int}
    (hc : v.cpu c = some p) (hnp : v.state np = .unused) : ThreadsOk { v with
      state := update v.state np .embryo
      pid := pid
      nextpid := nextpid
      thread := update v.thread p (.forking np) } := by
  have hrun := h.threads.running c p hc
  have hpnp : p ≠ np := by
    rintro rfl
    simp [hrun] at hnp
  have hold : ∀ q nq, v.thread q = .forking nq → q ≠ np ∧ nq ≠ np := by
    intro q nq hq
    obtain ⟨hst, he, -⟩ := h.threads.forking q nq hq
    constructor
    · rintro rfl
      simp [hnp] at hst
    · rintro rfl
      simp [hnp] at he
  refine ⟨?_, h.threads.cpu, ?_, ?_, ?_⟩
  · intro c' q hq
    have hq' := h.threads.running c' q hq
    have hne : q ≠ np := by
      rintro rfl
      simp [hq'] at hnp
    simp only [update_of_ne hne, hq']
  · intro q nq hq
    rcases eq_or_ne q p with rfl | hqp
    · simp only [update_self, Thread.forking.injEq] at hq
      subst hq
      simp only [update_self, update_of_ne hpnp]
      refine ⟨Or.inl hrun, trivial, ?_⟩
      intro hi
      rcases h.init.init np hi with ha | ⟨he, -⟩
      · simp [hnp, ProcState.active] at ha
      · simp [hnp] at he
    · simp only [update_of_ne hqp] at hq
      obtain ⟨hne, hne'⟩ := hold q nq hq
      simp only [update_of_ne hne, update_of_ne hne']
      exact h.threads.forking q nq hq
  · intro q r nq hq hr
    have hself : ∀ q, update v.thread p (.forking np) q = .forking nq → q ≠ p → nq ≠ np := by
      intro q hq hqp
      rw [update_of_ne hqp] at hq
      exact (hold q nq hq).2
    rcases eq_or_ne q p with rfl | hqp <;> rcases eq_or_ne r q with rfl | hrq
    · rfl
    · simp only [update_self, Thread.forking.injEq] at hq
      exact absurd hq.symm (hself r hr hrq)
    · rfl
    · rcases eq_or_ne r p with rfl | hrp
      · simp only [update_self, Thread.forking.injEq] at hr
        exact absurd hr.symm (hself q hq hqp)
      · simp only [update_of_ne hqp, update_of_ne hrp] at hq hr
        exact h.threads.forkInj q r nq hq hr
  · intro q hq
    rcases eq_or_ne q p with rfl | hqp
    · simp [update_of_ne hpnp, hrun, ProcState.active] at hq
    · simp only [update_of_ne hqp]
      apply h.threads.fresh
      rcases eq_or_ne q np with rfl | hne
      · simp [hnp, ProcState.active]
      · simpa only [update_of_ne hne] using hq

theorem ThreadsOk.alloc (h : Sound v) (hc : Alloc v v') : ThreadsOk v' := by
  cases hc with
  | init hinit hnp =>
    have hall := h.init.noInit hinit
    refine ⟨?_, h.threads.cpu, ?_, h.threads.forkInj, fun q _ => h.threads.fresh q ?_⟩
    · intro c q hq
      have := h.threads.running c q hq
      simp [hall q] at this
    · intro q nq hq
      obtain ⟨hst, -, -⟩ := h.threads.forking q nq hq
      simp [hall q] at hst
    · simp [hall q, ProcState.active]
  | fork hc hp hnp => exact ThreadsOk.beginFork h hc hnp

theorem ThreadsOk.change (h : Sound v) (hc : Change v v') : ThreadsOk v' := by
  cases hc with
  | startInit hinit hp =>
    refine h.threads.restate (by simp [hp]) ?_ (fun _ => by simp [ProcState.active])
    intro q nq hq
    obtain ⟨hst, -, hni⟩ := h.threads.forking q nq hq
    constructor
    · rintro rfl
      simp [hp] at hst
    · rintro rfl
      exact hni hinit
  | startFork hc hp => exact h.threads.endFork hp rfl rfl rfl rfl
  | failFork hc hp => exact h.threads.endFork hp rfl rfl rfl rfl
  | @dispatch c p hc hp =>
    refine ⟨?_, ?_, ?_, h.threads.forkInj, ?_⟩
    · intro c' q hq
      rcases eq_or_ne c' c with rfl | hcc
      · simp only [update_self, Option.some.injEq] at hq
        simp [hq]
      · simp only [update_of_ne hcc] at hq
        have hqrun := h.threads.running c' q hq
        have hqp : q ≠ p := by
          rintro rfl
          simp [hp] at hqrun
        simp only [update_of_ne hqp, hqrun]
    · -- a RUNNABLE process is on no other processor
      have hnot : ∀ c', v.cpu c' ≠ some p := by
        intro c' hq
        have := h.threads.running c' p hq
        simp [hp] at this
      intro c₁ c₂ q h₁ h₂
      rcases eq_or_ne c₁ c with rfl | hc₁ <;> rcases eq_or_ne c₂ c₁ with rfl | hc₂
      · rfl
      · simp only [update_self, Option.some.injEq, update_of_ne hc₂] at h₁ h₂
        exact absurd (h₁ ▸ h₂) (hnot c₂)
      · rfl
      · simp only [update_of_ne hc₁] at h₁
        rcases eq_or_ne c₂ c with rfl | hc₃
        · simp only [update_self, Option.some.injEq] at h₂
          exact absurd (h₂ ▸ h₁) (hnot c₁)
        · simp only [update_of_ne hc₃] at h₂
          exact h.threads.cpu c₁ c₂ q h₁ h₂
    · intro q nq hq
      obtain ⟨hst, he, hrest⟩ := h.threads.forking q nq hq
      have hnp : nq ≠ p := by
        rintro rfl
        simp [hp] at he
      simp only [update_of_ne hnp]
      refine ⟨?_, he, hrest⟩
      rcases eq_or_ne q p with rfl | hqp
      · simp
      · rwa [update_of_ne hqp]
    · intro q hq
      apply h.threads.fresh
      rcases eq_or_ne q p with rfl | hqp
      · simp [ProcState.active] at hq
      · simpa only [update_of_ne hqp] using hq
  | @resume c p hc hp =>
    have hth : ∀ q nq, update v.thread p .user q = .forking nq → v.thread q = .forking nq := by
      intro q nq hq
      rcases eq_or_ne q p with rfl | hqp
      · simp at hq
      · rwa [update_of_ne hqp] at hq
    refine h.threads.mono (fun c' q hq => ⟨hq, h.threads.running c' q hq⟩) ?_ rfl ?_
    · intro q nq hq
      obtain ⟨hst, he, -⟩ := h.threads.forking q nq (hth q nq hq)
      exact ⟨hth q nq hq, hst, he⟩
    · intro q hq
      rcases eq_or_ne q p with rfl | hqp
      · simp
      · simp only [update_of_ne hqp]
        exact h.threads.fresh q hq
  | @reap c p i hc hp hpar hi =>
    refine h.threads.restate (by simp [hi]) ?_ ?_
    · intro q nq hq
      obtain ⟨hst, he, -⟩ := h.threads.forking q nq hq
      constructor
      · rintro rfl
        simp [hi] at hst
      · rintro rfl
        simp [hi] at he
    · simp [hi, ProcState.active]
  | wait hc hp hnone =>
    exact h.threads.leave hc _ (fun _ => Or.inl rfl) rfl rfl rfl rfl (by simp)
      (by simp [ProcState.active])
  | sleep hc hp =>
    exact h.threads.leave hc _ (fun _ => Or.inl rfl) rfl rfl rfl rfl (by simp)
      (by simp [ProcState.active])
  | wake hw =>
    refine h.threads.mono ?_ ?_ rfl ?_
    · intro c q hq
      have hrun := h.threads.running c q hq
      exact ⟨hq, (wake_eq hw (by simp [hrun])).trans hrun⟩
    · intro q nq hq
      obtain ⟨hst, he, -⟩ := h.threads.forking q nq hq
      have hq' := wake_eq hw (i := q) (by rcases hst with hst | hst <;> simp [hst])
      have hnq := wake_eq hw (i := nq) (by simp [he])
      exact ⟨hq, by simpa only [hq'] using hst, hnq.trans he⟩
    · intro q hq
      rw [wake_active hw] at hq
      exact h.threads.fresh q hq
  | @yield c p hc =>
    refine h.threads.leave hc (v.thread p) (fun _ => Or.inl rfl) rfl rfl ?_ rfl
      (fun nq hq => ⟨hq, rfl⟩) (by simp [ProcState.active])
    exact (update_eq_self p v.thread).symm
  | @exit c p init state hc hp hinit hne hw hparent horphan =>
    refine h.threads.leave hc .user hw rfl rfl ?_ rfl (by simp) (fun _ => rfl)
    rw [← hp]
    exact (update_eq_self p v.thread).symm

/-! ### Init -/

theorem InitOk.active (h : InitOk v) (hp : (v.state p).active) :
    ∃ i, v.initproc = some i ∧ (v.state i).active := by
  cases hi : v.initproc with
  | none => simp [h.noInit hi p, ProcState.active] at hp
  | some i =>
    refine ⟨i, rfl, ?_⟩
    rcases h.init i hi with ha | ⟨he, hother⟩
    · exact ha
    · rcases eq_or_ne p i with rfl | hpi
      · exact hp
      · simp [hother p hpi, ProcState.active] at hp

theorem InitOk.mono (h : InitOk v) (hp : (v.state p).active) (hinit : v'.initproc = v.initproc)
    (hact : ∀ i, v.initproc = some i → (v.state i).active → (v'.state i).active) : InitOk v' := by
  obtain ⟨i₀, hi₀, ha₀⟩ := h.active hp
  refine ⟨?_, ?_⟩
  · intro hn
    simp [hinit, hi₀] at hn
  · intro i hi
    rw [hinit] at hi
    obtain rfl : i₀ = i := Option.some.inj (hi₀.symm.trans hi)
    exact Or.inl (hact i₀ hi₀ ha₀)

theorem active_update (hp : (v.state p).active → s.active) (i : Slot)
    (hi : (v.state i).active) : (update v.state p s i).active := by
  rcases eq_or_ne i p with rfl | hne
  · rw [update_self]
    exact hp hi
  · rwa [update_of_ne hne]

theorem InitOk.alloc (h : Sound v) (hc : Alloc v v') : InitOk v' := by
  cases hc with
  | @init np hinit hnp =>
    have hall := h.init.noInit hinit
    refine ⟨by simp, ?_⟩
    intro i hi
    simp only [Option.some.injEq] at hi
    subst hi
    exact Or.inr ⟨update_self _ _ _,
      fun j hj => by simp only [update_of_ne hj, hall j]⟩
  | @fork c p np hc hp hnp =>
    have hrun := h.threads.running c p hc
    exact h.init.mono (p := p) (by simp [hrun, ProcState.active]) rfl
      (fun i _ => active_update (by simp [hnp, ProcState.active]) i)

theorem InitOk.change (h : Sound v) (hc : Change v v') : InitOk v' := by
  have hrunning : ∀ {c p}, v.cpu c = some p → (v.state p).active := by
    intro c p hc
    simp [h.threads.running c p hc, ProcState.active]
  have hupd : ∀ {p s}, s.active → ∀ i, v.initproc = some i → (v.state i).active →
      (update v.state p s i).active := fun hs i _ => active_update (fun _ => hs) i
  cases hc with
  | @startInit p hinit hp =>
    refine ⟨by simp [hinit], ?_⟩
    intro i hi
    obtain rfl : p = i := Option.some.inj (hinit.symm.trans hi)
    exact Or.inl (by simp [ProcState.active])
  | startFork hc hp => exact h.init.mono (hrunning hc) rfl (hupd (by simp [ProcState.active]))
  | failFork hc hp =>
    have he := (h.threads.forking _ _ hp).2.1
    exact h.init.mono (hrunning hc) rfl
      (fun i _ => active_update (by simp [he, ProcState.active]) i)
  | @dispatch c p hc hp =>
    exact h.init.mono (p := p) (by simp [hp, ProcState.active]) rfl
      (hupd (by simp [ProcState.active]))
  | resume hc hp => exact h.init.mono (hrunning hc) rfl (fun _ _ ha => ha)
  | reap hc hp hpar hi =>
    exact h.init.mono (hrunning hc) rfl
      (fun i _ => active_update (by simp [hi, ProcState.active]) i)
  | wait hc hp hnone => exact h.init.mono (hrunning hc) rfl (hupd (by simp [ProcState.active]))
  | sleep hc hp => exact h.init.mono (hrunning hc) rfl (hupd (by simp [ProcState.active]))
  | wake hw =>
    refine ⟨?_, ?_⟩
    · intro hn i
      have hu := h.init.noInit hn i
      exact (wake_eq hw (by simp [hu])).trans hu
    · intro i hi
      rcases h.init.init i hi with ha | ⟨he, hother⟩
      · exact Or.inl ((wake_active hw i).mpr ha)
      · refine Or.inr ⟨(wake_eq hw (by simp [he])).trans he, ?_⟩
        intro j hj
        have hu := hother j hj
        exact (wake_eq hw (by simp [hu])).trans hu
  | yield hc => exact h.init.mono (hrunning hc) rfl (hupd (by simp [ProcState.active]))
  | @exit c p init state hc hp hinit hne hw hparent horphan =>
    refine h.init.mono (hrunning hc) rfl ?_
    intro i hi ha
    obtain rfl : init = i := Option.some.inj (hinit.symm.trans hi)
    simp only [update_of_ne hne.symm]
    exact (wake_active hw init).mpr ha

theorem Sound.alloc (h : Sound v) (hc : Alloc v v') : Sound v' :=
  ⟨ThreadsOk.alloc h hc, InitOk.alloc h hc⟩

theorem Sound.change (h : Sound v) (hc : Change v v') : Sound v' :=
  ⟨ThreadsOk.change h hc, InitOk.change h hc⟩

theorem Sound.changes (h : Sound v) (hc : Relation.ReflTransGen Change v v') : Sound v' := by
  induction hc with
  | refl => exact h
  | tail _ hc ih => exact ih.change hc

end Xv6.Ptable.Tree
