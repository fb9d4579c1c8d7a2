import Xv6.ProcPids

/-!
# Parents and children

Every change of the process tree keeps an active parent for each started process, and no process
sleeps in `wait` while it has a child to reap. Following the parents ends at init.
-/

namespace Xv6.Ptable.Tree

open Function

variable {v v' : Tree} {p q np : Slot}

theorem FamilyOk.mono (h : FamilyOk v) (hinit : v'.initproc = v.initproc)
    (hact : ∀ i, (v.state i).active → (v'.state i).active)
    (hstart : ∀ i, (v'.state i).started →
      (v.state i).started ∧ v'.parent i = v.parent i ∧ v'.pid i = v.pid i)
    (hwait : ∀ i, v'.state i = .sleeping → v'.thread i = .waiting →
      v.state i = .sleeping ∧ v.thread i = .waiting ∧ v'.chan i = v.chan i)
    (hzombie : ∀ i, v'.state i = .zombie → v.state i = .zombie) : FamilyOk v' := by
  refine ⟨?_, ?_⟩
  · intro i hi hne
    obtain ⟨hs, hpar, hpid⟩ := hstart i hi
    rw [hinit] at hne ⊢
    obtain ⟨q, hq, hqa, hlt⟩ := h.parent i hs hne
    have hpidq := (hstart q (Or.inl (hact q hqa))).2.2
    exact ⟨q, by rw [hpar, hq], hact q hqa, by rwa [hpid, hpidq]⟩
  · intro i hi hth
    obtain ⟨hs, ht, hch⟩ := hwait i hi hth
    obtain ⟨hchan, hkids⟩ := h.waiting i hs ht
    refine ⟨by rw [hch, hchan], ?_⟩
    intro j hj hz
    have hpar := (hstart j (Or.inr hz)).2.1
    exact hkids j (by rw [← hpar, hj]) (hzombie j hz)

theorem started_update {s : ProcState} (hp : s.started → (v.state p).started) (i : Slot)
    (hi : (update v.state p s i).started) : (v.state i).started := by
  rcases eq_or_ne i p with rfl | hne
  · rw [update_self] at hi
    exact hp hi
  · rwa [update_of_ne hne] at hi

theorem zombie_update {s : ProcState} (hs : s ≠ .zombie) (i : Slot)
    (hi : update v.state p s i = .zombie) : v.state i = .zombie := by
  rcases eq_or_ne i p with rfl | hne
  · rw [update_self] at hi
    exact absurd hi hs
  · rwa [update_of_ne hne] at hi

theorem sleeping_update {s : ProcState} (hs : s ≠ .sleeping) (i : Slot)
    (hi : update v.state p s i = .sleeping) : i ≠ p ∧ v.state i = .sleeping := by
  rcases eq_or_ne i p with rfl | hne
  · rw [update_self] at hi
    exact absurd hi hs
  · exact ⟨hne, by rwa [update_of_ne hne] at hi⟩

theorem FamilyOk.exit (h : Ok v) {c : Nat} {init : Slot} {state : Slot → ProcState}
    (hc : v.cpu c = some p) (hinit : v.initproc = some init) (hne : p ≠ init)
    (hw : ∀ i, state i = v.state i ∨ v.state i = .sleeping ∧ state i = .runnable)
    (hparent : ∀ i, state i = .sleeping → v.chan i = some (.proc i) → v.parent p ≠ some i)
    (horphan : state init = .sleeping → v.chan init = some (.proc init) →
      ∀ i, v.parent i = some p → v.state i ≠ .zombie) :
    FamilyOk { v with
      state := update state p .zombie
      parent := fun i => if v.parent i = some p then some init else v.parent i
      cpu := update v.cpu c none } := by
  have hrun := h.threads.running c p hc
  obtain ⟨i₀, hi₀, ha₀⟩ := h.init.active (p := p) (by simp [hrun, ProcState.active])
  obtain rfl : init = i₀ := Option.some.inj (hinit.symm.trans hi₀)
  have hact : ∀ q, q ≠ p → (v.state q).active → (update state p .zombie q).active := by
    intro q hq ha
    rw [update_of_ne hq]
    exact (wake_active hw q).mpr ha
  refine ⟨?_, ?_⟩
  · intro i hi hni
    have hs : (v.state i).started := by
      rcases eq_or_ne i p with rfl | hip
      · simp [hrun, ProcState.started, ProcState.active]
      · simp only [update_of_ne hip] at hi
        rcases hi with ha | hz
        · exact Or.inl ((wake_active hw i).mp ha)
        · rcases hw i with heq | ⟨-, hr⟩
          · exact Or.inr (heq ▸ hz)
          · simp [hr] at hz
    obtain ⟨q, hq, hqa, hlt⟩ := h.family.parent i hs hni
    rcases eq_or_ne q p with rfl | hqp
    · exact ⟨init, by simp [hq], hact init hne.symm ha₀, Or.inl hinit⟩
    · refine ⟨q, ?_, hact q hqp hqa, hlt⟩
      simp [hq, hqp]
  · intro i hi hth
    obtain ⟨hip, hi'⟩ : i ≠ p ∧ state i = .sleeping := by
      rcases eq_or_ne i p with rfl | hip
      · simp at hi
      · exact ⟨hip, by simpa only [update_of_ne hip] using hi⟩
    have hsl : v.state i = .sleeping := by
      rcases hw i with heq | ⟨hs, -⟩
      · rw [← heq, hi']
      · exact hs
    obtain ⟨hchan, hkids⟩ := h.family.waiting i hsl hth
    refine ⟨hchan, ?_⟩
    intro j hj hz
    rcases eq_or_ne j p with rfl | hjp
    · -- the exiting process: its parent has just been woken
      refine hparent i hi' hchan ?_
      by_cases hjj : v.parent j = some j
      · obtain ⟨q, hq, hqa, hlt⟩ := h.family.parent j (by simp [hrun, ProcState.started,
          ProcState.active]) (by simp [hinit, hne.symm])
        obtain rfl : j = q := Option.some.inj (hjj.symm.trans hq)
        simp [hinit, hne.symm] at hlt
      · simpa [hjj] using hj
    · have hzj : v.state j = .zombie := by
        simp only [update_of_ne hjp] at hz
        rcases hw j with heq | ⟨-, hr⟩
        · rw [← heq, hz]
        · simp [hr] at hz
      by_cases hjp' : v.parent j = some p
      · simp only [hjp', if_true, Option.some.injEq] at hj
        subst hj
        exact horphan hi' hchan j hjp' hzj
      · simp only [if_neg hjp'] at hj
        exact hkids j hj hzj

theorem FamilyOk.alloc (h : Ok v) (hc : Alloc v v') : FamilyOk v' := by
  cases hc with
  | @init np hinit hnp =>
    have hall := h.init.noInit hinit
    have hstate : ∀ i, update v.state np .embryo i = .embryo ∨
        update v.state np .embryo i = .unused := by
      intro i
      rcases eq_or_ne i np with rfl | hne
      · simp
      · exact Or.inr (by rw [update_of_ne hne, hall i])
    refine ⟨?_, ?_⟩
    · intro i hi
      rcases hstate i with hs | hs <;> simp [hs, ProcState.started, ProcState.active] at hi
    · intro i hi
      rcases hstate i with hs | hs <;> simp [hs] at hi
  | @fork c p np hc hp hnp =>
    have hne : ∀ i, v.state i ≠ .unused → i ≠ np := by
      rintro i hi rfl
      exact hi hnp
    refine h.family.mono rfl (active_update (by simp [hnp, ProcState.active])) ?_ ?_
      (zombie_update (by simp))
    · intro i hi
      have hs := started_update (by simp [ProcState.started, ProcState.active]) i hi
      have hinp : i ≠ np := hne i (by rintro hc; simp [hc, ProcState.started, ProcState.active] at hs)
      exact ⟨hs, rfl, update_of_ne hinp _ _⟩
    · intro i hi hth
      obtain ⟨-, hi'⟩ := sleeping_update (by simp) i hi
      have hip : i ≠ p := by
        rintro rfl
        simp [h.threads.running c i hc] at hi'
      exact ⟨hi', by simpa only [update_of_ne hip] using hth, rfl⟩

theorem FamilyOk.change (h : Ok v) (hc : Change v v') : FamilyOk v' := by
  have hrunning : ∀ {c p}, v.cpu c = some p → (v.state p).active := by
    intro c p hc
    simp [h.threads.running c p hc, ProcState.active]
  cases hc with
  | @startInit p hinit hp =>
    have hother : ∀ j, j ≠ p → v.state j = .unused := by
      rcases h.init.init p hinit with ha | ⟨-, hother⟩
      · simp [hp, ProcState.active] at ha
      · exact hother
    refine ⟨?_, ?_⟩
    · intro i hi hni
      have hip : i ≠ p := fun hc => hni (hc ▸ hinit)
      simp [update_of_ne hip, hother i hip, ProcState.started, ProcState.active] at hi
    · intro i hi
      obtain ⟨hip, hi'⟩ := sleeping_update (by simp) i hi
      simp [hother i hip] at hi'
  | @startFork c p np hc hp =>
    have hlt := h.pids.order p np hp
    have hpa := hrunning hc
    have hact : ∀ i, (v.state i).active → (update v.state np .runnable i).active :=
      active_update (by simp [ProcState.active])
    refine ⟨?_, ?_⟩
    · intro i hi hini
      rcases eq_or_ne i np with rfl | hinp
      · exact ⟨p, update_self _ _ _, hact p hpa, Or.inr hlt⟩
      · simp only [update_of_ne hinp] at hi ⊢
        obtain ⟨q, hq, hqa, hltq⟩ := h.family.parent i hi hini
        exact ⟨q, hq, hact q hqa, hltq⟩
    · intro i hi hth
      obtain ⟨hinp, hi'⟩ := sleeping_update (by simp) i hi
      have hip : i ≠ p := by
        rintro rfl
        simp [h.threads.running c i hc] at hi'
      simp only [update_of_ne hip] at hth
      obtain ⟨hchan, hkids⟩ := h.family.waiting i hi' hth
      refine ⟨hchan, ?_⟩
      intro j hj hz
      rcases eq_or_ne j np with rfl | hjnp
      · simp at hz
      · simp only [update_of_ne hjnp] at hj hz
        exact hkids j hj hz
  | @failFork c p np hc hp =>
    obtain ⟨-, he, -⟩ := h.threads.forking p np hp
    refine h.family.mono rfl (active_update (by simp [he, ProcState.active])) ?_ ?_
      (zombie_update (by simp))
    · intro i hi
      exact ⟨started_update (by simp [ProcState.started, ProcState.active]) i hi, rfl, rfl⟩
    · intro i hi hth
      obtain ⟨-, hi'⟩ := sleeping_update (by simp) i hi
      have hip : i ≠ p := by
        rintro rfl
        simp [h.threads.running c i hc] at hi'
      exact ⟨hi', by simpa only [update_of_ne hip] using hth, rfl⟩
  | @dispatch c p hc hp =>
    refine h.family.mono rfl
      (active_update (by simp [ProcState.active])) ?_ ?_ (zombie_update (by simp))
    · intro i hi
      exact ⟨started_update (by simp [hp, ProcState.started, ProcState.active]) i hi, rfl, rfl⟩
    · intro i hi hth
      exact ⟨(sleeping_update (by simp) i hi).2, hth, rfl⟩
  | @resume c p hc hp =>
    refine h.family.mono rfl (fun _ ha => ha) (fun i hi => ⟨hi, rfl, rfl⟩) ?_
      (fun _ hz => hz)
    intro i hi hth
    have hip : i ≠ p := by
      rintro rfl
      simp [h.threads.running c i hc] at hi
    simp only [update_of_ne hip] at hth ⊢
    exact ⟨hi, hth, trivial⟩
  | @reap c p i hc hp hpar hi =>
    refine h.family.mono rfl (active_update (by simp [hi, ProcState.active])) ?_ ?_
      (zombie_update (by simp))
    · intro j hj
      rcases eq_or_ne j i with rfl | hji
      · simp [ProcState.started, ProcState.active] at hj
      · simp only [update_of_ne hji] at hj ⊢
        exact ⟨hj, trivial, trivial⟩
    · intro j hj hth
      exact ⟨(sleeping_update (by simp) j hj).2, hth, rfl⟩
  | @wait c p hc hp hnone =>
    have hpa := hrunning hc
    have hact : ∀ i, (v.state i).active → (update v.state p .sleeping i).active :=
      active_update (by simp [ProcState.active])
    refine ⟨?_, ?_⟩
    · intro i hi hini
      have hs := started_update (fun _ => Or.inl hpa) i hi
      obtain ⟨q, hq, hqa, hltq⟩ := h.family.parent i hs hini
      exact ⟨q, hq, hact q hqa, hltq⟩
    · intro i hi hth
      have hkids : ∀ j, update v.state p .sleeping j = .zombie → v.state j = .zombie :=
        zombie_update (by simp)
      rcases eq_or_ne i p with rfl | hip
      · exact ⟨update_self _ _ _, fun j hj hz => hnone j hj (hkids j hz)⟩
      · simp only [update_of_ne hip] at hi hth ⊢
        obtain ⟨hchan, hk⟩ := h.family.waiting i hi hth
        exact ⟨hchan, fun j hj hz => hk j hj (hkids j hz)⟩
  | @sleep c p chan hc hp =>
    refine h.family.mono rfl (active_update (by simp [ProcState.active])) ?_ ?_
      (zombie_update (by simp))
    · intro i hi
      exact ⟨started_update (fun _ => Or.inl (hrunning hc)) i hi, rfl, rfl⟩
    · intro i hi hth
      rcases eq_or_ne i p with rfl | hip
      · simp at hth
      · simp only [update_of_ne hip] at hi hth ⊢
        exact ⟨hi, hth, trivial⟩
  | @wake state hw =>
    have hold : ∀ i, state i = .sleeping ∨ state i = .zombie → state i = v.state i := by
      intro i hi
      rcases hw i with heq | ⟨-, hr⟩
      · exact heq
      · simp [hr] at hi
    refine ⟨?_, ?_⟩
    · intro i hi hni
      have hs : (v.state i).started := by
        rcases hi with ha | hz
        · exact Or.inl ((wake_active hw i).mp ha)
        · exact Or.inr ((hold i (Or.inr hz)).symm.trans hz)
      obtain ⟨q, hq, hqa, hlt⟩ := h.family.parent i hs hni
      exact ⟨q, hq, (wake_active hw q).mpr hqa, hlt⟩
    · intro i hi hth
      obtain ⟨hchan, hk⟩ := h.family.waiting i ((hold i (Or.inl hi)).symm.trans hi) hth
      exact ⟨hchan, fun j hj hz => hk j hj ((hold j (Or.inr hz)).symm.trans hz)⟩
  | @yield c p hc =>
    refine h.family.mono rfl (active_update (by simp [ProcState.active])) ?_ ?_
      (zombie_update (by simp))
    · intro i hi
      exact ⟨started_update (fun _ => Or.inl (hrunning hc)) i hi, rfl, rfl⟩
    · intro i hi hth
      exact ⟨(sleeping_update (by simp) i hi).2, hth, rfl⟩
  | exit hc hp hinit hne hw hparent horphan =>
    exact FamilyOk.exit h hc hinit hne hw hparent horphan

theorem Ok.alloc (h : Ok v) (hc : Alloc v v') (hlt : v.nextpid < 2 ^ 31 - 1) : Ok v' :=
  ⟨h.toSound.alloc hc, PidsOk.alloc h.toSound h.pids hc hlt, FamilyOk.alloc h hc⟩

theorem Ok.change (h : Ok v) (hc : Change v v') : Ok v' :=
  ⟨h.toSound.change hc, PidsOk.change h.toSound h.pids hc, FamilyOk.change h hc⟩

theorem Ok.changes (h : Ok v) (hc : Relation.ReflTransGen Change v v') : Ok v' := by
  induction hc with
  | refl => exact h
  | tail _ hc ih => exact ih.change hc

/-- Following the parents of a started process ends at init. -/
theorem Ok.ancestor (h : Ok v) {i : Slot} (hi : (v.state i).started) :
    ∃ init, v.initproc = some init ∧
      Relation.ReflTransGen (fun j q => v.parent j = some q) i init := by
  have hlive : ∀ {j}, (v.state j).started → v.state j ≠ .unused := by
    rintro j hj hc
    simp [hc, ProcState.started, ProcState.active] at hj
  -- by induction on the pid: a parent that is not init has a smaller one
  suffices hall : ∀ (n : Nat) j, (v.state j).started → v.pid j ≤ n → ∃ init,
      v.initproc = some init ∧ Relation.ReflTransGen (fun j q => v.parent j = some q) j init by
    have hpos := (h.pids.range i (hlive hi)).1
    exact hall (v.pid i).toNat i hi (Int.self_le_toNat _)
  intro n
  induction n with
  | zero =>
    intro j hj hle
    have := (h.pids.range j (hlive hj)).1
    omega
  | succ n ih =>
    intro j hj hle
    by_cases hinit : v.initproc = some j
    · exact ⟨j, hinit, .refl⟩
    · obtain ⟨q, hq, hqa, hor⟩ := h.family.parent j hj hinit
      rcases hor with hqi | hlt
      · exact ⟨q, hqi, .single hq⟩
      · obtain ⟨init, hi', hpath⟩ := ih q (Or.inl hqa) (by omega)
        exact ⟨init, hi', .head hq hpath⟩

end Xv6.Ptable.Tree
