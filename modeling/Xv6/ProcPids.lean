import Xv6.ProcThreads

/-!
# Pids

As long as `nextpid` does not overflow, processes in use have different pids, a child has a larger
pid than its parent, and no pid comes back after `wait` has returned it.
-/

namespace Xv6.Ptable.Tree

open Function

variable {v v' : Tree} {p q np : Slot}

theorem PidsOk.mono (h : PidsOk v) (hlive : ∀ i, v'.state i ≠ .unused → v.state i ≠ .unused)
    (hfork : ∀ q nq, v'.thread q = .forking nq → v.thread q = .forking nq) (hpid : v'.pid = v.pid)
    (hn : v'.nextpid = v.nextpid) (hr : v'.reaped = v.reaped) : PidsOk v' := by
  refine ⟨?_, ?_, ?_, ?_, ?_, by rw [hr]; exact h.once, by rw [hn]; exact h.pos⟩
  · intro i hi
    rw [hpid, hn]
    exact h.range i (hlive i hi)
  · intro i j hi hj
    rw [hpid]
    exact h.inj i j (hlive i hi) (hlive j hj)
  · intro q nq hq
    rw [hpid]
    exact h.order q nq (hfork q nq hq)
  · rw [hr, hn]
    exact h.old
  · rw [hr, hpid]
    exact fun r hr i hi => h.gone r hr i (hlive i hi)

/-- `allocproc` gives a pid that no process and no returned `wait` has. -/
theorem PidsOk.take (h : PidsOk v) (hnp : v.state np = .unused)
    (hs : v'.state = update v.state np .embryo) (hpid : v'.pid = update v.pid np v.nextpid)
    (hn : v'.nextpid = v.nextpid + 1) (hr : v'.reaped = v.reaped)
    (hfork : ∀ q nq, v'.thread q = .forking nq → q ≠ np ∧ v.state q ≠ .unused ∧
      (nq = np ∨ nq ≠ np ∧ v.thread q = .forking nq)) : PidsOk v' := by
  have hpos := h.pos
  have hother : ∀ i, i ≠ np → v'.state i ≠ .unused → v.state i ≠ .unused ∧ v'.pid i = v.pid i := by
    intro i hi hlive
    rw [hs, update_of_ne hi] at hlive
    exact ⟨hlive, by rw [hpid, update_of_ne hi]⟩
  have hnew : v'.pid np = v.nextpid := by rw [hpid, update_self]
  refine ⟨?_, ?_, ?_, ?_, ?_, by rw [hr]; exact h.once, by omega⟩
  · intro i hi
    rcases eq_or_ne i np with rfl | hne
    · omega
    · obtain ⟨hlive, heq⟩ := hother i hne hi
      have := h.range i hlive
      omega
  · intro i j hi hj hij
    rcases eq_or_ne i np with hie | hne <;> rcases eq_or_ne j np with hje | hne'
    · exact hie.trans hje.symm
    · rw [hie] at hij
      obtain ⟨hlive, heq⟩ := hother j hne' hj
      have := h.range j hlive
      omega
    · rw [hje] at hij
      obtain ⟨hlive, heq⟩ := hother i hne hi
      have := h.range i hlive
      omega
    · obtain ⟨hlive, heq⟩ := hother i hne hi
      obtain ⟨hlive', heq'⟩ := hother j hne' hj
      exact h.inj i j hlive hlive' (by rw [← heq, ← heq', hij])
  · intro q nq hq
    obtain ⟨hqn, hlive, hnq | ⟨hnq, hold⟩⟩ := hfork q nq hq
    · rw [hnq, hnew, hpid, update_of_ne hqn]
      exact (h.range q hlive).2
    · rw [hpid, update_of_ne hqn, update_of_ne hnq]
      exact h.order q nq hold
  · intro r hmem
    rw [hr] at hmem
    have := h.old r hmem
    omega
  · intro r hmem i hi
    rw [hr] at hmem
    have hlt := h.old r hmem
    rcases eq_or_ne i np with rfl | hne
    · omega
    · obtain ⟨hlive, heq⟩ := hother i hne hi
      rw [heq]
      exact h.gone r hmem i hlive

theorem PidsOk.reap (h : PidsOk v) (ht : ThreadsOk v) {i : Slot} (hi : v.state i = .zombie) :
    PidsOk { v with
      state := update v.state i .unused
      pid := update v.pid i 0
      parent := update v.parent i none
      reaped := v.reaped ++ [v.pid i] } := by
  have hlive : v.state i ≠ .unused := by simp [hi]
  have hother : ∀ j, update v.state i .unused j ≠ .unused → j ≠ i ∧ v.state j ≠ .unused := by
    intro j hj
    rcases eq_or_ne j i with rfl | hne
    · simp at hj
    · exact ⟨hne, by rwa [update_of_ne hne] at hj⟩
  refine ⟨?_, ?_, ?_, ?_, ?_, ?_, h.pos⟩
  · intro j hj
    obtain ⟨hne, hj'⟩ := hother j hj
    simp only [update_of_ne hne]
    exact h.range j hj'
  · intro j l hj hl
    obtain ⟨hne, hj'⟩ := hother j hj
    obtain ⟨hne', hl'⟩ := hother l hl
    simp only [update_of_ne hne, update_of_ne hne']
    exact h.inj j l hj' hl'
  · intro q nq hq
    obtain ⟨hst, he, -⟩ := ht.forking q nq hq
    have hqi : q ≠ i := by
      rintro rfl
      simp [hi] at hst
    have hnqi : nq ≠ i := by
      rintro rfl
      simp [hi] at he
    simp only [update_of_ne hqi, update_of_ne hnqi]
    exact h.order q nq hq
  · intro r hr
    rcases List.mem_append.mp hr with hr | hr
    · exact h.old r hr
    · rw [List.mem_singleton.mp hr]
      exact (h.range i hlive).2
  · intro r hr j hj
    obtain ⟨hne, hj'⟩ := hother j hj
    simp only [update_of_ne hne]
    rcases List.mem_append.mp hr with hr | hr
    · exact h.gone r hr j hj'
    · rw [List.mem_singleton.mp hr]
      exact fun hc => hne (h.inj j i hj' hlive hc)
  · rw [List.nodup_append]
    refine ⟨h.once, List.nodup_singleton _, ?_⟩
    intro r hr s hs hrs
    rw [List.mem_singleton.mp hs] at hrs
    exact h.gone r hr i hlive hrs.symm

theorem live_update {s : ProcState} (hp : v.state p ≠ .unused) (i : Slot)
    (hi : update v.state p s i ≠ .unused) : v.state i ≠ .unused := by
  rcases eq_or_ne i p with rfl | hne
  · exact hp
  · rwa [update_of_ne hne] at hi

theorem live_wake {state : Slot → ProcState}
    (hw : ∀ i, state i = v.state i ∨ v.state i = .sleeping ∧ state i = .runnable) (i : Slot)
    (hi : state i ≠ .unused) : v.state i ≠ .unused := by
  rcases hw i with heq | ⟨hs, -⟩
  · rwa [← heq]
  · simp [hs]

theorem PidsOk.alloc (h : Sound v) (hpids : PidsOk v) (hc : Alloc v v')
    (hlt : v.nextpid < 2 ^ 31 - 1) : PidsOk v' := by
  have hpos := hpids.pos
  have hnext : wrap32 (v.nextpid + 1) = v.nextpid + 1 := wrap32_of_range (by omega) (by omega)
  -- the new slot belongs to no `fork` in progress
  have hold : ∀ {np q nq}, v.state np = .unused → v.thread q = .forking nq →
      q ≠ np ∧ v.state q ≠ .unused ∧ nq ≠ np := by
    intro np q nq hnp hq
    obtain ⟨hst, he, -⟩ := h.threads.forking q nq hq
    have hlive : v.state q ≠ .unused := by
      rcases hst with hst | hst <;> simp [hst]
    refine ⟨?_, hlive, ?_⟩
    · rintro rfl
      exact hlive hnp
    · rintro rfl
      simp [hnp] at he
  cases hc with
  | init hinit hnp =>
    refine hpids.take hnp rfl rfl hnext rfl ?_
    intro q nq hq
    obtain ⟨hqn, hlive, hnq⟩ := hold hnp hq
    exact ⟨hqn, hlive, Or.inr ⟨hnq, hq⟩⟩
  | @fork c p np hc hp hnp =>
    refine hpids.take hnp rfl rfl hnext rfl ?_
    intro q nq hq
    have hrun := h.threads.running c p hc
    rcases eq_or_ne q p with rfl | hqp
    · simp only [update_self, Thread.forking.injEq] at hq
      refine ⟨?_, by simp [hrun], Or.inl hq.symm⟩
      rintro rfl
      simp [hrun] at hnp
    · simp only [update_of_ne hqp] at hq
      obtain ⟨hqn, hlive, hnq⟩ := hold hnp hq
      exact ⟨hqn, hlive, Or.inr ⟨hnq, hq⟩⟩

theorem forking_update {th : Thread} (hth : ∀ nq, th ≠ .forking nq) (q nq : Slot)
    (hq : update v.thread p th q = .forking nq) : v.thread q = .forking nq := by
  rcases eq_or_ne q p with rfl | hqp
  · rw [update_self] at hq
    exact absurd hq (hth nq)
  · rwa [update_of_ne hqp] at hq

theorem PidsOk.change (h : Sound v) (hpids : PidsOk v) (hc : Change v v') : PidsOk v' := by
  have hrun : ∀ {c p}, v.cpu c = some p → v.state p ≠ .unused := by
    intro c p hc
    simp [h.threads.running c p hc]
  have hsame : ∀ q nq, v.thread q = .forking nq → v.thread q = .forking nq := fun _ _ hq => hq
  cases hc with
  | startInit hinit hp => exact hpids.mono (live_update (by simp [hp])) hsame rfl rfl rfl
  | startFork hc hp =>
    have hnp := (h.threads.forking _ _ hp).2.1
    exact hpids.mono (live_update (by simp [hnp])) (forking_update (by simp)) rfl rfl rfl
  | failFork hc hp =>
    have hnp := (h.threads.forking _ _ hp).2.1
    exact hpids.mono (live_update (by simp [hnp])) (forking_update (by simp)) rfl rfl rfl
  | dispatch hc hp => exact hpids.mono (live_update (by simp [hp])) hsame rfl rfl rfl
  | resume hc hp => exact hpids.mono (fun i hi => hi) (forking_update (by simp)) rfl rfl rfl
  | reap hc hp hpar hi => exact hpids.reap h.threads hi
  | wait hc hp hnone =>
    exact hpids.mono (live_update (hrun hc)) (forking_update (by simp)) rfl rfl rfl
  | sleep hc hp =>
    exact hpids.mono (live_update (hrun hc)) (forking_update (by simp)) rfl rfl rfl
  | wake hw => exact hpids.mono (live_wake hw) hsame rfl rfl rfl
  | yield hc => exact hpids.mono (live_update (hrun hc)) hsame rfl rfl rfl
  | @exit c p init state hc hp hinit hne hw hparent horphan =>
    refine hpids.mono ?_ hsame rfl rfl rfl
    intro i hi
    rcases eq_or_ne i p with rfl | hip
    · exact hrun hc
    · simp only [update_of_ne hip] at hi
      exact live_wake hw i hi

end Xv6.Ptable.Tree
