import Xv6.PipeFifo

/-!
# Wakeups on pipes

A reader sleeps while the pipe is empty and its write end is open, a writer while the pipe is full
and its read end is open. There is one way to lose a wakeup: `pipewrite` returns early, without
waking the readers, when it finds the pipe full and its read end closed or its process killed. That
is harmless unless it has just filled the pipe itself.
-/

namespace Xv6.Kern

open Monitor (Place)

variable {n : Nat} {d : PipeData n}

/-- The reason to sleep on a channel of the pipe. -/
def PipeData.blocks : PipeChan → PipeData n → Prop
  | .nread, d => d.empty ∧ d.writeopen = true
  | .nwrite, d => d.full ∧ d.readopen = true

/-- The wakeups that a call is going to make before it gives up the lock. -/
def PipeLocal.owes : PipeChan → PipeLocal n → Prop
  | .nread, writeFor w | .nread, writeWhile w | .nread, writeTest w | .nread, writeFull w =>
    w.fresh = true
  | .nread, closeWake writable => writable = true
  | .nwrite, readFor _ => True
  | .nwrite, closeWake writable => writable = false
  | _, _ => False

/-- `pipewrite` does not return early with bytes in the pipe that no reader was told about. -/
def NoSilentReturn (killed : Bool) (t : PipeLocal n) (d : PipeData n) : Prop :=
  ∀ w, t = .writeTest w → w.fresh = true → d.readopen = true ∧ killed = false

theorem pipeSignals : Monitor.Signals (pipeProgram n) NoSilentReturn PipeAt PipeData.blocks
    PipeLocal.owes where
  step := by
    intro i b t t' d d' h hP ha c hc
    obtain ⟨hbuf, -, -, hsees⟩ := h
    cases t with
    | writeFor w =>
      simp only [pipeProgram, pipeAct] at ha
      split_ifs at ha
      cases ha
      cases c <;> exact hc
    | writeWhile w =>
      simp only [pipeProgram, pipeAct] at ha
      split_ifs at ha with hfull
      · cases ha
        cases c <;> exact hc
      · cases ha
        cases c
        · exact Or.inr rfl
        · exact absurd (hc.resolve_right id).1 hfull
    | writeTest w =>
      simp only [pipeProgram, pipeAct] at ha
      split_ifs at ha with hopen
      cases ha
      cases c
      · refine Or.inl (hc.resolve_right (fun hfresh => ?_))
        exact hopen (hP w rfl hfresh).1
      · exact hc
    | writeFull w => simp [pipeProgram, pipeAct] at ha
    | writeSleep w => simp [pipeProgram, pipeAct] at ha
    | writeReturn w r =>
      simp only [pipeProgram, pipeAct] at ha
      cases ha
      cases c <;> exact hc
    | readWhile r =>
      simp only [pipeProgram, pipeAct] at ha
      split_ifs at ha
      cases ha
      cases c
      · exact hc
      · exact Or.inr trivial
    | readSleep r => simp [pipeProgram, pipeAct] at ha
    | readFor r =>
      simp only [pipeProgram, pipeAct] at ha
      split_ifs at ha with hcond
      cases ha
      cases c
      · exact absurd (hc.resolve_right id).1 hcond.2
      · exact Or.inr trivial
    | readReturn r res =>
      simp only [pipeProgram, pipeAct] at ha
      cases ha
      cases c <;> exact hc
    | closeFlag writable =>
      cases writable <;> simp only [pipeProgram, pipeAct] at ha <;> cases ha
      · cases c
        · exact Or.inl (hc.resolve_right id)
        · exact Or.inr rfl
      · cases c
        · exact Or.inr rfl
        · exact Or.inl (hc.resolve_right id)
    | closeWake writable => cases writable <;> simp [pipeProgram, pipeAct] at ha
    | closeTest =>
      simp only [pipeProgram, pipeAct] at ha
      cases ha
      cases c <;> exact hc
    | finished => simp [pipeProgram, pipeAct] at ha
  testKilled := by
    intro i b t yes no d h hP ha c hc
    rcases act_testKilled ha with ⟨w, rfl, hopen, rfl, rfl⟩ | ⟨r, rfl, hcond, rfl, rfl⟩
    · cases b with
      | false => cases c <;> exact hc
      | true =>
        cases c
        · refine Or.inl (hc.resolve_right (fun hfresh => ?_))
          exact absurd (hP w rfl hfresh).2 (by simp)
        · exact hc
    · cases b <;> cases c <;> exact hc
  wakeup := by
    intro i t t' c' d h ha c hne hc
    rcases act_wakeup ha with ⟨w, rfl, hlt, rfl, rfl⟩ | ⟨w, rfl, rfl, rfl⟩ | ⟨r, rfl, hcond, rfl, rfl⟩ |
      ⟨rfl, rfl, rfl⟩ | ⟨rfl, rfl, rfl⟩ <;> cases c <;> first | exact absurd rfl hne | skip
    · exact hc
    · exact hc
    · exact hc
    · exact Or.inl (hc.resolve_right (by simp [PipeLocal.owes]))
    · exact Or.inl (hc.resolve_right (by simp [PipeLocal.owes]))
  sleep := by
    intro i t t' c' d h ha
    obtain ⟨-, -, -, hsees⟩ := h
    rcases act_sleep ha with ⟨w, rfl, rfl, rfl⟩ | ⟨r, rfl, rfl, rfl⟩
    · exact ⟨hsees.2, fun c hc => hc.resolve_right (by cases c <;> exact id)⟩
    · exact ⟨hsees.2, fun c hc => hc.resolve_right (by cases c <;> exact id)⟩
  release := by
    intro i t d h ha c hc
    obtain rfl := act_release ha
    exact hc.resolve_right (by cases c <;> exact id)

variable {k : Kernel n (PipeData n) (PipeLocal n) PipeChan}

/-- Process `i` is SLEEPING in a call that goes on with `t`. -/
def SleepsIn (k : Kernel n (PipeData n) (PipeLocal n) PipeChan) (i : Fin n) (t : PipeLocal n) : Prop :=
  k.state i = .sleeping ∧ ∃ c, k.pc i = .sleepSched c t ∨ k.pc i = .asleep c t

theorem SleepsIn.blocked {data : Fin PIPESIZE → UInt8} {es : List (Event n PipeCall)}
    (halong : Along (step (pipeProgram n)) (Allowed NoSilentReturn)
      (Kernel.boot n (PipeData.init n data)) es)
    (hrun : run (step (pipeProgram n)) (Kernel.boot n (PipeData.init n data)) es = some k)
    (hlk : k.lk = none) {i : Fin n} {t : PipeLocal n} (h : SleepsIn k i t) {c : PipeChan}
    (ht : t.sleepsOn = some c) : k.shared.blocks c := by
  obtain ⟨hs, c', hpc⟩ := h
  have hok := (run_refines halong hrun).1
  have hout : ∀ i, PipeAt i .out (PipeData.init n data) := fun _ => rfl
  have hK := run_holds (pipeAssertions _) hout ⟨buffered_init data, rfl⟩ halong hrun
  have hchan : k.chan i = some c' := by
    refine hok.chan i c' ?_
    rcases hpc with hpc | hpc <;> rw [hpc] <;> rfl
  have hplace : k.monitor.place i = .asleep c' t := by
    rcases hpc with hpc | hpc <;> simp [Kernel.monitor, hpc, Pc.place, hs]
  have hat := hK.place i
  rw [hplace] at hat
  obtain rfl : c' = c := Option.some.inj (hat.2.2.symm.trans ht)
  obtain ⟨-, hW | ⟨j, hj⟩⟩ := run_sleeping (pipeAssertions _) pipeSignals hout
    ⟨buffered_init data, rfl⟩ halong hrun hs hchan
  · exact hW
  · have hholds := (hok.lk j).mpr ((Pc.place_holds _ _).mp (Monitor.Place.holds_of_owes hj))
    simp [hlk] at hholds

/-- No wakeup is lost, in every run in which `pipewrite` makes no silent return. -/
theorem run_pipeSleepers {data : Fin PIPESIZE → UInt8} {es : List (Event n PipeCall)}
    (halong : Along (step (pipeProgram n)) (Allowed NoSilentReturn)
      (Kernel.boot n (PipeData.init n data)) es)
    (hrun : run (step (pipeProgram n)) (Kernel.boot n (PipeData.init n data)) es = some k)
    (hlk : k.lk = none) (i : Fin n) :
    (∀ r, SleepsIn k i (.readWhile r) →
      k.shared.nread = k.shared.nwrite ∧ k.shared.writeopen = true) ∧
    ∀ w, SleepsIn k i (.writeWhile w) →
      k.shared.nwrite = k.shared.nread + 512 ∧ k.shared.readopen = true :=
  ⟨fun _ h => h.blocked halong hrun hlk rfl, fun _ h => h.blocked halong hrun hlk rfl⟩

def noSilentReturnB (k : Kernel n (PipeData n) (PipeLocal n) PipeChan) : Event n PipeCall → Bool
  | .exec c =>
    match k.cpu c with
    | .running i =>
      match k.pc i with
      | .inside (.writeTest w) => !w.fresh || k.shared.readopen && !k.killed i
      | _ => true
    | _ => true
  | _ => true

theorem allowed_of_noSilentReturnB (k : Kernel n (PipeData n) (PipeLocal n) PipeChan)
    (e : Event n PipeCall) (h : noSilentReturnB k e = true) : Allowed NoSilentReturn k e := by
  rintro c i t rfl hc hpc w rfl hfresh
  simpa [noSilentReturnB, hc, hpc, hfresh] using h

local instance pipeTwo : NeZero 2 := ⟨by decide⟩

section Two

variable {k : Kernel 2 (PipeData 2) (PipeLocal 2) PipeChan}

/-- Whether process 0 sleeps in a call of `piperead` for one byte. -/
def readerSleeps (k : Kernel 2 (PipeData 2) (PipeLocal 2) PipeChan) : Bool :=
  match k.pc 0 with
  | .asleep .nread (.readWhile r) => r.n = 1 && r.buf = [] && k.state 0 = .sleeping
  | _ => false

theorem sleepsIn_of_readerSleeps (h : readerSleeps k = true) :
    SleepsIn k 0 (.readWhile ⟨1, []⟩) := by
  unfold readerSleeps at h
  split at h
  · next r hpc =>
    simp only [Bool.and_eq_true, decide_eq_true_eq] at h
    obtain ⟨⟨hn, hbuf⟩, hs⟩ := h
    obtain ⟨n', buf⟩ := r
    simp only at hn hbuf
    subst hn hbuf
    exact ⟨hs, .nread, Or.inr hpc⟩
  · cases h

/-- A reader finds the pipe empty and goes to sleep. Then a writer begins to write 513 bytes. -/
def writerStarts : List (Event 2 PipeCall) :=
  ([.schedule 0, .dispatch 0 0, .exec 0, .start 0 (.read 1)] : List (Event 2 PipeCall)) ++
    List.replicate 8 (.exec 0 : Event 2 PipeCall) ++ ([.unschedule 0, .schedule 0, .dispatch 0 1,
      .exec 0, .start 0 (.write (fun _ => 0) 513)] : List (Event 2 PipeCall))

/-- Whether process 1 sleeps in a call of `pipewrite`. -/
def writerSleeps (k : Kernel 2 (PipeData 2) (PipeLocal 2) PipeChan) : Bool :=
  match k.pc 1 with
  | .asleep .nwrite (.writeWhile _) => k.state 1 = .sleeping
  | _ => false

theorem sleepsIn_of_writerSleeps (h : writerSleeps k = true) :
    ∃ w, SleepsIn k 1 (.writeWhile w) := by
  unfold writerSleeps at h
  split at h
  · next w hpc => exact ⟨w, of_decide_eq_true h, .nwrite, Or.inr hpc⟩
  · cases h

/-- The writer fills the pipe, wakes up the reader and goes to sleep. -/
theorem writerFills_blocked : ∃ k w, run (step (pipeProgram 2))
      (Kernel.boot 2 (PipeData.init 2 (fun _ => 0)))
      (writerStarts ++ List.replicate 1039 (.exec 0)) = some k ∧
    k.state 0 = .runnable ∧ SleepsIn k 1 (.writeWhile w) ∧
    k.shared.nwrite = k.shared.nread + 512 ∧ k.shared.readopen = true := by
  obtain ⟨k, hk, hstate⟩ := Option.map_eq_some_iff.mp (by decide +kernel :
    (run (step (pipeProgram 2)) (Kernel.boot 2 (PipeData.init 2 (fun _ => 0)))
      (writerStarts ++ List.replicate 1039 (.exec 0))).map
        (fun k => (k.lk, k.state 0, writerSleeps k)) = some (none, .runnable, true))
  simp only [Prod.mk.injEq] at hstate
  obtain ⟨w, hw⟩ := sleepsIn_of_writerSleeps hstate.2.2
  have halong := along_of_alongB (s := Kernel.boot 2 (PipeData.init 2 (fun _ => 0))) _
    allowed_of_noSilentReturnB (by decide +kernel :
      alongB (step (pipeProgram 2)) _ _ (writerStarts ++ List.replicate 1039 (.exec 0)) = true)
  exact ⟨k, w, hk, hstate.2.1, hw, (run_pipeSleepers halong hk hstate.1 1).2 w hw⟩

/-- A writer that has been killed fills the pipe and returns. -/
def killedWriter : List (Event 2 PipeCall) :=
  writerStarts ++ ([.killLock, .kill 1, .killUnlock] : List (Event 2 PipeCall)) ++
    List.replicate 1030 (.exec 0 : Event 2 PipeCall)

/-- The lock is free and the pipe is full, and the reader sleeps on. -/
theorem killedWriter_lost : ∃ k, run (step (pipeProgram 2))
    (Kernel.boot 2 (PipeData.init 2 (fun _ => 0))) killedWriter = some k ∧
    k.lk = none ∧ SleepsIn k 0 (.readWhile ⟨1, []⟩) ∧ k.shared.nread = 0 ∧ k.shared.nwrite = 512 ∧
    k.shared.writeopen = true := by
  obtain ⟨k, hk, hstate⟩ := Option.map_eq_some_iff.mp (by decide +kernel :
    (run (step (pipeProgram 2)) (Kernel.boot 2 (PipeData.init 2 (fun _ => 0))) killedWriter).map
      (fun k => (k.lk, readerSleeps k, k.shared.nread, k.shared.nwrite, k.shared.writeopen)) =
        some (none, true, 0, 512, true))
  simp only [Prod.mk.injEq] at hstate
  exact ⟨k, hk, hstate.1, sleepsIn_of_readerSleeps hstate.2.1, hstate.2.2⟩

end Two

end Xv6.Kern
