import Xv6.Pipe

/-!
# Pipes are lossless

What each process knows at each place of `pipewrite`, `piperead` and `pipeclose`, and what follows
for every run: the bytes come out in the order in which they were stored, and none is lost.
-/

namespace Xv6.Kern

open Function
open Monitor (Place)

variable {n : Nat} {d d' : PipeData n} {i j : Fin n}

/-- The bytes of process `i` in the order in which they were stored. -/
def PipeData.storedBy (d : PipeData n) (i : Fin n) : List UInt8 :=
  (d.stored.filter (fun b => b.1 = i)).map Prod.snd

namespace PipeLocal

def write? : PipeLocal n → Option (Write n)
  | writeFor w | writeWhile w | writeTest w | writeFull w | writeSleep w | writeReturn w _ => some w
  | _ => none

/-- The bytes that the running call of `pipewrite` has stored. -/
def progress (t : PipeLocal n) : List UInt8 := (t.write?.map Write.bytes).getD []

/-- The bytes that the running call of `piperead` has copied. -/
def buf : PipeLocal n → List UInt8
  | readWhile r | readSleep r | readFor r | readReturn r _ => r.buf
  | _ => []

/-- Where a call begins to run or goes on after `sleep`. -/
def entry : PipeLocal n → Prop
  | writeFor w => w.i = 0
  | writeWhile w => (w.i : Int) < w.n
  | readWhile r => r.buf = []
  | closeFlag _ => True
  | _ => False

/-- The channel on which a call sleeps that goes on here. -/
def sleepsOn : PipeLocal n → Option PipeChan
  | readWhile _ => some .nread
  | writeWhile _ => some .nwrite
  | _ => none

/-- What a process knows that holds the lock. -/
def sees : PipeLocal n → PipeData n → Prop
  | writeFor w, _ => w.i = 0 ∨ (w.i : Int) ≤ w.n
  | writeWhile w, _ => (w.i : Int) < w.n
  | writeTest w, d => (w.i : Int) < w.n ∧ d.full
  | writeFull w, d | writeSleep w, d => (w.i : Int) < w.n ∧ d.full ∧ d.readopen = true
  | writeReturn w r, _ => r = -1 ∨ r = w.n ∧ (0 ≤ w.n → (w.i : Int) = w.n)
  | readWhile r, _ => r.buf = []
  | readSleep r, d => r.buf = [] ∧ d.empty ∧ d.writeopen = true
  | readFor r, d => r.buf = [] → d.empty → d.writeopen = false
  | readReturn r res, d => (res < 0 → r.buf = []) ∧
      (res = 0 → 0 < r.n → d.empty ∧ d.writeopen = false)
  | _, _ => True

end PipeLocal

/-- The stored bytes of process `i` are those of its finished calls, then those of this one. -/
def Mine (i : Fin n) (t : PipeLocal n) (d : PipeData n) : Prop :=
  (∀ w, t.write? = some w → w.who = i) ∧ d.storedBy i = d.sent i ++ t.progress

def PipeFree (d : PipeData n) : Prop := Buffered d ∧ d.taken = d.returned.flatten

def PipeAt (i : Fin n) : Place (PipeLocal n) PipeChan → PipeData n → Prop
  | .out, d => d.storedBy i = d.sent i
  | .ready t, d => Mine i t d ∧ t.entry
  | .asleep c t, d => Mine i t d ∧ t.entry ∧ t.sleepsOn = some c
  | .parking c t, d => PipeFree d ∧ Mine i t d ∧ t.entry ∧ t.sleepsOn = some c
  | .inside t, d | .waking _ t, d =>
    Buffered d ∧ d.taken = d.returned.flatten ++ t.buf ∧ Mine i t d ∧ t.sees d

theorem PipeAt.congr {p : Place (PipeLocal n) PipeChan} (h : PipeAt j p d) (hp : ¬ p.holds)
    (hby : d'.storedBy j = d.storedBy j) (hsent : d'.sent j = d.sent j) : PipeAt j p d' := by
  cases p with
  | out => exact hby.trans (Eq.trans h hsent.symm)
  | ready t => exact ⟨⟨h.1.1, by rw [hby, hsent]; exact h.1.2⟩, h.2⟩
  | asleep c t => exact ⟨⟨h.1.1, by rw [hby, hsent]; exact h.1.2⟩, h.2⟩
  | inside t => exact absurd trivial hp
  | waking c t => exact absurd trivial hp
  | parking c t => exact absurd trivial hp

theorem storedBy_store (d : PipeData n) (w : Write n) (i : Fin n) :
    (d.store w).storedBy i = d.storedBy i ++ if w.who = i then [w.addr w.i] else [] := by
  simp only [PipeData.storedBy, PipeData.store, List.filter_append, List.map_append]
  split_ifs with h <;> simp [h]

theorem bytes_succ (w : Write n) :
    ({ w with i := w.i + 1, fresh := true } : Write n).bytes = w.bytes ++ [w.addr w.i] := by
  simp [Write.bytes, List.range_succ]

theorem entry_sees {t : PipeLocal n} (h : t.entry) (d : PipeData n) : t.sees d ∧ t.buf = [] := by
  cases t with
  | writeFor w => exact ⟨Or.inl h, rfl⟩
  | writeWhile w => exact ⟨h, rfl⟩
  | readWhile r => exact ⟨h, h⟩
  | closeFlag b => exact ⟨trivial, rfl⟩
  | _ => cases h

theorem PipeAt.inside_same {t t' : PipeLocal n} (h : PipeAt i (.inside t) d)
    (hw : ∀ w, t'.write? = some w → t.write? = some w) (hp : t'.progress = t.progress)
    (hb : t'.buf = t.buf) (hs : t'.sees d) : PipeAt i (.inside t') d := by
  obtain ⟨hbuf, htaken, hmine, -⟩ := h
  exact ⟨hbuf, by rw [hb]; exact htaken, ⟨fun w hw' => hmine.1 w (hw w hw'),
    by rw [hp]; exact hmine.2⟩, hs⟩

theorem pipe_step {t t' : PipeLocal n} (h : PipeAt i (.inside t) d)
    (ha : pipeAct t d = .step d' t') : PipeAt i (.inside t') d' ∧
      ∀ j, j ≠ i → d'.storedBy j = d.storedBy j ∧ d'.sent j = d.sent j := by
  obtain ⟨hbuf, htaken, hmine, hsees⟩ := id h
  cases t with
  | writeFor w =>
    simp only [pipeAct] at ha
    split_ifs at ha with hlt
    cases ha
    exact ⟨h.inside_same (fun _ hw => hw) rfl rfl hlt, fun _ _ => ⟨rfl, rfl⟩⟩
  | writeWhile w =>
    simp only [pipeAct] at ha
    split_ifs at ha with hfull
    · cases ha
      exact ⟨h.inside_same (fun _ hw => hw) rfl rfl ⟨hsees, hfull⟩, fun _ _ => ⟨rfl, rfl⟩⟩
    · cases ha
      have hwho := hmine.1 w rfl
      refine ⟨⟨hbuf.store hfull w, htaken, ⟨?_, ?_⟩, ?_⟩, ?_⟩
      · rintro w' hw'
        cases hw'
        exact hwho
      · rw [storedBy_store, if_pos hwho, hmine.2]
        simp only [PipeLocal.progress, PipeLocal.write?, Option.map_some, Option.getD_some,
          bytes_succ, List.append_assoc]
        rfl
      · have : (w.i : Int) < w.n := hsees
        exact Or.inr (by push_cast; omega)
      · intro j hj
        rw [storedBy_store, if_neg (by rw [hwho]; exact hj.symm), List.append_nil]
        exact ⟨rfl, rfl⟩
  | writeTest w =>
    simp only [pipeAct] at ha
    split_ifs at ha
    cases ha
    exact ⟨h.inside_same (fun _ hw => hw) rfl rfl (Or.inl rfl), fun _ _ => ⟨rfl, rfl⟩⟩
  | writeFull w => simp [pipeAct] at ha
  | writeSleep w => simp [pipeAct] at ha
  | writeReturn w r =>
    simp only [pipeAct] at ha
    cases ha
    have hwho := hmine.1 w rfl
    refine ⟨⟨hbuf.congr rfl rfl rfl rfl rfl, htaken, ⟨?_, ?_⟩, trivial⟩, ?_⟩
    · rintro w' hw'
      cases hw'
    · have hown := hmine.2
      simp only [PipeLocal.progress, PipeLocal.write?, Option.map_some, Option.getD_some] at hown
      simp only [PipeLocal.progress, PipeLocal.write?, Option.map_none, Option.getD_none, hwho,
        Function.update_self, List.append_nil]
      exact hown
    · intro j hj
      refine ⟨rfl, ?_⟩
      simp only [hwho, Function.update_of_ne hj]
  | readWhile r =>
    simp only [pipeAct] at ha
    split_ifs at ha with hcond
    cases ha
    refine ⟨h.inside_same (fun _ hw => hw) rfl rfl ?_, fun _ _ => ⟨rfl, rfl⟩⟩
    intro _ he
    by_contra hopen
    exact hcond ⟨he, by simpa using hopen⟩
  | readSleep r => simp [pipeAct] at ha
  | readFor r =>
    simp only [pipeAct] at ha
    split_ifs at ha with hcond
    cases ha
    refine ⟨⟨hbuf.take hcond.2, ?_, hmine, ?_⟩, fun _ _ => ⟨rfl, rfl⟩⟩
    · simp only [PipeData.take, PipeLocal.buf]
      rw [htaken, List.append_assoc]
      rfl
    · intro hnil
      simp at hnil
  | readReturn r res =>
    simp only [pipeAct] at ha
    cases ha
    refine ⟨⟨hbuf.congr rfl rfl rfl rfl rfl, ?_, hmine, trivial⟩, fun _ _ => ⟨rfl, rfl⟩⟩
    simp only [PipeLocal.buf, List.append_nil]
    split_ifs with hneg
    · rw [htaken]
      simp only [PipeLocal.buf, hsees.1 hneg, List.append_nil]
    · rw [htaken, List.flatten_append, List.flatten_singleton]
      rfl
  | closeFlag writable =>
    cases writable <;> simp only [pipeAct] at ha <;> cases ha
    · exact ⟨⟨hbuf.congr rfl rfl rfl rfl rfl, htaken, hmine, trivial⟩, fun _ _ => ⟨rfl, rfl⟩⟩
    · exact ⟨⟨hbuf.congr rfl rfl rfl rfl rfl, htaken, hmine, trivial⟩, fun _ _ => ⟨rfl, rfl⟩⟩
  | closeWake writable => cases writable <;> simp [pipeAct] at ha
  | closeTest =>
    simp only [pipeAct] at ha
    cases ha
    exact ⟨⟨hbuf.congr rfl rfl rfl rfl rfl, htaken, hmine, trivial⟩, fun _ _ => ⟨rfl, rfl⟩⟩
  | finished => simp [pipeAct] at ha

theorem pipeAssertions (P : Bool → PipeLocal n → PipeData n → Prop) :
    Monitor.Assertions (pipeProgram n) P PipeAt PipeFree where
  start := by
    intro i call d h
    have hown : d.storedBy i = d.sent i ++ [] := by
      rw [List.append_nil]
      exact h
    cases call with
    | write addr len => exact ⟨⟨by rintro w ⟨⟩; rfl, hown⟩, rfl⟩
    | read len => exact ⟨⟨by rintro w ⟨⟩, hown⟩, rfl⟩
    | close writable => exact ⟨⟨by rintro w ⟨⟩, hown⟩, trivial⟩
  acquire := by
    rintro i t d ⟨hmine, hentry⟩ ⟨hbuf, htaken⟩
    obtain ⟨hsees, hnil⟩ := entry_sees hentry d
    exact ⟨hbuf, by rw [hnil, List.append_nil]; exact htaken, hmine, hsees⟩
  step := by
    intro i b t t' d d' h _ ha
    obtain ⟨hself, hother⟩ := pipe_step h ha
    exact ⟨hself, fun j hj p hp hK => hK.congr hp (hother j hj).1 (hother j hj).2⟩
  testKilled := by
    intro i b t yes no d h _ ha
    obtain ⟨-, -, -, hsees⟩ := id h
    rcases act_testKilled ha with ⟨w, rfl, hopen, rfl, rfl⟩ | ⟨r, rfl, hcond, rfl, rfl⟩
    · cases b
      · exact h.inside_same (fun _ hw => hw) rfl rfl ⟨hsees.1, hsees.2, hopen⟩
      · exact h.inside_same (fun _ hw => hw) rfl rfl (Or.inl rfl)
    · cases b
      · exact h.inside_same (fun _ hw => hw) rfl rfl ⟨hsees, hcond⟩
      · exact h.inside_same (fun _ hw => hw) rfl rfl ⟨fun _ => hsees, by simp⟩
  wakeup := by
    intro i t t' c d h ha
    obtain ⟨-, -, -, hsees⟩ := id h
    rcases act_wakeup ha with ⟨w, rfl, hlt, rfl, rfl⟩ | ⟨w, rfl, rfl, rfl⟩ | ⟨r, rfl, hcond, rfl, rfl⟩ |
      ⟨rfl, rfl, rfl⟩ | ⟨rfl, rfl, rfl⟩
    · refine PipeAt.inside_same h (fun _ hw => hw) rfl rfl (Or.inr ⟨rfl, fun hn => ?_⟩)
      have : w.i = 0 ∨ (w.i : Int) ≤ w.n := hsees
      omega
    · obtain ⟨hbuf, htaken, hmine, hfull⟩ := h
      refine ⟨hbuf, htaken, ⟨?_, hmine.2⟩, hfull⟩
      rintro w' ⟨⟩
      exact hmine.1 w rfl
    · refine PipeAt.inside_same h (fun _ hw => hw) rfl rfl ⟨fun hneg => by omega, ?_⟩
      intro hlen hn
      have hnil : r.buf = [] := List.eq_nil_of_length_eq_zero (by omega)
      have hempty : d.empty := by
        by_contra hne
        exact hcond ⟨by omega, hne⟩
      exact ⟨hempty, hsees hnil hempty⟩
    · exact PipeAt.inside_same h (fun _ hw => hw) rfl rfl trivial
    · exact PipeAt.inside_same h (fun _ hw => hw) rfl rfl trivial
  woken := fun _ _ _ _ h => h
  sleep := by
    intro i t t' c d h ha
    obtain ⟨hbuf, htaken, hmine, hsees⟩ := h
    rcases act_sleep ha with ⟨w, rfl, rfl, rfl⟩ | ⟨r, rfl, rfl, rfl⟩
    · exact ⟨⟨hbuf, htaken.trans (List.append_nil _)⟩, hmine, hsees.1, rfl⟩
    · refine ⟨⟨hbuf, htaken.trans ?_⟩, hmine, hsees.1, rfl⟩
      rw [PipeLocal.buf, hsees.1, List.append_nil]
  park := by
    rintro i t c d ⟨hfree, hmine, hentry, hch⟩
    exact ⟨⟨hmine, hentry, hch⟩, hfree⟩
  wake := by
    rintro i t c d ⟨hmine, hentry, -⟩
    exact ⟨hmine, hentry⟩
  release := by
    intro i t d h ha
    obtain rfl := act_release ha
    obtain ⟨hbuf, htaken, hmine, -⟩ := h
    exact ⟨hmine.2.trans (List.append_nil _), hbuf, htaken.trans (List.append_nil _)⟩

/-! ### Runs -/

/-- The local state of a process that is in a call. -/
def callOf : Place (PipeLocal n) PipeChan → Option (PipeLocal n)
  | .out => none
  | .ready t | .inside t | .waking _ t | .parking _ t | .asleep _ t => some t

/-- What pipes promise. The bytes that the calls of `piperead` return are, in this order, the first
bytes that were stored, and `storedBy i` are the bytes of process `i` among these, which are those
that its calls of `pipewrite` have stored, one call after the other. -/
structure Lossless (k : Kernel n (PipeData n) (PipeLocal n) PipeChan) : Prop where
  bounded : (k.shared.nwrite - k.shared.nread).toNat ≤ PIPESIZE
  fifo : k.shared.taken <+: k.shared.stored.map Prod.snd
  reads : k.shared.returned.flatten <+: k.shared.taken
  writers : ∀ i, k.shared.storedBy i =
    k.shared.sent i ++ ((callOf (k.monitor.place i)).map PipeLocal.progress).getD []
  wrote : ∀ i w, k.pc i = .inside (.writeReturn w w.n) → 0 ≤ w.n →
    k.shared.storedBy i = k.shared.sent i ++ (List.range w.n.toNat).map w.addr
  endOfFile : ∀ i r, k.pc i = .inside (.readReturn r 0) → 0 < r.n →
    k.shared.writeopen = false ∧ k.shared.taken = k.shared.stored.map Prod.snd

theorem run_lossless {data : Fin PIPESIZE → UInt8} {es : List (Event n PipeCall)}
    {k : Kernel n (PipeData n) (PipeLocal n) PipeChan}
    (hrun : run (step (pipeProgram n)) (Kernel.boot n (PipeData.init n data)) es = some k) :
    Lossless k := by
  have halong : Along (step (pipeProgram n)) (Allowed (fun _ _ _ => True))
      (Kernel.boot n (PipeData.init n data)) es :=
    along_of_mem _ (fun _ _ _ _ _ _ _ _ _ => trivial)
  have hout : ∀ i, PipeAt i .out (PipeData.init n data) := fun _ => rfl
  have hK := run_holds (pipeAssertions _) hout ⟨buffered_init data, rfl⟩ halong hrun
  -- the process that holds the lock knows about the buffer, or everybody does
  have hbuf : Buffered k.shared ∧ k.shared.returned.flatten <+: k.shared.taken := by
    by_cases hfree : ∀ i, ¬ (k.monitor.place i).holds
    · obtain ⟨hbuf, htaken⟩ := hK.free hfree
      exact ⟨hbuf, ⟨[], (List.append_nil _).trans htaken.symm⟩⟩
    · obtain ⟨i, hi⟩ := not_forall_not.mp hfree
      have hat := hK.place i
      cases hp : k.monitor.place i with
      | inside t =>
        rw [hp] at hat
        exact ⟨hat.1, ⟨t.buf, hat.2.1.symm⟩⟩
      | waking c t =>
        rw [hp] at hat
        exact ⟨hat.1, ⟨t.buf, hat.2.1.symm⟩⟩
      | parking c t =>
        rw [hp] at hat
        exact ⟨hat.1.1, ⟨[], (List.append_nil _).trans hat.1.2.symm⟩⟩
      | _ => simp [hp] at hi
  have hinside : ∀ i t, k.pc i = .inside t → PipeAt i (.inside t) k.shared := by
    intro i t hpc
    have hat := hK.place i
    rwa [show k.monitor.place i = .inside t by simp [Kernel.monitor, hpc, Pc.place]] at hat
  refine ⟨?_, hbuf.1.taken, hbuf.2, ?_, ?_, ?_⟩
  · have := hbuf.1.bound
    rw [hbuf.1.count]
    omega
  · intro i
    have hat := hK.place i
    cases hp : k.monitor.place i <;> rw [hp] at hat
    · exact hat.trans (List.append_nil _).symm
    · exact hat.1.2
    · exact hat.2.2.1.2
    · exact hat.2.2.1.2
    · exact hat.2.1.2
    · exact hat.1.2
  · intro i w hpc hn
    obtain ⟨-, -, hmine, hneg | ⟨-, hall⟩⟩ := hinside i _ hpc
    · omega
    · have hlen : w.n.toNat = w.i := by
        have := hall hn
        omega
      rw [hlen]
      exact hmine.2
  · intro i r hpc hn
    obtain ⟨hb, -, -, hsees⟩ := hinside i _ hpc
    obtain ⟨hempty, hopen⟩ := hsees.2 rfl hn
    exact ⟨hopen, hb.taken_eq hempty⟩

local instance fifoOne : NeZero 1 := ⟨by decide⟩

/-- A process writes two bytes and reads them. -/
def writeRead : List (Event 1 PipeCall) :=
  ([.schedule 0, .dispatch 0 0, .exec 0, .start 0 (.write (fun i => UInt8.ofNat (i + 7)) 2)] :
    List (Event 1 PipeCall)) ++ List.replicate 11 (.exec 0 : Event 1 PipeCall) ++
    ([.start 0 (.read 5)] : List (Event 1 PipeCall)) ++
    List.replicate 10 (.exec 0 : Event 1 PipeCall)

theorem writeRead_lossless : ∃ k, run (step (pipeProgram 1))
    (Kernel.boot 1 (PipeData.init 1 (fun _ => 0))) writeRead = some k ∧
    k.shared.returned = [[7, 8]] ∧ Lossless k := by
  have hrun : (run (step (pipeProgram 1)) (Kernel.boot 1 (PipeData.init 1 (fun _ => 0)))
      writeRead).map (fun k => k.shared.returned) = some [[7, 8]] := by decide +kernel
  obtain ⟨k, hk, hret⟩ := Option.map_eq_some_iff.mp hrun
  exact ⟨k, hk, hret, run_lossless hk⟩

end Xv6.Kern
