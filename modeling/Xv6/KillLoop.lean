import Xv6.Run
import Xv6.SleepWakeup

/-!
# Loops that `kill` interrupts

`wait`, `piperead`, `pipewrite`, `sys_sleep` and `consoleread` sleep in a loop that tests `killed`
before every `sleep`. The loops differ in the lock that they hold during the test: for `wait` it is
`ptable.lock`, which `kill` holds too. Whether the condition of a loop is met depends on the rest
of the kernel and is left open, as is who else wakes the sleepers up.

The processes and the scheduler are those of the kernel in which all processes share one lock. Here
every loop has its own lock, and `sleep` does not exchange `ptable.lock` for itself.
-/

namespace Xv6.KillLoop

open Function
open Kern (Kernel Holder Cpu LockMove Guarded)
open Monitor (Program)
open Ptable (ProcState)

inductive Lock
  | ptable
  | pipe (p : Nat)
  | tickslock
  | cons
  deriving DecidableEq, Repr

inductive Loop
  | wait
  | piperead (p : Nat)
  | pipewrite (p : Nat)
  | sysSleep
  | consoleread
  deriving DecidableEq, Repr

def Loop.lock : Loop → Lock
  | .wait => .ptable
  | .piperead p | .pipewrite p => .pipe p
  | .sysSleep => .tickslock
  | .consoleread => .cons

inductive Chan (n : Nat)
  | proc (i : Fin n)
  | nread (p : Nat)
  | nwrite (p : Nat)
  | ticks
  | input
  deriving DecidableEq, Repr

variable {n : Nat}

def Loop.chan (i : Fin n) : Loop → Chan n
  | .wait => .proc i
  | .piperead p => .nread p
  | .pipewrite p => .nwrite p
  | .sysSleep => .ticks
  | .consoleread => .input

/-- What a process does next in its loop. -/
inductive Stage (n : Nat)
  /-- The condition of the loop. -/
  | cond
  /-- The test of `killed`. -/
  | test
  | wake (ch : Chan n)
  | sleep
  /-- `release` of the lock of the loop -/
  | leave
  deriving DecidableEq

/-- `pipewrite` wakes the readers between its test and `sleep`. -/
def Loop.tested : Loop → Stage n
  | .pipewrite p => .wake (.nread p)
  | _ => .sleep

/-- A process in a loop. -/
structure Local (n : Nat) where
  self : Fin n
  loop : Loop
  stage : Stage n
  deriving DecidableEq

def Local.at (t : Local n) (g : Stage n) : Local n := { t with stage := g }

/-- The locks of the loops are the shared data; the one lock of the kernel is not used. -/
abbrev Sys (n : Nat) := Kernel n (Lock → Option (Holder n)) (Local n) (Chan n)

abbrev Pc (n : Nat) := Kern.Pc n (Local n) (Chan n)

def loops : Program (Fin n) (Lock → Option (Holder n)) (Local n) (Chan n) Loop where
  start i l := ⟨i, l, .cond⟩
  act t locks :=
    match t.stage with
    | .cond => .step locks (t.at .test)
    | .test => .testKilled (t.at .leave) (t.at t.loop.tested)
    | .wake ch => .wakeup ch (t.at .sleep)
    | .sleep => .sleep (t.loop.chan t.self) (t.at .cond)
    | .leave => .release

def boot (n : Nat) : Sys n := Kernel.boot n (fun _ => none)

namespace Sys

variable (s : Sys n)

def lock : Lock → Option (Holder n)
  | .ptable => s.ptable
  | k => s.shared k

def setLock (k : Lock) (h : Option (Holder n)) : Sys n :=
  { s with
    ptable := if k = .ptable then h else s.ptable
    shared := update s.shared k h }

/-- `wakeup1` -/
def wakeup1 (ch : Chan n) : Sys n :=
  { s with state := fun j =>
      if s.state j = .sleeping ∧ s.chan j = some ch then .runnable else s.state j }

end Sys

/-- `waits` is the value of the condition of the loop, if that is what the process looks at. -/
def exec (c : Nat) (i : Fin n) (waits : Bool) (s : Sys n) : Option (Sys n) :=
  match s.pc i with
  | .enter t =>
    if s.lock t.loop.lock = none then
      some ((s.setLock t.loop.lock (some (.process i))).goto i (.inside t))
    else none
  | .inside t =>
    match t.stage with
    | .cond => if waits then Kern.exec loops c i s else some (s.goto i (.inside (t.at .leave)))
    | .leave => some ((s.setLock t.loop.lock none).goto i .user)
    | .sleep =>
      -- with `ptable.lock` there is nothing to exchange
      if t.loop.lock = .ptable then
        some (s.goto i (.sleepChan (t.loop.chan t.self) (t.at .cond)))
      else Kern.exec loops c i s
    | _ => Kern.exec loops c i s
  | .sleepRelease ch t => some ((s.setLock t.loop.lock none).goto i (.sleepChan ch t))
  | .sleepTidy _ t =>
    if t.loop.lock = .ptable then some ((s.setChan i none).goto i (.inside t))
    else Kern.exec loops c i s
  | _ => Kern.exec loops c i s

/-- `lock`, `unlock`, `kill` and `wakeup` are steps of code outside of these loops: a caller of
`kill`, an interrupt handler, another writer to a pipe. -/
inductive Event (n : Nat)
  | start (c : Nat) (l : Loop)
  | yield (c : Nat)
  | exec (c : Nat) (waits : Bool)
  | schedule (c : Nat)
  | dispatch (c : Nat) (i : Fin n)
  | unschedule (c : Nat)
  | lock (l : Lock)
  | unlock (l : Lock)
  | kill (i : Fin n)
  | wakeup (ch : Chan n)
  deriving DecidableEq

def step (s : Sys n) : Event n → Option (Sys n)
  | .start c l => Kern.step loops s (.start c l)
  | .yield c => Kern.step loops s (.yield c)
  | .exec c waits =>
    match s.cpu c with
    | .running i => exec c i waits s
    | _ => none
  | .schedule c => Kern.step loops s (.schedule c)
  | .dispatch c i => Kern.step loops s (.dispatch c i)
  | .unschedule c => Kern.step loops s (.unschedule c)
  | .lock l => if s.lock l = none then some (s.setLock l (some .killer)) else none
  | .unlock l => if s.lock l = some .killer then some (s.setLock l none) else none
  | .kill i => Kern.step loops s (.kill i)
  | .wakeup ch => if s.lock .ptable = some .killer then some (s.wakeup1 ch) else none

/-! ### The invariant -/

/-- Holds `ptable.lock`. -/
def Locked : Pc n → Prop
  | .inside t => t.loop.lock = .ptable
  | p => p.holdsPtable

/-- Past the test of `killed` in loop `l`, and not yet SLEEPING in `swtch`. -/
def Committed (l : Loop) : Pc n → Prop
  | .inside t => t.loop = l ∧ t.stage ≠ .cond ∧ t.stage ≠ .test ∧ t.stage ≠ .leave
  | .wakeAcquire _ t | .wakeScan _ _ t | .sleepAcquire _ t | .sleepRelease _ t | .sleepChan _ t
  | .sleepState _ t | .sleepSched _ t => t.loop = l
  | _ => False

/-- Past the test of `killed` in loop `l`, and without `ptable.lock`. -/
def InWindow (l : Loop) : Pc n → Prop
  | .inside t => Committed l (.inside t) ∧ l.lock ≠ .ptable
  | .wakeAcquire _ t | .sleepAcquire _ t => t.loop = l ∧ l.lock ≠ .ptable
  | _ => False

/-- What is known of a process in a loop by its place: only with another lock than `ptable.lock` are
there locks to exchange and others to wake up, and the condition comes after `sleep`. -/
def Placed : Pc n → Prop
  | .inside t => (∃ ch, t.stage = .wake ch) → t.loop.lock ≠ .ptable
  | .wakeAcquire _ t | .wakeScan _ _ t => t.loop.lock ≠ .ptable
  | .sleepAcquire _ t | .sleepRelease _ t => t.loop.lock ≠ .ptable ∧ t.stage = .cond
  | .enter t | .sleepChan _ t | .sleepState _ t | .sleepSched _ t | .asleep _ t | .sleepTidy _ t
  | .sleepUnlock t => t.stage = .cond
  | _ => True

instance (l : Loop) : (p : Pc n) → Decidable (InWindow l p)
  | .inside t => inferInstanceAs (Decidable ((t.loop = l ∧ _ ∧ _ ∧ _) ∧ _))
  | .wakeAcquire _ t | .sleepAcquire _ t => inferInstanceAs (Decidable (t.loop = l ∧ _))
  | .user | .enter _ | .wakeScan _ _ _ | .sleepRelease _ _ | .sleepChan _ _ | .sleepState _ _
  | .sleepSched _ _ | .asleep _ _ | .sleepTidy _ _ | .sleepUnlock _ | .yieldAcquire | .yieldState
  | .yieldSched | .yielded | .yieldUnlock => inferInstanceAs (Decidable False)

/-- No process is killed in the window of loop `l`. -/
def NoKillInWindow (l : Loop) (s : Sys n) (e : Event n) : Prop :=
  ∀ i, e = .kill i → ¬ InWindow l (s.pc i)

instance (l : Loop) (s : Sys n) (e : Event n) : Decidable (NoKillInWindow l s e) :=
  inferInstanceAs (Decidable (∀ i, e = .kill i → ¬ InWindow l (s.pc i)))

structure Ok (l : Loop) (s : Sys n) : Prop where
  ptable : ∀ i, s.ptable = some (.process i) ↔ Locked (s.pc i)
  sched : ∀ c, s.ptable = some (.scheduler c) ↔ s.cpu c = .picking ∨ s.cpu c = .leaving
  state : ∀ i, (s.pc i).StateOk (s.state i)
  placed : ∀ i, Placed (s.pc i)
  committed : ∀ i, Committed l (s.pc i) → s.killed i = false
  asleep : ∀ i ch t, s.pc i = .asleep ch t → t.loop = l → s.state i = .sleeping → s.killed i = false

variable {l : Loop} {s s' : Sys n} {c : Nat} {i : Fin n}

theorem committed_inWindow {p : Pc n} (h : Committed l p) (hno : ¬ Locked p) (hf : Placed p) :
    InWindow l p := by
  cases p <;> grind [Committed, InWindow, Locked, Placed, Kern.Pc.holdsPtable]

theorem boot_ok (l : Loop) : Ok l (boot n) := by
  refine ⟨?_, ?_, ?_, ?_, ?_, ?_⟩ <;>
    simp [boot, Kernel.boot, Locked, Kern.Pc.holdsPtable, Kern.Pc.StateOk, Placed, Committed]

theorem Ok.guarded (h : Ok l s) : Guarded Locked s.ptable s.pc s.cpu := ⟨h.ptable, h.sched⟩

section Change

variable {p₀ p : Pc n} {d : Lock → Option (Holder n)} {lk : Option (Fin n)} {q : Option (Holder n)}
  {st : Fin n → ProcState} {chan : Fin n → Option (Chan n)} {cpu : Nat → Cpu n}

/-- At most process `i` changes its state, and it goes on. -/
theorem Ok.change (h : Ok l s) (hst : ∀ j, j ≠ i → st j = s.state j)
    (hpt : Guarded Locked q (update s.pc i p) cpu) (hstate : p.StateOk (st i))
    (hplaced : Placed p) (hcommitted : Committed l p → s.killed i = false)
    (hasleep : ∀ ch t, p = .asleep ch t → t.loop = l → s.killed i = false) :
    Ok l ⟨d, lk, q, st, chan, s.killed, update s.pc i p, cpu⟩ := by
  have hself : update s.pc i p i = p := update_self _ _ _
  have hother : ∀ j, j ≠ i → update s.pc i p j = s.pc j := fun j hj => update_of_ne hj _ _
  refine ⟨hpt.process, hpt.sched, fun j => ?_, fun j => ?_, fun j => ?_, fun j => ?_⟩
  · rcases eq_or_ne j i with rfl | hj
    · simpa only [hself] using hstate
    · simpa only [hother j hj, hst j hj] using h.state j
  · rcases eq_or_ne j i with rfl | hj
    · simpa only [hself] using hplaced
    · simpa only [hother j hj] using h.placed j
  · rcases eq_or_ne j i with rfl | hj
    · simpa only [hself] using hcommitted
    · simpa only [hother j hj] using h.committed j
  · rcases eq_or_ne j i with rfl | hj
    · simpa only [hself] using fun ch t hp hl _ => hasleep ch t hp hl
    · simpa only [hother j hj, hst j hj] using h.asleep j

theorem Ok.own (h : Ok l s) (hi : s.pc i = p₀) (hst : ∀ j, j ≠ i → st j = s.state j)
    (hpt : LockMove (.process i) s.ptable q (Locked p₀) (Locked p)) (hstate : p.StateOk (st i))
    (hplaced : Placed p₀ → Placed p)
    (hcommitted : Committed l p → s.killed i = false) (hoff : ¬ p.off) :
    Ok l ⟨d, lk, q, st, chan, s.killed, update s.pc i p, s.cpu⟩ := by
  subst hi
  refine h.change hst (h.guarded.own hpt) hstate (hplaced (h.placed i)) hcommitted ?_
  rintro ch t rfl
  exact absurd trivial hoff

/-- The rule for steps that change at most `pc`, the locks and the channel of process `i`. -/
theorem Ok.moved (h : Ok l s) (hi : s.pc i = p₀)
    (hpt : LockMove (.process i) s.ptable q (Locked p₀) (Locked p))
    (hstate : p₀.StateOk (s.state i) → p.StateOk (s.state i))
    (hplaced : Placed p₀ → Placed p)
    (hcommitted : (Committed l p₀ → s.killed i = false) →
      Committed l p → s.killed i = false) (hoff : ¬ p.off) :
    Ok l ⟨d, lk, q, s.state, chan, s.killed, update s.pc i p, s.cpu⟩ := by
  subst hi
  exact h.own rfl (fun _ _ => rfl) hpt (hstate (h.state i)) hplaced (hcommitted (h.committed i))
    hoff

end Change

/-- Sleepers are made RUNNABLE by somebody who holds `ptable.lock`. -/
theorem Ok.wakeup (h : Ok l s) (hpt : ∀ j ch t, s.ptable = some (.process j) →
      s.pc j ≠ .sleepSched ch t) {st : Fin n → ProcState}
    (hst : ∀ j, st j = s.state j ∨ s.state j = .sleeping ∧ st j = .runnable) :
    Ok l { s with state := st } := by
  refine ⟨h.ptable, h.sched, ?_, h.placed, h.committed, ?_⟩
  · intro j
    have hj := h.state j
    rcases hst j with heq | ⟨hsl, heq⟩
    · simpa only [heq] using hj
    · cases hpc : s.pc j with
      | asleep ch t => exact Or.inr heq
      | sleepSched ch t =>
        exact absurd hpc (hpt j ch t ((h.ptable j).mpr (by rw [hpc]; trivial)))
      | _ => simp [hpc, Kern.Pc.StateOk, hsl] at hj
  · intro j ch t hj hl hs
    refine h.asleep j ch t hj hl ?_
    rcases hst j with heq | ⟨hsl, -⟩
    · exact heq.symm.trans hs
    · exact hsl

theorem update_woken {st : Fin n → ProcState} {x : ProcState}
    (hx : x = st i ∨ st i = .sleeping ∧ x = .runnable) (j : Fin n) :
    update st i x j = st j ∨ st j = .sleeping ∧ update st i x j = .runnable := by
  rcases eq_or_ne j i with rfl | hj
  · rwa [update_self]
  · exact Or.inl (update_of_ne hj _ _)

theorem lockMove_acquire {k : Lock} (hfree : s.lock k = none) : LockMove (.process i) s.ptable
    (s.setLock k (some (.process i))).ptable False (k = .ptable) := by
  by_cases hk : k = .ptable
  · subst hk
    exact .take hfree rfl
  · exact Or.inl ⟨if_neg hk, iff_of_false hk id⟩

theorem lockMove_release {k : Lock} : LockMove (.process i) s.ptable (s.setLock k none).ptable
    (k = .ptable) False := by
  by_cases hk : k = .ptable
  · subst hk
    exact .drop rfl id
  · exact Or.inl ⟨if_neg hk, iff_of_false id hk⟩

section

variable (h : Ok l s)
include h

theorem Ok.swtch {p₀ p : Pc n} (hi : s.pc i = p₀) (hpt : Locked p₀)
    (hp : ¬ Locked p) (hstate : p₀.StateOk (s.state i) → p.StateOk (s.state i))
    (hplaced : Placed p₀ → Placed p) (hcommitted : ¬ Committed l p)
    (hasleep : ∀ ch t, p = .asleep ch t → t.loop = l → Committed l p₀) :
    Ok l { (s.goto i p).setCpu c .leaving with ptable := some (.scheduler c) } := by
  subst hi
  exact h.change (fun _ _ => rfl) (h.guarded.leave hpt hp) (hstate (h.state i))
    (hplaced (h.placed i)) (absurd · hcommitted)
    (fun ch t hp hl => h.committed i (hasleep ch t hp hl))

theorem Ok.relock {d : Lock → Option (Holder n)} {q : Option (Holder n)} {cpu : Nat → Cpu n}
    (hpt : Guarded Locked q s.pc cpu) : Ok l { s with shared := d, ptable := q, cpu := cpu } :=
  ⟨hpt.process, hpt.sched, h.state, h.placed, h.committed, h.asleep⟩

theorem Ok.setLock {k : Lock} {x : Option (Holder n)}
    (hx : s.lock k = none ∧ x = some .killer ∨ s.lock k = some .killer ∧ x = none) :
    Ok l (s.setLock k x) := by
  have hg := h.guarded
  refine h.relock ?_
  split_ifs with hl
  · subst hl
    rcases hx with ⟨hold, rfl⟩ | ⟨hold, rfl⟩
    · rw [show s.ptable = none from hold] at hg
      exact Guarded.killer_iff.mpr hg
    · rw [show s.ptable = some .killer from hold] at hg
      exact Guarded.killer_iff.mp hg
  · exact hg

theorem Ok.dispatch (hc : s.cpu c = .picking) :
    Ok l { ((s.setState i .running).goto i (s.pc i).resumed).setCpu c (.running i) with
      ptable := some (.process i) } := by
  obtain ⟨hres, hstate, hplaced, hcom, hoff⟩ : Locked (s.pc i).resumed ∧
      (s.pc i).resumed.StateOk .running ∧ (Placed (s.pc i) → Placed (s.pc i).resumed) ∧
      ¬ Committed l (s.pc i).resumed ∧ ∀ ch t, (s.pc i).resumed ≠ .asleep ch t := by
    cases s.pc i <;>
      simp [Kern.Pc.StateOk, Kern.Pc.resumed, Locked, Kern.Pc.holdsPtable, Placed,
        Committed]
  refine h.change (fun j hj => update_of_ne hj _ _) (h.guarded.enter hc hres) ?_
    (hplaced (h.placed i)) (absurd · hcom) (fun ch t hp => absurd hp (hoff ch t))
  simpa [Kernel.setState, Kernel.goto, Kernel.setCpu] using hstate

/-- `kill` does not find a process past its test: one in the window is excluded, the others hold
`ptable.lock` themselves. -/
theorem Ok.kill (hpt : s.ptable = some .killer) (hw : ¬ InWindow l (s.pc i)) :
    Ok l { s with
      killed := update s.killed i true
      state := update s.state i (if s.state i = .sleeping then .runnable else s.state i) } := by
  have hwake := h.wakeup (fun j ch t hj => by simp [hpt] at hj)
    (update_woken (i := i) (x := if s.state i = .sleeping then .runnable else s.state i) (by grind))
  refine ⟨h.ptable, h.sched, hwake.state, h.placed, ?_, ?_⟩
  · intro j hj'
    rcases eq_or_ne j i with rfl | hj
    · have hnot : ¬ Locked (s.pc j) := by simp [← h.ptable j, hpt]
      exact absurd (committed_inWindow hj' hnot (h.placed j)) hw
    · exact (update_of_ne hj _ _).trans (h.committed j hj')
  · intro j ch t hj' hl hs
    rcases eq_or_ne j i with rfl | hj
    · simp only [update_self] at hs
      split_ifs at hs with hsl
      exact absurd hs hsl
    · exact (update_of_ne hj _ _).trans (hwake.asleep j ch t hj' hl hs)

/-- One slot in the loop of `wakeup1`. -/
theorem Ok.scan {ch : Chan n} {p : Fin n} {rest : List (Fin n)} {t : Local n}
    (hpc : s.pc i = .wakeScan ch (p :: rest) t) :
    Ok l (Kernel.goto (if s.state p = .sleeping ∧ s.chan p = some ch then s.setState p .runnable
      else s) i (.wakeScan ch rest t)) := by
  split_ifs with hcond
  · have hwoken := update_woken (Or.inr ⟨hcond.1, rfl⟩)
    refine (h.wakeup (fun j ch t hj hpcj => ?_) hwoken).moved hpc .same id id id id
    have hi := (h.ptable i).mpr (by rw [hpc]; trivial)
    obtain rfl : i = j := by simpa [hi] using hj
    simp [hpc] at hpcj
  · exact h.moved hpc .same id id id id

theorem exec_inside_ok {t : Local n} {waits : Bool} (hpc : s.pc i = .inside t)
    (he : exec c i waits s = some s') : Ok l s' := by
  have hpl := h.placed i
  rw [hpc] at hpl
  cases hg : t.stage with simp only [exec, Kern.exec, hpc, hg, loops] at he
  | cond =>
    split_ifs at he <;> cases he <;>
      exact h.moved hpc .same id (fun _ hw => by simp [Local.at] at hw)
        (fun _ hcom => by simp [Committed, Local.at] at hcom) id
  | test =>
    cases he
    cases hk : s.killed i with
    | true =>
      exact h.moved hpc .same id (fun _ hw => by simp [Local.at] at hw)
        (fun _ hcom => by simp [Committed, Local.at] at hcom) id
    | false =>
      refine h.moved hpc .same id (fun _ hw => ?_) (fun _ _ => hk) id
      cases hl : t.loop <;> simp [Local.at, hl, Loop.tested, Loop.lock] at hw ⊢
  | wake ch =>
    cases he
    have hl : t.loop.lock ≠ .ptable := hpl ⟨ch, hg⟩
    exact h.moved hpc (Or.inl ⟨rfl, iff_of_false id hl⟩) id (fun _ => hl)
      (fun hcom ht => hcom ⟨ht, by simp [hg]⟩) id
  | sleep =>
    split_ifs at he with hl
    · cases he
      exact h.moved hpc (Or.inl ⟨rfl, iff_of_true trivial hl⟩) id (fun _ => rfl)
        (fun hcom ht => hcom ⟨ht, by simp [hg]⟩) id
    · cases he
      exact h.moved hpc (Or.inl ⟨rfl, iff_of_false id hl⟩) id (fun _ => ⟨hl, rfl⟩)
        (fun hcom ht => hcom ⟨ht, by simp [hg]⟩) id
  | leave =>
    cases he
    exact h.moved hpc lockMove_release id (fun _ => trivial) (fun _ => False.elim) id

theorem exec_ok {waits : Bool} (hexec : exec c i waits s = some s') : Ok l s' := by
  have hpl := h.placed i
  have he := hexec
  cases hpc : s.pc i with
    simp only [exec, Kern.exec, hpc, Kernel.lockPtable, reduceCtorEq] at he <;> rw [hpc] at hpl
  | enter t =>
    have hcond : t.stage = .cond := hpl
    split_ifs at he with hfree
    cases he
    exact h.moved hpc (lockMove_acquire hfree) id (fun _ hw => by simp [hcond] at hw)
      (fun _ hcom => absurd hcond hcom.2.1) id
  | inside t => exact exec_inside_ok h hpc hexec
  | wakeAcquire ch t | sleepAcquire ch t =>
    split_ifs at he with hfree
    cases he
    exact h.moved hpc (.take hfree trivial) id id id id
  | wakeScan ch rest t =>
    cases rest with
    | nil =>
      cases he
      exact h.moved hpc (.drop trivial hpl) id (fun _ _ => hpl) (fun hcom ht => hcom ht.1) id
    | cons p rest =>
      cases he
      exact h.scan hpc
  | sleepRelease ch t =>
    cases he
    refine h.moved hpc (Or.inl ⟨if_neg hpl.1, Iff.rfl⟩) id (fun _ => hpl.2) id id
  | sleepChan ch t =>
    cases he
    exact h.moved hpc .same id id id id
  | sleepState ch t =>
    have hcom := h.committed i
    rw [hpc] at hcom
    cases he
    exact h.own hpc (fun j hj => update_of_ne hj _ _) .same (update_self _ _ _) id hcom id
  | sleepSched ch t =>
    cases he
    refine h.swtch hpc trivial id Or.inl id id ?_
    rintro _ _ ⟨⟩ hl
    exact hl
  | sleepTidy ch t =>
    have hcond : t.stage = .cond := hpl
    split_ifs at he with hl
    · cases he
      exact h.moved hpc (Or.inl ⟨rfl, iff_of_true hl trivial⟩) id
        (fun _ hw => by simp [hcond] at hw) (fun _ hcom => absurd hcond hcom.2.1) id
    · cases he
      exact h.moved hpc .same id id (fun _ => False.elim) id
  | sleepUnlock t =>
    cases he
    exact h.moved hpc (.drop trivial id) id id (fun _ => False.elim) id
  | yieldAcquire =>
    split_ifs at he with hfree
    cases he
    exact h.moved hpc (.take hfree trivial) id id (fun _ => False.elim) id
  | yieldState =>
    cases he
    exact h.own hpc (fun j hj => update_of_ne hj _ _) .same (update_self _ _ _) id False.elim id
  | yieldSched =>
    cases he
    refine h.swtch hpc trivial id id id id ?_
    rintro _ _ ⟨⟩
  | yieldUnlock =>
    cases he
    exact h.moved hpc (.drop trivial id) id id (fun _ => False.elim) id

theorem step_ok {e : Event n} (hk : NoKillInWindow l s e) (hs : step s e = some s') :
    Ok l s' := by
  cases e with simp only [step] at hs
  | start c l' =>
    obtain ⟨i, -, hpc, rfl⟩ := Kern.step_start hs
    exact h.moved hpc .same id (fun _ => rfl) (fun _ => False.elim) id
  | yield c =>
    obtain ⟨i, -, hpc, rfl⟩ := Kern.step_yield hs
    exact h.moved hpc .same id id (fun _ => False.elim) id
  | exec c waits =>
    split at hs
    · exact exec_ok h hs
    · cases hs
  | schedule c =>
    simp only [Kern.step] at hs
    split_ifs at hs with hcond
    cases hs
    have hg := h.guarded
    rw [hcond.2] at hg
    exact h.relock hg.schedule
  | dispatch c i =>
    simp only [Kern.step] at hs
    split_ifs at hs with hcond
    cases hs
    exact h.dispatch hcond.1
  | unschedule c =>
    simp only [Kern.step] at hs
    split_ifs at hs with hcond
    cases hs
    exact h.relock (h.guarded.unschedule hcond)
  | lock k =>
    split_ifs at hs with hfree
    cases hs
    exact h.setLock (Or.inl ⟨hfree, rfl⟩)
  | unlock k =>
    split_ifs at hs with hheld
    cases hs
    exact h.setLock (Or.inr ⟨hheld, rfl⟩)
  | kill i =>
    by_cases hpt : s.ptable = some .killer
    · rw [Kern.step, if_pos hpt] at hs
      cases hs
      exact h.kill hpt (hk i rfl)
    · rw [Kern.step, if_neg hpt] at hs
      cases hs
  | wakeup ch =>
    split_ifs at hs with hpt
    cases hs
    refine h.wakeup (fun j _ _ hj => ?_) (fun j => ?_)
    · rw [show s.ptable = some .killer from hpt] at hj
      cases hj
    · split_ifs with hsl
      · exact Or.inr ⟨hsl.1, rfl⟩
      · exact Or.inl rfl

end

theorem run_ok {es : List (Event n)} (halong : Along step (NoKillInWindow l) (boot n) es)
    (hrun : run step (boot n) es = some s) : Ok l s :=
  run_invariant_along step (fun _ _ _ h hk hs => step_ok h hk hs) (boot_ok l) halong hrun

/-! ### Kills are not missed -/

/-- The loop that a process is in. -/
def loopOf : Pc n → Option Loop
  | .enter t | .inside t | .wakeAcquire _ t | .wakeScan _ _ t | .sleepAcquire _ t
  | .sleepRelease _ t | .sleepChan _ t | .sleepState _ t | .sleepSched _ t | .asleep _ t
  | .sleepTidy _ t | .sleepUnlock t => some t.loop
  | .user | .yieldAcquire | .yieldState | .yieldSched | .yielded | .yieldUnlock => none

/-- Process `i` is SLEEPING in loop `l`. -/
def SleepsIn (s : Sys n) (i : Fin n) (l : Loop) : Prop :=
  s.state i = .sleeping ∧ loopOf (s.pc i) = some l

instance (s : Sys n) (i : Fin n) (l : Loop) : Decidable (SleepsIn s i l) :=
  inferInstanceAs (Decidable (_ ∧ _))

theorem Ok.sleepsIn (h : Ok l s) (hfree : s.lock .ptable = none) (hs : SleepsIn s i l) :
    s.killed i = false := by
  obtain ⟨hstate, hloop⟩ := hs
  have hst := h.state i
  have hpt : ¬ Locked (s.pc i) := by simp [← h.ptable i, show s.ptable = none from hfree]
  rw [hstate] at hst
  -- only `sched` and `swtch` have SLEEPING, and in `sched` the process holds `ptable.lock`
  cases hpc : s.pc i with
  | asleep ch t =>
    rw [hpc] at hloop
    exact h.asleep i ch t hpc (Option.some.inj hloop) hstate
  | sleepSched ch t =>
    rw [hpc] at hpt
    exact absurd trivial hpt
  | _ => simp [hpc, Kern.Pc.StateOk] at hst

/-- In every run in which no process is killed in the window of the loop. -/
theorem kill_not_missed (l : Loop) {es : List (Event n)}
    (halong : Along step (NoKillInWindow l) (boot n) es) (hrun : run step (boot n) es = some s)
    (hfree : s.lock .ptable = none) (hs : SleepsIn s i l) : s.killed i = false :=
  (run_ok halong hrun).sleepsIn hfree hs

/-- `wait` makes its test with `ptable.lock` and has no window. -/
theorem noKillInWindow_wait (s : Sys n) (e : Event n) : NoKillInWindow .wait s e := by
  intro i _ hw
  cases hpc : s.pc i <;> simp [hpc, InWindow, Loop.lock] at hw

theorem kill_wait {es : List (Event n)} (hrun : run step (boot n) es = some s)
    (hfree : s.lock .ptable = none) (hs : SleepsIn s i .wait) : s.killed i = false :=
  (run_ok (along_of_mem step (fun s e _ => noKillInWindow_wait s e)) hrun).sleepsIn hfree hs

/-- The process comes to `sleep` in `piperead`. -/
def toSleep (n : Nat) [NeZero n] : List (Event n) :=
  [.schedule 0, .dispatch 0 0, .exec 0 false, .start 0 (.piperead 0), .exec 0 false,
    .exec 0 true, .exec 0 false]

/-- It goes to sleep. -/
def sleeps : List (Event n) := List.replicate 6 (.exec 0 false) ++ [.unschedule 0]

local instance killTwo : NeZero 2 := ⟨by decide⟩

local instance killOne : NeZero 1 := ⟨by decide⟩

/-- Another process is killed meanwhile. -/
def otherKilled : List (Event 2) :=
  toSleep 2 ++ [Event.lock .ptable, .kill 1, .unlock .ptable] ++ sleeps

theorem otherKilled_asleep : ∃ s, run step (boot 2) otherKilled = some s ∧
    s.lock .ptable = none ∧ SleepsIn s 0 (.piperead 0) ∧ s.killed 0 = false := by
  obtain ⟨s, hs, hsleeps⟩ := Option.map_eq_some_iff.mp (by decide +kernel :
    (run step (boot 2) otherKilled).map (fun s =>
      decide (s.lock .ptable = none ∧ SleepsIn s 0 (.piperead 0))) = some true)
  obtain ⟨hfree, hin⟩ := of_decide_eq_true hsleeps
  have halong : Along step (NoKillInWindow (.piperead 0)) (boot 2) otherKilled :=
    along_of_alongB _ (fun _ _ => of_decide_eq_true) (by decide +kernel)
  exact ⟨s, hs, hfree, hin, kill_not_missed _ halong hs hfree hin⟩

def killedBeforeSleep : List (Event 1) :=
  toSleep 1 ++ [Event.lock .ptable, .kill 0, .unlock .ptable] ++ sleeps

/-- The reader sleeps and has been killed. -/
theorem killedBeforeSleep_missed : ∃ s, run step (boot 1) killedBeforeSleep = some s ∧
    s.lock .ptable = none ∧ SleepsIn s 0 (.piperead 0) ∧ s.killed 0 = true := by
  obtain ⟨s, hs, hstate⟩ := Option.map_eq_some_iff.mp (by decide +kernel :
    (run step (boot 1) killedBeforeSleep).map (fun s =>
      decide (s.lock .ptable = none ∧ SleepsIn s 0 (.piperead 0) ∧ s.killed 0 = true)) = some true)
  exact ⟨s, hs, of_decide_eq_true hstate⟩

end Xv6.KillLoop
