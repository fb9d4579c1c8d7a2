import Xv6.SleepRefines

/-!
# Sleep-locks

`acquiresleep`, `releasesleep` and `holdingsleep` on one sleep-lock, as calls of the monitor that
the inner spinlock makes. `held` is not part of the source: it says which processes have got the
lock from `acquiresleep` and not given it back, so that `releasesleep` has its precondition.
-/

namespace Xv6.Kern

open Function
open Monitor (Program Action Place)

variable {n : Nat}

structure SleepLock (n : Nat) where
  locked : Bool
  pid : Int
  held : Fin n → Bool

/-- `initsleeplock` -/
def SleepLock.init (n : Nat) : SleepLock n := ⟨false, 0, fun _ => false⟩

inductive LockCall
  | acquiresleep
  | releasesleep
  | holdingsleep
  deriving DecidableEq, Repr

/-- What process `i` does next. -/
inductive LockLocal (n : Nat)
  /-- `while (lk->locked)` -/
  | test (i : Fin n)
  /-- `lk->locked = 1` -/
  | lock (i : Fin n)
  /-- `lk->pid = myproc()->pid` -/
  | setPid (i : Fin n)
  /-- `lk->locked = 0` -/
  | unlock (i : Fin n)
  /-- `lk->pid = 0` -/
  | clearPid
  /-- `wakeup(lk)` -/
  | wake
  /-- `r = lk->locked && (lk->pid == myproc()->pid)` -/
  | ask (i : Fin n)
  /-- `release(&lk->lk); return r` -/
  | answer (i : Fin n) (r : Bool)
  /-- `release(&lk->lk)` -/
  | leave
  deriving DecidableEq

/-- `pid i` is the pid of process `i`. -/
def lockAct (pid : Fin n → Int) : LockLocal n → SleepLock n →
    Action (SleepLock n) (LockLocal n) Unit
  | .test i, d => if d.locked then .sleep () (.test i) else .step d (.lock i)
  | .lock i, d => .step { d with locked := true } (.setPid i)
  | .setPid i, d => .step { d with pid := pid i, held := update d.held i true } .leave
  | .unlock i, d => .step { d with locked := false, held := update d.held i false } .clearPid
  | .clearPid, d => .step { d with pid := 0 } .wake
  | .wake, _ => .wakeup () .leave
  | .ask i, d => .step d (.answer i (d.locked && d.pid = pid i))
  | .answer _ _, _ => .release
  | .leave, _ => .release

def lockProgram (pid : Fin n → Int) :
    Program (Fin n) (SleepLock n) (LockLocal n) Unit LockCall where
  start i
    | .acquiresleep => .test i
    | .releasesleep => .unlock i
    | .holdingsleep => .ask i
  act := lockAct pid

variable {pid : Fin n → Int} {d : SleepLock n}

/-- `releasesleep` is called by a process that has the lock. -/
def ReleasedByHolder (k : Kernel n (SleepLock n) (LockLocal n) Unit) (e : Event n LockCall) :
    Prop :=
  ∀ c i, e = .start c .releasesleep → k.cpu c = .running i → k.shared.held i = true

/-- What `releasesleep` relies on. -/
def Holding (i : Fin n) (t : LockLocal n) (d : SleepLock n) : Prop :=
  ∀ j, t = .unlock j → j = i ∧ d.held i = true

variable {t t' : LockLocal n}

theorem lockAct_step {d' : SleepLock n}
    (ha : lockAct pid t d = .step d' t') :
    (∃ i, t = .test i ∧ d.locked = false ∧ d' = d ∧ t' = .lock i) ∨
    (∃ i, t = .lock i ∧ d' = { d with locked := true } ∧ t' = .setPid i) ∨
    (∃ i, t = .setPid i ∧ d' = { d with pid := pid i, held := update d.held i true } ∧
      t' = .leave) ∨
    (∃ i, t = .unlock i ∧ d' = { d with locked := false, held := update d.held i false } ∧
      t' = .clearPid) ∨
    (t = .clearPid ∧ d' = { d with pid := 0 } ∧ t' = .wake) ∨
    ∃ i, t = .ask i ∧ d' = d ∧ t' = .answer i (d.locked && d.pid = pid i) := by
  cases t with
  | test i =>
    simp only [lockAct] at ha
    split_ifs at ha with hl
    cases ha
    exact Or.inl ⟨i, rfl, by simpa using hl, rfl, rfl⟩
  | lock i =>
    cases ha
    exact Or.inr (Or.inl ⟨i, rfl, rfl, rfl⟩)
  | setPid i =>
    cases ha
    exact Or.inr (Or.inr (Or.inl ⟨i, rfl, rfl, rfl⟩))
  | unlock i =>
    cases ha
    exact Or.inr (Or.inr (Or.inr (Or.inl ⟨i, rfl, rfl, rfl⟩)))
  | clearPid =>
    cases ha
    exact Or.inr (Or.inr (Or.inr (Or.inr (Or.inl ⟨rfl, rfl, rfl⟩))))
  | ask i =>
    cases ha
    exact Or.inr (Or.inr (Or.inr (Or.inr (Or.inr ⟨i, rfl, rfl, rfl⟩))))
  | wake | answer | leave => cases ha

theorem lockAct_sleep {ch : Unit} (ha : lockAct pid t d = .sleep ch t') :
    ∃ i, t = .test i ∧ t' = .test i ∧ d.locked = true := by
  cases t with
  | test i =>
    simp only [lockAct] at ha
    split_ifs at ha with hl
    cases ha
    exact ⟨i, rfl, rfl, hl⟩
  | _ => cases ha

theorem lockAct_wakeup {ch : Unit} (ha : lockAct pid t d = .wakeup ch t') :
    t = .wake ∧ t' = .leave := by
  cases t with
  | test i =>
    simp only [lockAct] at ha
    split_ifs at ha
  | wake =>
    cases ha
    exact ⟨rfl, rfl⟩
  | _ => cases ha

theorem lockAct_testKilled {t yes no : LockLocal n} : lockAct pid t d ≠ .testKilled yes no := by
  intro ha
  cases t with
  | test i =>
    simp only [lockAct] at ha
    split_ifs at ha
  | _ => cases ha

theorem lockAct_release {t : LockLocal n} (ha : lockAct pid t d = .release) :
    t = .leave ∨ ∃ i r, t = .answer i r := by
  cases t with
  | test i =>
    simp only [lockAct] at ha
    split_ifs at ha
  | leave => exact Or.inl rfl
  | answer i r => exact Or.inr ⟨i, r, rfl⟩
  | _ => cases ha

theorem holding_stable : Stable (lockProgram pid) Holding := by
  refine ⟨?_, ?_, ?_, ?_⟩
  · intro i t t' d d' h ha
    -- no step leads to `lk->locked = 0`, and only the process itself loses the lock there
    have hkeep : ∀ d'' : SleepLock n, (∀ j, j ≠ i → d.held j = true → d''.held j = true) →
        ∀ j, j ≠ i → ∀ u, Holding j u d → Holding j u d'' := by
      intro d'' hheld j hj u hu l hl
      exact ⟨(hu l hl).1, hheld j hj (hu l hl).2⟩
    rcases lockAct_step ha with ⟨l, rfl, -, rfl, rfl⟩ | ⟨l, rfl, rfl, rfl⟩ | ⟨l, rfl, rfl, rfl⟩ |
      ⟨l, rfl, rfl, rfl⟩ | ⟨rfl, rfl, rfl⟩ | ⟨l, rfl, rfl, rfl⟩
    · exact ⟨by simp [Holding], hkeep d' (fun _ _ hj => hj)⟩
    · exact ⟨by simp [Holding], hkeep _ (fun _ _ hj => hj)⟩
    · refine ⟨by simp [Holding], hkeep _ (fun j _ hj => ?_)⟩
      rcases eq_or_ne j l with rfl | hjl
      · exact update_self _ _ _
      · exact (update_of_ne hjl _ _).trans hj
    · obtain ⟨rfl, -⟩ := h l rfl
      exact ⟨by simp [Holding], hkeep _ (fun j hji hj => (update_of_ne hji _ _).trans hj)⟩
    · exact ⟨by simp [Holding], hkeep _ (fun _ _ hj => hj)⟩
    · exact ⟨by simp [Holding], hkeep d' (fun _ _ hj => hj)⟩
  · exact fun i b t yes no d _ ha => absurd ha lockAct_testKilled
  · intro i t t' ch d _ ha
    obtain ⟨-, rfl⟩ := lockAct_wakeup ha
    simp [Holding]
  · intro i t t' ch d _ ha
    obtain ⟨l, -, rfl, -⟩ := lockAct_sleep ha
    simp [Holding]

/-! ### Who has the lock -/

/-- The lock when the inner spinlock is free: nobody has it, or the process with the recorded pid. -/
def Settled (pid : Fin n → Int) (d : SleepLock n) : Prop :=
  d.locked = false ∧ (∀ i, d.held i = false) ∨
    d.locked = true ∧ ∃ i, d.pid = pid i ∧ ∀ j, d.held j = true ↔ j = i

/-- The process that a local state belongs to. -/
def LockLocal.ownedBy (i : Fin n) : LockLocal n → Prop
  | .test j | .lock j | .setPid j | .unlock j | .ask j | .answer j _ => j = i
  | .clearPid | .wake | .leave => True

def LockLocal.entry : LockLocal n → Prop
  | .test _ | .unlock _ | .ask _ => True
  | _ => False

/-- What is true of the lock at a place inside of a call of process `i`. -/
def LockAt (pid : Fin n → Int) (i : Fin n) (d : SleepLock n) : LockLocal n → Prop
  | .test _ | .unlock _ | .ask _ | .leave => Settled pid d
  | .lock _ | .clearPid | .wake => d.locked = false ∧ ∀ j, d.held j = false
  | .setPid _ => d.locked = true ∧ ∀ j, d.held j = false
  | .answer _ r => Settled pid d ∧ (r = true ↔ d.held i = true)

def LockPlace (pid : Fin n → Int) (i : Fin n) (p : Place (LockLocal n) Unit) (d : SleepLock n) :
    Prop :=
  match p with
  | .out => True
  | .ready t | .asleep _ t => t.ownedBy i ∧ t.entry
  | .inside t => t.ownedBy i ∧ LockAt pid i d t
  | .waking _ t => t = .leave ∧ Settled pid d
  | .parking _ t => t.ownedBy i ∧ t.entry ∧ Settled pid d

theorem Settled.of_entry (h : Settled pid d) {i : Fin n} {t : LockLocal n} (ht : t.entry) :
    LockAt pid i d t := by
  cases t <;> first | exact h | cases ht

theorem Settled.answer (h : Settled pid d) (hpid : Function.Injective pid) (i : Fin n) :
    (d.locked && d.pid = pid i) = true ↔ d.held i = true := by
  rcases h with ⟨hl, hnone⟩ | ⟨hl, j, hj, hheld⟩
  · simp [hl, hnone i]
  · rw [hheld i, hl, hj]
    simp only [Bool.true_and, decide_eq_true_eq]
    exact ⟨fun he => (hpid he).symm, fun he => by rw [he]⟩

theorem Settled.unique (h : Settled pid d) {i j : Fin n} (hi : d.held i = true)
    (hj : d.held j = true) : i = j := by
  rcases h with ⟨-, hnone⟩ | ⟨-, l, -, hheld⟩
  · simp [hnone i] at hi
  · exact ((hheld i).mp hi).trans ((hheld j).mp hj).symm

theorem LockPlace.unique {l : Fin n} {p : Place (LockLocal n) Unit} (h : LockPlace pid l p d)
    (hp : p.holds) {i j : Fin n} (hi : d.held i = true) (hj : d.held j = true) : i = j := by
  cases p with
  | inside t =>
    obtain ⟨-, hat⟩ := h
    cases t with
    | test | unlock | ask | leave => exact Settled.unique hat hi hj
    | answer => exact Settled.unique hat.1 hi hj
    | lock | setPid | clearPid | wake =>
      have hnone := hat.2 i
      simp [hi] at hnone
  | waking ch t => exact h.2.unique hi hj
  | parking ch t => exact h.2.2.unique hi hj
  | out | ready | asleep => exact absurd hp id

/-- `lk->locked = 0` is reached by the process that has the lock. -/
def UnlockHeld (_ : Bool) (t : LockLocal n) (d : SleepLock n) : Prop :=
  ∀ i, t = .unlock i → d.held i = true

theorem lockAssertions (hpid : Function.Injective pid) :
    Monitor.Assertions (lockProgram pid) UnlockHeld (LockPlace pid) (Settled pid) := by
  refine ⟨?_, ?_, ?_, ?_, ?_, ?_, ?_, ?_, ?_, ?_⟩
  · intro i call d _
    cases call <;> exact ⟨rfl, True.intro⟩
  · rintro i t d ⟨hown, hentry⟩ hI
    exact ⟨hown, hI.of_entry hentry⟩
  · intro i b t t' d d' hK hP ha
    refine ⟨?_, ?_⟩
    · obtain ⟨hown, hat⟩ := hK
      rcases lockAct_step ha with ⟨l, rfl, hl, rfl, rfl⟩ | ⟨l, rfl, rfl, rfl⟩ |
        ⟨l, rfl, rfl, rfl⟩ | ⟨l, rfl, rfl, rfl⟩ | ⟨rfl, rfl, rfl⟩ | ⟨l, rfl, rfl, rfl⟩
      · refine ⟨hown, ?_⟩
        rcases hat with hfree | ⟨hlocked, -⟩
        · exact hfree
        · simp [hl] at hlocked
      · exact ⟨hown, rfl, hat.2⟩
      · refine ⟨True.intro, Or.inr ⟨hat.1, l, rfl, ?_⟩⟩
        intro j
        rcases eq_or_ne j l with rfl | hj
        · simp
        · simp [hj, hat.2 j]
      · refine ⟨True.intro, rfl, ?_⟩
        have hheld := hP l rfl
        rcases hat with ⟨-, hnone⟩ | ⟨-, j, -, hj⟩
        · simp [hnone l] at hheld
        · have hlj : l = j := (hj l).mp hheld
          intro m
          rcases eq_or_ne m l with rfl | hm
          · exact update_self _ _ _
          · have hmj : ¬ d.held m = true := fun hc => hm (((hj m).mp hc).trans hlj.symm)
            simpa [hm] using hmj
      · exact ⟨True.intro, hat⟩
      · have hli : l = i := hown
        subst hli
        exact ⟨rfl, hat, Settled.answer hat hpid l⟩
    · intro j hj p hp hKj
      cases p <;> first | exact hKj | exact absurd True.intro hp
  · exact fun i b t yes no d _ _ ha => absurd ha lockAct_testKilled
  · intro i t t' ch d hK ha
    obtain ⟨rfl, rfl⟩ := lockAct_wakeup ha
    exact ⟨rfl, Or.inl hK.2⟩
  · rintro i t ch d ⟨rfl, hI⟩
    exact ⟨True.intro, hI⟩
  · rintro i t t' ch d ⟨hown, hat⟩ ha
    obtain ⟨l, rfl, rfl, -⟩ := lockAct_sleep ha
    exact ⟨hown, True.intro, hat⟩
  · rintro i t ch d ⟨hown, hentry, hI⟩
    exact ⟨⟨hown, hentry⟩, hI⟩
  · exact fun i t ch d hK => hK
  · rintro i t d ⟨hown, hat⟩ ha
    rcases lockAct_release ha with rfl | ⟨l, r, rfl⟩
    · exact ⟨True.intro, hat⟩
    · exact ⟨True.intro, hat.1⟩

/-- A process sleeps while the lock is taken, and `releasesleep` owes it a wakeup. -/
theorem lockSignals : Monitor.Signals (lockProgram pid) UnlockHeld (LockPlace pid)
    (fun _ d => d.locked = true) (fun _ t => t = .clearPid ∨ t = .wake) := by
  refine ⟨?_, ?_, ?_, ?_, ?_⟩
  · intro i b t t' d d' hK _ ha ch hW
    rcases lockAct_step ha with ⟨l, rfl, hl, rfl, rfl⟩ | ⟨l, rfl, rfl, rfl⟩ |
      ⟨l, rfl, rfl, rfl⟩ | ⟨l, rfl, rfl, rfl⟩ | ⟨rfl, rfl, rfl⟩ | ⟨l, rfl, rfl, rfl⟩
    · simp [hl] at hW
    · exact Or.inl rfl
    · exact Or.inl hK.2.1
    · exact Or.inr (Or.inl rfl)
    · exact Or.inr (Or.inr rfl)
    · simpa using hW
  · exact fun i b t yes no d _ _ ha => absurd ha lockAct_testKilled
  · exact fun i t t' ch' d _ _ ch hch => absurd rfl hch
  · intro i t t' ch d _ ha
    obtain ⟨l, -, -, hl⟩ := lockAct_sleep ha
    exact ⟨hl, fun _ _ => hl⟩
  · intro i t d _ ha ch hW
    rcases lockAct_release ha with rfl | ⟨l, r, rfl⟩
    · simpa using hW
    · simpa using hW

/-! ### Runs -/

variable {k : Kernel n (SleepLock n) (LockLocal n) Unit} {es : List (Event n LockCall)}

/-- If only holders call `releasesleep`, then only a holder gets as far as `lk->locked = 0`. -/
theorem allowed_of_released (halong : Along (step (lockProgram pid)) ReleasedByHolder k es)
    (h : Relied Holding k) : Along (step (lockProgram pid)) (Allowed UnlockHeld) k es := by
  induction es generalizing k with
  | nil => exact True.intro
  | cons e es ih =>
    obtain ⟨hcond, hrest⟩ := halong
    refine ⟨?_, ?_⟩
    · rintro c i t - - hpc j rfl
      obtain ⟨rfl, hheld⟩ := h i (.unlock j) (by rw [hpc]; rfl) j rfl
      exact hheld
    · intro k' hk'
      refine ih (hrest k' hk') (step_relied holding_stable h ?_ hk')
      rintro c call i rfl hi j hj
      cases call with
      | releasesleep =>
        cases hj
        exact ⟨rfl, hcond c i rfl hi⟩
      | acquiresleep => cases hj
      | holdingsleep => cases hj

/-- At most one process has the lock, `holdingsleep` answers whether the caller has it, and nobody
sleeps on a lock that is free. -/
theorem sleeplock_excludes (hpid : Function.Injective pid)
    (halong : Along (step (lockProgram pid)) ReleasedByHolder (Kernel.boot n (SleepLock.init n)) es)
    (hrun : run (step (lockProgram pid)) (Kernel.boot n (SleepLock.init n)) es = some k) :
    (∀ i j, k.shared.held i = true → k.shared.held j = true → i = j) ∧
    (∀ i j r, k.pc i = .inside (.answer j r) → (r = true ↔ k.shared.held i = true)) ∧
    (k.lk = none → k.shared.locked = false →
      ∀ i, ¬ (k.state i = .sleeping ∧ k.chan i = some ())) := by
  have hrelied : Relied Holding (Kernel.boot n (SleepLock.init n) :
      Kernel n (SleepLock n) (LockLocal n) Unit) := by
    intro i t ht
    cases ht
  have hallowed := allowed_of_released halong hrelied
  have hinit : Settled pid (SleepLock.init n) := Or.inl ⟨rfl, fun _ => rfl⟩
  have hA := lockAssertions hpid
  have hholds := run_holds hA (fun _ => True.intro) hinit hallowed hrun
  refine ⟨?_, ?_, ?_⟩
  · intro i j hi hj
    by_cases hfree : ∀ l, ¬ (k.monitor.place l).holds
    · exact (hholds.free hfree).unique hi hj
    · obtain ⟨l, hl⟩ := not_forall_not.mp hfree
      exact (hholds.place l).unique hl hi hj
  · intro i j r hpc
    have hat : LockPlace pid i (k.monitor.place i) k.shared := hholds.place i
    have hplace : k.monitor.place i = .inside (.answer j r) := by
      simp [Kernel.monitor, hpc, Pc.place]
    rw [hplace] at hat
    exact hat.2.2
  · rintro hlk hunlocked i ⟨hs, hch⟩
    obtain ⟨-, hW | ⟨j, hj⟩⟩ := run_sleeping hA lockSignals (fun _ => True.intro) hinit hallowed
      hrun hs hch
    · simp [hunlocked] at hW
    · -- whoever owes a wakeup holds the spinlock
      have hok := (run_refines hallowed hrun).1
      have hholder := (hok.lk j).mpr ((Pc.place_holds _ _).mp (Place.holds_of_owes hj))
      simp [hlk] at hholder

local instance lockTwo : NeZero 2 := ⟨by decide⟩

/-- Process 0 takes the lock, process 1 finds it taken and sleeps, process 0 gives it back. -/
def handOver : List (Event 2 LockCall) :=
  [[.schedule 0, .dispatch 0 0, .exec 0, .start 0 .acquiresleep], List.replicate 5 (.exec 0),
    [.schedule 1, .dispatch 1 1, .exec 1, .start 1 .acquiresleep], List.replicate 7 (.exec 1),
    [.unschedule 1, .start 0 .releasesleep], List.replicate 9 (.exec 0)].flatten

def releasedByHolderB (k : Kernel 2 (SleepLock 2) (LockLocal 2) Unit) : Event 2 LockCall → Bool
  | .start c .releasesleep =>
    match k.cpu c with
    | .running i => k.shared.held i
    | _ => true
  | _ => true

theorem released_of_test (k : Kernel 2 (SleepLock 2) (LockLocal 2) Unit) (e : Event 2 LockCall)
    (h : releasedByHolderB k e = true) : ReleasedByHolder k e := by
  rintro c i rfl hi
  simpa [releasedByHolderB, hi] using h

theorem handOver_excludes : ∃ k,
    run (step (lockProgram (fun i : Fin 2 => (i : Int)))) (Kernel.boot 2 (SleepLock.init 2))
      handOver = some k ∧
    k.lk = none ∧ k.shared.locked = false ∧ k.pc 1 = .asleep () (.test 1) ∧
    ∀ i, ¬ (k.state i = .sleeping ∧ k.chan i = some ()) := by
  have h : (run (step (lockProgram (fun i : Fin 2 => (i : Int))))
      (Kernel.boot 2 (SleepLock.init 2)) handOver).map
      (fun k => (k.lk, k.shared.locked, k.pc 1)) = some (none, false, .asleep () (.test 1)) := by
    decide +kernel
  obtain ⟨k, hk, hvals⟩ := Option.map_eq_some_iff.mp h
  simp only [Prod.mk.injEq] at hvals
  obtain ⟨hlk, hlocked, hpc⟩ := hvals
  have hinj : Function.Injective (fun i : Fin 2 => (i : Int)) := by
    intro i j hij
    simpa [Fin.ext_iff] using hij
  have halong : Along (step (lockProgram (fun i : Fin 2 => (i : Int)))) ReleasedByHolder
      (Kernel.boot 2 (SleepLock.init 2)) handOver :=
    along_of_alongB _ released_of_test (by decide +kernel)
  exact ⟨k, hk, hlk, hlocked, hpc, (sleeplock_excludes hinj halong hk).2.2 hlk hlocked⟩

end Xv6.Kern
