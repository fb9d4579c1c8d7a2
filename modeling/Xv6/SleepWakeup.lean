import Mathlib.Data.List.FinRange
import Xv6.Monitor
import Xv6.ProcTable
import Xv6.Run

/-!
# `sleep` and `wakeup` step by step

Processes that run a monitor program with the spinlock `lk`, on any number of processors. Every
acquisition and release of `lk` and of `ptable.lock`, every assignment to `state` and `chan`, every
slot that `wakeup1` looks at and every `swtch` is a step of its own. `ptable.lock` passes from a
process to the scheduler of its processor in `sched`, and back when the scheduler switches to a
process. `kill` runs in some other process.

`Kernel.monitor` forgets what happens between these steps, and every step of the kernel is a step of
the monitor or invisible there.
-/

namespace Xv6.Kern

open Function
open Monitor (Program Action Place)
open Ptable (ProcState)

variable {n : Nat} {σ τ χ κ : Type*}

/-- Where a process is in the code. The local state is the one for the next action in the monitor;
in `wakeup` and `sleep` it is the one after the call. -/
inductive Pc (n : Nat) (τ χ : Type*)
  | user
  /-- `acquire(lk)` -/
  | enter (t : τ)
  | inside (t : τ)
  /-- `wakeup`: `acquire(&ptable.lock)` -/
  | wakeAcquire (c : χ) (t : τ)
  /-- The loop of `wakeup1`, and `release(&ptable.lock)` at its end. -/
  | wakeScan (c : χ) (rest : List (Fin n)) (t : τ)
  /-- `sleep`: `acquire(&ptable.lock)` -/
  | sleepAcquire (c : χ) (t : τ)
  /-- `release(lk)` -/
  | sleepRelease (c : χ) (t : τ)
  /-- `p->chan = chan` -/
  | sleepChan (c : χ) (t : τ)
  /-- `p->state = SLEEPING` -/
  | sleepState (c : χ) (t : τ)
  /-- `sched()` -/
  | sleepSched (c : χ) (t : τ)
  /-- In `swtch`. -/
  | asleep (c : χ) (t : τ)
  /-- `p->chan = 0` -/
  | sleepTidy (c : χ) (t : τ)
  /-- `release(&ptable.lock)` -/
  | sleepUnlock (t : τ)
  /-- `yield`: `acquire(&ptable.lock)` -/
  | yieldAcquire
  /-- `myproc()->state = RUNNABLE` -/
  | yieldState
  /-- `sched()` -/
  | yieldSched
  /-- In `swtch`, or about to enter `forkret`. -/
  | yielded
  /-- `release(&ptable.lock)` -/
  | yieldUnlock
  deriving DecidableEq

inductive Holder (n : Nat)
  | process (i : Fin n)
  | scheduler (c : Nat)
  | killer
  deriving DecidableEq

/-- What a processor does: its scheduler is outside of its loop body, looks for a process, has
switched to one, or is about to release the lock after the process came back. -/
inductive Cpu (n : Nat)
  | idle
  | picking
  | running (i : Fin n)
  | leaving
  deriving DecidableEq

structure Kernel (n : Nat) (σ τ χ : Type*) where
  shared : σ
  lk : Option (Fin n)
  ptable : Option (Holder n)
  state : Fin n → ProcState
  chan : Fin n → Option χ
  killed : Fin n → Bool
  pc : Fin n → Pc n τ χ
  cpu : Nat → Cpu n

namespace Kernel

variable (k : Kernel n σ τ χ)

def goto (i : Fin n) (p : Pc n τ χ) : Kernel n σ τ χ := { k with pc := update k.pc i p }

def setState (i : Fin n) (s : ProcState) : Kernel n σ τ χ := { k with state := update k.state i s }

def setChan (i : Fin n) (c : Option χ) : Kernel n σ τ χ := { k with chan := update k.chan i c }

def setCpu (c : Nat) (x : Cpu n) : Kernel n σ τ χ := { k with cpu := update k.cpu c x }

/-- `acquire(&ptable.lock)` by process `i`. -/
def lockPtable (i : Fin n) (p : Pc n τ χ) : Option (Kernel n σ τ χ) :=
  if k.ptable = none then some { k.goto i p with ptable := some (.process i) } else none

end Kernel

/-- All processes are ready to be run for the first time. -/
def Kernel.boot (n : Nat) (d : σ) : Kernel n σ τ χ where
  shared := d
  lk := none
  ptable := none
  state _ := .runnable
  chan _ := none
  killed _ := false
  pc _ := .yielded
  cpu _ := .idle

inductive Event (n : Nat) (κ : Type*)
  | start (c : Nat) (k : κ)
  | yield (c : Nat)
  | exec (c : Nat)
  | schedule (c : Nat)
  | dispatch (c : Nat) (i : Fin n)
  | unschedule (c : Nat)
  | killLock
  | kill (i : Fin n)
  | killUnlock

/-- The next step of process `i` on processor `c`. -/
def exec [DecidableEq χ] (pr : Program (Fin n) σ τ χ κ) (c : Nat) (i : Fin n) (k : Kernel n σ τ χ) :
    Option (Kernel n σ τ χ) :=
  match k.pc i with
  | .user | .asleep _ _ | .yielded => none
  | .enter t => if k.lk = none then some { k.goto i (.inside t) with lk := some i } else none
  | .inside t =>
    match pr.act t k.shared with
    | .step d t' => some { k.goto i (.inside t') with shared := d }
    | .testKilled yes no => some (k.goto i (.inside (if k.killed i then yes else no)))
    | .wakeup ch t' => some (k.goto i (.wakeAcquire ch t'))
    | .sleep ch t' => some (k.goto i (.sleepAcquire ch t'))
    | .release => some { k.goto i .user with lk := none }
  | .wakeAcquire ch t => k.lockPtable i (.wakeScan ch (List.finRange n) t)
  | .wakeScan ch (p :: rest) t =>
    let k := if k.state p = .sleeping ∧ k.chan p = some ch then k.setState p .runnable else k
    some (k.goto i (.wakeScan ch rest t))
  | .wakeScan _ [] t => some { k.goto i (.inside t) with ptable := none }
  | .sleepAcquire ch t => k.lockPtable i (.sleepRelease ch t)
  | .sleepRelease ch t => some { k.goto i (.sleepChan ch t) with lk := none }
  | .sleepChan ch t => some ((k.setChan i (some ch)).goto i (.sleepState ch t))
  | .sleepState ch t => some ((k.setState i .sleeping).goto i (.sleepSched ch t))
  | .sleepSched ch t =>
    some { (k.goto i (.asleep ch t)).setCpu c .leaving with ptable := some (.scheduler c) }
  | .sleepTidy _ t => some ((k.setChan i none).goto i (.sleepUnlock t))
  | .sleepUnlock t => some { k.goto i (.enter t) with ptable := none }
  | .yieldAcquire => k.lockPtable i .yieldState
  | .yieldState => some ((k.setState i .runnable).goto i .yieldSched)
  | .yieldSched =>
    some { (k.goto i .yielded).setCpu c .leaving with ptable := some (.scheduler c) }
  | .yieldUnlock => some { k.goto i .user with ptable := none }

/-- Where a process continues after `swtch` has returned to it. -/
def Pc.resumed : Pc n τ χ → Pc n τ χ
  | .asleep c t => .sleepTidy c t
  | _ => .yieldUnlock

/-- `scheduler` may pick any RUNNABLE process. -/
def step [DecidableEq χ] (pr : Program (Fin n) σ τ χ κ) (k : Kernel n σ τ χ) :
    Event n κ → Option (Kernel n σ τ χ)
  | .start c call =>
    match k.cpu c with
    | .running i =>
      match k.pc i with
      | .user => some (k.goto i (.enter (pr.start i call)))
      | _ => none
    | _ => none
  | .yield c =>
    match k.cpu c with
    | .running i =>
      match k.pc i with
      | .user => some (k.goto i .yieldAcquire)
      | _ => none
    | _ => none
  | .exec c =>
    match k.cpu c with
    | .running i => exec pr c i k
    | _ => none
  | .schedule c =>
    if k.cpu c = .idle ∧ k.ptable = none then
      some { k.setCpu c .picking with ptable := some (.scheduler c) }
    else none
  | .dispatch c i =>
    if k.cpu c = .picking ∧ k.state i = .runnable then
      some { ((k.setState i .running).goto i (k.pc i).resumed).setCpu c (.running i) with
        ptable := some (.process i) }
    else none
  | .unschedule c =>
    if k.cpu c = .picking ∨ k.cpu c = .leaving then
      some { k.setCpu c .idle with ptable := none }
    else none
  | .killLock => if k.ptable = none then some { k with ptable := some .killer } else none
  | .kill i =>
    if k.ptable = some .killer then
      some { k with
        killed := update k.killed i true
        state := update k.state i (if k.state i = .sleeping then .runnable else k.state i) }
    else none
  | .killUnlock => if k.ptable = some .killer then some { k with ptable := none } else none

/-! ### Locks, states and channels -/

namespace Pc

def holdsLk : Pc n τ χ → Prop
  | inside _ | wakeAcquire _ _ | wakeScan _ _ _ | sleepAcquire _ _ | sleepRelease _ _ => True
  | _ => False

def holdsPtable : Pc n τ χ → Prop
  | wakeScan _ _ _ | sleepRelease _ _ | sleepChan _ _ | sleepState _ _ | sleepSched _ _
  | sleepTidy _ _ | sleepUnlock _ | yieldState | yieldSched | yieldUnlock => True
  | _ => False

/-- Not on a processor. -/
def off : Pc n τ χ → Prop
  | asleep _ _ | yielded => True
  | _ => False

def StateOk : Pc n τ χ → ProcState → Prop
  | sleepSched _ _, s => s = .sleeping
  | asleep _ _, s => s = .sleeping ∨ s = .runnable
  | yieldSched, s | yielded, s => s = .runnable
  | _, s => s = .running

/-- The channel that `p->chan` has been set to, for a process that is going to sleep or sleeps. -/
def waitsOn : Pc n τ χ → Option χ
  | sleepState c _ | sleepSched c _ | asleep c _ => some c
  | _ => none

end Pc

structure Ok (k : Kernel n σ τ χ) : Prop where
  lk : ∀ i, k.lk = some i ↔ (k.pc i).holdsLk
  ptable : ∀ i, k.ptable = some (.process i) ↔ (k.pc i).holdsPtable
  sched : ∀ c, k.ptable = some (.scheduler c) ↔ k.cpu c = .picking ∨ k.cpu c = .leaving
  running : ∀ c i, k.cpu c = .running i → ¬ (k.pc i).off
  apart : ∀ c c' i, k.cpu c = .running i → k.cpu c' = .running i → c = c'
  state : ∀ i, (k.pc i).StateOk (k.state i)
  chan : ∀ i c, (k.pc i).waitsOn = some c → k.chan i = some c
  scan : ∀ j c rest t i t', k.pc j = .wakeScan c rest t → k.pc i = .asleep c t' →
    k.state i = .sleeping → i ∈ rest

variable {pr : Program (Fin n) σ τ χ κ} {k k' : Kernel n σ τ χ} {c : Nat} {i : Fin n}

/-! ### The holder of a lock -/

section Lock

variable {H ι α : Type*} {l l' : Option H}

/-- Party `x` moves, and the lock passes from `l` to `l'`. At its old place the party has the lock
if `p`, at its new one if `p'`. -/
def LockMove (x : H) (l l' : Option H) (p p' : Prop) : Prop :=
  l' = l ∧ (p' ↔ p) ∨ l = none ∧ l' = some x ∧ p' ∨ p ∧ l' = none ∧ ¬ p'

theorem LockMove.same {x : H} {p : Prop} : LockMove x l l p p := Or.inl ⟨rfl, Iff.rfl⟩

theorem LockMove.take {x : H} {p p' : Prop} (hl : l = none) (hp : p') :
    LockMove x l (some x) p p' :=
  Or.inr (Or.inl ⟨hl, rfl, hp⟩)

theorem LockMove.drop {x : H} {p p' : Prop} (hp : p) (hp' : ¬ p') : LockMove x l none p p' :=
  Or.inr (Or.inr ⟨hp, rfl, hp'⟩)

theorem LockMove.other {x y : H} {p p' : Prop} (h : LockMove x l l' p p') (hp : p → l = some x)
    (hy : y ≠ x) : l' = some y ↔ l = some y := by
  rcases h with ⟨heq, -⟩ | ⟨hold, heq, -⟩ | ⟨hold, heq, -⟩
  · rw [heq]
  · simp [hold, heq, hy.symm]
  · simp [hp hold, heq, hy.symm]

theorem LockMove.holder [DecidableEq ι] {f : ι → H} (hf : f.Injective) {P : α → Prop} {pc : ι → α}
    {i : ι} {p : α} (h : LockMove (f i) l l' (P (pc i)) (P p)) (hl : ∀ j, l = some (f j) ↔ P (pc j))
    (j : ι) : l' = some (f j) ↔ P (update pc i p j) := by
  rcases eq_or_ne j i with rfl | hj
  · rw [update_self]
    rcases h with ⟨heq, hiff⟩ | ⟨-, heq, hp⟩ | ⟨-, heq, hp⟩
    · rw [heq, hiff]
      exact hl j
    · simp [heq, hp]
    · simp [heq, hp]
  · rw [update_of_ne hj, ← hl j]
    exact h.other (hl i).mpr (hf.ne hj)

/-- `ptable.lock` is held by the process at such a place, or by the scheduler in its loop body. -/
structure Guarded (holds : α → Prop) (lock : Option (Holder n)) (pc : Fin n → α)
    (cpu : Nat → Cpu n) : Prop where
  process : ∀ i, lock = some (.process i) ↔ holds (pc i)
  sched : ∀ c, lock = some (.scheduler c) ↔ cpu c = .picking ∨ cpu c = .leaving

namespace Guarded

variable {holds : α → Prop} {lock lock' : Option (Holder n)} {pc : Fin n → α} {cpu : Nat → Cpu n}
  {c : Nat} {i : Fin n} {p : α}

theorem own (h : Guarded holds lock pc cpu)
    (hlock : LockMove (.process i) lock lock' (holds (pc i)) (holds p)) :
    Guarded holds lock' (update pc i p) cpu where
  process := hlock.holder (fun _ _ => Holder.process.inj) h.process
  sched c := (hlock.other (h.process i).mpr (by simp)).trans (h.sched c)

theorem leave (h : Guarded holds lock pc cpu) (hi : holds (pc i)) (hp : ¬ holds p) :
    Guarded holds (some (.scheduler c)) (update pc i p) (update cpu c .leaving) := by
  have hlock := (h.process i).mpr hi
  refine ⟨fun j => ?_, fun c' => ?_⟩
  · rcases eq_or_ne j i with rfl | hj
    · simp [hp]
    · rw [update_of_ne hj, ← h.process j, hlock]
      simp [hj.symm]
  · rcases eq_or_ne c' c with rfl | hc
    · simp
    · rw [update_of_ne hc, ← h.sched c', hlock]
      simp [hc.symm]

theorem enter (h : Guarded holds lock pc cpu) (hc : cpu c = .picking) (hp : holds p) :
    Guarded holds (some (.process i)) (update pc i p) (update cpu c (.running i)) := by
  have hlock := (h.sched c).mpr (Or.inl hc)
  refine ⟨fun j => ?_, fun c' => ?_⟩
  · rcases eq_or_ne j i with rfl | hj
    · simp [hp]
    · rw [update_of_ne hj, ← h.process j, hlock]
      simp [hj.symm]
  · rcases eq_or_ne c' c with rfl | hcc
    · simp
    · rw [update_of_ne hcc, ← h.sched c', hlock]
      simp [hcc.symm]

theorem schedule (h : Guarded holds none pc cpu) :
    Guarded holds (some (.scheduler c)) pc (update cpu c .picking) := by
  refine ⟨fun j => ?_, fun c' => ?_⟩
  · simp [← h.process j]
  · rcases eq_or_ne c' c with rfl | hc
    · simp
    · rw [update_of_ne hc, ← h.sched c']
      simp [hc.symm]

theorem unschedule (h : Guarded holds lock pc cpu) (hc : cpu c = .picking ∨ cpu c = .leaving) :
    Guarded holds none pc (update cpu c .idle) := by
  have hlock := (h.sched c).mpr hc
  refine ⟨fun j => ?_, fun c' => ?_⟩
  · simp [← h.process j, hlock]
  · rcases eq_or_ne c' c with rfl | hcc
    · simp
    · rw [update_of_ne hcc, ← h.sched c', hlock]
      simp [hcc.symm]

theorem killer_iff : Guarded holds (some .killer) pc cpu ↔ Guarded holds none pc cpu :=
  ⟨fun h => ⟨fun j => by simp [← h.process j], fun c => by simp [← h.sched c]⟩,
    fun h => ⟨fun j => by simp [← h.process j], fun c => by simp [← h.sched c]⟩⟩

end Guarded

end Lock

/-! ### The invariant -/

theorem boot_ok (d : σ) : Ok (Kernel.boot n d : Kernel n σ τ χ) := by
  refine ⟨?_, ?_, ?_, ?_, ?_, ?_, ?_, ?_⟩ <;>
    simp [Kernel.boot, Pc.holdsLk, Pc.holdsPtable, Pc.StateOk, Pc.waitsOn]

theorem Ok.guarded (h : Ok k) : Guarded Pc.holdsPtable k.ptable k.pc k.cpu := ⟨h.ptable, h.sched⟩

/-- A process sleeps only inside of `sleep`. -/
theorem Ok.sleeping (h : Ok k) (hs : k.state i = .sleeping) :
    (∃ c t, k.pc i = .sleepSched c t) ∨ ∃ c t, k.pc i = .asleep c t := by
  have hst := h.state i
  cases hpc : k.pc i <;> simp_all [Pc.StateOk]

theorem Ok.asleep (h : Ok k) (hpt : k.ptable ≠ some (.process i)) (hs : k.state i = .sleeping) :
    ∃ c t, k.pc i = .asleep c t := by
  refine (h.sleeping hs).resolve_left ?_
  rintro ⟨c, t, hpc⟩
  exact hpt ((h.ptable i).mpr (by simp [hpc, Pc.holdsPtable]))

section Change

variable {p₀ p : Pc n τ χ} {d : σ} {l : Option (Fin n)} {q : Option (Holder n)}
  {st : Fin n → ProcState} {ch : Fin n → Option χ} {f : Nat → Cpu n}

/-- Process `i` goes on. While it leaves the processor nobody else has `ptable.lock`. -/
theorem Ok.change (h : Ok k) (hst : ∀ j, j ≠ i → st j = k.state j)
    (hch : ∀ j, j ≠ i → ch j = k.chan j) (hlk : LockMove i k.lk l (k.pc i).holdsLk p.holdsLk)
    (hpt : Guarded Pc.holdsPtable q (update k.pc i p) f)
    (hcpu : ∀ c j, j ≠ i → f c = .running j → k.cpu c = .running j)
    (hrun : ∀ c, f c = .running i → ¬ p.off)
    (hapart : ∀ c c', f c = .running i → f c' = .running i → c = c') (hstate : p.StateOk (st i))
    (hchan : ∀ c, p.waitsOn = some c → ch i = some c)
    (hscan : ∀ c rest t, p = .wakeScan c rest t → ∀ j t', k.pc j = .asleep c t' → k.state j =
      .sleeping → j ∈ rest) (hoff : p.off → ∀ j, j ≠ i → ¬ (k.pc j).holdsPtable) :
    Ok ⟨d, l, q, st, ch, k.killed, update k.pc i p, f⟩ := by
  have hself : update k.pc i p i = p := update_self _ _ _
  have hother : ∀ j, j ≠ i → update k.pc i p j = k.pc j := fun j hj => update_of_ne hj _ _
  refine ⟨hlk.holder (f := id) (fun _ _ => id) h.lk, hpt.process, hpt.sched, ?_, ?_, ?_, ?_, ?_⟩
  · intro c j hj
    rcases eq_or_ne j i with rfl | hji
    · simpa only [hself] using hrun c hj
    · simpa only [hother j hji] using h.running c j (hcpu c j hji hj)
  · intro c c' j hj hj'
    rcases eq_or_ne j i with rfl | hji
    · exact hapart c c' hj hj'
    · exact h.apart c c' j (hcpu c j hji hj) (hcpu c' j hji hj')
  · intro j
    rcases eq_or_ne j i with rfl | hj
    · simpa only [hself] using hstate
    · simpa only [hother j hj, hst j hj] using h.state j
  · intro j c
    rcases eq_or_ne j i with rfl | hj
    · simpa only [hself] using hchan c
    · simpa only [hother j hj, hch j hj] using h.chan j c
  · intro j c rest t x t' hj hx hsl
    rcases eq_or_ne x i with rfl | hxi
    · simp only [hself] at hx
      have hjx : j ≠ x := by
        rintro rfl
        simp [hx] at hj
      simp only [hother j hjx] at hj
      exact absurd (by rw [hj]; trivial) (hoff (by rw [hx]; trivial) j hjx)
    · simp only [hother x hxi, hst x hxi] at hx hsl
      rcases eq_or_ne j i with rfl | hji
      · exact hscan c rest t (by simpa only [hself] using hj) x t' hx hsl
      · exact h.scan j c rest t x t' (by simpa only [hother j hji] using hj) hx hsl

/-- A process on a processor goes from `p₀` to `p`. -/
theorem Ok.own (h : Ok k) (hi : k.pc i = p₀) (hst : ∀ j, j ≠ i → st j = k.state j)
    (hch : ∀ j, j ≠ i → ch j = k.chan j) (hlk : LockMove i k.lk l p₀.holdsLk p.holdsLk)
    (hpt : LockMove (.process i) k.ptable q p₀.holdsPtable p.holdsPtable) (hoff : ¬ p.off)
    (hstate : p.StateOk (st i)) (hchan : ∀ c, p.waitsOn = some c → ch i = some c)
    (hscan : ∀ c rest t, p = .wakeScan c rest t → ∀ j t', k.pc j = .asleep c t' → k.state j =
      .sleeping → j ∈ rest) : Ok ⟨d, l, q, st, ch, k.killed, update k.pc i p, k.cpu⟩ := by
  subst hi
  exact h.change hst hch hlk (h.guarded.own hpt) (fun _ _ _ => id) (fun _ _ => hoff)
    (fun c c' => h.apart c c' i) hstate hchan hscan (absurd · hoff)

/-- A step that changes neither a state nor a channel. -/
theorem Ok.moved (h : Ok k) (hi : k.pc i = p₀) (hlk : LockMove i k.lk l p₀.holdsLk p.holdsLk)
    (hpt : LockMove (.process i) k.ptable q p₀.holdsPtable p.holdsPtable) (hoff : ¬ p.off)
    (hstate : p₀.StateOk (k.state i) → p.StateOk (k.state i)) (hchan : p.waitsOn = none)
    (hscan : ∀ c rest t, p = .wakeScan c rest t → ∀ j t', k.pc j = .asleep c t' → k.state j =
      .sleeping → j ∈ rest) : Ok ⟨d, l, q, k.state, k.chan, k.killed, update k.pc i p, k.cpu⟩ :=
  h.own hi (fun _ _ => rfl) (fun _ _ => rfl) hlk hpt hoff (hstate (hi ▸ h.state i))
    (by simp [hchan]) hscan

end Change

/-- A sleeper is made RUNNABLE by somebody else, who holds `ptable.lock`. -/
theorem Ok.wake (h : Ok k) (hpt : k.ptable ≠ some (.process i)) (hs : k.state i = .sleeping) :
    Ok (k.setState i .runnable) := by
  obtain ⟨c, t, hpc⟩ := h.asleep hpt hs
  refine ⟨h.lk, h.ptable, h.sched, h.running, h.apart, ?_, h.chan, ?_⟩
  · intro j
    rcases eq_or_ne j i with rfl | hj
    · simp [Kernel.setState, hpc, Pc.StateOk]
    · simpa [Kernel.setState, hj] using h.state j
  · intro j c' rest t' l tl hj hl hsl
    rcases eq_or_ne l i with rfl | hli
    · simp [Kernel.setState] at hsl
    · simp only [Kernel.setState, update_of_ne hli] at hsl
      exact h.scan j c' rest t' l tl hj hl hsl

theorem running_of_update {f : Nat → Cpu n} {x : Cpu n} {c' : Nat}
    (hi : update f c x c' = .running i) (hx : x ≠ .running i) : c' ≠ c ∧ f c' = .running i := by
  rcases eq_or_ne c' c with rfl | hc
  · exact absurd ((update_self c' x f).symm.trans hi) hx
  · exact ⟨hc, by rwa [update_of_ne hc] at hi⟩

/-- `sched` gives the processor and `ptable.lock` to the scheduler. -/
theorem Ok.swtch (h : Ok k) (hc : k.cpu c = .running i) {p₀ p : Pc n τ χ} (hi : k.pc i = p₀)
    (hold : p₀.holdsPtable) (hlk : ¬ p₀.holdsLk) (hoff : p.off)
    (hstate : p₀.StateOk (k.state i) → p.StateOk (k.state i)) (hchan : p.waitsOn = p₀.waitsOn) :
    Ok { (k.goto i p).setCpu c .leaving with ptable := some (.scheduler c) } := by
  subst hi
  have hp : ¬ p.holdsLk ∧ ¬ p.holdsPtable ∧ ∀ c rest t, p ≠ .wakeScan c rest t := by
    clear * - hoff
    cases p <;> simp_all [Pc.off, Pc.holdsLk, Pc.holdsPtable]
  have hgone : ∀ c', update k.cpu c .leaving c' ≠ .running i := by
    intro c' hc'
    obtain ⟨hne, hc'⟩ := running_of_update hc' nofun
    exact hne (h.apart c' c i hc' hc)
  refine h.change (fun _ _ => rfl) (fun _ _ => rfl) (Or.inl ⟨rfl, iff_of_false hp.1 hlk⟩)
    (h.guarded.leave hold hp.2.1) (fun c' j _ hj => (running_of_update hj nofun).2)
    (fun c' hc' => absurd hc' (hgone c')) (fun c' _ hc' => absurd hc' (hgone c'))
    (hstate (h.state i)) (fun ch hw => h.chan i ch (hchan ▸ hw))
    (fun ch rest t hp' => absurd hp' (hp.2.2 ch rest t)) ?_
  intro _ j hj hj'
  have := (h.ptable j).mpr hj'
  simp [(h.ptable i).mpr hold, hj.symm] at this

/-- `ptable.lock` is taken or released outside of the processes. -/
theorem Ok.others (h : Ok k) {q : Option (Holder n)} {f : Nat → Cpu n}
    (hpt : Guarded Pc.holdsPtable q k.pc f)
    (hrun : ∀ c i, f c = .running i → k.cpu c = .running i) :
    Ok { k with ptable := q, cpu := f } :=
  ⟨h.lk, hpt.process, hpt.sched, fun c i hi => h.running c i (hrun c i hi),
    fun c c' i hi hi' => h.apart c c' i (hrun c i hi) (hrun c' i hi'), h.state, h.chan, h.scan⟩

/-- The scheduler of `c` switches to a process. -/
theorem Ok.dispatch (h : Ok k) (hc : k.cpu c = .picking) (hs : k.state i = .runnable) :
    Ok { ((k.setState i .running).goto i (k.pc i).resumed).setCpu c (.running i) with
      ptable := some (.process i) } := by
  have hpt := (h.sched c).mpr (Or.inl hc)
  obtain ⟨hoff, hlk⟩ : (k.pc i).off ∧ ¬ (k.pc i).holdsLk := by
    have hst := h.state i
    have hnot := h.ptable i
    rw [hs] at hst
    cases hpc : k.pc i <;>
      simp_all [Pc.StateOk, Pc.off, Pc.holdsLk, Pc.holdsPtable]
  obtain ⟨hrlk, hrpt, hroff, hrst, hrch, hrscan⟩ : ¬ (k.pc i).resumed.holdsLk ∧
      (k.pc i).resumed.holdsPtable ∧ ¬ (k.pc i).resumed.off ∧ (k.pc i).resumed.StateOk .running ∧
      (k.pc i).resumed.waitsOn = none ∧ ∀ c rest t, (k.pc i).resumed ≠ .wakeScan c rest t := by
    cases hpc : k.pc i <;>
      simp_all [Pc.resumed, Pc.off, Pc.holdsLk, Pc.holdsPtable, Pc.StateOk, Pc.waitsOn]
  -- nobody ran `i` before
  have hnew : ∀ c', update k.cpu c (.running i) c' = .running i → c' = c := by
    intro c' hc'
    by_contra hne
    rw [update_of_ne hne] at hc'
    exact h.running c' i hc' hoff
  refine h.change (fun j hj => update_of_ne hj _ _) (fun _ _ => rfl)
    (Or.inl ⟨rfl, iff_of_false hrlk hlk⟩) (h.guarded.enter hc hrpt)
    (fun c' j hj hc' => (running_of_update hc' (by simpa using hj.symm)).2) (fun _ _ => hroff)
    (fun c₁ c₂ h₁ h₂ => (hnew c₁ h₁).trans (hnew c₂ h₂).symm)
    (by simpa [Kernel.goto, Kernel.setState, Kernel.setCpu] using hrst)
    (by simp [hrch]) (fun ch rest t hp => absurd hp (hrscan ch rest t)) (absurd · hroff)

variable [DecidableEq χ]

/-- One slot in the loop of `wakeup1`: whoever still sleeps on the channel comes later. -/
theorem Ok.scanned (h : Ok k) {ch : χ} {p : Fin n} {rest : List (Fin n)} {t : τ}
    (hpc : k.pc i = .wakeScan ch (p :: rest) t) {k₁ : Kernel n σ τ χ}
    (hk₁ : k₁ = if k.state p = .sleeping ∧ k.chan p = some ch then k.setState p .runnable else k) :
    Ok k₁ ∧ k₁.pc i = .wakeScan ch (p :: rest) t ∧
      ∀ j tj, k₁.pc j = .asleep ch tj → k₁.state j = .sleeping → j ∈ rest := by
  have hpt : k.ptable = some (.process i) := (h.ptable i).mpr (by rw [hpc]; trivial)
  have hrun : k.state i = .running := by
    have := h.state i
    rwa [hpc] at this
  have hlater : ∀ j tj, k.pc j = .asleep ch tj → k.state j = .sleeping → j = p ∨ j ∈ rest :=
    fun j tj hj hsl => List.mem_cons.mp (h.scan i ch (p :: rest) t j tj hpc hj hsl)
  split_ifs at hk₁ with hcond
  · have hpi : p ≠ i := by
      rintro rfl
      simp [hrun] at hcond
    subst hk₁
    refine ⟨h.wake (by simp [hpt, hpi.symm]) hcond.1, hpc, ?_⟩
    intro j tj hj hsl
    rcases eq_or_ne j p with rfl | hjp
    · simp [Kernel.setState] at hsl
    · simp only [Kernel.setState, update_of_ne hjp] at hsl
      exact (hlater j tj hj hsl).resolve_left hjp
  · subst hk₁
    refine ⟨h, hpc, ?_⟩
    intro j tj hj hsl
    refine (hlater j tj hj hsl).resolve_left ?_
    rintro rfl
    exact hcond ⟨hsl, h.chan j ch (by rw [hj]; rfl)⟩

theorem exec_ok (h : Ok k) (hc : k.cpu c = .running i) (he : exec pr c i k = some k') : Ok k' := by
  have hst := h.state i
  cases hpc : k.pc i with simp only [exec, hpc, Kernel.lockPtable, reduceCtorEq] at he
  | enter t =>
    split_ifs at he with hfree
    cases he
    exact h.moved hpc (.take hfree trivial) .same id id rfl nofun
  | inside t =>
    split at he <;> cases he
    · exact h.moved hpc .same .same id id rfl nofun
    · exact h.moved hpc .same .same id id rfl nofun
    · exact h.moved hpc .same .same id id rfl nofun
    · exact h.moved hpc .same .same id id rfl nofun
    · exact h.moved hpc (.drop trivial id) .same id id rfl nofun
  | wakeAcquire ch t =>
    split_ifs at he with hfree
    cases he
    refine h.moved hpc .same (.take hfree trivial) id id rfl ?_
    rintro _ _ _ ⟨⟩ j _ _ _
    exact List.mem_finRange j
  | wakeScan ch rest t =>
    cases rest with
    | nil =>
      cases he
      exact h.moved hpc .same (.drop trivial id) id id rfl nofun
    | cons p rest =>
      cases he
      obtain ⟨hk₁, hpc₁, hscan₁⟩ := h.scanned hpc rfl
      refine hk₁.moved hpc₁ .same .same id id rfl ?_
      rintro _ _ _ ⟨⟩
      exact hscan₁
  | sleepAcquire ch t | yieldAcquire =>
    split_ifs at he with hfree
    cases he
    exact h.moved hpc .same (.take hfree trivial) id id rfl nofun
  | sleepRelease ch t =>
    cases he
    exact h.moved hpc (.drop trivial id) .same id id rfl nofun
  | sleepChan ch t =>
    rw [hpc] at hst
    cases he
    exact h.own hpc (fun _ _ => rfl) (fun j hj => update_of_ne hj _ _) .same .same id hst
      (fun c hc => (update_self _ _ _).trans hc) nofun
  | sleepState ch t =>
    cases he
    have hchan := h.chan i ch (by rw [hpc]; rfl)
    exact h.own hpc (fun j hj => update_of_ne hj _ _) (fun _ _ => rfl) .same .same id
      (update_self _ _ _) (fun c hc => hchan.trans hc) nofun
  | sleepSched ch t =>
    cases he
    exact h.swtch hc hpc trivial id trivial Or.inl rfl
  | sleepTidy ch t =>
    rw [hpc] at hst
    cases he
    exact h.own hpc (fun _ _ => rfl) (fun j hj => update_of_ne hj _ _) .same .same id hst nofun nofun
  | sleepUnlock t | yieldUnlock =>
    cases he
    exact h.moved hpc .same (.drop trivial id) id id rfl nofun
  | yieldState =>
    cases he
    exact h.own hpc (fun j hj => update_of_ne hj _ _) (fun _ _ => rfl) .same .same id
      (update_self _ _ _) nofun nofun
  | yieldSched =>
    cases he
    exact h.swtch hc hpc trivial id trivial id rfl

theorem step_start {call : κ} (h : step pr k (.start c call) = some k') : ∃ i,
    k.cpu c = .running i ∧ k.pc i = .user ∧ k' = k.goto i (.enter (pr.start i call)) := by
  simp only [step] at h
  split at h
  · next i hi =>
    split at h
    · next hpc => exact ⟨i, hi, hpc, (Option.some.inj h).symm⟩
    · cases h
  · cases h

theorem step_yield (h : step pr k (.yield c) = some k') :
    ∃ i, k.cpu c = .running i ∧ k.pc i = .user ∧ k' = k.goto i .yieldAcquire := by
  simp only [step] at h
  split at h
  · next i hi =>
    split at h
    · next hpc => exact ⟨i, hi, hpc, (Option.some.inj h).symm⟩
    · cases h
  · cases h

theorem step_exec (h : step pr k (.exec c) = some k') :
    ∃ i, k.cpu c = .running i ∧ exec pr c i k = some k' := by
  simp only [step] at h
  split at h
  · next i hi => exact ⟨i, hi, h⟩
  · cases h

theorem step_ok {e : Event n κ} (h : Ok k) (hs : step pr k e = some k') : Ok k' := by
  cases e with
  | start c call =>
    obtain ⟨i, -, hpc, rfl⟩ := step_start hs
    exact h.moved hpc .same .same id id rfl nofun
  | yield c =>
    obtain ⟨i, -, hpc, rfl⟩ := step_yield hs
    exact h.moved hpc .same .same id id rfl nofun
  | exec c =>
    obtain ⟨i, hi, he⟩ := step_exec hs
    exact exec_ok h hi he
  | schedule c =>
    simp only [step] at hs
    split_ifs at hs with hcond
    cases hs
    have hg := h.guarded
    rw [hcond.2] at hg
    exact h.others hg.schedule (fun _ _ hi => (running_of_update hi nofun).2)
  | dispatch c i =>
    simp only [step] at hs
    split_ifs at hs with hcond
    cases hs
    exact h.dispatch hcond.1 hcond.2
  | unschedule c =>
    simp only [step] at hs
    split_ifs at hs with hcond
    cases hs
    exact h.others (h.guarded.unschedule hcond) (fun _ _ hi => (running_of_update hi nofun).2)
  | killLock =>
    simp only [step] at hs
    split_ifs at hs with hfree
    cases hs
    have hg := h.guarded
    rw [hfree] at hg
    exact h.others (Guarded.killer_iff.mpr hg) (fun _ _ hi => hi)
  | kill i =>
    simp only [step] at hs
    split_ifs at hs with hpt hsl
    · cases hs
      have hw := h.wake (by simp [hpt]) hsl
      exact ⟨hw.lk, hw.ptable, hw.sched, hw.running, hw.apart, hw.state, hw.chan, hw.scan⟩
    · cases hs
      have hsame : update k.state i (k.state i) = k.state := update_eq_self i _
      simp only [hsame]
      exact ⟨h.lk, h.ptable, h.sched, h.running, h.apart, h.state, h.chan, h.scan⟩
  | killUnlock =>
    simp only [step] at hs
    split_ifs at hs with hpt
    cases hs
    have hg := h.guarded
    rw [hpt] at hg
    exact h.others (Guarded.killer_iff.mp hg) (fun _ _ hi => hi)

end Xv6.Kern
