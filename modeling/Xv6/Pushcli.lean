import Mathlib.Data.Fintype.Basic
import Mathlib.Logic.Function.Basic
import Xv6.Run

/-!
# Interrupts and kernel threads

`pushcli` and `popcli` with the spinlocks of `spinlock.c`, and `sched` and the loop of `scheduler` of
`proc.c`, as far as they turn interrupts on and off. CPUs take turns in any order. What runs on a CPU
is the kernel thread of a process or the CPU's own scheduler, and either may take and release locks in
any order. A kernel thread that has not run yet starts in `forkret`.

For each kernel thread the machine also counts how many `pushcli` are outstanding and remembers the
interrupt flag that the first of them found. The code has no such record: it keeps one count and one
flag for each CPU.
-/

namespace Xv6.Intr

open Function

structure Cpu where
  ncli : Int
  intena : Bool
  /-- `FL_IF` in its flags. -/
  flag : Bool

structure Spinlock (C : Type) where
  locked : Bool
  cpu : Option C

def pushcli (u : Cpu) : Cpu :=
  { ncli := u.ncli + 1, intena := if u.ncli = 0 then u.flag else u.intena, flag := false }

def popcli (u : Cpu) : Except String Cpu :=
  if u.flag then .error "popcli - interruptible"
  else if u.ncli - 1 < 0 then .error "popcli"
  else .ok { u with ncli := u.ncli - 1, flag := decide (u.ncli - 1 = 0) && u.intena }

section Locks

variable {C : Type} [DecidableEq C] (lk : Spinlock C) (c : C) (u : Cpu)

def holding : Except String (Bool × Cpu) := do
  let u ← popcli (pushcli u)
  .ok (lk.locked && lk.cpu == some c, u)

/-- `acquire` up to the loop in which it waits. -/
def acquire : Except String Cpu := do
  let (r, u) ← holding lk c (pushcli u)
  if r then .error "acquire" else .ok u

def release : Except String (Spinlock C × Cpu) := do
  let (r, u) ← holding lk c u
  if !r then .error "release"
  else
    let u ← popcli u
    .ok (⟨false, none⟩, u)

/-- `sched` up to `swtch`; its callers have changed the state of the process. -/
def sched : Except String Cpu := do
  let (r, u) ← holding lk c u
  if !r then .error "sched ptable.lock"
  else if u.ncli ≠ 1 then .error "sched locks"
  else if u.flag then .error "sched interruptible"
  else .ok u

end Locks

/-- Where the loop of `scheduler` is. -/
inductive Phase
  /-- Before `sti`, or not in the loop yet. -/
  | top
  | enabled
  /-- In the handler of an interrupt that came after `sti`. -/
  | handler
  /-- In `acquire(&ptable.lock)` or after it. -/
  | locked
  /-- A process has switched back. -/
  | back
  deriving DecidableEq

structure Machine (C T L : Type) where
  cpu : C → Cpu
  lock : L → Spinlock C
  /-- The lock that a CPU waits for in `acquire`. -/
  spin : C → Option L
  /-- The process on a CPU; the scheduler runs when there is none. -/
  proc : C → Option T
  phase : C → Phase
  /-- What `sched` keeps on the stack of a process; nothing before its first run. -/
  intena : T → Option Bool
  count : T ⊕ C → Nat
  first : T ⊕ C → Bool

inductive Act (T L : Type)
  | pushcli
  | popcli
  | acquire (l : L)
  /-- The `xchg` that finds the lock free. -/
  | xchg
  | release (l : L)
  /-- The flag changes without `popcli`, as in a trap or a return from one. -/
  | setFlag (b : Bool)
  | sched
  /-- `sti` of the scheduler. -/
  | sti
  | trap
  | iret
  /-- `swtch` of the scheduler, after `switchuvm`. -/
  | swtch (t : T)
  deriving DecidableEq

variable {C T L : Type} [DecidableEq C] [DecidableEq T]

namespace Machine

variable (m : Machine C T L) (c : C)

def running : T ⊕ C := (m.proc c).elim (.inr c) .inl

def set (u : Cpu) (n : Nat) (b : Bool) : Machine C T L :=
  { m with
    cpu := update m.cpu c u
    count := update m.count (m.running c) n
    first := update m.first (m.running c) b }

/-- After a `pushcli` of what runs on `c`. -/
def push (u : Cpu) : Machine C T L :=
  m.set c u (m.count (m.running c) + 1)
    (if m.count (m.running c) = 0 then (m.cpu c).flag else m.first (m.running c))

/-- After a `popcli` of what runs on `c`. -/
def pop (u : Cpu) : Machine C T L := m.set c u (m.count (m.running c) - 1) (m.first (m.running c))

/-- Only code that has no `pushcli` outstanding changes the flag otherwise. -/
def setFlag (b : Bool) : Option (Machine C T L) :=
  if m.count (m.running c) = 0 then
    some (m.set c { m.cpu c with flag := b } 0 (m.first (m.running c)))
  else none

/-- CPU `c` goes on with the scheduler or with another process. -/
def switch (u : Cpu) (o : Option T) (i : T → Option Bool) : Machine C T L :=
  { m with cpu := update m.cpu c u, proc := update m.proc c o, intena := i }

/-- What the code that runs on `c` does with the machine. -/
def act (ptable : L) [Fintype C] [DecidableEq L] : Act T L → Option (Machine C T L)
  | .pushcli => some (m.push c (Intr.pushcli (m.cpu c)))
  | .popcli =>
    if 0 < m.count (m.running c) then (Intr.popcli (m.cpu c)).toOption.map (m.pop c) else none
  | .acquire l => (Intr.acquire (m.lock l) c (m.cpu c)).toOption.map fun u =>
    { m.push c u with spin := update m.spin c (some l) }
  | .xchg => (m.spin c).bind fun l =>
    if (m.lock l).locked then none
    else some { m with lock := update m.lock l ⟨true, some c⟩, spin := update m.spin c none }
  | .release l =>
    if 0 < m.count (m.running c) then
      (Intr.release (m.lock l) c (m.cpu c)).toOption.map fun r =>
        { m.pop c r.2 with lock := update m.lock l r.1 }
    else none
  | .setFlag b => m.setFlag c b
  | .sti | .iret => m.setFlag c true
  | .trap => m.setFlag c false
  | .sched => (m.proc c).bind fun t => (Intr.sched (m.lock ptable) c (m.cpu c)).toOption.map fun u =>
    m.switch c u none (update m.intena t (some u.intena))
  | .swtch t =>
    if ∀ c', m.proc c' ≠ some t then (Intr.popcli (Intr.pushcli (m.cpu c))).toOption.map fun u =>
      m.switch c { u with intena := (m.intena t).getD u.intena } (some t) m.intena
    else none

end Machine

/-- Code of any kind runs there, not only the loop. -/
def Phase.plain : Phase → Bool
  | .top | .handler => true
  | _ => false

/-- What the scheduler may do, and where it is then. -/
def Phase.next [DecidableEq L] (ptable : L) (p : Phase) : Act T L → Option Phase
  | .pushcli | .popcli | .setFlag _ => if p.plain then some p else none
  | .acquire l =>
    if p.plain then some p else if p = .enabled ∧ l = ptable then some .locked else none
  | .xchg => some p
  | .release l =>
    if p.plain then some p
    else if (p = .locked ∨ p = .back) ∧ l = ptable then some .top else none
  | .sched => none
  | .sti => if p = .top then some .enabled else none
  | .trap => if p = .enabled then some .handler else none
  | .iret => if p = .handler then some .enabled else none
  | .swtch _ => if p = .locked then some .locked else none

namespace Machine

variable [Fintype C] [DecidableEq L]

def next (ptable : L) (m : Machine C T L) (c : C) (a : Act T L) : Option Phase :=
  match m.proc c, a with
  | none, a => (m.phase c).next ptable a
  | some _, .sched => some .back
  | some _, .sti | some _, .trap | some _, .iret | some _, .swtch _ => none
  | some _, _ => some (m.phase c)

/-- A step of CPU `e.1`. A CPU that waits for a lock does nothing else. -/
def step (ptable : L) (m : Machine C T L) (e : C × Act T L) : Option (Machine C T L) :=
  if (m.spin e.1).isSome = decide (e.2 = .xchg) then
    (m.next ptable e.1 e.2).bind fun p => (m.act e.1 ptable e.2).map fun m' =>
      { m' with phase := update m.phase e.1 p }
  else none

/-- Interrupts are off, no lock is taken, and no process has run. -/
def boot : Machine C T L where
  cpu _ := ⟨0, false, false⟩
  lock _ := ⟨false, none⟩
  spin _ := none
  proc _ := none
  phase _ := .top
  intena _ := none
  count k := k.elim (fun _ => 1) (fun _ => 0)
  first _ := true

end Machine

/-! ### One CPU -/

/-- The CPU is as after `n` calls of `pushcli`, of which the first found the flag `b`. -/
structure Nested (u : Cpu) (n : Nat) (b : Bool) : Prop where
  ncli : u.ncli = n
  off : 0 < n → u.flag = false
  intena : 0 < n → u.intena = b

variable {u u' : Cpu} {n : Nat} {b : Bool} {lk lk' : Spinlock C} {c : C}

namespace Nested

theorem pushcli (h : Nested u n b) : Nested (pushcli u) (n + 1) (if n = 0 then u.flag else b) := by
  refine ⟨by simp [Intr.pushcli, h.ncli], fun _ => rfl, fun _ => ?_⟩
  by_cases hn : n = 0
  · simp [Intr.pushcli, h.ncli, hn]
  · simp [Intr.pushcli, h.ncli, hn, h.intena (Nat.pos_of_ne_zero hn)]

theorem popcli (h : Nested u (n + 1) b) : ∃ u', Intr.popcli u = .ok u' ∧ Nested u' n b ∧
    (n = 0 → u'.flag = b) := by
  have hoff := h.off (Nat.succ_pos n)
  have hin := h.intena (Nat.succ_pos n)
  have hn : u.ncli - 1 = n := by
    rw [h.ncli]
    push_cast
    omega
  refine ⟨⟨n, u.intena, decide ((n : Int) = 0) && u.intena⟩, ?_, ⟨rfl, fun hpos => ?_, fun _ => hin⟩,
    fun h0 => ?_⟩
  · simp [Intr.popcli, hoff, hn]
  · have : n ≠ 0 := Nat.ne_of_gt hpos
    simp [this]
  · simp [h0, hin]

/-- A pair of `pushcli` and `popcli` changes nothing inside another one. -/
theorem pair (h : Nested u (n + 1) b) : Intr.popcli (Intr.pushcli u) = .ok u := by
  have hoff := h.off (Nat.succ_pos n)
  obtain ⟨ncli, intena, flag⟩ := u
  have hn : ncli = n + 1 := h.ncli
  have hne : (n : Int) + 1 ≠ 0 := by omega
  simp only at hoff
  subst hn hoff
  simp [Intr.popcli, Intr.pushcli, hne]
  omega

theorem acquire (h : Nested u n b) (hu : Intr.acquire lk c u = .ok u') : u' = Intr.pushcli u := by
  unfold Intr.acquire holding at hu
  rw [h.pushcli.pair] at hu
  simp only [bind, Except.bind] at hu
  split_ifs at hu
  exact (Except.ok.inj hu).symm

theorem release (h : Nested u (n + 1) b) {r : Spinlock C × Cpu}
    (hr : Intr.release lk c u = .ok r) : Nested r.2 n b ∧ (n = 0 → r.2.flag = b) := by
  obtain ⟨u', hu', hnested⟩ := h.popcli
  unfold Intr.release holding at hr
  rw [h.pair] at hr
  simp only [bind, Except.bind, hu'] at hr
  split_ifs at hr
  cases hr
  exact hnested

theorem sched (h : Nested u n b) (hu : Intr.sched lk c u = .ok u') : u' = u ∧ n = 1 := by
  unfold Intr.sched holding at hu
  cases n with
  | zero =>
    -- the lock's `pushcli` is the only one, and `sched` finds none after it
    obtain ⟨v, hv, hnested, -⟩ := h.pushcli.popcli
    have hncli := hnested.ncli
    simp only [hv, bind, Except.bind, hncli] at hu
    split_ifs at hu
    simp at *
  | succ n =>
    have hncli := h.ncli
    simp only [h.pair, bind, Except.bind] at hu
    split_ifs at hu
    cases hu
    refine ⟨rfl, ?_⟩
    omega

end Nested

/-! ### The machine -/

/-- What the scheduler relies on: it takes the lock after `sti`, so it finds interrupts on. -/
def Phase.Holds (u : Cpu) (n : Nat) : Phase → Prop
  | .enabled => n = 0 ∧ u.flag = true
  | .locked => n = 1 ∧ u.intena = true
  | _ => True

/-- What holds of a CPU; `b` is the flag that the first `pushcli` of a process found. -/
structure Good (proc : Option T) (p : Phase) (u : Cpu) (n : Nat) (b : Bool) : Prop where
  nested : ∃ b', Nested u n b' ∧ (proc ≠ none → b' = b)
  sched : proc = none → p.Holds u n

/-- A process that does not run has one `pushcli` outstanding, that of `ptable.lock`. -/
structure Inv (m : Machine C T L) : Prop where
  cpu : ∀ c, Good (m.proc c) (m.phase c) (m.cpu c) (m.count (m.running c)) (m.first (m.running c))
  waits : ∀ c, m.proc c ≠ none → m.count (.inr c) = 1
  away : ∀ t, (∀ c, m.proc c ≠ some t) →
    m.count (.inl t) = 1 ∧ (m.intena t).getD true = m.first (.inl t)
  inj : ∀ c c' t, m.proc c = some t → m.proc c' = some t → c = c'

section

omit [DecidableEq C] [DecidableEq T]

variable {m : Machine C T L} {t : T}

theorem boot_inv : Inv (Machine.boot : Machine C T L) :=
  ⟨fun _ => ⟨⟨true, ⟨rfl, nofun, nofun⟩, nofun⟩, fun _ => trivial⟩, fun _ hc => absurd rfl hc,
    fun _ _ => ⟨rfl, rfl⟩, nofun⟩

theorem running_eq_inl : m.running c = .inl t ↔ m.proc c = some t := by
  unfold Machine.running
  cases m.proc c <;> simp

theorem running_eq_inr {c' : C} : m.running c = .inr c' ↔ c = c' ∧ m.proc c = none := by
  unfold Machine.running
  cases m.proc c <;> simp

theorem Inv.running_inj (h : Inv m) {c' : C} (heq : m.running c' = m.running c) : c' = c := by
  cases hk : m.running c with
  | inl t => exact h.inj c' c t (running_eq_inl.mp (heq.trans hk)) (running_eq_inl.mp hk)
  | inr d => exact (running_eq_inr.mp (heq.trans hk)).1.trans (running_eq_inr.mp hk).1.symm

end

variable {m m' : Machine C T L} {p p' : Phase} {ptable : L} {a : Act T L} {t : T}

/-- The process on `c` or the scheduler does something that stays on `c`. -/
theorem Inv.set (h : Inv m) (hg : Good (m.proc c) p u n b) (lock : L → Spinlock C)
    (spin : C → Option L) :
    Inv { m.set c u n b with lock := lock, spin := spin, phase := update m.phase c p } := by
  refine ⟨?_, ?_, ?_, h.inj⟩
  · intro c'
    change Good (m.proc c') (update m.phase c p c') (update m.cpu c u c')
      (update m.count (m.running c) n (m.running c')) (update m.first (m.running c) b (m.running c'))
    by_cases hc : c' = c
    · subst hc
      simpa only [update_self] using hg
    · have hne : m.running c' ≠ m.running c := fun heq => hc (h.running_inj heq)
      rw [update_of_ne hc, update_of_ne hc, update_of_ne hne, update_of_ne hne]
      exact h.cpu c'
  · intro c' hc'
    refine (update_of_ne ?_ _ _).trans (h.waits c' hc')
    intro heq
    obtain ⟨rfl, hnone⟩ := running_eq_inr.mp heq.symm
    exact hc' hnone
  · intro t ht
    have hne : Sum.inl t ≠ m.running c := fun heq => ht c (running_eq_inl.mp heq.symm)
    have haway := h.away t ht
    exact ⟨(update_of_ne hne _ _).trans haway.1, haway.2.trans (update_of_ne hne _ _).symm⟩

theorem Phase.holds_of_plain (h : (if p.plain then some p else none) = some p') :
    p'.Holds u n := by
  cases p <;> cases h <;> trivial

/-- A step on `c` that is no switch. When it takes the last `pushcli` of a process back, the flag is
what the first one found. -/
def Local (m : Machine C T L) (c : C) (p : Phase) (m' : Machine C T L) : Prop :=
  ∃ u n b lock spin, m' = { m.set c u n b with lock := lock, spin := spin } ∧
    Good (m.proc c) p u n b ∧
    (m.proc c ≠ none → 0 < m.count (m.running c) → n = 0 → u.flag = m.first (m.running c))

theorem ok_of_toOption {α : Type} {x : Except String α} {a : α} (h : x.toOption = some a) :
    x = .ok a := by
  cases x <;> simp_all [Except.toOption]

namespace Local

variable (h : Inv m)
include h

theorem push (spin : C → Option L)
    (hp : m.proc c = none → p.Holds (pushcli (m.cpu c)) (m.count (m.running c) + 1)) :
    Local m c p { m.push c (pushcli (m.cpu c)) with spin := spin } := by
  obtain ⟨b, hn, hb⟩ := (h.cpu c).nested
  exact ⟨_, _, _, m.lock, spin, rfl, ⟨⟨_, hn.pushcli, fun hne => by rw [hb hne]⟩, hp⟩,
    fun _ _ h0 => by omega⟩

theorem pop (lock : L → Spinlock C) (hpos : 0 < m.count (m.running c))
    (hu : ∀ n b, Nested (m.cpu c) (n + 1) b → Nested u n b ∧ (n = 0 → u.flag = b))
    (hp : m.proc c = none → p.Holds u (m.count (m.running c) - 1)) :
    Local m c p { m.pop c u with lock := lock } := by
  obtain ⟨b, hn, hb⟩ := (h.cpu c).nested
  have hpop := hu (m.count (m.running c) - 1) b (by rwa [Nat.sub_add_cancel hpos])
  exact ⟨u, _, _, lock, m.spin, rfl, ⟨⟨b, hpop.1, hb⟩, hp⟩,
    fun hne _ h0 => (hpop.2 h0).trans (hb hne)⟩

theorem setFlag (hact : m.setFlag c b = some m')
    (hp : m.proc c = none → p.Holds { m.cpu c with flag := b } 0) : Local m c p m' := by
  obtain ⟨b₀, hn, -⟩ := (h.cpu c).nested
  unfold Machine.setFlag at hact
  split_ifs at hact with h0
  cases hact
  have hncli : (m.cpu c).ncli = 0 := by rw [hn.ncli, h0]; rfl
  exact ⟨_, _, _, m.lock, m.spin, rfl, ⟨⟨_, ⟨hncli, nofun, nofun⟩, fun _ => rfl⟩, hp⟩,
    fun _ hpos => absurd h0 (Nat.ne_of_gt hpos)⟩

theorem of_act [Fintype C] [DecidableEq L] (hnext : m.next ptable c a = some p)
    (hact : m.act c ptable a = some m') (hsched : a ≠ .sched) (hswtch : ∀ t, a ≠ .swtch t) :
    Local m c p m' := by
  obtain ⟨⟨b, hn, hb⟩, hp⟩ := h.cpu c
  have hphase : m.proc c = none → (m.phase c).next ptable a = some p := by
    intro hnone
    simpa [Machine.next, hnone] using hnext
  cases a with
  | sched => exact absurd rfl hsched
  | swtch t => exact absurd rfl (hswtch t)
  | pushcli =>
    cases hact
    exact push h m.spin (fun hnone => Phase.holds_of_plain (hphase hnone))
  | popcli =>
    simp only [Machine.act] at hact
    split_ifs at hact with hpos
    obtain ⟨u, hu, rfl⟩ := Option.map_eq_some_iff.mp hact
    refine pop h m.lock hpos ?_ (fun hnone => Phase.holds_of_plain (hphase hnone))
    intro n b hnested
    obtain ⟨u', hu', hpost⟩ := hnested.popcli
    exact Except.ok.inj ((ok_of_toOption hu).symm.trans hu') ▸ hpost
  | acquire l =>
    obtain ⟨u, hu, rfl⟩ := Option.map_eq_some_iff.mp hact
    rw [hn.acquire (ok_of_toOption hu)]
    refine push h _ (fun hnone => ?_)
    have hq := hphase hnone
    have hold := hp hnone
    simp only [Phase.next] at hq
    split_ifs at hq with hplain hlock
    · exact Phase.holds_of_plain ((if_pos hplain).trans hq)
    · cases hq
      rw [hlock.1] at hold
      have hncli := hn.ncli
      rw [hold.1] at hncli ⊢
      exact ⟨rfl, by simp [pushcli, hncli, hold.2]⟩
  | xchg =>
    obtain ⟨l, -, hact⟩ := Option.bind_eq_some_iff.mp hact
    split_ifs at hact
    cases hact
    refine ⟨m.cpu c, m.count (m.running c), m.first (m.running c),
      update m.lock l ⟨true, some c⟩, update m.spin c none, ?_, ⟨⟨b, hn, hb⟩, fun hnone => ?_⟩,
      fun _ hpos h0 => absurd h0 (Nat.ne_of_gt hpos)⟩
    · simp only [Machine.set, update_eq_self]
    · exact Option.some.inj (hphase hnone) ▸ hp hnone
  | release l =>
    simp only [Machine.act] at hact
    split_ifs at hact with hpos
    obtain ⟨r, hr, rfl⟩ := Option.map_eq_some_iff.mp hact
    refine pop h _ hpos (fun n b hnested => hnested.release (ok_of_toOption hr)) (fun hnone => ?_)
    have hq := hphase hnone
    simp only [Phase.next] at hq
    split_ifs at hq with hplain
    · exact Phase.holds_of_plain ((if_pos hplain).trans hq)
    · cases hq
      trivial
  | setFlag b => exact setFlag h hact (fun hnone => Phase.holds_of_plain (hphase hnone))
  | sti | iret =>
    refine setFlag h hact (fun hnone => ?_)
    have hq := hphase hnone
    simp only [Phase.next, Option.ite_none_right_eq_some, Option.some.injEq] at hq
    exact hq.2 ▸ ⟨rfl, rfl⟩
  | trap =>
    refine setFlag h hact (fun hnone => ?_)
    have hq := hphase hnone
    simp only [Phase.next, Option.ite_none_right_eq_some, Option.some.injEq] at hq
    exact hq.2 ▸ trivial

end Local

omit [DecidableEq T] in
theorem Inv.switch (h : Inv m) {o : Option T} (i : T → Option Bool)
    (hg : Good o p u (m.count (o.elim (.inr c) .inl)) (m.first (o.elim (.inr c) .inl)))
    (hwait : m.count (.inr c) = 1) (hother : ∀ c' t, o = some t → m.proc c' ≠ some t)
    (haway : ∀ t, o ≠ some t → (∀ c', c' ≠ c → m.proc c' ≠ some t) →
      m.count (.inl t) = 1 ∧ (i t).getD true = m.first (.inl t)) :
    Inv { m.switch c u o i with phase := update m.phase c p } := by
  unfold Machine.switch
  refine ⟨fun c' => ?_, fun c' hc' => ?_, fun t ht => ?_, fun c₁ c₂ t h₁ h₂ => ?_⟩
  · by_cases hc : c' = c
    · subst hc
      simpa only [update_self, Machine.running] using hg
    · simpa only [update_of_ne hc, Machine.running] using h.cpu c'
  · by_cases hc : c' = c
    · exact hc ▸ hwait
    · exact h.waits c' (by simpa only [update_of_ne hc] using hc')
  · refine haway t (by simpa only [update_self] using ht c) (fun c' hc => ?_)
    simpa only [update_of_ne hc] using ht c'
  · dsimp only at h₁ h₂
    by_cases hc₁ : c₁ = c <;> by_cases hc₂ : c₂ = c
    · rw [hc₁, hc₂]
    · rw [hc₁, update_self] at h₁
      rw [update_of_ne hc₂] at h₂
      exact absurd h₂ (hother c₂ t h₁)
    · rw [hc₂, update_self] at h₂
      rw [update_of_ne hc₁] at h₁
      exact absurd h₁ (hother c₁ t h₂)
    · rw [update_of_ne hc₁] at h₁
      rw [update_of_ne hc₂] at h₂
      exact h.inj c₁ c₂ t h₁ h₂

/-- The thread that leaves keeps its flag in `sched`, and the scheduler has one `pushcli` too. -/
theorem Inv.sched (h : Inv m) (hproc : m.proc c = some t)
    (hu : sched (m.lock ptable) c (m.cpu c) = .ok u) :
    Inv { m.switch c u none (update m.intena t (some u.intena)) with
      phase := update m.phase c .back } := by
  obtain ⟨b, hn, hb⟩ := (h.cpu c).nested
  have hb := hb (by simp [hproc])
  rw [running_eq_inl.mpr hproc] at hn hb
  obtain ⟨rfl, hone⟩ := hn.sched hu
  rw [hone] at hn
  have hwait := h.waits c (by simp [hproc])
  refine h.switch _ ⟨⟨b, by rwa [Option.elim_none, hwait], nofun⟩, fun _ => trivial⟩ hwait nofun ?_
  intro t' _ ht'
  by_cases htt : t' = t
  · subst htt
    exact ⟨hone, by simp only [update_self, Option.getD_some, ← hb, hn.intena Nat.one_pos]⟩
  · rw [update_of_ne htt]
    refine h.away t' (fun c' => ?_)
    by_cases hc : c' = c
    · rw [hc, hproc]
      exact fun heq => htt (Option.some.inj heq).symm
    · exact ht' c' hc

omit [DecidableEq T] in
/-- A thread that comes back finds its flag again; for a new one the scheduler's flag is on. -/
theorem Inv.swtch (h : Inv m) (hproc : m.proc c = none) (hphase : m.phase c = .locked)
    (haway : ∀ c', m.proc c' ≠ some t) (hu : popcli (pushcli (m.cpu c)) = .ok u) :
    Inv { m.switch c { u with intena := (m.intena t).getD u.intena } (some t) m.intena with
      phase := update m.phase c .locked } := by
  obtain ⟨⟨b, hn, -⟩, hp⟩ := h.cpu c
  have hp := hp hproc
  rw [running_eq_inr.mpr ⟨rfl, hproc⟩] at hn hp
  rw [hphase] at hp
  obtain ⟨hone, hin⟩ := hp
  rw [hone] at hn
  obtain rfl := Except.ok.inj (hn.pair.symm.trans hu)
  obtain ⟨htone, hfirst⟩ := h.away t haway
  refine h.switch m.intena ⟨⟨_, ?_, fun _ => rfl⟩, nofun⟩ hone ?_ ?_
  · rw [Option.elim_some, htone, ← hfirst, hin]
    exact ⟨hn.ncli, hn.off, fun _ => rfl⟩
  · intro c' t' heq
    exact heq ▸ haway c'
  · intro t' _ ht'
    refine h.away t' (fun c' => ?_)
    by_cases hc : c' = c
    · simp [hc, hproc]
    · exact ht' c' hc

variable [Fintype C] [DecidableEq L]

theorem step_cases (h : m.step ptable (c, a) = some m') :
    ∃ p m₁, m.next ptable c a = some p ∧ m.act c ptable a = some m₁ ∧
      m' = { m₁ with phase := update m.phase c p } := by
  unfold Machine.step at h
  split_ifs at h
  obtain ⟨p, hp, h⟩ := Option.bind_eq_some_iff.mp h
  obtain ⟨m₁, hm₁, rfl⟩ := Option.map_eq_some_iff.mp h
  exact ⟨p, m₁, hp, hm₁, rfl⟩

theorem step_inv (h : Inv m) (hs : m.step ptable (c, a) = some m') : Inv m' := by
  obtain ⟨p, m₁, hnext, hact, rfl⟩ := step_cases hs
  by_cases hsched : a = .sched
  · subst hsched
    obtain ⟨t, hproc, hact⟩ := Option.bind_eq_some_iff.mp hact
    obtain ⟨u, hu, rfl⟩ := Option.map_eq_some_iff.mp hact
    cases hnext.symm.trans (show m.next ptable c .sched = some .back by simp [Machine.next, hproc])
    exact h.sched hproc (ok_of_toOption hu)
  · by_cases hswtch : ∃ t, a = .swtch t
    · obtain ⟨t, rfl⟩ := hswtch
      simp only [Machine.act] at hact
      split_ifs at hact with haway
      obtain ⟨u, hu, rfl⟩ := Option.map_eq_some_iff.mp hact
      cases hproc : m.proc c with
      | some t' => simp [Machine.next, hproc] at hnext
      | none =>
        simp only [Machine.next, hproc, Phase.next, Option.ite_none_right_eq_some] at hnext
        obtain ⟨hlocked, hp⟩ := hnext
        cases hp
        exact h.swtch hproc hlocked haway (ok_of_toOption hu)
    · obtain ⟨u, n, b, lock, spin, rfl, hg, -⟩ :=
        Local.of_act h hnext hact hsched (fun t ht => hswtch ⟨t, ht⟩)
      exact h.set hg lock spin

theorem step_restores (h : Inv m) (hs : m.step ptable (c, a) = some m') (hproc : m.proc c = some t)
    (hpos : 0 < m.count (.inl t)) (hzero : m'.count (.inl t) = 0) :
    (m'.cpu c).flag = m.first (.inl t) := by
  obtain ⟨p, m₁, hnext, hact, rfl⟩ := step_cases hs
  have hrun := running_eq_inl.mpr hproc
  by_cases hsched : a = .sched
  · subst hsched
    obtain ⟨t', -, hact⟩ := Option.bind_eq_some_iff.mp hact
    obtain ⟨u, -, rfl⟩ := Option.map_eq_some_iff.mp hact
    exact absurd hzero (Nat.ne_of_gt hpos)
  · have hswtch : ∀ t, a ≠ .swtch t := by
      rintro t' rfl
      simp [Machine.next, hproc] at hnext
    obtain ⟨u, n, b, lock, spin, rfl, -, hflag⟩ := Local.of_act h hnext hact hsched hswtch
    rw [hrun] at hflag
    have hn : n = 0 := by simpa [Machine.set, hrun] using hzero
    simpa [Machine.set] using hflag (by simp [hproc]) hpos hn

/-- In every run, on every CPU: the count of `pushcli` is that of the thread which runs there, a
matching `popcli` does not panic, and interrupts are off while one is outstanding. The step in which a
process has none outstanding any more leaves the flag as its first `pushcli` found it. -/
theorem interrupts_nested (ptable : L) {es : List (C × Act T L)}
    (h : run (Machine.step ptable) .boot es = some m) :
    (∀ c, 0 ≤ (m.cpu c).ncli ∧ (0 < (m.cpu c).ncli → (m.cpu c).flag = false) ∧
      (m.cpu c).ncli = m.count (m.running c) ∧
      (0 < m.count (m.running c) → ∃ u, popcli (m.cpu c) = .ok u)) ∧
    ∀ c a m' t, m.step ptable (c, a) = some m' → m.proc c = some t → 0 < m.count (.inl t) →
      m'.count (.inl t) = 0 → (m'.cpu c).flag = m.first (.inl t) := by
  have hinv : Inv m := run_invariant _ (fun m e m' hm hs => step_inv hm hs) boot_inv h
  refine ⟨fun c => ?_, fun c a m' t => step_restores hinv⟩
  obtain ⟨b, hn, -⟩ := (hinv.cpu c).nested
  have hncli := hn.ncli
  refine ⟨by omega, fun hpos => hn.off (by omega), hncli, fun hpos => ?_⟩
  rw [← Nat.sub_add_cancel hpos] at hn
  obtain ⟨u, hu, -⟩ := hn.popcli
  exact ⟨u, hu⟩

/-- A new process gives up the CPU once and comes back. -/
def yielded : List (Unit × Act Unit Unit) :=
  [.sti, .acquire (), .xchg, .swtch (), .release (), .acquire (), .xchg, .sched, .release (),
    .sti, .acquire (), .xchg, .swtch ()].map (Prod.mk ())

theorem yielded_nested : ∃ m m', run (Machine.step ()) .boot yielded = some m ∧
    m.step () ((), .release ()) = some m' ∧ (m'.cpu ()).flag = true := by
  refine ⟨_, _, rfl, rfl, ?_⟩
  exact (@interrupts_nested Unit Unit Unit _ _ _ _ _ () yielded rfl).2 () (.release ()) _ () rfl rfl
    Nat.one_pos rfl

end Xv6.Intr
