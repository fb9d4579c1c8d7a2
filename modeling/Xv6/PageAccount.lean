import Mathlib.Tactic.Abel
import Xv6.PageOwners

/-!
# Every page has one owner

The invariant has three parts. `Slots` says that a call in progress works on an entry of the process
table alone. `Booting` says how far `main` has come. `Account` is the equation between the pages that
the allocator was given and those on the free list, with their holders and with calls in progress.
-/

namespace Xv6.Vm

open Function
open Alloc
open Ptable (Slot NPROC ProcState)

/-- The pages of a process. -/
def Proc.pages (p : Proc) : Multiset Page :=
  p.kstack.elim 0 (fun k => {k}) + p.pgdir.elim 0 Pgdir.pages

/-- The pages that have a holder other than a call in progress. -/
def Machine.held (m : Machine) : Multiset Page :=
  m.kpgdir.elim 0 Pgdir.pages + m.cpuStacks + (m.pipes.map Pipe.page : Multiset Page) +
    ∑ i, (m.procs i).pages

/-- Each page that the allocator was given is on the free list once, or it has one holder. A party
holds pages besides only while it is in a call. -/
def Accounted (m : Machine) : Prop :=
  m.handed.Nodup ∧ ∃ own : Party → Multiset Page, (∀ t, m.calls t = none → own t = 0) ∧
    (m.freelist : Multiset Page) + m.held + ∑ t, own t = m.handed

/-- The pages that a call hands over when it returns. -/
def Kind.pages : (k : Kind) → k.Result → Multiset Page
  | .kvmalloc, (d : Pgdir) => d.pages
  | .startothers, (o : Option Page) => o.elim 0 (fun p => {p})
  | .userinit _, (r : Page × Pgdir) => {r.1} + r.2.pages
  | .inituvm _, (d : Pgdir) => d.pages
  | .fork _ _ _, (o : Option (Page × Pgdir)) => o.elim 0 (fun r => {r.1} + r.2.pages)
  | .exec _, (o : Option (Pgdir × Nat)) => o.elim 0 (fun r => r.1.pages)
  | .growproc _, (r : Pgdir × Nat × Int) => r.1.pages
  | .pipealloc, (o : Option Page) => o.elim 0 (fun p => {p})
  | .freevm, _ | .wait _, _ | .pipeclose, _ => 0

/-- The sizes that a call returns are below `KERNBASE`. -/
def Kind.Fits : (k : Kind) → k.Result → Prop
  | .fork _ _ sz, _ => sz ≤ KERNBASE
  | .exec _, (o : Option (Pgdir × Nat)) => ∀ d sz, o = some (d, sz) → sz ≤ KERNBASE
  | .growproc _, (r : Pgdir × Nat × Int) => r.2.1 ≤ KERNBASE
  | _, _ => True

/-- `inituvm` does not get over a failed `kalloc`. -/
def Kind.MayFail : Kind → Prop
  | .inituvm _ => False
  | _ => True

/-- A party that owns `own` can go on with its call. -/
def Safe (own : Multiset Page) : Option Call → Prop
  | none => own = 0
  | some ⟨k, code⟩ => Alloc.wp k.MayFail own code (fun r own => own = k.pages r ∧ k.Fits r)

/-! ### The process table -/

/-- The entry of the process table that a call works on. -/
def Kind.slot : Kind → Option Slot
  | .userinit p | .inituvm p | .fork p _ _ | .growproc p | .wait p => some p
  | .kvmalloc | .startothers | .exec _ | .freevm | .pipealloc | .pipeclose => none

/-- The call also sets or has taken the kernel stack. -/
def Kind.Stack : Kind → Prop
  | .userinit _ | .fork _ _ _ | .wait _ => True
  | _ => False

/-- An entry that a call of kind `k` works on. -/
structure Reserved (k : Kind) (p : Proc) : Prop where
  state : p.state ≠ .unused
  pgdir : p.pgdir = none
  kstack : k.Stack → p.kstack = none

structure Proc.Ok (p : Proc) : Prop where
  unused : p.state = .unused → p.kstack = none ∧ p.pgdir = none
  sz : p.sz ≤ KERNBASE

def Machine.kind (m : Machine) (t : Party) : Option Kind := (m.calls t).map Call.kind

structure Slots (procs : Slot → Proc) (kind : Party → Option Kind) : Prop where
  ok : ∀ i, (procs i).Ok
  reserved : ∀ t k i, kind t = some k → k.slot = some i → Reserved k (procs i)
  alone : ∀ t t' k k' i, kind t = some k → kind t' = some k' → k.slot = some i → k'.slot = some i →
    t = t'

namespace Slots

variable {procs : Slot → Proc} {kind : Party → Option Kind} {t : Party} {i : Slot}

/-- No call of another party works on entry `i`. -/
def Free (kind : Party → Option Kind) (t : Party) (i : Slot) : Prop :=
  ∀ t' k, t' ≠ t → kind t' = some k → k.slot ≠ some i

section

variable (h : Slots procs kind)
include h

theorem free_of_pgdir {d : Pgdir} (hd : (procs i).pgdir = some d) :
    Free kind t i := by
  intro t' k _ hk hslot
  have hnone := (h.reserved t' k i hk hslot).pgdir
  rw [hd] at hnone
  cases hnone

theorem free_of_unused (hi : (procs i).state = .unused) : Free kind t i := by
  intro t' k _ hk hslot
  exact (h.reserved t' k i hk hslot).state hi

theorem free_of_slot {k : Kind} (hk : kind t = some k)
    (hslot : k.slot = some i) : Free kind t i := by
  intro t' k' hne hk' hslot'
  exact hne (h.alone t' t k' k i hk' hk hslot' hslot)

theorem call {o : Option Kind} (ho : ∀ k, o = some k → k.slot = none) :
    Slots procs (update kind t o) := by
  have hother : ∀ t' k i, update kind t o t' = some k → k.slot = some i →
      kind t' = some k := by
    intro t' k i hk hslot
    by_cases hne : t' = t
    · subst hne
      rw [update_self] at hk
      rw [ho k hk] at hslot
      cases hslot
    · rwa [update_of_ne hne] at hk
  exact ⟨h.ok, fun t' k i hk hs => h.reserved t' k i (hother t' k i hk hs) hs,
    fun t₁ t₂ k k' i h₁ h₂ hs₁ hs₂ =>
      h.alone t₁ t₂ k k' i (hother t₁ k i h₁ hs₁) (hother t₂ k' i h₂ hs₂) hs₁ hs₂⟩

theorem change (hfree : Free kind t i) {p : Proc} (hp : p.Ok)
    {o : Option Kind} (ho : ∀ k j, o = some k → k.slot = some j → j = i ∧ Reserved k p) :
    Slots (update procs i p) (update kind t o) := by
  have hcases : ∀ t' k j, update kind t o t' = some k → k.slot = some j →
      (t' = t ∧ j = i ∧ Reserved k p) ∨ (t' ≠ t ∧ j ≠ i ∧ kind t' = some k) := by
    intro t' k j hk hslot
    by_cases hne : t' = t
    · subst hne
      rw [update_self] at hk
      exact Or.inl ⟨rfl, ho k j hk hslot⟩
    · rw [update_of_ne hne] at hk
      refine Or.inr ⟨hne, ?_, hk⟩
      rintro rfl
      exact hfree t' k hne hk hslot
  refine ⟨?_, ?_, ?_⟩
  · intro j
    by_cases hj : j = i
    · rw [hj, update_self]
      exact hp
    · rw [update_of_ne hj]
      exact h.ok j
  · intro t' k j hk hslot
    rcases hcases t' k j hk hslot with ⟨-, rfl, hres⟩ | ⟨-, hj, hk'⟩
    · rw [update_self]
      exact hres
    · rw [update_of_ne hj]
      exact h.reserved t' k j hk' hslot
  · intro t₁ t₂ k k' j h₁ h₂ hs₁ hs₂
    rcases hcases t₁ k j h₁ hs₁ with ⟨rfl, rfl, -⟩ | ⟨-, hj, h₁'⟩
    · rcases hcases t₂ k' j h₂ hs₂ with ⟨rfl, -, -⟩ | ⟨-, hj, -⟩
      · rfl
      · exact absurd rfl hj
    · rcases hcases t₂ k' j h₂ hs₂ with ⟨-, rfl, -⟩ | ⟨-, -, h₂'⟩
      · exact absurd rfl hj
      · exact h.alone t₁ t₂ k k' j h₁' h₂' hs₁ hs₂

theorem congr {procs' : Slot → Proc}
    (hstate : ∀ i, (procs' i).state = .unused → (procs i).state = .unused)
    (hsame : ∀ i, (procs' i).kstack = (procs i).kstack ∧ (procs' i).pgdir = (procs i).pgdir ∧
      (procs' i).sz = (procs i).sz) : Slots procs' kind := by
  refine ⟨?_, ?_, h.alone⟩
  · intro i
    obtain ⟨hk, hd, hsz⟩ := hsame i
    exact ⟨fun hu => by rw [hk, hd]; exact (h.ok i).unused (hstate i hu),
      hsz ▸ (h.ok i).sz⟩
  · intro t k i hk hslot
    obtain ⟨hstack, hd, -⟩ := hsame i
    have hres := h.reserved t k i hk hslot
    exact ⟨fun hu => hres.state (hstate i hu), hd.trans hres.pgdir,
      fun hs => hstack.trans (hres.kstack hs)⟩

end

end Slots

/-! ### The equation -/

/-- The pages on the free list, with holders and with calls. -/
structure Account (m : Machine) (own : Party → Multiset Page) : Prop where
  total : (m.freelist : Multiset Page) + m.held + ∑ t, own t = m.handed
  safe : ∀ t, Safe (own t) (m.calls t)

variable {m m' : Machine} {own : Party → Multiset Page} {t : Party} {o : Multiset Page}

variable {c : Option Call}

/-- One party, the holders and the free list exchange pages. -/
theorem Account.update (h : Account m own)
    (hcalls : m'.calls = update m.calls t c) (hsafe : Safe o c) (hhanded : m'.handed = m.handed)
    (heq : (m'.freelist : Multiset Page) + m'.held + o = m.freelist + m.held + own t) :
    Account m' (update own t o) := by
  refine ⟨?_, ?_⟩
  · have hsum := sum_apply_update (fun _ (x : Multiset Page) => x) own t o
    rw [hhanded]
    ext p
    have htotal' := congrArg (Multiset.count p) h.total
    have heq' := congrArg (Multiset.count p) heq
    have hsum' := congrArg (Multiset.count p) hsum
    simp only [Multiset.count_add] at htotal' heq' hsum' ⊢
    omega
  · intro t'
    rw [hcalls]
    by_cases ht : t' = t
    · rw [ht, update_self, update_self]
      exact hsafe
    · rw [update_of_ne ht, update_of_ne ht]
      exact h.safe t'

theorem held_setProc (m : Machine) (i : Slot) (p : Proc) :
    (m.setProc i p).held + (m.procs i).pages = m.held + p.pages := by
  have hsum := sum_apply_update (fun _ (p : Proc) => p.pages) m.procs i p
  simp only [Machine.held, Machine.setProc, add_assoc, hsum]

/-! ### The invariant -/

/-- `kinit2` has not run. -/
def Boot.Early : Boot → Prop
  | .kvmalloc | .startothers _ | .kinit2 => True
  | .userinit | .inituvm _ | .done => False

/-- Calls of `main`. -/
def Kind.Main : Kind → Prop
  | .kvmalloc | .startothers | .userinit _ | .inituvm _ => True
  | .fork _ _ _ | .exec _ | .freevm | .growproc _ | .wait _ | .pipealloc | .pipeclose => False

structure Booting (handed : Multiset Page) (boot : Boot) (kpgdir : Option Pgdir)
    (kind : Party → Option Kind) : Prop where
  nodup : handed.Nodup
  early : boot.Early → ∀ p ∈ handed, p < ENTRYTOP / PGSIZE
  kpgdir : boot = .kvmalloc → kpgdir = none
  main : ∀ t k, kind t = some k → k.Main → t = none
  kvmalloc : ∀ t, kind t = some .kvmalloc → boot = .kvmalloc

structure Inv (m : Machine) (own : Party → Multiset Page) : Prop where
  slots : Slots m.procs m.kind
  booting : Booting m.handed m.boot m.kpgdir m.kind
  account : Account m own

theorem kind_update (hcalls : m'.calls = update m.calls t c) :
    m'.kind = update m.kind t (c.map Call.kind) := by
  unfold Machine.kind
  rw [hcalls]
  exact Function.comp_update (Option.map Call.kind) m.calls t c

section Booting

variable {handed : Multiset Page} {boot boot' : Boot} {kpgdir : Option Pgdir}
  {kind : Party → Option Kind}

theorem Booting.call (h : Booting handed boot kpgdir kind) {c : Option Kind}
    (hmain : ∀ k, c = some k → k.Main → t = none) (hc : c = some .kvmalloc → boot = .kvmalloc) :
    Booting handed boot kpgdir (update kind t c) := by
  have hother : ∀ t' k, update kind t c t' = some k → (t' = t ∧ c = some k) ∨ kind t' = some k := by
    intro t' k hk
    by_cases hne : t' = t
    · subst hne
      rw [update_self] at hk
      exact Or.inl ⟨rfl, hk⟩
    · rw [update_of_ne hne] at hk
      exact Or.inr hk
  refine ⟨h.nodup, h.early, h.kpgdir, ?_, ?_⟩
  · intro t' k hk hk'
    rcases hother t' k hk with ⟨rfl, hck⟩ | hk
    · exact hmain k hck hk'
    · exact h.main t' k hk hk'
  · intro t' hk
    rcases hother t' _ hk with ⟨-, hck⟩ | hk
    · exact hc hck
    · exact h.kvmalloc t' hk

theorem Booting.advance (h : Booting handed boot kpgdir kind) (hidle : kind none = none)
    (hearly : boot'.Early → boot.Early) (hne : boot' ≠ .kvmalloc) :
    Booting handed boot' kpgdir kind := by
  refine ⟨h.nodup, fun he => h.early (hearly he), fun he => absurd he hne, h.main, ?_⟩
  intro t ht
  rw [h.main t _ ht trivial, hidle] at ht
  cases ht

end Booting

theorem Account.own_of_none (h : Account m own) (ht : m.calls t = none) : own t = 0 := by
  have hsafe := h.safe t
  rw [ht] at hsafe
  exact hsafe

theorem Account.own_of_ret (h : Account m own) {k : Kind} {r : k.Result}
    (ht : m.calls t = some ⟨k, .ret r⟩) : own t = k.pages r ∧ k.Fits r := by
  have hsafe := h.safe t
  rw [ht] at hsafe
  exact wp_ret_iff.mp hsafe

theorem Inv.exchange (h : Inv m own) (hcalls : m'.calls = update m.calls t c)
    (hslot : ∀ c', c = some c' → c'.kind.slot = none)
    (hmain : ∀ c', c = some c' → c'.kind.Main → t = none ∧ (c'.kind = .kvmalloc → m.boot =
      .kvmalloc)) (hhanded : m'.handed = m.handed) (hboot : m'.boot = m.boot)
    (hkpgdir : m'.kpgdir = m.kpgdir) (hprocs : m'.procs = m.procs) (hsafe : Safe o c)
    (heq : (m'.freelist : Multiset Page) + m'.held + o = m.freelist + m.held + own t) :
    Inv m' (update own t o) := by
  refine ⟨?_, ?_, h.account.update hcalls hsafe hhanded heq⟩
  · rw [hprocs, kind_update hcalls]
    refine h.slots.call ?_
    intro k hk
    obtain ⟨c', hc', rfl⟩ := Option.map_eq_some_iff.mp hk
    exact hslot c' hc'
  · rw [hhanded, hboot, hkpgdir, kind_update hcalls]
    refine h.booting.call ?_ ?_
    · intro k hk
      obtain ⟨c', hc', rfl⟩ := Option.map_eq_some_iff.mp hk
      exact fun hk' => (hmain c' hc' hk').1
    · intro hk
      obtain ⟨c', hc', hk'⟩ := Option.map_eq_some_iff.mp hk
      exact (hmain c' hc' (hk' ▸ trivial)).2 hk'

section Starts

variable {k : Kind} {code : Routine Page k.Result} {i : Slot} {p : Proc}

theorem Inv.take (h : Inv m own) (ht : m.calls t = none) (hfree : Slots.Free m.kind t i)
    (hmain : k.Main → t = none) (hslot : k.slot = some i) (hp : p.Ok) (hres : Reserved k p)
    (hpages : (m.procs i).pages = p.pages + o) (hsafe : Safe o (some ⟨k, code⟩)) :
    Inv ((m.setProc i p).call t k code) (update own t o) := by
  have hk : k ≠ .kvmalloc := by
    rintro rfl
    cases hslot
  refine ⟨?_, ?_, ?_⟩
  · rw [kind_update rfl]
    refine h.slots.change hfree hp ?_
    rintro _ j ⟨⟩ hj
    rw [hslot] at hj
    exact ⟨(Option.some.inj hj).symm, hres⟩
  · rw [kind_update rfl]
    exact h.booting.call (by rintro _ ⟨⟩; exact hmain)
      (fun hc => absurd (Option.some.inj hc) hk)
  · refine h.account.update rfl hsafe rfl ?_
    have hheld := held_setProc m i p
    rw [h.account.own_of_none ht]
    change (m.freelist : Multiset Page) + (m.setProc i p).held + o = _
    ext x
    have hheld' := congrArg (Multiset.count x) hheld
    have hpages' := congrArg (Multiset.count x) hpages
    simp only [Multiset.count_add, Multiset.count_zero] at hheld' hpages' ⊢
    omega

end Starts

/-! ### Returns -/

section Returns

variable {k : Kind} {r : k.Result} {i : Slot} {p : Proc}

theorem Inv.give (h : Inv m own) (ht : m.calls t = some ⟨k, .ret r⟩) (hslot : k.slot = some i)
    (hp : p.Ok) (hpages : p.pages = (m.procs i).pages + k.pages r) :
    Inv ({ m with calls := update m.calls t none }.setProc i p) (update own t 0) := by
  have hkind : m.kind t = some k := by simp [Machine.kind, ht]
  refine ⟨?_, ?_, ?_⟩
  · rw [kind_update (m := m) (t := t) (c := none) rfl]
    exact h.slots.change (h.slots.free_of_slot hkind hslot) hp (by rintro _ _ ⟨⟩)
  · rw [kind_update (m := m) (t := t) (c := none) rfl]
    exact h.booting.call (by rintro _ ⟨⟩) (by rintro ⟨⟩)
  · refine h.account.update (c := none) rfl rfl rfl ?_
    have hheld := held_setProc m i p
    rw [(h.account.own_of_ret ht).1]
    change (m.freelist : Multiset Page) + (m.setProc i p).held + 0 = _
    ext x
    have hheld' := congrArg (Multiset.count x) hheld
    have hpages' := congrArg (Multiset.count x) hpages
    simp only [Multiset.count_add, Multiset.count_zero] at hheld' hpages' ⊢
    omega

end Returns

end Xv6.Vm
