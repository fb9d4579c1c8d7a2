import Xv6.PageAccount

/-!
# Steps keep the account

One lemma for each way to start a call and one for each kind of return. The last theorem is about
runs in which `kalloc` does not fail inside `inituvm`, whose caller does not learn of it.
-/

namespace Xv6.Vm

open Function
open Alloc
open Ptable (Slot NPROC ProcState)

variable {cfg : Config} {m m' : Machine} {own : Party → Multiset Page} {t : Party}

/-! ### Starts -/

variable {p : Slot} {k : Kind} {code : Routine Page k.Result} {curproc : Slot}

theorem state_of_allocproc (h : m.allocproc = some p) : (m.procs p).state = .unused := by
  simpa using List.find?_some h

theorem state_of_zombie {curproc p : Slot} (h : m.zombie curproc = some p) :
    (m.procs p).state = .zombie := by
  have hp := List.find?_some h
  simp only [decide_eq_true_eq] at hp
  exact hp.2

namespace Inv

variable (h : Inv m own)
include h

theorem embryo
    (ht : m.calls t = none) (hp : m.allocproc = some p) (hslot : k.slot = some p)
    (hmain : k.Main → t = none) (hsafe : Safe 0 (some ⟨k, code⟩)) :
    Inv ((m.setProc p { m.procs p with state := .embryo }).call t k code) (update own t 0) := by
  have hstate := state_of_allocproc hp
  have hnone := (h.slots.ok p).unused hstate
  refine h.take ht (h.slots.free_of_unused hstate) hmain hslot ?_ ?_ ?_ hsafe
  · exact ⟨by rintro ⟨⟩, (h.slots.ok p).sz⟩
  · exact ⟨by rintro ⟨⟩, hnone.2, fun _ => hnone.1⟩
  · exact (add_zero _).symm

theorem takePgdir
    {d : Pgdir} (ht : m.calls t = none) (hd : (m.procs p).pgdir = some d)
    (hslot : k.slot = some p) (hmain : k.Main → t = none) (hstack : ¬ k.Stack)
    (hsafe : Safe d.pages (some ⟨k, code⟩)) :
    Inv ((m.setProc p { m.procs p with pgdir := none }).call t k code)
      (update own t d.pages) := by
  have hused : (m.procs p).state ≠ .unused := by
    intro hu
    rw [((h.slots.ok p).unused hu).2] at hd
    cases hd
  refine h.take ht (h.slots.free_of_pgdir hd) hmain hslot ?_ ?_ ?_ hsafe
  · exact ⟨fun hu => absurd hu hused, (h.slots.ok p).sz⟩
  · exact ⟨hused, rfl, fun hs => absurd hs hstack⟩
  · simp [Proc.pages, hd]

theorem startFork (ht : m.calls (some curproc) = none)
    (hs : m.startFork cfg curproc = some m') : ∃ own', Inv m' own' := by
  unfold Machine.startFork at hs
  split at hs
  · next np d hnp hd =>
    cases hs
    have hsz := (h.slots.ok curproc).sz
    refine ⟨_, h.embryo ht hnp rfl False.elim ?_⟩
    refine Alloc.wp_mono (fork_spec cfg.layout d hsz) ?_
    intro r own hown
    exact ⟨hown, hsz⟩
  · cases hs

theorem startGrowproc {n : Int} (ht : m.calls (some curproc) = none)
    (hs : m.startGrowproc curproc n = some m') : ∃ own', Inv m' own' := by
  unfold Machine.startGrowproc at hs
  split at hs
  · cases hs
  · next d hd =>
    cases hs
    exact ⟨_, h.takePgdir ht hd rfl False.elim id
      (growproc_spec d n (h.slots.ok curproc).sz)⟩

theorem startWait (ht : m.calls (some curproc) = none)
    (hs : m.startWait curproc = some m') : ∃ own', Inv m' own' := by
  unfold Machine.startWait at hs
  split at hs
  · cases hs
  · next p hp =>
    split at hs
    · next kstack d hk hd =>
      cases hs
      have hstate := state_of_zombie hp
      have hused : (m.procs p).state ≠ .unused := by rw [hstate]; rintro ⟨⟩
      refine ⟨_, h.take ht (h.slots.free_of_pgdir hd) False.elim rfl
        ⟨fun hu => absurd hu hused, (h.slots.ok p).sz⟩ ⟨hused, rfl, fun _ => rfl⟩ ?_
        (Alloc.wp_mono (reap_spec kstack d) (fun _ _ hown => ⟨hown, trivial⟩))⟩
      simp [Proc.pages, hk, hd]
    · cases hs

theorem exit (hs : m.exit curproc = some m') : Inv m' own := by
  unfold Machine.exit at hs
  split_ifs at hs
  cases hs
  refine ⟨h.slots.congr ?_ (fun _ => ⟨rfl, rfl, rfl⟩), h.booting, ⟨h.account.total, h.account.safe⟩⟩
  intro i hi
  dsimp only at hi
  split_ifs at hi
  exact hi

end Inv

theorem held_erase {p : Pipe} (hp : p ∈ m.pipes) :
    ({ m with pipes := m.pipes.erase p } : Machine).held + {p.page} = m.held := by
  have hperm : (m.pipes.map Pipe.page : Multiset Page) =
      {p.page} + (m.pipes.erase p).map Pipe.page :=
    Multiset.coe_eq_coe.mpr ((List.perm_cons_erase hp).map Pipe.page)
  simp only [Machine.held, hperm]
  abel

theorem held_pipes {p : Pipe} {pipes : List Pipe} :
    ({ m with pipes := p :: pipes } : Machine).held =
      ({ m with pipes := pipes } : Machine).held + {p.page} := by
  simp only [Machine.held, List.map_cons, ← Multiset.cons_coe, ← Multiset.singleton_add]
  abel

theorem Inv.startPipeclose (h : Inv m own) {p : Pipe} {writable : Bool}
    (ht : m.calls (some curproc) = none) (hs : m.startPipeclose curproc p writable = some m') :
    ∃ own', Inv m' own' := by
  simp only [Machine.startPipeclose] at hs
  split_ifs at hs with hp hclosed
  · cases hs
    refine ⟨_, h.exchange (o := {p.page}) rfl (by rintro _ ⟨⟩; rfl) (by rintro _ ⟨⟩; exact False.elim)
      rfl rfl rfl rfl ?_ ?_⟩
    · exact wp_release (zero_add _).symm (wp_ret ⟨rfl, trivial⟩)
    · rw [h.account.own_of_none ht, add_zero, ← held_erase hp.1, ← add_assoc]
      rfl
  · cases hs
    refine ⟨own, h.slots, h.booting, ?_, h.account.safe⟩
    rw [held_pipes]
    change (m.freelist : Multiset Page) + (_ + {p.page}) + _ = m.handed
    rw [held_erase hp.1]
    exact h.account.total

theorem Inv.call (h : Inv m own) (ht : m.calls t = none) (hslot : k.slot = none)
    (hmain : k.Main → t = none ∧ (k = .kvmalloc → m.boot = .kvmalloc))
    (hsafe : Safe 0 (some ⟨k, code⟩)) : Inv (m.call t k code) (update own t 0) := by
  refine h.exchange rfl (by rintro _ ⟨⟩; exact hslot) (by rintro _ ⟨⟩; exact hmain) rfl rfl rfl rfl
    hsafe ?_
  rw [h.account.own_of_none ht]
  rfl

theorem Inv.start (h : Inv m own) {e : Event} (he : e.starts = some p)
    (ht : m.calls (some p) = none) (hs : m.start cfg e = some m') : ∃ own', Inv m' own' := by
  cases e with
  | fork q =>
    cases he
    exact h.startFork ht hs
  | exec q image =>
    cases he
    cases hs
    exact ⟨_, h.call ht rfl False.elim (exec_spec cfg.layout image)⟩
  | growproc q n =>
    cases he
    exact h.startGrowproc ht hs
  | exit q => exact ⟨own, h.exit hs⟩
  | wait q =>
    cases he
    exact h.startWait ht hs
  | pipealloc q f0 f1 =>
    cases he
    cases hs
    exact ⟨_, h.call ht rfl False.elim
      (Alloc.wp_mono (pipealloc_spec f0 f1) (fun _ _ hown => ⟨hown, trivial⟩))⟩
  | pipeclose q pipe writable =>
    cases he
    exact h.startPipeclose ht hs
  | boot => cases he
  | next _ _ => cases he
  | ret _ => cases he

/-! ### `main` -/

theorem Inv.advance (h : Inv m own) {boot : Boot} (ht : m.calls none = none)
    (hearly : boot.Early → m.boot.Early) (hne : boot ≠ .kvmalloc) :
    Inv { m with boot := boot } own := by
  refine ⟨h.slots, h.booting.advance ?_ hearly hne, h.account.total, h.account.safe⟩
  simp [Machine.kind, ht]

theorem mem_freerange {pstart pend p : Nat} :
    p ∈ freerange pstart pend ↔ PGROUNDUP pstart / PGSIZE ≤ p ∧ p < pend / PGSIZE := by
  simp only [freerange, List.mem_reverse, List.mem_range'_1]
  generalize PGROUNDUP pstart / PGSIZE = a, pend / PGSIZE = b
  omega

theorem nodup_freerange (pstart pend : Nat) : (freerange pstart pend).Nodup := by
  unfold freerange
  exact List.nodup_reverse.mpr List.nodup_range'

theorem le_of_mem_kinit2 {p : Nat} (hp : p ∈ freerange ENTRYTOP PHYSTOP) :
    ENTRYTOP / PGSIZE ≤ p := by
  have hround : PGROUNDUP ENTRYTOP / PGSIZE = ENTRYTOP / PGSIZE := by decide
  exact hround ▸ (mem_freerange.mp hp).1

/-- `kinit1` gave pages below `ENTRYTOP` only. -/
theorem Inv.kinit2 (h : Inv m own) {pages : List Page} (hnodup : pages.Nodup)
    (hpages : ∀ p ∈ pages, ENTRYTOP / PGSIZE ≤ p) (ht : m.calls none = none)
    (hboot : m.boot = .kinit2) :
    Inv { m with
      freelist := pages ++ m.freelist
      handed := pages + m.handed
      boot := .userinit } own := by
  have hbooting : Booting m.handed .userinit m.kpgdir m.kind :=
    h.booting.advance (by simp [Machine.kind, ht]) False.elim (by rintro ⟨⟩)
  refine ⟨h.slots, ⟨?_, False.elim, by rintro ⟨⟩, hbooting.main, hbooting.kvmalloc⟩, ?_,
    h.account.safe⟩
  · refine Multiset.nodup_add.mpr ⟨hnodup, h.booting.nodup, ?_⟩
    refine Multiset.disjoint_left.mpr ?_
    intro p hp hp'
    exact absurd (h.booting.early (hboot ▸ trivial) p hp') (Nat.not_lt.mpr (hpages p hp))
  · rw [← Multiset.coe_add, add_assoc, add_assoc, ← h.account.total, add_assoc]
    rfl

theorem Inv.bootNext (h : Inv m own) (ht : m.calls none = none)
    (hs : m.bootNext cfg = some m') : ∃ own', Inv m' own' := by
  unfold Machine.bootNext at hs
  split at hs
  · next hboot =>
    cases hs
    exact ⟨_, h.call ht rfl (fun _ => ⟨rfl, fun _ => hboot⟩)
      (Alloc.wp_mono (kvmalloc_spec cfg.layout) (fun _ _ hown => ⟨hown, trivial⟩))⟩
  · next hboot =>
    cases hs
    exact ⟨own, h.advance ht (fun _ => hboot ▸ trivial) (by rintro ⟨⟩)⟩
  · next n hboot =>
    cases hs
    have hnext : Inv { m with boot := .startothers n } own :=
      h.advance ht (fun _ => hboot ▸ trivial) (by rintro ⟨⟩)
    refine ⟨_, hnext.call ht rfl (fun _ => ⟨rfl, by rintro ⟨⟩⟩) ?_⟩
    exact wp_allocate (fun _ => wp_ret ⟨rfl, trivial⟩)
      (fun p => wp_ret ⟨zero_add _, trivial⟩)
  · next hboot =>
    cases hs
    exact ⟨own, h.kinit2 (nodup_freerange _ _) (fun p hp => le_of_mem_kinit2 hp) ht hboot⟩
  · split at hs
    · cases hs
    · next p hp =>
      cases hs
      exact ⟨_, h.embryo ht hp rfl (fun _ => rfl)
        (Alloc.wp_mono (userinit_spec cfg.layout) (fun _ _ hown => ⟨hown, trivial⟩))⟩
  · split at hs
    · cases hs
    · next d hd =>
      cases hs
      exact ⟨_, h.takePgdir ht hd rfl (fun _ => rfl) id
        (Alloc.wp_mono (inituvm_spec d) (fun _ _ hown => ⟨hown, trivial⟩))⟩
  · cases hs

/-! ### Returns -/

section Returns

variable {k : Kind} {r : k.Result}

theorem Inv.reserved (h : Inv m own) {p : Slot} (ht : m.calls t = some ⟨k, .ret r⟩)
    (hslot : k.slot = some p) : Reserved k (m.procs p) :=
  h.slots.reserved t k p (by simp [Machine.kind, ht]) hslot

theorem Inv.leave (h : Inv m own) (ht : m.calls t = some ⟨k, .ret r⟩)
    (hcalls : m'.calls = update m.calls t none) (hfl : m'.freelist = m.freelist)
    (hhanded : m'.handed = m.handed) (hboot : m'.boot = m.boot) (hkpgdir : m'.kpgdir = m.kpgdir)
    (hprocs : m'.procs = m.procs) (hheld : m'.held = m.held + k.pages r) :
    Inv m' (update own t 0) := by
  refine h.exchange hcalls (by rintro _ ⟨⟩) (by rintro _ ⟨⟩) hhanded hboot hkpgdir hprocs rfl ?_
  rw [hfl, hheld, (h.account.own_of_ret ht).1, add_zero, add_assoc]

theorem Inv.giveMain (h : Inv m own) {p : Slot} {q : Proc} {initproc : Option Slot} {boot : Boot}
    (ht : m.calls t = some ⟨k, .ret r⟩) (hk : k.Main) (hslot : k.slot = some p) (hq : q.Ok)
    (hpages : q.pages = (m.procs p).pages + k.pages r) (hearly : ¬ boot.Early)
    (hne : boot ≠ .kvmalloc) :
    Inv { { m with calls := update m.calls t none }.setProc p q with
      initproc := initproc
      boot := boot } (update own t 0) := by
  have hgive := h.give ht hslot hq hpages
  have hnone := h.booting.main t k (by simp [Machine.kind, ht]) hk
  subst hnone
  refine ⟨hgive.slots, hgive.booting.advance ?_ (fun he => absurd he hearly) hne, hgive.account.total,
    hgive.account.safe⟩
  simp [Machine.kind, Machine.setProc]

end Returns

theorem Inv.finishKvmalloc (h : Inv m own) {d : Pgdir}
    (ht : m.calls t = some ⟨.kvmalloc, .ret d⟩) :
    Inv ({ m with calls := update m.calls t none }.finish cfg t .kvmalloc d) (update own t 0) := by
  have hkind : m.kind t = some .kvmalloc := by simp [Machine.kind, ht]
  have hboot := h.booting.kvmalloc t hkind
  have hnone := h.booting.main t _ hkind trivial
  have hcall := h.booting.call (t := t) (c := none) (by rintro _ ⟨⟩) (by rintro ⟨⟩)
  refine ⟨?_, ?_, ?_⟩
  · rw [kind_update (m := m) (t := t) (c := none) rfl]
    exact h.slots.call (by rintro _ ⟨⟩)
  · rw [kind_update (m := m) (t := t) (c := none) rfl]
    refine ⟨h.booting.nodup, fun _ => h.booting.early (hboot ▸ trivial), by rintro ⟨⟩, hcall.main, ?_⟩
    intro t' ht'
    have hnone' := hcall.main t' _ ht' trivial
    rw [hnone', ← hnone, Option.map_none, Function.update_self] at ht'
    cases ht'
  · refine h.account.update (c := none) rfl rfl rfl ?_
    rw [(h.account.own_of_ret ht).1]
    simp only [Machine.finish, Machine.held, h.booting.kpgdir hboot, Kind.pages, Option.elim_some,
      Option.elim_none]
    abel

theorem Inv.finishExec (h : Inv m own) {r : Option (Pgdir × Nat)}
    (ht : m.calls t = some ⟨.exec curproc, .ret r⟩) :
    ∃ own', Inv ({ m with calls := update m.calls t none }.finish cfg t (.exec curproc) r) own' := by
  obtain ⟨hown, hfits⟩ := h.account.own_of_ret ht
  cases r with
  | none => exact ⟨_, h.leave ht rfl rfl rfl rfl rfl rfl (add_zero _).symm⟩
  | some r =>
    obtain ⟨d, sz⟩ := r
    have hidem : ∀ c : Option Call, update (update m.calls t none) t c = update m.calls t c :=
      fun c => Function.update_idem _ _ _
    simp only [Machine.finish]
    split
    · next hnone =>
      refine ⟨_, h.exchange (hidem _) (by rintro _ ⟨⟩; rfl) (by rintro _ ⟨⟩; exact False.elim)
        rfl rfl rfl rfl (wp_panic _) rfl⟩
    · next old hold =>
      -- the directory of the process is exchanged, and the call frees the old one
      have hq : ({ m.procs curproc with pgdir := some d, sz := sz } : Proc).Ok := by
        refine ⟨?_, hfits d sz rfl⟩
        intro hu
        rw [((h.slots.ok curproc).unused hu).2] at hold
        cases hold
      refine ⟨update own t old.pages, ?_, ?_, ?_⟩
      · rw [kind_update (m := m) (hidem (some ⟨.freevm, freevm old⟩))]
        exact h.slots.change (h.slots.free_of_pgdir hold) hq (by rintro _ _ ⟨⟩ ⟨⟩)
      · rw [kind_update (m := m) (hidem (some ⟨.freevm, freevm old⟩))]
        exact h.booting.call (by rintro _ ⟨⟩ ⟨⟩) (by rintro ⟨⟩)
      · refine h.account.update (hidem (some ⟨.freevm, freevm old⟩)) ?_ rfl ?_
        · exact Alloc.wp_mono (freevm_spec old) (fun _ _ hown => ⟨hown, trivial⟩)
        · have hheld := held_setProc m curproc { m.procs curproc with pgdir := some d, sz := sz }
          change (m.freelist : Multiset Page) + (m.setProc curproc _).held + old.pages = _
          simp only [Proc.pages, hold, Option.elim_some] at hheld
          rw [hown]
          simp only [Kind.pages, Option.elim_some]
          ext x
          have hheld' := congrArg (Multiset.count x) hheld
          simp only [Multiset.count_add] at hheld' ⊢
          omega

theorem Inv.finish (h : Inv m own) {r : k.Result} (ht : m.calls t = some ⟨k, .ret r⟩) :
    ∃ own', Inv ({ m with calls := update m.calls t none }.finish cfg t k r) own' := by
  cases k with
  | kvmalloc => exact ⟨_, h.finishKvmalloc ht⟩
  | startothers =>
    refine ⟨_, h.leave ht rfl rfl rfl rfl rfl rfl ?_⟩
    change Option Page at r
    cases r with
    | none => exact (add_zero _).symm
    | some p =>
      simp only [Machine.finish, Machine.held, Option.toList_some, List.singleton_append,
        ← Multiset.cons_coe, ← Multiset.singleton_add, Kind.pages, Option.elim_some]
      abel
  | userinit p =>
    have hres := h.reserved ht rfl
    have hq : ({ m.procs p with kstack := some r.1, pgdir := some r.2 } : Proc).Ok :=
      ⟨fun hu => absurd hu hres.state, (h.slots.ok p).sz⟩
    refine ⟨_, h.giveMain ht trivial rfl hq ?_ id (by rintro ⟨⟩)⟩
    simp [Proc.pages, hres.pgdir, hres.kstack trivial, Kind.pages]
  | inituvm p =>
    have hres := h.reserved ht rfl
    have hq : ({ m.procs p with state := .runnable, pgdir := some r, sz := PGSIZE } : Proc).Ok :=
      ⟨by rintro ⟨⟩, show PGSIZE ≤ KERNBASE by decide⟩
    refine ⟨_, h.giveMain ht trivial rfl hq ?_ id (by rintro ⟨⟩)⟩
    simp only [Proc.pages, hres.pgdir, Kind.pages, Option.elim_none, add_zero]
    rfl
  | fork np curproc sz =>
    have hres := h.reserved ht rfl
    change Option (Page × Pgdir) at r
    cases r with
    | none =>
      refine ⟨_, h.give ht rfl ⟨fun _ => ⟨hres.kstack trivial, hres.pgdir⟩, (h.slots.ok np).sz⟩ ?_⟩
      exact (add_zero _).symm
    | some r =>
      refine ⟨_, h.give ht rfl ⟨by rintro ⟨⟩, (h.account.own_of_ret ht).2⟩ ?_⟩
      simp [Proc.pages, hres.pgdir, hres.kstack trivial, Kind.pages]
  | exec curproc => exact h.finishExec ht
  | freevm => exact ⟨_, h.leave ht rfl rfl rfl rfl rfl rfl (add_zero _).symm⟩
  | growproc curproc =>
    have hres := h.reserved ht rfl
    refine ⟨_, h.give ht rfl ⟨fun hu => absurd hu hres.state, (h.account.own_of_ret ht).2⟩ ?_⟩
    simp [Proc.pages, hres.pgdir, Kind.pages]
  | wait p =>
    have hres := h.reserved ht rfl
    refine ⟨_, h.give ht rfl ⟨fun _ => ⟨hres.kstack trivial, hres.pgdir⟩, (h.slots.ok p).sz⟩ ?_⟩
    exact (add_zero _).symm
  | pipealloc =>
    refine ⟨_, h.leave ht ?_ ?_ ?_ ?_ ?_ ?_ ?_⟩
    all_goals
      change Option Page at r
      cases r
    all_goals first | rfl | skip
    · exact (add_zero _).symm
    · exact held_pipes
  | pipeclose => exact ⟨_, h.leave ht rfl rfl rfl rfl rfl rfl (add_zero _).symm⟩

/-! ### Runs -/

theorem Inv.next (h : Inv m own) {code code' : Routine Page k.Result} {fail : Bool}
    {fl : List Page} (ht : m.calls t = some ⟨k, code⟩)
    (hrefused : code.refused fail m.freelist → k.MayFail)
    (hs : code.step fail m.freelist = some (code', fl)) :
    ∃ own', Inv ({ m with freelist := fl }.call t k code') own' := by
  have hkind : m.kind t = some k := by simp [Machine.kind, ht]
  have hsafe := h.account.safe t
  rw [ht] at hsafe
  obtain ⟨o, hwp, hfl⟩ := wp_step hsafe hrefused hs
  have hsame : update m.kind t (some k) = m.kind := by rw [← hkind, Function.update_eq_self]
  have hcalls : ({ m with freelist := fl }.call t k code').kind = m.kind :=
    (kind_update (m := m) (t := t) (c := some ⟨k, code'⟩) rfl).trans hsame
  refine ⟨update own t o, ?_, ?_, ?_⟩
  · rw [hcalls]
    exact h.slots
  · rw [hcalls]
    exact h.booting
  · refine h.account.update (c := some ⟨k, code'⟩) rfl hwp rfl ?_
    change (fl : Multiset Page) + m.held + o = _
    rw [add_right_comm, hfl, add_right_comm]

theorem Inv.step (h : Inv m own) {e : Event} (he : initRefused m e = false)
    (hs : step cfg m e = some m') : ∃ own', Inv m' own' := by
  have hstart : ∀ p, e.starts = some p →
      (if (m.calls (some p)).isNone ∧ (m.procs p).state = .runnable then m.start cfg e else none) =
        some m' → ∃ own', Inv m' own' := by
    intro p hp hs
    split_ifs at hs with hready
    exact h.start hp (Option.isNone_iff_eq_none.mp hready.1) hs
  cases e with
  | boot =>
    simp only [Vm.step] at hs
    split_ifs at hs with hidle
    exact h.bootNext (Option.isNone_iff_eq_none.mp hidle) hs
  | next t fail =>
    simp only [Vm.step] at hs
    split at hs
    · cases hs
    · next k code ht =>
      split at hs
      · cases hs
      · next code' fl hcode =>
        cases hs
        refine h.next ht ?_ hcode
        intro hrefused
        cases k with
        | inituvm p =>
          simp only [initRefused, ht] at he
          rw [he] at hrefused
          cases hrefused
        | _ => trivial
  | ret t =>
    simp only [Vm.step] at hs
    split at hs
    · next k r ht =>
      cases hs
      exact h.finish ht
    · cases hs
  | fork p => exact hstart p rfl hs
  | exec p image => exact hstart p rfl hs
  | growproc p n => exact hstart p rfl hs
  | exit p => exact hstart p rfl hs
  | wait p => exact hstart p rfl hs
  | pipealloc p f0 f1 => exact hstart p rfl hs
  | pipeclose p pipe writable => exact hstart p rfl hs

end Xv6.Vm
