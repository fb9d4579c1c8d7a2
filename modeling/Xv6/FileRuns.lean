import Xv6.FileEnds
import Xv6.Run

/-!
# Runs of the file table

The references and the ends of pipes are kept by every step, so they hold in every state that a
run reaches. `Homes` ties the calls to the process table: slots that are not in use have no open
files, except those that a `fork` in progress has copied so far.
-/

namespace Xv6.Ftable

open Function
open Ptable (Slot Table Event Thread)

variable {k k' : Kernel} {p q np : Slot} {f g : FileId} {fd : Fd} {o : Fd → Option FileId} {v : Pc}
  {c : Nat} {t : Table} {e : Event}

/-- The descriptors below this one have been closed by `exit`. -/
def Pc.cleared : Pc → Nat
  | .exit fd => fd
  | .close _ (.exit fd) => fd
  | .closed _ (.exit fd) => fd
  | _ => 0

structure Homes (k : Kernel) : Prop where
  sound : (k.table.tree []).Sound
  user : ∀ p, ¬ (k.table.proc p).state.active → k.call p = .user
  forking : ∀ p i, k.call p = .fork i → ∃ np, (k.table.proc p).thread = .forking np
  forked : ∀ p np, (k.table.proc p).thread = .forking np →
    k.call p = .user ∨ ∃ i, k.call p = .fork i
  cleared : ∀ p fd, fd.val < (k.call p).cleared → k.ofile p fd = none
  empty : ∀ i fd, ¬ (k.table.proc i).state.active → k.ofile i fd ≠ none →
    ∃ p j, (k.table.proc p).thread = .forking i ∧ k.call p = .fork j ∧ fd.val < j

theorem Homes.embryo (h : Homes k) (hth : (k.table.proc p).thread = .forking np) :
    ¬ (k.table.proc np).state.active := by
  have hstate : (k.table.proc np).state = .embryo := (h.sound.threads.forking p np hth).2.1
  simp [hstate, Ptable.ProcState.active]

theorem Homes.filled (h : Homes k) (hth : (k.table.proc p).thread = .forking np)
    (hne : k.ofile np fd ≠ none) : ∃ j, k.call p = .fork j ∧ fd.val < j := by
  obtain ⟨q, j, hq, hqcall, hlt⟩ := h.empty np fd (h.embryo hth) hne
  obtain rfl : q = p := h.sound.threads.forkInj q p np hq hth
  exact ⟨j, hqcall, hlt⟩

/-- The slot of the new process is embryonic, so only the `fork` writes to it. -/
theorem Homes.forkReady (h : Homes k) (p : Slot) : ForkReady k p := by
  intro np fd hth hcall
  have huser := h.user np (h.embryo hth)
  refine ⟨?_, huser, ?_⟩
  · rintro rfl
    simp [hcall] at huser
  · by_contra hne
    obtain ⟨j, hj, hlt⟩ := h.filled hth hne
    have heq : fd.val = j := by simpa [hcall] using hj
    omega

/-! ### Steps of a call -/

theorem Homes.active (h : Homes k) (hc : k.table.cpu c = some p) : (k.table.proc p).state.active :=
  Or.inr (Or.inr (h.sound.threads.running c p hc))

/-- Process `p`, which is in use, goes to `v`. -/
theorem Homes.called (h : Homes k) (hact : (k.table.proc p).state.active)
    (htable : k'.table = k.table) (hcall : k'.call = update k.call p v)
    (hfork : ∀ i, v = .fork i → ∃ np, (k.table.proc p).thread = .forking np)
    (hforked : ∀ np, (k.table.proc p).thread = .forking np → ∃ i, v = .fork i)
    (hown : ∀ fd : Fd, fd.val < v.cleared → k'.ofile p fd = none)
    (hothers : ∀ q fd, q ≠ p → k.ofile q fd = none → 0 < (k.call q).cleared → k'.ofile q fd = none)
    (hempty : ∀ i fd, ¬ (k.table.proc i).state.active → k'.ofile i fd ≠ none →
      (∃ j, (k.table.proc p).thread = .forking i ∧ v = .fork j ∧ fd.val < j) ∨
      (k.table.proc p).thread ≠ .forking i ∧ k.ofile i fd ≠ none) : Homes k' := by
  have hself : k'.call p = v := by rw [hcall, update_self]
  have hother : ∀ q, q ≠ p → k'.call q = k.call q := by
    intro q hq
    rw [hcall, update_of_ne hq]
  refine ⟨htable ▸ h.sound, fun q hq => ?_, fun q i hq => ?_, fun q np hq => ?_, fun q fd hq => ?_,
    fun i fd hi hne => ?_⟩
  · rw [htable] at hq
    rw [hother q (fun hqp => hq (hqp ▸ hact))]
    exact h.user q hq
  · rw [htable]
    rcases eq_or_ne q p with rfl | hqp
    · exact hfork i (hself.symm.trans hq)
    · exact h.forking q i (hother q hqp ▸ hq)
  · rw [htable] at hq
    rcases eq_or_ne q p with rfl | hqp
    · exact Or.inr (hself ▸ hforked np hq)
    · rw [hother q hqp]
      exact h.forked q np hq
  · rcases eq_or_ne q p with rfl | hqp
    · exact hown fd (hself ▸ hq)
    · rw [hother q hqp] at hq
      exact hothers q fd hqp (h.cleared q fd hq) (Nat.zero_lt_of_lt hq)
  · rw [htable] at hi ⊢
    rcases hempty i fd hi hne with ⟨j, hth, hv, hlt⟩ | ⟨hth, hold⟩
    · exact ⟨p, j, hth, hself.trans hv, hlt⟩
    · obtain ⟨q, j, hq, hqcall, hlt⟩ := h.empty i fd hi hold
      have hqp : q ≠ p := by
        rintro rfl
        exact hth hq
      exact ⟨q, j, hq, (hother q hqp).trans hqcall, hlt⟩

theorem Homes.moved (h : Homes k) (hc : k.table.cpu c = some p)
    (hth : ∀ np, (k.table.proc p).thread ≠ .forking np) (hm : Moved k k' p o v)
    (hclear : ∀ fd : Fd, fd.val < v.cleared → o fd = none) (hv : ∀ i, v ≠ .fork i := by simp) :
    Homes k' := by
  refine h.called (h.active hc) hm.table hm.call (fun i hi => absurd hi (hv i))
    (fun np hnp => absurd hnp (hth np)) ?_ ?_ ?_
  · rwa [hm.ofile, update_self]
  · intro q fd hqp hnone _
    rwa [hm.ofile, update_of_ne hqp]
  · intro i fd hi hne
    have hip : i ≠ p := fun hip => hi (hip ▸ h.active hc)
    rw [hm.ofile, update_of_ne hip] at hne
    exact Or.inr ⟨hth i, hne⟩

theorem Homes.plain (h : Homes k) (hc : k.table.cpu c = some p)
    (hth : ∀ np, (k.table.proc p).thread ≠ .forking np) (hm : Moved k k' p o v)
    (hv : ∀ i, v ≠ .fork i := by simp) (hclear : v.cleared = 0 := by rfl) : Homes k' :=
  h.moved hc hth hm (fun fd hlt => absurd hlt (by omega)) hv

theorem Homes.not_forking (h : Homes k) (hcall : k.call p = v)
    (hv : v ≠ .user ∧ ∀ i, v ≠ .fork i := by simp) (np : Slot) :
    (k.table.proc p).thread ≠ .forking np := by
  intro hth
  rcases h.forked p np hth with huser | ⟨i, hfork⟩
  · exact hv.1 (hcall.symm.trans huser)
  · exact hv.2 i (hcall.symm.trans hfork)

theorem cleared_after {a : After} (h : ∀ fd : Fd, fd.val < (Pc.closed {} a).cleared → o fd = none) :
    ∀ fd : Fd, fd.val < a.pc.cleared → a.files o fd = none := by
  intro fd hlt
  cases a with
  | done r => exact absurd hlt (Nat.not_lt_zero _)
  | close f => exact absurd hlt (Nat.not_lt_zero _)
  | exit fd' =>
    simp only [After.files]
    rcases eq_or_ne fd fd' with rfl | hne
    · rw [update_self]
    · rw [update_of_ne hne]
      refine h fd ?_
      have hval : fd.val ≠ fd'.val := fun heq => hne (Fin.ext heq)
      simp only [After.pc, Pc.cleared] at hlt ⊢
      omega

theorem after_ne_fork (a : After) (i : Nat) : a.pc ≠ .fork i := by
  cases a <;> simp [After.pc]

namespace Homes

variable (h : Homes k)
include h

theorem fileclose {a : After} (hr : Refs k) (hc : k.table.cpu c = some p)
    (hcall : k.call p = .close f a) : Homes (k.fileclose p f a) := by
  have hth := h.not_forking hcall
  have hclear : ∀ (ff : File) (fd : Fd), fd.val < (Pc.closed ff a).cleared →
      k.ofile p fd = none := by
    intro ff fd hlt
    refine h.cleared p fd ?_
    rw [hcall]
    cases a <;> exact hlt
  rcases (hr.fileclose hcall).1.lt_or_eq with hmore | hlast
  · rw [fileclose_more hmore]
    exact h.moved hc hth ((moved_resume _ p a).from rfl rfl rfl) (cleared_after (hclear {}))
      (after_ne_fork a)
  · rw [fileclose_last hlast.symm]
    exact h.moved hc hth ((moved_goto _ p _).from rfl rfl rfl) (hclear _)

theorem closeLast {ff : File} {a : After} (hc : k.table.cpu c = some p)
    (hcall : k.call p = .closed ff a) : Homes (k.closeLast p ff a) := by
  have hth := h.not_forking hcall
  have hclear : ∀ fd : Fd, fd.val < (Pc.closed {} a).cleared → k.ofile p fd = none := by
    intro fd hlt
    refine h.cleared p fd ?_
    rw [hcall]
    cases a <;> exact hlt
  have hresume : ∀ k₁ : Kernel, k₁.table = k.table → k₁.ofile = k.ofile → k₁.call = k.call →
      Homes (k₁.resume p a) := by
    intro k₁ htable hofile hcall₁
    refine h.moved hc hth ((moved_resume k₁ p a).from htable hofile hcall₁) ?_ (after_ne_fork a)
    rw [hofile]
    exact cleared_after hclear
  simp only [Kernel.closeLast]
  split
  · split
    · exact ⟨h.sound, h.user, h.forking, h.forked, h.cleared, h.empty⟩
    · next k₁ hk₁ =>
      obtain ⟨htable, hofile, hcall₁, -⟩ := pipeclose_frame hk₁
      exact hresume k₁ htable hofile hcall₁
  · exact hresume k rfl rfl rfl
  · exact hresume k rfl rfl rfl

theorem forkMoved {i : Nat} (hth : (k.table.proc p).thread = .forking np)
    (htable : k'.table = k.table) (hofile : k'.ofile = update k.ofile np o)
    (hcall' : k'.call = update k.call p (.fork i))
    (hfill : ∀ fd : Fd, o fd ≠ none → fd.val < i) : Homes k' := by
  refine h.called (Or.inr (h.sound.threads.forking p np hth).1.symm) htable hcall'
    (fun _ _ => ⟨np, hth⟩) (fun _ _ => ⟨i, rfl⟩) nofun ?_ ?_
  · intro q fd hqp hnone hpos
    have hqnp : q ≠ np := by
      rintro rfl
      simp [h.user q (h.embryo hth), Pc.cleared] at hpos
    rwa [hofile, update_of_ne hqnp]
  · intro j fd hj hne
    rcases eq_or_ne j np with rfl | hjnp
    · rw [hofile, update_self] at hne
      exact Or.inl ⟨i, hth, rfl, hfill fd hne⟩
    · rw [hofile, update_of_ne hjnp] at hne
      exact Or.inr ⟨fun hj => hjnp (Thread.forking.inj (hj.symm.trans hth)), hne⟩

theorem forkFile (hr : Refs k) (hth : (k.table.proc p).thread = .forking np)
    (hcall : k.call p = .fork fd.val) : Homes (k.forkFile p np fd) := by
  have hold : ∀ fd' : Fd, k.ofile np fd' ≠ none → fd'.val < fd.val + 1 := by
    intro fd' hne
    obtain ⟨j, hj, hlt⟩ := h.filled hth hne
    have heq : fd.val = j := by simpa [hcall] using hj
    omega
  simp only [Kernel.forkFile]
  split
  · exact h.forkMoved hth rfl (update_eq_self np _).symm rfl hold
  · next f hf =>
    have hown : 1 ≤ k.own p f := by
      rw [own_of_call hcall]
      exact refsOf_slot rfl hf
    rw [filedup_eq (hr.ref_pos hown)]
    refine h.forkMoved hth rfl rfl rfl ?_
    intro fd' hne
    rcases eq_or_ne fd' fd with rfl | hfd
    · exact Nat.lt_succ_self _
    · rw [update_of_ne hfd] at hne
      exact hold fd' hne

theorem forkStart (hth : (k.table.proc p).thread = .forking np)
    (hcall : k.call p = .user) : Homes (k.goto p (.fork 0)) := by
  refine h.forkMoved hth rfl (update_eq_self np _).symm rfl ?_
  intro fd hne
  obtain ⟨j, hj, -⟩ := h.filled hth hne
  simp [hcall] at hj

theorem enter (hc : k.table.cpu c = some p)
    (huser : (k.table.proc p).thread = .user) (call : Syscall) : Homes (k.enter p call) := by
  have hth : ∀ np, (k.table.proc p).thread ≠ .forking np := by simp [huser]
  have hfinish : ∀ r, Homes (k.finish p r) :=
    fun r => h.plain hc hth (moved_finish k p r)
  cases call with
  | «open» ip omode =>
    cases ip with
    | none => exact hfinish _
    | some ip => exact h.plain hc hth (moved_goto k p _)
  | dup n =>
    simp only [Kernel.enter]
    split
    · exact hfinish _
    · split
      · exact hfinish _
      · exact h.plain hc hth (moved_files k p _ _)
  | close n =>
    simp only [Kernel.enter]
    split
    · exact hfinish _
    · exact h.plain hc hth (moved_files k p _ _)
  | pipe | exit => exact h.plain hc hth (moved_goto k p _)

theorem exitFile (hc : k.table.cpu c = some p)
    (hcall : k.call p = .exit fd.val) : Homes (k.exitFile p fd) := by
  have hth := h.not_forking hcall
  have hclear : ∀ fd' : Fd, fd'.val < fd.val → k.ofile p fd' = none := by
    intro fd' hlt
    refine h.cleared p fd' ?_
    rw [hcall]
    exact hlt
  simp only [Kernel.exitFile]
  split
  · next hnone =>
    refine h.moved hc hth (moved_goto k p _) ?_
    intro fd' hlt
    rcases eq_or_ne fd' fd with rfl | hne
    · exact hnone
    · have hval : fd'.val ≠ fd.val := fun heq => hne (Fin.ext heq)
      have hlt' : fd'.val < fd.val + 1 := hlt
      exact hclear fd' (by omega)
  · exact h.moved hc hth (moved_goto k p _) hclear

theorem next {page : Option Nat} (hr : Refs k) (hc : k.table.cpu c = some p)
    (hk : k.next p page = some k') : Homes k' := by
  simp only [Kernel.next] at hk
  split at hk
  · next hcall =>
    split at hk
    · next np hth =>
      cases hk
      exact h.forkStart hth hcall
    · cases hk
  · next fd0 fd f hcall =>
    have hth := h.not_forking hcall
    rw [filedup_eq (hr.dup hcall).1] at hk
    cases hk
    exact h.plain hc hth ((moved_finish _ p _).from rfl rfl rfl)
  · next f a hcall =>
    cases hk
    exact h.fileclose hr hc hcall
  · next ff a hcall =>
    cases hk
    exact h.closeLast hc hcall
  · next ip omode hcall =>
    have hth := h.not_forking hcall
    cases hk
    simp only [Kernel.openFile]
    split
    · exact h.plain hc hth (moved_finish k p _)
    · split
      · exact h.plain hc hth ((moved_goto _ p _).from rfl rfl rfl)
      · exact h.plain hc hth ((moved_files _ p _ _).from rfl rfl rfl)
  · next fd f ip omode hcall =>
    have hth := h.not_forking hcall
    cases hk
    exact h.plain hc hth ((moved_finish _ p _).from rfl rfl rfl)
  · next hcall =>
    have hth := h.not_forking hcall
    split at hk
    · cases hk
      exact h.plain hc hth (moved_finish k p _)
    · cases hk
      exact h.plain hc hth ((moved_goto _ p _).from rfl rfl rfl)
  · next f0 hcall =>
    have hth := h.not_forking hcall
    split at hk
    · cases hk
      exact h.plain hc hth (moved_goto k p _)
    · cases hk
      exact h.plain hc hth ((moved_goto _ p _).from rfl rfl rfl)
  · next f0 f1 hcall =>
    have hth := h.not_forking hcall
    cases page with
    | none =>
      cases hk
      exact h.plain hc hth (moved_goto k p _)
    | some page =>
      simp only [Kernel.pipeInit] at hk
      split_ifs at hk
      cases hk
      exact h.plain hc hth ((moved_goto _ p _).from rfl rfl rfl)
  · next rf wf hcall =>
    have hth := h.not_forking hcall
    cases hk
    simp only [Kernel.pipeFds]
    split
    · exact h.plain hc hth (moved_goto k p _)
    · split
      · exact h.plain hc hth (moved_files k p _ _)
      · next o' _ =>
        have hm : Moved k ((k.setFiles p o').finish p 0) p o' .user := ⟨rfl, rfl, rfl⟩
        exact h.plain hc hth hm
  · next i hcall =>
    split at hk
    · next np hth =>
      split_ifs at hk with hi
      cases hk
      exact @Homes.forkFile k p np ⟨i, hi⟩ h hr hth hcall
    · cases hk
  · next fd hcall =>
    split_ifs at hk with hfd
    cases hk
    exact @Homes.exitFile k p ⟨fd, hfd⟩ c h hc hcall

end Homes

/-! ### Events of the process table -/

theorem Homes.procDone_call (h : Homes k) (hfits : k.Fits e) (q : Slot) :
    (k.procDone e t).call q = k.call q ∨ (k.procDone e t).call q = .user ∧
      ∃ c, k.table.cpu c = some q ∧ (e = .forkDone c ∨ e = .exit c) := by
  have hcallOn : ∀ {c : Nat} {p : Slot} {v : Pc}, k.table.cpu c = some p →
      k.callOn c = some v → k.call p = v := by
    intro c p v hc hv
    simpa [Kernel.callOn, hc] using hv
  -- a return to user level of a process that is there already
  have hkeep : ∀ {k' : Kernel} {p : Slot} (r : Int), k'.call = k.call → k.call p = .user →
      (k'.finish p r).call q = k.call q := by
    intro k' p r hk' hp
    simp only [Kernel.finish, Kernel.goto, hk']
    rw [← hp, update_eq_self]
  cases e with
  | fork c =>
    have huser := hfits (c, .user) rfl
    simp only [Kernel.procDone]
    split
    · next p hc =>
      split_ifs
      · exact Or.inl (hkeep _ (by rfl) (hcallOn hc huser))
      · exact Or.inl rfl
    · exact Or.inl rfl
  | forkFail c =>
    have huser := hfits (c, .user) rfl
    simp only [Kernel.procDone]
    split
    · next p hc => exact Or.inl (hkeep _ (by rfl) (hcallOn hc huser))
    · exact Or.inl rfl
  | forkDone c =>
    simp only [Kernel.procDone]
    split
    · next p hc =>
      split
      · next np hth =>
        have hnp := h.user np (h.embryo hth)
        rcases eq_or_ne q p with rfl | hqp
        · exact Or.inr ⟨update_self _ _ _, c, hc, Or.inl rfl⟩
        · have hstep := @hkeep { k with table := t } np 0 rfl hnp
          simp only [Kernel.finish, Kernel.goto] at hstep ⊢
          exact Or.inl ((update_of_ne hqp _ _).trans hstep)
      · exact Or.inl rfl
    · exact Or.inl rfl
  | exit c =>
    simp only [Kernel.procDone]
    split
    · next p hc =>
      rcases eq_or_ne q p with rfl | hqp
      · exact Or.inr ⟨update_self _ _ _, c, hc, Or.inr rfl⟩
      · exact Or.inl (update_of_ne hqp _ _)
    · exact Or.inl rfl
  | _ => exact Or.inl rfl

/-- An event of the process table leaves everything else alone. -/
structure SameData (k k' : Kernel) : Prop where
  ofile : k'.ofile = k.ofile
  file : k'.file = k.file
  pipe : k'.pipe = k.pipe
  panicked : k'.panicked = k.panicked
  history : k'.history = k.history

theorem procDone_same (k : Kernel) (e : Event) (t : Table) :
    SameData k (k.procDone e t) ∧ (k.procDone e t).table = t := by
  unfold Kernel.procDone
  (repeat' split) <;> exact ⟨⟨rfl, rfl, rfl, rfl, rfl⟩, rfl⟩

/-- A process that is between calls or at the end of the loops of `fork` and `exit`. -/
def Pc.atRest (v : Pc) : Prop := v = .user ∨ v = .fork NOFILE ∨ v = .exit NOFILE

theorem Homes.procDone_atRest (h : Homes k) (hfits : k.Fits e) (q : Slot) :
    (k.procDone e t).call q = k.call q ∨ (k.procDone e t).call q = .user ∧ (k.call q).atRest := by
  rcases h.procDone_call hfits q with heq | ⟨huser, c, hc, he⟩
  · exact Or.inl heq
  · refine Or.inr ⟨huser, ?_⟩
    rcases he with rfl | rfl
    · have hfit := hfits (c, .fork NOFILE) rfl
      exact Or.inr (Or.inl (by simpa [Kernel.callOn, hc] using hfit))
    · have hfit := hfits (c, .exit NOFILE) rfl
      exact Or.inr (Or.inr (by simpa [Kernel.callOn, hc] using hfit))

theorem Refs.procDone (h : Refs k) (hh : Homes k) (hfits : k.Fits e) : Refs (k.procDone e t) := by
  obtain ⟨hsame, -⟩ := procDone_same k e t
  have hrest : ∀ {v : Pc}, v.atRest → ∀ o, refsOf o v = refsOf o .user := by
    rintro v (rfl | rfl | rfl) o <;> rfl
  have hown : (k.procDone e t).own = k.own := by
    funext q
    rw [Kernel.own, Kernel.own, hsame.ofile]
    rcases hh.procDone_atRest hfits q with heq | ⟨huser, hr⟩
    · rw [heq]
    · rw [huser, hrest hr]
  refine ⟨?_, ?_, ?_, ?_⟩
  · rw [hown, hsame.file]
    exact h.counted
  · rw [hsame.file]
    exact h.unused
  · intro q
    rw [hsame.ofile]
    rcases hh.procDone_atRest hfits q with heq | ⟨huser, -⟩
    · rw [heq]
      exact h.shape q
    · rw [huser]
      exact True.intro
  · intro q g hg
    rw [hsame.file]
    rcases hh.procDone_atRest hfits q with heq | ⟨huser, -⟩
    · rw [heq] at hg
      exact h.fresh q g hg
    · rw [huser] at hg
      cases hg

theorem Pipes.procDone (h : Pipes k) (hh : Homes k) (hfits : k.Fits e) :
    Pipes (k.procDone e t) := by
  obtain ⟨hsame, -⟩ := procDone_same k e t
  refine h.same_ends ?_ ?_ hsame.pipe hsame.history
  · intro f
    rw [hsame.file]
  · intro q
    rcases hh.procDone_atRest hfits q with heq | ⟨huser, hrest⟩
    · rw [heq]
    · rw [huser]
      rcases hrest with hr | hr | hr <;> rw [hr] <;> rfl

/-- The process that begins, fails or finishes a `fork` is at user level afterwards. -/
theorem Homes.forker_user (h : Homes k) (hfits : k.Fits e) (hf : e.forker = some c)
    (hc : k.table.cpu c = some q) :
    (k.procDone e t).call q = .user ∧ ∀ j, k.call q = .fork j → e = .forkDone c := by
  have hcallOn : ∀ {v : Pc}, k.callOn c = some v → k.call q = v := by
    intro v hv
    simpa [Kernel.callOn, hc] using hv
  have hstay : k.call q = .user → (k.procDone e t).call q = .user := by
    intro hu
    rcases h.procDone_call hfits q with heq | ⟨huser, -⟩
    · exact heq.trans hu
    · exact huser
  cases e with
  | fork c' | forkFail c' =>
    obtain rfl : c' = c := Option.some.inj hf
    have hu := hcallOn (hfits (c', .user) rfl)
    exact ⟨hstay hu, fun j hj => by simp [hu] at hj⟩
  | forkDone c' =>
    obtain rfl : c' = c := Option.some.inj hf
    refine ⟨?_, fun _ _ => rfl⟩
    simp only [Kernel.procDone, hc]
    have hfork := hcallOn (hfits (c', .fork NOFILE) rfl)
    obtain ⟨np, hth⟩ := h.forking q NOFILE hfork
    rw [hth]
    exact update_self _ _ _
  | _ => cases hf

theorem step_forkDone (h : Ptable.step k.table (.forkDone c) = some t) (hc : k.table.cpu c = some p)
    (hth : (k.table.proc p).thread = .forking np) : (t.proc np).state.active := by
  obtain ⟨q, nq, hq, hthq, rfl⟩ := Ptable.infork_eq h
  obtain rfl : q = p := Option.some.inj (hq.symm.trans hc)
  obtain rfl : nq = np := Thread.forking.inj (hthq.symm.trans hth)
  rcases eq_or_ne nq q with rfl | hne
  · simp [Table.set, Ptable.forkDone, Ptable.ProcState.active]
  · simp [Table.set, Ptable.forkDone, hne, Ptable.ProcState.active]

theorem Homes.procDone (h : Homes k) (hfits : k.Fits e) (hs : Ptable.step k.table e = some t) :
    Homes (k.procDone e t) := by
  obtain ⟨hsame, htable⟩ := procDone_same k e t
  have hkept := Ptable.kept_step h.sound hs
  have hexit : ∀ {c : Nat} {i : Slot}, e = .exit c → k.table.cpu c = some i →
      k.call i = .exit NOFILE ∧ (k.procDone e t).call i = .user := by
    rintro c i rfl hc
    have hfit := hfits (c, .exit NOFILE) rfl
    refine ⟨by simpa [Kernel.callOn, hc] using hfit, ?_⟩
    simp only [Kernel.procDone, hc]
    exact update_self _ _ _
  -- the processes whose thread enters or leaves a `fork`
  have hfork : ∀ q, (∃ c, e.forker = some c ∧ k.table.cpu c = some q) ∨
      Ptable.SameFork (k.table.proc q) (t.proc q) := by
    intro q
    by_cases hq : ∃ c, e.forker = some c ∧ k.table.cpu c = some q
    · exact Or.inl hq
    · exact Or.inr ((hkept q).fork (fun c hf hc => hq ⟨c, hf, hc⟩))
  refine ⟨?_, ?_, ?_, ?_, ?_, ?_⟩
  · rw [htable]
    exact Ptable.sound_reaped (Ptable.step_sound h.sound hs)
  · intro q hq
    rw [htable] at hq
    by_cases he : ∃ c, e = .exit c ∧ k.table.cpu c = some q
    · obtain ⟨c, he, hc⟩ := he
      exact (hexit he hc).2
    · have hold : ¬ (k.table.proc q).state.active :=
        fun ha => hq ((hkept q).active (fun c hec hc => he ⟨c, hec, hc⟩) ha)
      rcases h.procDone_call (t := t) hfits q with heq | ⟨huser, -⟩
      · exact heq.trans (h.user q hold)
      · exact huser
  · intro q j hq
    rw [htable]
    have hold : k.call q = .fork j := by
      rcases h.procDone_call (t := t) hfits q with heq | ⟨huser, -⟩
      · exact heq.symm.trans hq
      · simp [huser] at hq
    obtain ⟨np, hth⟩ := h.forking q j hold
    rcases hfork q with ⟨c, hf, hc⟩ | hsf
    · simp [(h.forker_user (t := t) hfits hf hc).1] at hq
    · exact ⟨np, (hsf np).mpr hth⟩
  · intro q np hth
    rw [htable] at hth
    rcases hfork q with ⟨c, hf, hc⟩ | hsf
    · exact Or.inl (h.forker_user hfits hf hc).1
    · rcases h.procDone_call (t := t) hfits q with heq | ⟨huser, -⟩
      · rw [heq]
        exact h.forked q np ((hsf np).mp hth)
      · exact Or.inl huser
  · intro q fd hlt
    rw [hsame.ofile]
    rcases h.procDone_call (t := t) hfits q with heq | ⟨huser, -⟩
    · rw [heq] at hlt
      exact h.cleared q fd hlt
    · rw [huser] at hlt
      exact absurd hlt (Nat.not_lt_zero _)
  · intro i fd hi hne
    rw [htable] at hi ⊢
    rw [hsame.ofile] at hne
    by_cases he : ∃ c, e = .exit c ∧ k.table.cpu c = some i
    · obtain ⟨c, he, hc⟩ := he
      have hclear : fd.val < (k.call i).cleared := by
        rw [(hexit he hc).1]
        exact fd.isLt
      exact absurd (h.cleared i fd hclear) hne
    · have hold : ¬ (k.table.proc i).state.active :=
        fun ha => hi ((hkept i).active (fun c hec hc => he ⟨c, hec, hc⟩) ha)
      obtain ⟨q, j, hth, hcall, hlt⟩ := h.empty i fd hold hne
      rcases hfork q with ⟨c, hf, hc⟩ | hsf
      · -- the `fork` is finished, and with it the new process is started
        obtain rfl := (h.forker_user (t := t) hfits hf hc).2 j hcall
        exact absurd (step_forkDone hs hc hth) hi
      · refine ⟨q, j, (hsf i).mpr hth, ?_, hlt⟩
        rcases h.procDone_call (t := t) hfits q with heq | ⟨-, c, hc, rfl | rfl⟩
        · exact heq.trans hcall
        · exact absurd (step_forkDone hs hc hth) hi
        · simp [(hexit rfl hc).1] at hcall

/-! ### Runs -/

structure Inv (k : Kernel) : Prop where
  homes : Homes k
  refs : Refs k
  pipes : Pipes k
  running : k.panicked = none

theorem kernelBoot_inv : Inv kernelBoot where
  homes := by
    refine ⟨Ptable.boot_sound [], fun _ _ => rfl, ?_, ?_, fun _ _ _ => rfl, ?_⟩
    · intro p i h
      cases h
    · intro p np h
      cases h
    · intro i fd _ h
      exact absurd rfl h
  refs := by
    refine ⟨?_, fun _ _ => rfl, fun _ => True.intro, ?_⟩
    · intro f
      have hown : ∀ p, kernelBoot.own p f = 0 := by
        intro p
        simp [Kernel.own, refsOf, visible, slotRefs, kernelBoot, Pc.uncounted, Pc.held]
      exact (Finset.sum_eq_zero (fun p _ => hown p)).symm
    · intro p f hf
      cases hf
  pipes := by
    refine ⟨?_, ?_, fun _ _ => rfl, fun _ => rfl⟩
    · intro page w
      simp [Kernel.holders, Kernel.isOpen, kernelBoot, File.pipeEnd, Pc.pipeEnd]
    · intro page e h
      cases h
  running := rfl

theorem step_inv {op : Op} (h : Inv k) (hk : k.step op = some k') : Inv k' := by
  cases op with
  | proc e =>
    simp only [Kernel.step] at hk
    split_ifs at hk with hif
    obtain ⟨t, ht, rfl⟩ := Option.map_eq_some_iff.mp hk
    exact ⟨h.homes.procDone hif.2 ht, h.refs.procDone h.homes hif.2,
      h.pipes.procDone h.homes hif.2, (procDone_same k e t).1.panicked.trans h.running⟩
  | enter c call =>
    simp only [Kernel.step] at hk
    split at hk
    · next p hc =>
      split_ifs at hk with hif
      cases hk
      obtain ⟨hrun, hth, hcall, -⟩ := hif
      obtain ⟨hpipes, hpanic⟩ := h.pipes.enter hcall call
      exact ⟨h.homes.enter hc hth call, h.refs.enter hcall call, hpipes, hpanic.trans hrun⟩
    · cases hk
  | next c page =>
    simp only [Kernel.step] at hk
    split at hk
    · next p hc =>
      split_ifs at hk with hrun
      obtain ⟨hpipes, hpanic⟩ := h.pipes.next h.refs hk
      exact ⟨h.homes.next h.refs hc hk, h.refs.next (h.homes.forkReady p) hk, hpipes,
        hpanic.trans hrun⟩
    · cases hk

/-- No call on files is in progress. -/
def Kernel.Idle (k : Kernel) : Prop :=
  ∀ p, k.call p = .user ∧ ∀ np, (k.table.proc p).thread ≠ .forking np

instance (k : Kernel) : Decidable k.Idle :=
  inferInstanceAs (Decidable (∀ p, k.call p = .user ∧ ∀ np, (k.table.proc p).thread ≠ .forking np))

/-- The descriptors of all processes that stand for a file. -/
def Kernel.descriptors (k : Kernel) (f : FileId) : Finset (Slot × Fd) :=
  Finset.univ.filter (fun x => k.ofile x.1 x.2 = some f)

/-- Some process has a descriptor for this end of the pipe. -/
def Kernel.Held (k : Kernel) (page : Nat) (w : Bool) : Prop :=
  ∃ f, (k.file f).pipeEnd = some (page, w) ∧ (k.descriptors f).Nonempty

theorem Refs.ref_eq_descriptors (h : Refs k) (hidle : k.Idle) (f : FileId) :
    (k.file f).ref = (k.descriptors f).card := by
  have hown : ∀ p, k.own p f = ∑ fd, one (k.ofile p fd) f := by
    intro p
    rw [own_of_call (hidle p).1, refsOf_counted rfl]
    simp [Pc.held, slotRefs]
  have href := h.counted f
  simp only [hown] at href
  rw [href, Kernel.descriptors, Finset.card_filter, Fintype.sum_prod_type]
  rfl

/-- Between calls an end that is open has a descriptor. -/
theorem Pipes.held (h : Pipes k) (hr : Refs k) (hidle : k.Idle) {page : Nat} {w : Bool}
    (hopen : k.isOpen page w = true) : k.Held page w := by
  have hends := h.holders page w
  have hcalls : ∀ p, one (k.call p).pipeEnd (page, w) = 0 := by
    intro p
    rw [(hidle p).1]
    rfl
  simp only [Kernel.holders, hcalls, Finset.sum_const_zero, add_zero, hopen,
    Bool.toNat_true] at hends
  obtain ⟨f, -, hf⟩ : ∃ f ∈ Finset.univ, one (k.file f).pipeEnd (page, w) ≠ 0 := by
    refine Finset.exists_ne_zero_of_sum_ne_zero ?_
    omega
  have hend : (k.file f).pipeEnd = some (page, w) := by
    by_contra hne
    exact hf (if_neg hne)
  refine ⟨f, hend, Finset.card_pos.mp ?_⟩
  rw [← hr.ref_eq_descriptors hidle f]
  -- a free file is no end of a pipe
  by_contra hzero
  have htype := hr.unused f (by omega)
  simp [File.pipeEnd, htype] at hend

theorem ftable_exact {ops : List Op} (h : run Kernel.step kernelBoot ops = some k) :
    k.panicked = none ∧
    (∀ f, (k.file f).ref = 0 → (k.file f).type = .none) ∧
    (k.Idle → ∀ f, (k.file f).ref = (k.descriptors f).card) ∧
    (∀ page w, (k.Held page w → k.isOpen page w = true) ∧
      (k.Idle → k.isOpen page w = true → k.Held page w)) ∧
    (∀ page w, k.history.count (.opened page) =
      k.history.count (.closed page w) + (k.isOpen page w).toNat) ∧
    (∀ page, k.history.count (.opened page) = k.history.count (.freed page) +
      (k.isOpen page false || k.isOpen page true).toNat) := by
  have hinv : Inv k := run_invariant Kernel.step (fun _ _ _ => step_inv) kernelBoot_inv h
  refine ⟨hinv.running, hinv.refs.unused, hinv.refs.ref_eq_descriptors, ?_, hinv.pipes.closed, ?_⟩
  · intro page w
    refine ⟨?_, fun hidle => hinv.pipes.held hinv.refs hidle⟩
    rintro ⟨f, hf, -⟩
    exact hinv.pipes.isOpen_of_file hf
  · intro page
    rw [hinv.pipes.freed page]
    congr 2
    cases hpipe : k.pipe page with
    | none => simp [Kernel.isOpen, hpipe]
    | some e =>
      rcases hinv.pipes.live page e hpipe with hread | hwrite
      · simp [Kernel.isOpen, hpipe, Ends.get, hread]
      · simp [Kernel.isOpen, hpipe, Ends.get, hwrite]

/-- The first process makes a pipe at page 7, forks, and closes the write end. -/
def pipeForked : List Op :=
  [[.proc .userinit, .proc .userinitDone, .proc (.schedule 0), .enter 0 .pipe, .next 0 none,
    .next 0 none, .next 0 (some 7), .next 0 none, .proc (.fork 0)],
    List.replicate 17 (.next 0 none),
    [.proc (.forkDone 0), .enter 0 (.close 1), .next 0 none]].flatten

theorem pipeForked_exact : ∃ k, run Kernel.step kernelBoot pipeForked = some k ∧ k.Idle ∧
    k.panicked = none ∧ (k.descriptors 0).card = 2 ∧ (k.descriptors 1).card = 1 := by
  have hrun : (run Kernel.step kernelBoot pipeForked).map
      (fun k => ((k.file 0).ref, (k.file 1).ref, decide k.Idle)) = some (2, 1, true) := by
    decide +kernel
  obtain ⟨k, hk, heq⟩ := Option.map_eq_some_iff.mp hrun
  obtain ⟨h0, h1, hidle⟩ : (k.file 0).ref = 2 ∧ (k.file 1).ref = 1 ∧ decide k.Idle = true := by
    simpa using heq
  obtain ⟨hpanic, -, hrefs, -⟩ := ftable_exact hk
  have hcount := hrefs (of_decide_eq_true hidle)
  exact ⟨k, hk, of_decide_eq_true hidle, hpanic, (hcount 0).symm.trans h0, (hcount 1).symm.trans h1⟩

end Xv6.Ftable
