import Xv6.ExecStack

/-!
# exec as a whole

On every path `exec` ends the transaction, unlocks the inode and drops its reference. When it fails, the
process is as before and every page is back; when it succeeds, the process has the new image and the
pages of the old one are free. The exception is a string that begins in the gap.
-/

namespace Xv6.Exec

open Vm

variable {α : Type} {l : Layout} {null : Null} {ip : Inode} {path : List UInt8}
  {argv : List (List UInt8)} {s s' : State} {m m₀ m₁ : Mem} {d : Pgdir} {sz entry : Nat}
  {E : Fault → Prop}

theorem wp_onMem {p : Prog Mem α} {Q : α → State → Prop} :
    wp (onMem p) s Q E ↔ wp p s.mem (fun a m => Q a (s.setMem m)) E := wp_zoom

/-- The fields besides the memory and the process are those of `s`. -/
structure SameBooks (s s' : State) : Prop where
  begun : s'.begun = s.begun
  ended : s'.ended = s.ended
  locked : s'.locked = s.locked
  ref : s'.ref = s.ref

/-- After `iunlockput` and `end_op`. -/
structure Closed (s s' : State) : Prop where
  begun : s'.begun = s.begun
  ended : s'.ended = s.ended + 1
  locked : s'.locked = false
  ref : s'.ref = s.ref - 1

theorem bad_spec (pgdir : Option Pgdir) (held : Bool) (hf : Fits s.mem (pgdir.elim 0 Pgdir.pages)) :
    wp (bad pgdir held) s (fun r s' => r = -1 ∧ s'.proc = s.proc ∧
      Shrink s.mem (pgdir.elim 0 Pgdir.pages) s'.mem 0 ∧
      if held then Closed s s' else SameBooks s s') E := by
  unfold bad
  have hrest : ∀ m, Shrink s.mem (pgdir.elim 0 Pgdir.pages) m 0 →
      wp (if held then (do iunlockput; end_op; pure (-1) : Prog State Int) else pure (-1))
        (s.setMem m) (fun r s' => r = -1 ∧ s'.proc = s.proc ∧
          Shrink s.mem (pgdir.elim 0 Pgdir.pages) s'.mem 0 ∧
          if held then Closed s s' else SameBooks s s') E := by
    intro m hm
    cases held with
    | true => exact ⟨rfl, rfl, hm, rfl, rfl, rfl, rfl⟩
    | false => exact ⟨rfl, rfl, hm, rfl, rfl, rfl, rfl⟩
  dsimp only
  cases pgdir with
  | none => exact hrest s.mem (Shrink.refl _ _)
  | some d =>
    dsimp only
    rw [wp_bind, wp_onMem]
    refine wp_mono (serve_freevm s.mem d hf) ?_
    intro _ m hm
    exact hrest m hm

theorem commit_spec {sp : Nat} (hf : Fits s.mem s.proc.pgdir.pages) :
    wp (commit d sz entry sp path) s (fun r s' => r = 0 ∧
      s'.proc = ⟨d, sz, entry, sp, (lastElement path).take 15⟩ ∧
      Shrink s.mem s.proc.pgdir.pages s'.mem 0 ∧ SameBooks s s') E := by
  unfold commit
  rw [wp_bind, wp_get, wp_bind, wp_modify, wp_bind, wp_onMem]
  refine wp_mono (serve_freevm s.mem s.proc.pgdir hf) ?_
  intro _ m hm
  exact ⟨rfl, rfl, hm, rfl, rfl, rfl, rfl⟩

/-- The process runs the image of `m₂` with its arguments; the pages of `old` are free. -/
structure Runs (l : Layout) (m₀ : Mem) (old : Pgdir) (argv : List (List UInt8)) (m₂ : Mem)
    (s' : State) : Prop where
  image : Stacked l m₀ m₂ s'.proc.pgdir s'.proc.sz
  fits : Fits s'.mem s'.proc.pgdir.pages
  pages : (s'.mem.free : Multiset Page) + s'.proc.pgdir.pages = m₀.free + old.pages
  stack : ArgvStack s'.mem s'.proc.pgdir s'.proc.sz s'.proc.esp argv
  rest : ∀ va < s'.proc.sz, ¬ IsArgument s'.mem s'.proc.pgdir s'.proc.esp argv va →
    s'.mem.byte s'.proc.pgdir va = m₂.byte s'.proc.pgdir va

/-- A string of `argv` begins in the gap once the stack has been allocated above `sz`. -/
def StackGap (d : Pgdir) (sz : Nat) (argv : List (List UInt8)) (m : Mem) : Prop :=
  ∃ d' sz' m₂, allocStack d sz m = .ok ((d', some sz'), m₂) ∧ MeetsGap sz' 0 sz' argv

theorem execStack_spec (h : Building l m₀ s.mem d sz) (hf : Fits m₀ s.proc.pgdir.pages)
    (hargv : ∀ d' sz' m₂, allocStack d sz s.mem = .ok ((d', some sz'), m₂) →
      ∀ a ∈ argv, a.length < KERNBASE) :
    wp (execStack null path argv d entry sz) s (fun r s' => SameBooks s s' ∧
      (r = -1 ∧ s'.proc = s.proc ∧ (¬ StackGap d sz argv s.mem → Kept m₀ 0 s'.mem 0) ∨
        r = 0 ∧ s'.proc.eip = entry ∧ ∃ m₂,
          allocStack d sz s.mem = .ok ((s'.proc.pgdir, some s'.proc.sz), m₂) ∧
          Runs l m₀ s.proc.pgdir argv m₂ s'))
      (fun e => StackGap d sz argv s.mem ∧ e = .panic "trap") := by
  have hf₀ : Fits m₀ 0 := hf.mono (Multiset.zero_le _)
  have halloc := wp_run (allocStack_spec (E := fun _ => False) h hf₀)
  unfold execStack
  rw [wp_bind, wp_onMem]
  refine wp_conseq halloc ?_ (fun _ hc => hc.elim)
  rintro ⟨d', _ | sz'⟩ m₂ ⟨hrun, hst⟩
  · -- no memory for the stack
    have hk : Kept m₀ 0 m₂ d'.pages := hst
    refine wp_conseq (bad_spec (s := s.setMem m₂) (E := fun _ => False) (some d') false
      (hk.fits hf₀)) ?_ (fun _ hc => hc.elim)
    rintro r s' ⟨rfl, hproc, hs, hb⟩
    exact ⟨⟨hb.begun, hb.ended, hb.locked, hb.ref⟩,
      Or.inl ⟨rfl, hproc, fun _ => hk.trans_shrink hs⟩⟩
  · have hst : Stacked l m₀ m₂ d' sz' := hst
    obtain ⟨ps, hps⟩ := hst.exists_stackPage
    have hgap : MeetsGap sz' 0 sz' argv → StackGap d sz argv s.mem :=
      fun hm => ⟨d', sz', m₂, hrun, hm⟩
    dsimp only
    rw [wp_bind, wp_onMem]
    refine wp_conseq (pushArgs_spec hst hps (hargv d' sz' m₂ hrun)) ?_ (fun e he => ⟨hgap he.1, he.2⟩)
    rintro (_ | esp) m₃ hpush
    · -- the arguments do not fit
      obtain ⟨-, hfree, hkend, hgrow⟩ := hpush
      have hfit : Fits m₃ d'.pages := (hst.grow.fits hf₀).of_pages hkend (by rw [hfree])
      refine wp_conseq (bad_spec (s := (s.setMem m₂).setMem m₃) (E := fun _ => False) (some d') false
        hfit) ?_ (fun _ hc => hc.elim)
      rintro r s' ⟨rfl, hproc, hs, hb⟩
      refine ⟨⟨hb.begun, hb.ended, hb.locked, hb.ref⟩, Or.inl ⟨rfl, hproc, fun hno => ?_⟩⟩
      exact (hgrow (fun hm => hno (hgap hm))).kept.trans_shrink hs
    · obtain ⟨b, sp, ptrs, hl, hesp, hlo, hm₃⟩ := hpush
      have hgrow : Grow m₀ 0 m₃ d'.pages := by
        rw [hm₃]
        exact hst.grow.write (mem_free_of_grow hst.grow (hst.mem_stackPage hps)) _
      have hboth : Grow m₀ s.proc.pgdir.pages m₃ (d'.pages + s.proc.pgdir.pages) :=
        (hgrow.frame s.proc.pgdir.pages).cast (zero_add _).symm rfl
      have hfit₃ := hboth.fits hf
      refine wp_conseq (commit_spec (s := (s.setMem m₂).setMem m₃)
        (hfit₃.mono (Multiset.le_add_left _ _)) (E := fun _ => False)) ?_ (fun _ hc => hc.elim)
      rintro r s' ⟨rfl, hproc, hs, hb⟩
      have hs' : Shrink m₃ (d'.pages + s.proc.pgdir.pages) s'.mem d'.pages :=
        (hs.frame d'.pages).cast (add_comm _ _) (zero_add _).symm
      have hfit' := hs'.fits hfit₃
      -- freeing the old pages does not touch the new ones
      have hsame : ∀ va < sz', s'.mem.byte d' va = m₃.byte d' va := by
        intro va hva
        have hsz := hst.size
        refine byte_congr rfl ?_
        intro e he
        rw [lookup_eq_entry] at he
        refine hs'.data _ (hfit'.not_free (mem_pages_of_entry ?_ he))
        exact lt_of_le_of_lt (Nat.div_mul_le_self _ _) (by omega)
      have hd : d'.pages.Nodup := (Multiset.nodup_add.mp hfit'.nodup).2.1
      obtain ⟨hstack, hrest⟩ := argvStack hst hps hd hl hesp hlo
        (fun va hva => (hsame va hva).trans (by rw [hm₃]))
      have hpd : s'.proc.pgdir = d' := by rw [hproc]
      have hpsz : s'.proc.sz = sz' := by rw [hproc]
      have hpesp : s'.proc.esp = esp := by rw [hproc]
      refine ⟨⟨hb.begun, hb.ended, hb.locked, hb.ref⟩, Or.inr ⟨rfl, by rw [hproc], m₂, ?_, ?_⟩⟩
      · rw [hpd, hpsz]
        exact hrun
      · refine ⟨?_, ?_, ?_, ?_, ?_⟩
        · rwa [hpd, hpsz]
        · rwa [hpd]
        · rw [hpd]
          exact hs'.pages.trans hboth.pages
        · rwa [hpd, hpsz, hpesp]
        · rwa [hpd, hpsz, hpesp]

/-- The file gives an image of size `sz`, with its stack; `d` and `m` are its directory and the
memory before the arguments are pushed. -/
def Loads (l : Layout) (ip : Inode) (m₀ : Mem) (entry : Nat) (d : Pgdir) (sz : Nat) (m : Mem) : Prop :=
  ∃ d₁ sz₁ m₁, loadFile l ip m₀ = .ok (.ok (d₁, entry, sz₁), m₁) ∧
    allocStack d₁ sz₁ m₁ = .ok ((d, some sz), m)

/-- One of the strings begins in the gap. -/
def ExecGap (l : Layout) (ip : Inode) (argv : List (List UInt8)) (m₀ : Mem) : Prop :=
  ∃ entry d sz m, Loads l ip m₀ entry d sz m ∧ MeetsGap sz 0 sz argv

/-- Every transaction is closed, and the inode is unlocked and not referred to any more. -/
structure Settled (s s' : State) : Prop where
  begun : s'.begun = s.begun + 1
  ended : s'.ended = s.ended + 1
  locked : s'.locked = false
  ref : s'.ref = s.ref

theorem exec_spec (l : Layout) (null : Null) (ip : Inode) (path : List UInt8)
    (hf : Fits s.mem s.proc.pgdir.pages)
    (hargv : ∀ entry d sz m, Loads l ip s.mem entry d sz m → ∀ a ∈ argv, a.length < KERNBASE) :
    wp (exec l null (some ip) path argv) s (fun r s' => Settled s s' ∧
      (r = -1 ∧ s'.proc = s.proc ∧ (¬ ExecGap l ip argv s.mem → Kept s.mem 0 s'.mem 0) ∨
        r = 0 ∧ ∃ m₂, Loads l ip s.mem s'.proc.eip s'.proc.pgdir s'.proc.sz m₂ ∧
          Runs l s.mem s.proc.pgdir argv m₂ s'))
      (fun e => ExecGap l ip argv s.mem ∧ e = .panic "trap") := by
  have hf₀ : Fits s.mem 0 := hf.mono (Multiset.zero_le _)
  have hload := wp_run (loadFile_spec (E := fun _ => False) l ip hf₀)
  unfold exec
  rw [wp_bind, begin_op, wp_modify, wp_bind, lockInode, wp_modify, wp_bind, wp_onMem]
  refine wp_conseq hload ?_ (fun _ hc => hc.elim)
  rintro (pgdir | ⟨d, entry, sz⟩) m₁ ⟨hrun, hres⟩
  · -- `goto bad` while the inode is locked
    have hk : Kept s.mem 0 m₁ (pgdir.elim 0 Pgdir.pages) := by
      cases pgdir with
      | none => exact hres
      | some d => exact hres
    refine wp_conseq (bad_spec (E := fun _ => False) pgdir true (hk.fits hf₀)) ?_
      (fun _ hc => hc.elim)
    rintro r s' ⟨rfl, hproc, hs, hb⟩
    have hb : Closed _ s' := hb
    exact ⟨⟨hb.begun, hb.ended, hb.locked, hb.ref⟩,
      Or.inl ⟨rfl, hproc, fun _ => hk.trans_shrink hs⟩⟩
  · have hres : Building l s.mem m₁ d sz := hres
    dsimp only
    rw [wp_bind, iunlockput, wp_modify, wp_bind, end_op, wp_modify]
    refine wp_conseq (execStack_spec hres hf ?_) ?_ ?_
    · intro d' sz' m₂ hstack
      exact hargv entry d' sz' m₂ ⟨d, sz, m₁, hrun, hstack⟩
    · rintro r s' ⟨hb, hpost⟩
      refine ⟨⟨hb.begun, hb.ended, hb.locked, hb.ref⟩, ?_⟩
      rcases hpost with ⟨hr, hproc, hkept⟩ | ⟨hr, heip, m₂, hstack, hruns⟩
      · refine Or.inl ⟨hr, hproc, fun hno => hkept ?_⟩
        rintro ⟨d', sz', m₂, hstack, hm⟩
        exact hno ⟨entry, d', sz', m₂, ⟨d, sz, m₁, hrun, hstack⟩, hm⟩
      · exact Or.inr ⟨hr, m₂, ⟨d, sz, m₁, by rw [heip]; exact hrun, hstack⟩, hruns⟩
    · rintro e ⟨⟨d', sz', m₂, hstack, hm⟩, he⟩
      exact ⟨⟨entry, d', sz', m₂, ⟨d, sz, m₁, hrun, hstack⟩, hm⟩, he⟩

end Xv6.Exec
