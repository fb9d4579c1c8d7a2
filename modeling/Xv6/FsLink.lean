import Xv6.FsUnlink

/-!
# Adding links

`link` counts the new link before it looks for the directory that gets the entry, and takes it back
when there is none or the name is in use. It is the one call that can stop on its own lock: when
the last element of the new path names the directory that it is looked up in, `dirlink` drops the
reference of the lookup while the call holds the lock of that directory.
-/

namespace Xv6.Fs

open Function

open Prog

variable {sb : Superblock} {s s' s₁ : FsState} {F F₁ : Nat → File} {R B : Nat → Nat}
  {L : Finset Nat} {k l dp d i m c cwd : Nat} {E : Fault → Prop} {old new : List UInt8}

/-! ### Link counts do not matter to paths -/

/-- `F` and `F₁` differ in link counts only. -/
def SameNames (F F₁ : Nat → File) : Prop := ∀ j, ∃ n, F₁ j = (F j).setNlink n

theorem sameNames_addLink (F : Nat → File) (i : Nat) : SameNames F (addLink F i) := by
  intro j
  rw [addLink]
  by_cases hj : j = i
  · exact ⟨_, by rw [hj, update_self]⟩
  · exact ⟨(F j).nlink, by rw [update_of_ne hj]; rfl⟩

namespace SameNames

variable (h : SameNames F F₁)
include h

theorem walk (nameiparent : Bool) (fuel : Nat) (path : List UInt8)
    (i : Nat) : walk F₁ nameiparent fuel path i = walk F nameiparent fuel path i := by
  induction fuel generalizing path i with
  | zero => rfl
  | succ fuel ih =>
    obtain ⟨n, hn⟩ := h i
    simp only [Fs.walk, hn, ih]
    rfl

theorem walkPath (nameiparent : Bool) (path : List UInt8) :
    walkPath F₁ nameiparent path c = walkPath F nameiparent path c :=
  h.walk nameiparent _ path _

theorem reaches (hr : Reaches F₁ c i) : Reaches F c i := by
  induction hr with
  | root => exact Reaches.root
  | cwd => exact Reaches.cwd
  | @step d m _ hd hm h0 ih =>
    obtain ⟨n, hn⟩ := h d
    rw [hn] at hd hm h0 ⊢
    exact ih.step hd hm h0

theorem dangling (hd : Dangling F₁ c) : Dangling F c := by
  obtain ⟨i, hr, h0⟩ := hd
  obtain ⟨n, hn⟩ := h i
  rw [hn] at h0
  exact ⟨i, h.reaches hr, h0⟩

theorem sane {N : Nat} (hs : Sane N F) : Sane N F₁ := by
  intro d hd
  obtain ⟨n, hn⟩ := h d
  rw [hn] at hd ⊢
  exact (hs d hd).setNlink n

end SameNames

/-! ### The way back -/

theorem dropLink_addLink (hn : (F i).nlink < 2 ^ 16) : dropLink (addLink F i) i = F := by
  rw [dropLink, addLink, update_self, update_idem]
  have hback : (((F i).nlink + 1) % 2 ^ 16 + (2 ^ 16 - 1)) % 2 ^ 16 = (F i).nlink := by omega
  have hset : ((F i).setNlink (((F i).nlink + 1) % 2 ^ 16)).nlink = ((F i).nlink + 1) % 2 ^ 16 := rfl
  rw [hset, hback]
  exact update_eq_self i F

theorem Ready.linkBad (h : Ready sb s F B) (h₁ : Abs sb s₁ (addLink F i) (inc B l) ∅)
    (hkeep : Keep B s s₁) (hl : (s₁.icache l).inum = i) (hlive : (F i).type ≠ 0) :
    wp (linkBad l) s₁ (fun _ s' => Ran sb s F B .none s' F B ∅) E := by
  have hrange := h.range_of_live hlive
  have hlive₁ : (addLink F i i).type ≠ 0 := by
    rwa [addLink, setNlink_type]
  rw [Fs.linkBad]
  refine wp_chain (h₁.ilock inc_pos (Finset.notMem_empty l) (by rwa [hl])) ?_
    (fun e he => absurd he.2 (by rwa [hl]))
  rintro _ s₂ ⟨h₂, hk₂⟩
  have hkeep₂ : Keep B s s₂ := hkeep.trans (hk₂.mono (le_inc B l))
  refine h₂.decNlink (Finset.mem_insert_self l ∅)
    (by rw [hk₂ l inc_pos, hl]) ?_
  intro s₃ h₃ hin₃
  rw [dropLink_addLink (h.toAbs.nlink_lt i)] at h₃
  have hkeep₃ : Keep B s s₃ := fun j hj => (hin₃ j).trans (hkeep₂ j hj)
  have hrun : Running sb s₃ F (inc B l) {l} := by
    refine ⟨h₃, fun j hj => ?_⟩
    by_cases hjl : j = l
    · rw [hjl]
      exact h₃.live (Finset.mem_insert_self l ∅)
    · rw [inc_of_ne hjl] at hj
      rw [hkeep₃ j hj]
      exact h.live j hj
  rw [wp_bind]
  exact h.iunlockput_new hrun hkeep₃

/-! ### `link` -/

/-- The entry that `link` may add. -/
def linkEntry (F : Nat → File) (old new : List UInt8) (c : Nat) : Option Nat :=
  match walkPath F false old c with
  | some (i, _) => if (F i).type = T_DIR then none else newEntry F new c
  | none => none

/-- The last element of the path names the directory it is looked up in. -/
def NamesParent (F : Nat → File) (path : List UInt8) (c : Nat) : Prop :=
  ∃ d name m, walkPath F true path c = some (d, name) ∧
    (F d).lookup (key (cstr name)) = some m ∧ (F d).inumAt m = d

def SelfLink (F : Nat → File) (old new : List UInt8) (c : Nat) : Prop :=
  (∃ i name, walkPath F false old c = some (i, name) ∧ (F i).type ≠ T_DIR) ∧ NamesParent F new c

theorem namesParent_iff {path : List UInt8} {name : Name}
    (hw : walkPath F true path c = some (d, name)) :
    NamesParent F path c ↔ ∃ m, (F d).lookup (key (cstr name)) = some m ∧ (F d).inumAt m = d := by
  constructor
  · rintro ⟨d', name', m, hw', hm⟩
    rw [hw, Option.some.injEq, Prod.mk.injEq] at hw'
    obtain ⟨rfl, rfl⟩ := hw'
    exact ⟨m, hm⟩
  · rintro ⟨m, hm⟩
    exact ⟨d, name, m, hw, hm⟩

/-- A fault of `link`. -/
def LinkHalts (F : Nat → File) (old new : List UInt8) (c : Nat) (e : Fault) : Prop :=
  Halts (Dangling F c) e ∨ SelfLink F old new c ∧ ∃ lk, e = .deadlock lk

/-- How `link` ends. -/
def Linked (sb : Superblock) (s : FsState) (F : Nat → File) (B : Nat → Nat) (old new : List UInt8)
    (c : Nat) (s' : FsState) : Prop :=
  ¬ SelfLink F old new c ∧ Added sb s F B (linkEntry F old new c) s'

theorem iput_locked {Q : Unit → FsState → Prop} (h : (s.icache k).locked = true)
    (hE : E (.deadlock k)) : wp (iput k) s Q E := by
  simp only [iput, acquiresleep, wp_bind, wp_getInode, h, if_true, wp_sleepForever]
  exact hE

namespace Ready

variable (h : Ready sb s F B)
include h

theorem link_add {T : Prop} {name : Name}
    (h₁ : Abs sb s₁ (addLink F i) (inc (inc B l) dp) {dp}) (hkeep : Keep B s s₁)
    (hl : (s₁.icache l).inum = i) (hdp : (s₁.icache dp).inum = d) (hdir : (F d).IsDir)
    (hlive : (F i).type ≠ 0) (hfile : (F i).type ≠ T_DIR)
    (hlook : (F d).lookup (key (cstr name)) = none)
    (hent : linkEntry F old new c = some d) :
    wp (do
      let r ← dirlink dp name i
      if r < 0 then
        iunlockput dp
        Fs.linkBad l
      else
        iunlockput dp
        iput l
        pure 0) s₁ (fun _ => Added sb s F B (linkEntry F old new c)) (Halts T) := by
  have hne : d ≠ i := by
    rintro rfl
    exact hfile hdir.type
  have hFd : addLink F i d = F d := update_of_ne hne _ _
  have hdpL : dp ∈ ({dp} : Finset Nat) := Finset.mem_singleton_self dp
  refine wp_seq (h₁.dirlink_none hdpL hdp (by rwa [hFd]) i (by rwa [hFd])) ?_
  rintro r s₂ ⟨rfl, h₂, hin₂⟩
  have hkeep₂ : Keep B s s₂ := fun j hj => (hin₂ j).trans (hkeep j hj)
  have hran : Ran sb s F B (.add d) s₂ (addEntry (addLink F i) d i name) (inc (inc B l) dp)
      {dp} := by
    refine h.ran_effect (Effect.link hlive hfile (h.range_of_live hlive) hdir.type hlook) h₂
      hkeep₂ ?_
    intro j hj
    by_cases hjd : j = dp
    · exact Or.inl (h₂.live (by simp [hjd]))
    rw [inc_of_ne hjd] at hj
    by_cases hjl : j = l
    · rw [hjl, hin₂, hl, addEntry_type, addLink, setNlink_type]
      exact Or.inl hlive
    · rw [inc_of_ne hjl] at hj
      exact Or.inr hj
  rw [if_neg (by decide)]
  refine wp_seq (hran.iunlockput hdpL) ?_
  intro _ s₃ h₃
  rw [dec_inc, Finset.erase_singleton] at h₃
  refine wp_seq (h₃.iput (k := l) inc_pos (Finset.notMem_empty l)) ?_
  intro _ s₄ h₄
  rw [dec_inc] at h₄
  exact ⟨.add d, _, Or.inr ⟨d, hent, rfl⟩, h₄⟩

theorem anchored_addLink (hkeep : Keep B s s₁)
    (hl : (s₁.icache l).inum = i) : Anchored s₁ (addLink F i) (inc B l) := by
  intro j ht h0
  by_cases hj : j = i
  · exact ⟨l, inc_pos, by rw [hl, hj]⟩
  · rw [addLink, update_of_ne hj] at ht h0
    exact (h.toAbs.anchored.keep hkeep).mono (le_inc B l) j ht h0

/-- The name is in use: the link is taken back, unless the directory names itself. -/
theorem link_taken {T : Prop} {name : Name}
    (h₁ : Abs sb s₁ (addLink F i) (inc (inc B l) dp) {dp}) (hkeep : Keep B s s₁)
    (hl : (s₁.icache l).inum = i) (hdp : (s₁.icache dp).inum = d) (hdir : (F d).IsDir)
    (hlive : (F i).type ≠ 0) (hfile : (F i).type ≠ T_DIR)
    (hlook : (F d).lookup (key (cstr name)) = some m) :
    wp (do
      let r ← dirlink dp name i
      if r < 0 then
        iunlockput dp
        Fs.linkBad l
      else
        iunlockput dp
        iput l
        pure 0) s₁
      (fun _ s' => (F d).inumAt m ≠ d ∧ Ran sb s F B .none s' F B ∅)
      (fun e => Halts T e ∨ (F d).inumAt m = d ∧ e = .deadlock dp) := by
  have hFd : addLink F i d = F d := by
    apply update_of_ne
    rintro rfl
    exact hfile hdir.type
  have hdpL : dp ∈ ({dp} : Finset Nat) := Finset.mem_singleton_self dp
  have hat := h₁.dirAt hdpL hdp (by rwa [hFd])
  rw [hFd] at hat
  rw [wp_bind]
  refine dirlink_some hat hlook (Or.inl (halts_noCacheEntry T)) ?_
  intro k s₂ hg
  obtain ⟨h₂, hk₂, hi₂⟩ := h₁.got hg
  have hdpR : 0 < inc (inc B l) dp dp := by
    rw [inc_self]
    omega
  by_cases hself : (F d).inumAt m = d
  · have hkdp : k = dp := by
      refine h₂.inum_inj inc_pos (lt_of_lt_of_le hdpR (le_inc _ k dp)) ?_
      rw [hi₂, hself, hk₂ dp hdpR, hdp]
    rw [hkdp] at h₂ ⊢
    exact iput_locked ((h₂.lock dp (h₂.range dp inc_pos)).mpr hdpL)
      (Or.inr ⟨hself, rfl⟩)
  have hkL : k ∉ ({dp} : Finset Nat) := by
    rw [Finset.mem_singleton]
    rintro rfl
    exact hself (hi₂.symm.trans ((hk₂ k hdpR).trans hdp))
  have hanch₂ : Anchored s₂ (addLink F i) (inc B l) :=
    (h.anchored_addLink hkeep hl).keep (hk₂.mono (le_inc _ dp))
  refine wp_mono (h₂.iput_temp (hanch₂.mono (le_inc _ dp)) hkL) ?_
  rintro _ s₃ ⟨h₃, hk₃⟩
  have hk₁₃ : Keep (inc B l) s₁ s₃ := (hk₂.trans hk₃).mono (le_inc _ dp)
  rw [if_pos (by decide)]
  refine wp_seq (h₃.iunlockput_temp (hanch₂.keep (hk₃.mono (le_inc _ dp))) hdpL) ?_
  rintro _ s₄ ⟨h₄, hk₄⟩
  rw [Finset.erase_singleton] at h₄
  have hk₁₄ := hk₁₃.trans hk₄
  refine wp_mono (h.linkBad h₄ (hkeep.trans (hk₁₄.mono (le_inc B l)))
    (by rw [hk₁₄ l inc_pos, hl]) hlive) ?_
  exact fun _ _ hran => ⟨hself, hran⟩

theorem link_parent {n : Name} (hc : 0 < B cwd)
    (h₁ : Abs sb s₁ (addLink F i) (inc B l) ∅) (hkeep : Keep B s s₁)
    (hl : (s₁.icache l).inum = i) (hlive : (F i).type ≠ 0) (hfile : (F i).type ≠ T_DIR)
    (hw : walkPath F false old (s.icache cwd).inum = some (i, n)) :
    wp (do
      match ← nameiparent new cwd with
      | none => Fs.linkBad l
      | some (dp, name) =>
        Fs.ilock dp
        let i ← getInode l
        let r ← dirlink dp name i.inum
        if r < 0 then
          iunlockput dp
          Fs.linkBad l
        else
          iunlockput dp
          iput l
          pure 0) s₁
      (fun _ => Linked sb s F B old new (s.icache cwd).inum)
      (LinkHalts F old new (s.icache cwd).inum) := by
  have hsame := sameNames_addLink F i
  have hcwd₁ : (s₁.icache cwd).inum = (s.icache cwd).inum := hkeep cwd hc
  refine wp_chain (h₁.namex (hsame.sane h.sane) (lt_of_lt_of_le hc (le_inc B l cwd)) hcwd₁
    (h.range_of_live (h.live cwd hc)) h.root new true) ?_
    (fun e he => Or.inl (he.mono hsame.dangling))
  rintro r s₂ ⟨hk₂, hres⟩
  rw [hsame.walkPath] at hres
  have hkeep₂ : Keep B s s₂ := hkeep.trans (hk₂.mono (le_inc B l))
  have hl₂ : (s₂.icache l).inum = i := by rw [hk₂ l inc_pos, hl]
  cases hw₂ : walkPath F true new (s.icache cwd).inum with
  | none =>
    rw [hw₂] at hres
    obtain ⟨rfl, h₂⟩ := hres
    refine wp_mono (h.linkBad h₂ hkeep₂ hl₂ hlive) ?_
    refine fun _ _ hran => ⟨?_, .none, F, Adds.none, hran⟩
    rintro ⟨-, d, name, m, hw₃, -⟩
    rw [hw₂] at hw₃
    cases hw₃
  | some w =>
    obtain ⟨d, name⟩ := w
    rw [hw₂] at hres
    obtain ⟨dp, rfl, h₂, hdp⟩ := hres
    have hdir : (F d).IsDir := ⟨walk_parent hw₂, (h.sane d (walk_parent hw₂)).whole⟩
    have hdlive : (F d).type ≠ 0 := by
      rw [hdir.type]
      decide
    have hdlive₁ : (addLink F i d).type ≠ 0 := by
      rwa [addLink, setNlink_type]
    simp only [wp_bind]
    refine wp_conseq (h₂.ilock inc_pos (Finset.notMem_empty dp)
      (by rw [hdp]; exact h.range_of_live hdlive)) ?_ (fun e he => absurd he.2 (by rwa [hdp]))
    rintro _ s₃ ⟨h₃, hk₃⟩
    have hk₃' : Keep (inc B l) s₂ s₃ := hk₃.mono (le_inc _ dp)
    have hl₃ : (s₃.icache l).inum = i := by rw [hk₃' l inc_pos, hl₂]
    have hdp₃ : (s₃.icache dp).inum = d := by rw [hk₃ dp inc_pos, hdp]
    have hkeep₃ : Keep B s s₃ := hkeep₂.trans (hk₃'.mono (le_inc B l))
    rw [insert_empty_eq] at h₃
    rw [wp_getInode, hl₃]
    simp only [← wp_bind]
    cases hlook : (F d).lookup (key (cstr name)) with
    | none =>
      have hent : linkEntry F old new (s.icache cwd).inum = some d := by
        rw [linkEntry, hw]
        exact (if_neg hfile).trans (newEntry_of_walk hw₂ hlook)
      refine wp_conseq (h.link_add h₃ hkeep₃ hl₃ hdp₃ hdir hlive hfile hlook hent) ?_
        (fun _ he => Or.inl he)
      refine fun _ _ hadd => ⟨?_, hadd⟩
      rintro ⟨-, hself⟩
      obtain ⟨m, hm, -⟩ := (namesParent_iff hw₂).mp hself
      rw [hlook] at hm
      cases hm
    | some m =>
      have hself : NamesParent F new (s.icache cwd).inum ↔ (F d).inumAt m = d := by
        simp [namesParent_iff hw₂, hlook]
      refine wp_conseq (h.link_taken (T := Dangling F (s.icache cwd).inum) h₃ hkeep₃ hl₃ hdp₃
        hdir hlive hfile hlook) ?_ ?_
      · rintro _ s₄ ⟨hne, hran⟩
        exact ⟨fun hc => hne (hself.mp hc.2), .none, F, Adds.none, hran⟩
      · rintro e (he | ⟨hd, rfl⟩)
        · exact Or.inl he
        · exact Or.inr ⟨⟨⟨i, n, hw, hfile⟩, hself.mpr hd⟩, dp, rfl⟩

theorem sysLink (hc : 0 < B cwd) :
    wp (sysLink old new cwd) s (fun _ => Linked sb s F B old new (s.icache cwd).inum)
      (LinkHalts F old new (s.icache cwd).inum) := by
  refine h.namei_ilock hc old (fun _ he => Or.inl he) ?_ ?_
  · intro s₁ hw h₁ hk₁
    refine ⟨?_, .none, F, Adds.none, h.ran h₁.toRunning hk₁⟩
    rintro ⟨⟨i, name, hold, -⟩, -⟩
    rw [hw] at hold
    cases hold
  intro l i name s₁ hw h₁ hk₁ hl
  have hlL : l ∈ ({l} : Finset Nat) := Finset.mem_singleton_self l
  rw [wp_bind, wp_getInode, h₁.toAbs.type_eq hlL, hl]
  by_cases hdir : (F i).type = T_DIR
  · rw [if_pos hdir]
    refine wp_seq (h.iunlockput_new h₁ hk₁) ?_
    refine fun _ _ hran => ⟨?_, .none, F, Adds.none, hran⟩
    rintro ⟨⟨i', name', hold, hfile⟩, -⟩
    rw [hw, Option.some.injEq, Prod.mk.injEq] at hold
    rw [← hold.1] at hfile
    exact hfile hdir
  rw [if_neg hdir, wp_bind, wp_incNlink]
  refine wp_seq (h₁.toAbs.iupdate_nlink hlL (Nat.mod_lt _ (by decide))) ?_
  rintro _ s₂ ⟨h₂, hin₂⟩
  rw [h₁.toAbs.nlink_eq hlL, hl] at h₂
  have hlive : (F i).type ≠ 0 := by
    rw [← hl]
    exact h₁.toAbs.live hlL
  refine wp_seq (h₂.iunlock hlL) ?_
  rintro _ s₃ ⟨h₃, hk₃⟩
  rw [Finset.erase_singleton] at h₃
  have hk₂₃ : Keep (inc B l) s₁ s₃ := fun j hj => (hk₃ j hj).trans (hin₂ j)
  exact h.link_parent hc h₃ (hk₁.trans (hk₂₃.mono (le_inc B l)))
    (by rw [hk₂₃ l inc_pos, hl]) hlive hdir hw

end Ready

end Xv6.Fs
