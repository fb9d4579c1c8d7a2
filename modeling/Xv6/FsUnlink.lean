import Xv6.FsCalls

/-!
# Removing entries

`unlink` clears the entry that its path names and drops a link of the inode behind it; a directory
is removed only when it is empty, and takes a link of its parent with it. A parent that loses its
last link and reference this way is freed before the link count of the inode is written.
-/

namespace Xv6.Fs

open Prog

variable {sb : Superblock} {s s' s₁ : FsState} {F F₁ : Nat → File} {R B : Nat → Nat}
  {L : Finset Nat} {k l dp d m cwd : Nat} {E : Fault → Prop} {f : File} {path : List UInt8}

/-! ### Empty directories -/

theorem isdiremptyLoop_spec {fuel n : Nat} (h : Entries s dp f (f.size / 16))
    (hfuel : f.size / 16 < n + fuel) :
    wp (isdiremptyLoop dp fuel (16 * n)) s (fun r s' =>
      (r = true ↔ ∀ m, n ≤ m → m < f.size / 16 → f.inumAt m = 0) ∧ s' = s) E := by
  induction fuel generalizing n with
  | zero =>
    refine ⟨iff_of_true rfl ?_, rfl⟩
    intro m hm hlt
    omega
  | succ fuel ih =>
    rw [isdiremptyLoop, wp_bind, wp_getInode, h.size]
    by_cases hn : n < f.size / 16
    · rw [if_pos ((lt_size_iff h.whole).mpr hn)]
      refine wp_chain (h.read n hn _) ?_ (fun _ he => he.elim)
      rintro de s₁ ⟨rfl, rfl⟩
      by_cases hin : (f.entry n).inum ≠ 0
      · rw [if_pos hin, wp_pure]
        refine ⟨iff_of_false Bool.false_ne_true ?_, rfl⟩
        intro hall
        exact hin (hall n le_rfl hn)
      · rw [if_neg hin]
        refine wp_mono (ih (n := n + 1) (by omega)) ?_
        rintro r s₂ ⟨hr, hs⟩
        refine ⟨hr.trans ⟨fun hall m hm hlt => ?_, fun hall m hm => hall m (by omega)⟩, hs⟩
        rcases Nat.eq_or_lt_of_le hm with rfl | hm'
        · exact not_not.mp hin
        · exact hall m hm' hlt
    · rw [if_neg (fun hc => hn ((lt_size_iff h.whole).mp hc)), wp_pure]
      refine ⟨iff_of_true rfl ?_, rfl⟩
      intro m hm hlt
      omega

theorem isdirempty_spec (h : DirAt s dp f) :
    wp (isdirempty dp) s (fun r s' => (r = true ↔ f.EmptyDir) ∧ s' = s) E := by
  rw [isdirempty, wp_bind, wp_getInode, h.size]
  exact isdiremptyLoop_spec (n := 2) h.entries (by omega)

/-! ### Clearing an entry -/

theorem Abs.clearEntry {T : Prop} (h : Abs sb s F R L) (hk : k ∈ L) (hi : (s.icache k).inum = d)
    (hd : (F d).IsDir) {α : Type} {p : FsM α} {Q : α → FsState → Prop} {msg : String}
    (hmsg : msg ≠ "ilock: no type")
    (hp : ∀ s', Abs sb s' (Function.update F d ((F d).clearEntry m)) R L →
      (∀ l, (s'.icache l).inum = (s.icache l).inum) → wp p s' Q (Halts T)) :
    wp (do
      let r ← writei k (fun _ => 0) (16 * m) 16
      if r ≠ 16 then panicWith msg else p) s Q (Halts T) := by
  have hat := h.dirAt hk hi hd
  have hdev : (s.icache k).din.type ≠ T_DEV := by
    rw [hat.type]
    decide
  refine wp_chain (writei_spec h.good (h.loaded hk) hdev) ?_ ?_
  · rintro r s₁ (⟨-, rfl, -⟩ | ⟨-, rfl, hc⟩)
    · rw [if_pos (by decide), wp_panicWith]
      exact halts_of_panic hmsg
    · rw [if_neg (by decide)]
      obtain ⟨h₁, hin⟩ := h.changed hk hc
      rw [hi, h.files] at h₁
      exact hp s₁ h₁ hin
  · rintro e ⟨rfl, -⟩
    exact halts_outOfBlocks T

theorem Abs.decNlink (h : Abs sb s F R L) (hk : k ∈ L) (hi : (s.icache k).inum = d) {α : Type}
    {p : FsM α} {Q : α → FsState → Prop}
    (hp : ∀ s', Abs sb s' (dropLink F d) R L → (∀ l, (s'.icache l).inum = (s.icache l).inum) →
      wp p s' Q E) :
    wp (do
      Fs.decNlink k
      iupdate k
      p) s Q E := by
  rw [wp_bind, wp_decNlink]
  refine wp_seq (h.iupdate_nlink hk (Nat.mod_lt _ (by decide))) ?_
  rintro _ s₁ ⟨h₁, hin⟩
  rw [h.nlink_eq hk, hi] at h₁
  exact hp s₁ h₁ hin

theorem Released.dropLink (h : Released F F₁) {i : Nat} (hi : F₁ i = F i) :
    Released (dropLink F i) (dropLink F₁ i) := by
  rw [Fs.dropLink, Fs.dropLink, hi]
  exact h.update

/-! ### `unlink` -/

/-- How `unlink` ends when it removes entry `m` of `d`. -/
def Removed (sb : Superblock) (s : FsState) (F : Nat → File) (B : Nat → Nat) (d m : Nat)
    (s' : FsState) : Prop :=
  ∃ F', Ran sb s F B (.remove d m) s' F' B ∅

theorem Ready.unlink_links {i : Nat} (h : Ready sb s F B)
    (h₁ : Abs sb s₁ (clearName F d m i) (inc (inc B dp) l) {l, dp}) (hkeep : Keep B s s₁)
    (hl : (s₁.icache l).inum = i) (hdp : (s₁.icache dp).inum = d) (hne : i ≠ d)
    (he : Effect sb.ninodes F (.remove d m) (Fs.dropLink (clearName F d m i) i)) :
    wp (do
      iunlockput dp
      Fs.decNlink l
      iupdate l
      iunlockput l
      pure 0) s₁ (fun (_ : Int) => Removed sb s F B d m) E := by
  have hlive : ∀ j, (F j).type ≠ 0 → (clearName F d m i j).type ≠ 0 := by
    intro j hj
    rwa [clearName_type]
  have hrun : Running sb s₁ (clearName F d m i) (inc (inc B dp) l) {l, dp} := by
    refine ⟨h₁, fun j hj => ?_⟩
    by_cases hjL : j ∈ ({l, dp} : Finset Nat)
    · exact h₁.live hjL
    · rw [Finset.mem_insert, Finset.mem_singleton, not_or] at hjL
      rw [inc_of_ne hjL.1, inc_of_ne hjL.2] at hj
      rw [hkeep j hj]
      exact hlive _ (h.live j hj)
  have hdpR : 0 < inc (inc B dp) l dp := lt_of_lt_of_le inc_pos (le_inc _ l dp)
  have hldp : l ≠ dp := by
    rintro rfl
    exact hne (hl.symm.trans hdp)
  refine wp_seq (h₁.iunlockput (k := dp) (by simp)) ?_
  rintro _ s₂ ⟨h₂, hk₂⟩
  have hrun₂ := hrun.of_drop hdpR h₂ hk₂
  rw [inc_comm, dec_inc, hdp, Finset.erase_insert_of_ne hldp, Finset.erase_singleton] at hrun₂
  rw [inc_comm, dec_inc] at hk₂
  have hin₂ : (s₂.icache l).inum = i := by rw [hk₂ l inc_pos, hl]
  have hkeep₂ : Keep B s s₂ := hkeep.trans (hk₂.mono (le_inc B l))
  refine hrun₂.toAbs.decNlink (Finset.mem_insert_self l ∅) hin₂ ?_
  intro s₃ h₃ hin₃
  -- the parent may have been freed before the link of `i` was dropped
  have hrel := released_drop (clearName F d m i) (inc B l) dp d
  have hsame : drop (clearName F d m i) (inc B l) dp d i = clearName F d m i i := by
    rw [drop]
    split_ifs
    · exact Function.update_of_ne hne _ _
    · rfl
  have hran : Ran sb s F B (.remove d m) s₃
      (Fs.dropLink (drop (clearName F d m i) (inc B l) dp d) i) (inc B l) {l} := by
    refine ⟨⟨h₃, fun j hj => ?_⟩, ⟨_, he, hrel.dropLink hsame⟩, fun j hj _ => ?_⟩
    · rw [hin₃, Fs.dropLink, setNlink_type]
      exact hrun₂.live j hj
    · rw [hin₃, hkeep₂ j hj]
  refine wp_seq (hran.iunlockput (Finset.mem_singleton_self l)) ?_
  intro _ s₄ h₄
  rw [dec_inc, Finset.erase_singleton] at h₄
  exact ⟨_, h₄⟩

theorem Ready.unlinkEntry {T : Prop} {i : Nat} (h : Ready sb s F B)
    (h₁ : Abs sb s₁ F (inc (inc B dp) l) {l, dp}) (hkeep : Keep B s s₁)
    (hl : (s₁.icache l).inum = i) (hdp : (s₁.icache dp).inum = d) (hdir : (F d).IsDir) (hne : i ≠ d)
    (he : Effect sb.ninodes F (.remove d m) (Fs.dropLink (clearName F d m i) i)) :
    wp (unlinkEntry dp l (16 * m) (F i).type) s₁ (fun _ => Removed sb s F B d m) (Halts T) := by
  have hdpL : dp ∈ ({l, dp} : Finset Nat) := by simp
  refine h₁.clearEntry hdpL hdp hdir (by decide) ?_
  intro s₂ h₂ hin₂
  have hkeep₂ : Keep B s s₂ := fun j hj => (hin₂ j).trans (hkeep j hj)
  by_cases htype : (F i).type = T_DIR
  · rw [if_pos htype]
    refine h₂.decNlink (d := d) hdpL (by rw [hin₂, hdp]) ?_
    intro s₃ h₃ hin₃
    refine h.unlink_links ?_ (fun j hj => (hin₃ j).trans (hkeep₂ j hj)) (by rw [hin₃, hin₂, hl])
      (by rw [hin₃, hin₂, hdp]) hne he
    rw [clearName, if_pos htype]
    exact h₃
  · rw [if_neg htype]
    refine h.unlink_links ?_ hkeep₂ (by rw [hin₂, hl]) (by rw [hin₂, hdp]) hne he
    rw [clearName, if_neg htype]
    exact h₂

/-- The entry that `unlink` would remove. -/
def oldEntry (F : Nat → File) (path : List UInt8) (c : Nat) : Option (Nat × Nat) :=
  match walkPath F true path c with
  | some (d, name) =>
    if key (cstr name) = key (cstr dot) ∨ key (cstr name) = key (cstr dotdot) then none
    else ((F d).lookup (key (cstr name))).map (fun m => (d, m))
  | none => none

/-- The call removes the entry `o`, or none at all. -/
def Removes (o : Option (Nat × Nat)) (a : Act) : Prop :=
  a = .none ∨ ∃ d m, o = some (d, m) ∧ a = .remove d m

/-- How `unlink` ends. -/
def Unlinked (sb : Superblock) (s : FsState) (F : Nat → File) (B : Nat → Nat)
    (o : Option (Nat × Nat)) (s' : FsState) : Prop :=
  ∃ a F', Removes o a ∧ Ran sb s F B a s' F' B ∅

theorem Ready.unlink_refused {o : Option (Nat × Nat)} (h : Ready sb s F B)
    (h₁ : Abs sb s₁ F (inc (inc B dp) l) {l, dp}) (hkeep : Keep B s s₁) (hne : l ≠ dp) :
    wp (do
      iunlockput l
      iunlockput dp
      pure (-1)) s₁ (fun (_ : Int) => Unlinked sb s F B o) E := by
  have hanch := h.toAbs.anchored.keep hkeep
  refine wp_seq (h₁.iunlockput_temp (hanch.mono (le_inc B dp)) (Finset.mem_insert_self l _)) ?_
  rintro _ s₂ ⟨h₂, hk₂⟩
  rw [Finset.erase_insert (by simpa using hne)] at h₂
  have hkeep₂ : Keep B s s₂ := hkeep.trans (hk₂.mono (le_inc B dp))
  refine wp_seq (h₂.iunlockput_temp (h.toAbs.anchored.keep hkeep₂)
    (Finset.mem_singleton_self dp)) ?_
  rintro _ s₃ ⟨h₃, hk₃⟩
  rw [Finset.erase_singleton] at h₃
  have hkeep₃ := hkeep₂.trans hk₃
  exact ⟨.none, F, Or.inl rfl, h.ran (h.same h₃ hkeep₃).toRunning hkeep₃⟩

theorem Ready.unlink_found {T : Prop} {o : Option (Nat × Nat)} {i : Nat} (h : Ready sb s F B)
    (h₁ : Running sb s₁ F (inc (inc B dp) l) {l, dp}) (hkeep : Keep B s s₁)
    (hl : (s₁.icache l).inum = i) (hdp : (s₁.icache dp).inum = d) (hdir : (F d).IsDir)
    (hne : i ≠ d) (ho : o = some (d, m))
    (he : (F i).nlink ≠ 0 → ((F i).type = T_DIR → (F i).EmptyDir) →
      Effect sb.ninodes F (.remove d m) (Fs.dropLink (clearName F d m i) i)) :
    wp (do
      let i ← getInode l
      if i.din.nlink = 0 ∨ i.din.nlink ≥ 2 ^ 15 then panicWith "unlink: nlink < 1"
      else
        let empty ← (if i.din.type = T_DIR then isdirempty l else pure true)
        if !empty then
          iunlockput l
          iunlockput dp
          pure (-1)
        else Fs.unlinkEntry dp l (16 * m) i.din.type) s₁
      (fun _ => Unlinked sb s F B o) (Halts T) := by
  have hlL : l ∈ ({l, dp} : Finset Nat) := Finset.mem_insert_self l _
  have hldp : l ≠ dp := by
    rintro rfl
    exact hne (hl.symm.trans hdp)
  rw [wp_bind, wp_getInode, h₁.toAbs.nlink_eq hlL, h₁.toAbs.type_eq hlL, hl]
  by_cases hlink : (F i).nlink = 0 ∨ (F i).nlink ≥ 2 ^ 15
  · rw [if_pos hlink, wp_panicWith]
    exact halts_of_panic (by decide)
  rw [if_neg hlink, wp_bind]
  have hempty : wp (if (F i).type = T_DIR then isdirempty l else pure true) s₁ (fun r s' =>
      (r = true ↔ ((F i).type = T_DIR → (F i).EmptyDir)) ∧ s' = s₁) (Halts T) := by
    by_cases htype : (F i).type = T_DIR
    · rw [if_pos htype]
      refine wp_mono (isdirempty_spec
        (h₁.toAbs.dirAt hlL hl ⟨htype, (h.sane i htype).whole⟩)) ?_
      rintro r s₂ ⟨hr, hs⟩
      exact ⟨by rw [hr, forall_prop_of_true htype], hs⟩
    · rw [if_neg htype]
      exact ⟨iff_of_true rfl (fun hc => absurd hc htype), rfl⟩
  refine wp_mono hempty ?_
  rintro r s₂ ⟨hr, rfl⟩
  cases r with
  | false =>
    rw [if_pos (by decide)]
    exact h.unlink_refused h₁.toAbs hkeep hldp
  | true =>
    rw [if_neg (by decide)]
    refine wp_mono (h.unlinkEntry h₁.toAbs hkeep hl hdp hdir hne
      (he (fun h0 => hlink (Or.inl h0)) (hr.mp rfl))) ?_
    rintro _ s₃ ⟨F', hran⟩
    exact ⟨_, F', Or.inr ⟨d, m, ho, rfl⟩, hran⟩

theorem Ready.sysUnlink (h : Ready sb s F B) (hc : 0 < B cwd) :
    wp (sysUnlink path cwd) s
      (fun _ => Unlinked sb s F B (oldEntry F path (s.icache cwd).inum))
      (Halts (Dangling F (s.icache cwd).inum)) := by
  refine h.nameiparent_ilock hc path ?_ ?_
  · intro s₁ h₁ hk₁
    exact ⟨.none, F, Or.inl rfl, h.ran h₁.toRunning hk₁⟩
  intro dp d name s₁ hw h₁ hk₁ hdi hdir
  have hrefuse : wp (do
      iunlockput dp
      pure (-1)) s₁ (fun (_ : Int) => Unlinked sb s F B (oldEntry F path (s.icache cwd).inum))
      (Halts (Dangling F (s.icache cwd).inum)) := by
    rw [wp_bind]
    exact wp_mono (h.iunlockput_new h₁ hk₁) (fun _ _ hran => ⟨.none, F, Or.inl rfl, hran⟩)
  simp only [namecmp_eq_zero]
  by_cases hdots : key (cstr name) = key (cstr dot) ∨ key (cstr name) = key (cstr dotdot)
  · rw [if_pos hdots]
    exact hrefuse
  rw [if_neg hdots]
  refine wp_chain (h₁.toAbs.dirlookup (Finset.mem_singleton_self dp) hdi hdir name) ?_
    (fun e he => by rw [he]; exact halts_noCacheEntry _)
  intro r s₂ hr
  cases hlook : (F d).lookup (key (cstr name)) with
  | none =>
    rw [hlook] at hr
    obtain ⟨rfl, rfl⟩ := hr
    exact hrefuse
  | some m =>
    rw [hlook] at hr
    obtain ⟨l, rfl, h₂, hk₂, hl₂⟩ := hr
    obtain ⟨hm, hin, hkey⟩ := lookup_some hlook
    have hd0 := (h.range_of_live (i := d) (by rw [hdir.type]; decide)).1
    have hrange := (h.sane d hdir.type).entry m hm
    have hne : (F d).inumAt m ≠ d := by
      intro hc
      rcases (h.sane d hdir.type).self (by omega) m hm hc with hk | ⟨-, hk⟩
      · exact hdots (Or.inl (hkey.symm.trans hk))
      · exact hdots (Or.inr (hkey.symm.trans hk))
    have hdi₂ : (s₂.icache dp).inum = d := by rw [hk₂ dp inc_pos, hdi]
    have hldp : l ∉ ({dp} : Finset Nat) := by
      rw [Finset.mem_singleton]
      rintro rfl
      exact hne (hl₂.symm.trans hdi₂)
    have hkeep₂ : Keep B s s₂ := hk₁.trans (hk₂.mono (le_inc B dp))
    refine wp_chain (h₁.ilock_new h₂ hk₂ hldp
      (by rw [hl₂]; exact ⟨Nat.pos_of_ne_zero hin, hrange⟩)) ?_ ?_
    · rintro _ s₃ ⟨h₃, hk₃⟩
      have hkeep₃ : Keep B s s₃ :=
        hkeep₂.trans (hk₃.mono (fun j => (le_inc B dp j).trans (le_inc _ l j)))
      have hl₃ : (s₃.icache l).inum = (F d).inumAt m := by
        rw [hk₃ l inc_pos, hl₂]
      refine h.unlink_found h₃ hkeep₃ hl₃ ?_ hdir hne ?_ ?_
      · rw [hk₃ dp (lt_of_lt_of_le inc_pos (le_inc _ l dp)), hdi₂]
      · rw [oldEntry, hw]
        simp only [if_neg hdots, hlook, Option.map_some]
      · intro hlink hempty
        refine Effect.unlink hdir.type hm hin ?_ ?_ hne ?_ hlink hempty
        · rw [hkey]
          exact fun hc => hdots (Or.inl hc)
        · rw [hkey]
          exact fun hc => hdots (Or.inr hc)
        · rw [← hl₃]
          exact h₃.toAbs.live (Finset.mem_insert_self l _)
    · rintro e ⟨rfl, hfree⟩
      rw [hl₂] at hfree
      exact halts_noType ⟨_, (walkPath_reaches hw).step hdir.type hm hin, hfree⟩

end Xv6.Fs
