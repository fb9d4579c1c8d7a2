import Xv6.FsRunning

/-!
# Creating files

`create` returns a locked inode with a new reference: the file that the path names already, or a
new inode with an entry in the directory that the path leads to. Nothing else changes, and the
references and locks that it takes on the way are given back in every branch.
-/

namespace Xv6.Fs

open Function

open Prog

variable {sb : Superblock} {s s' s₁ : FsState} {F F' F₁ : Nat → File} {R B : Nat → Nat}
  {L : Finset Nat} {k dp i d c cwd : Nat} {E : Fault → Prop} {a : Act}

/-- The directory that a path without an entry yet would add one to. -/
def newEntry (F : Nat → File) (path : List UInt8) (c : Nat) : Option Nat :=
  match walkPath F true path c with
  | some (dp, name) => if (F dp).lookup (key (cstr name)) = none then some dp else none
  | none => none

/-- The call adds an entry to the directory `o`, or none at all. -/
def Adds (o : Option Nat) (a : Act) : Prop := a = .none ∨ ∃ dp, o = some dp ∧ a = .add dp

theorem Adds.none {o : Option Nat} : Adds o .none := Or.inl rfl

variable {path : List UInt8} {name : Name}

theorem newEntry_of_walk (hw : walkPath F true path c = some (d, name))
    (hlook : (F d).lookup (key (cstr name)) = none) : newEntry F path c = some d := by
  rw [newEntry, hw]
  exact if_pos hlook

/-! ### The entries of a new directory -/

theorem size_dot : ((File.create T_DIR 0 0).setEntry 0 i dot).size = 16 := rfl

theorem emptySlot_dot (h0 : i ≠ 0) (hi : i < 2 ^ 16) :
    ((File.create T_DIR 0 0).setEntry 0 i dot).emptySlot = 1 := by
  have hin : ((File.create T_DIR 0 0).setEntry 0 i dot).inumAt 0 ≠ 0 := by
    rwa [File.inumAt_setEntry_self.1, Nat.mod_eq_of_lt hi]
  rw [File.emptySlot, size_dot]
  simp [List.range_succ, hin]

theorem lookup_dotdot : ((File.create T_DIR 0 0).setEntry 0 i dot).lookup (key (cstr dotdot)) =
    none := by
  have hkey : ((File.create T_DIR 0 0).setEntry 0 i dot).keyAt 0 ≠ key (cstr dotdot) := by
    rw [File.inumAt_setEntry_self.2]
    decide
  rw [File.lookup, size_dot]
  simp [List.range_succ, File.Matches, hkey]

theorem Abs.createDots {T : Prop} (h : Abs sb s (update F i (File.create T_DIR 0 0)) R L)
    (hk : k ∈ L) (hdp : dp ∈ L) (hki : (s.icache k).inum = i) (hdi : (s.icache dp).inum = d)
    (hne : d ≠ i) (h0 : i ≠ 0) (hi : i < 2 ^ 16) :
    wp (createDots k dp) s (fun _ s' =>
        Abs sb s' (addLink (update F i (newDir i d)) d) R L ∧
        ∀ l, (s'.icache l).inum = (s.icache l).inum)
      (Halts T) := by
  simp only [Fs.createDots, wp_bind, wp_incNlink]
  refine wp_mono (h.iupdate_nlink hdp (Nat.mod_lt _ (by decide))) ?_
  rintro _ s₁ ⟨h₁, hin₁⟩
  simp only [wp_getInode, hin₁, hki, hdi]
  rw [h.nlink_eq hdp, hdi, update_of_ne hne] at h₁
  rw [update_comm hne.symm] at h₁
  have hF : ∀ F₀ : Nat → File, ∀ g, (update F₀ i g) i = g := fun F₀ g =>
    update_self i g F₀
  have hdir : ((File.create T_DIR 0 0)).IsDir := ⟨rfl, rfl⟩
  refine wp_mono (h₁.dirlink_none (i := i) hk (by rw [hin₁, hki]) (by rwa [hF]) i
    (by rw [hF]; rfl)) ?_
  rintro r s₂ ⟨rfl, h₂, hin₂⟩
  rw [hF, update_idem] at h₂
  have hdir₂ : ((File.create T_DIR 0 0).setEntry 0 i dot).IsDir := ⟨rfl, by rw [size_dot]⟩
  have hslot : (File.create T_DIR 0 0).emptySlot = 0 := rfl
  rw [hslot] at h₂
  rw [if_neg (by decide)]
  refine wp_seq (h₂.dirlink_none (i := i) hk (by rw [hin₂, hin₁, hki]) (by rwa [hF]) d
    (by rw [hF]; exact lookup_dotdot)) ?_
  rintro r s₃ ⟨rfl, h₃, hin₃⟩
  rw [hF, update_idem, emptySlot_dot h0 hi] at h₃
  rw [if_neg (by decide), wp_pure]
  refine ⟨?_, fun l => by rw [hin₃, hin₂, hin₁]⟩
  rw [addLink, update_of_ne hne, update_comm hne.symm]
  exact h₃

/-! ### What effects leave -/

theorem addEntry_type (j : Nat) : (addEntry F dp i name j).type = (F j).type := by
  rw [addEntry]
  by_cases hj : j = dp
  · rw [hj, update_self]
    rfl
  · rw [update_of_ne hj]

theorem setNlink_type (j n : Nat) : (update F i ((F i).setNlink n) j).type = (F j).type := by
  by_cases hj : j = i
  · rw [hj, update_self]
    rfl
  · rw [update_of_ne hj]

theorem clearName_type (j m : Nat) : (clearName F dp m i j).type = (F j).type := by
  have hclear : (update F dp ((F dp).clearEntry m) j).type = (F j).type := by
    by_cases hj : j = dp
    · rw [hj, update_self]
      rfl
    · rw [update_of_ne hj]
  simp only [clearName]
  split_ifs
  · rw [dropLink, setNlink_type, hclear]
  · exact hclear

/-- The inode of `f` is still there, with all of its content. -/
structure Kept (f f' : File) : Prop where
  type : f'.type = f.type
  size : f.size ≤ f'.size
  content : f.type ≠ T_DIR → f'.size = f.size ∧ f'.bytes = f.bytes

theorem Kept.refl (f : File) : Kept f f := ⟨rfl, le_rfl, fun _ => ⟨rfl, rfl⟩⟩

theorem Kept.trans {f g h : File} (hfg : Kept f g) (hgh : Kept g h) : Kept f h := by
  refine ⟨hgh.type.trans hfg.type, hfg.size.trans hgh.size, fun hf => ?_⟩
  obtain ⟨hs, hb⟩ := hfg.content hf
  obtain ⟨hs', hb'⟩ := hgh.content (by rwa [hfg.type])
  exact ⟨hs'.trans hs, hb'.trans hb⟩

theorem kept_update {g : File} (h : Kept (F i) g) (j : Nat) : Kept (F j) (update F i g j) := by
  by_cases hj : j = i
  · rw [hj, update_self]
    exact h
  · rw [update_of_ne hj]
    exact Kept.refl _

theorem kept_setNlink (n j : Nat) : Kept (F j) (update F i ((F i).setNlink n) j) := by
  have hset : Kept (F i) ((F i).setNlink n) := ⟨rfl, le_rfl, fun _ => ⟨rfl, rfl⟩⟩
  exact kept_update hset j

theorem kept_write {f : File} (hf : f.type = T_DIR) (off n : Nat) (src : Nat → UInt8) :
    Kept f (f.write off n src) := by
  refine ⟨rfl, ?_, fun hc => absurd hf hc⟩
  simp only [File.write]
  split_ifs <;> omega

theorem kept_addEntry (i : Nat) (name : Name) (hdp : (F dp).type = T_DIR) (j : Nat) :
    Kept (F j) (addEntry F dp i name j) := kept_update (kept_write hdp _ _ _) j

theorem kept_clearName (hdp : (F dp).type = T_DIR) (m j : Nat) :
    Kept (F j) (clearName F dp m i j) := by
  have hclear : Kept (F j) (update F dp ((F dp).clearEntry m) j) :=
    kept_update (kept_write hdp _ _ _) j
  simp only [clearName]
  split_ifs
  · exact hclear.trans (kept_setNlink _ j)
  · exact hclear

/-- No call takes anything from a live inode, but for freeing it. -/
theorem Effect.kept {N j : Nat} (he : Effect N F a F') (hj : (F j).type ≠ 0) :
    Kept (F j) (F' j) := by
  have hnew : ∀ {i l : Nat} {g : File}, (F i).type = 0 → (F l).type ≠ 0 →
      update F i g l = F l := by
    intro i l g hfree hl
    apply update_of_ne
    rintro rfl
    exact hl hfree
  have hdir : ∀ {l : Nat}, (F l).type = T_DIR → (F l).type ≠ 0 := by
    intro l hl
    rw [hl]
    decide
  cases he with
  | same => exact Kept.refl _
  | @create dp i type major minor name h0 hdir' hdp hlook hi hfree =>
    have hF := kept_addEntry (F := update F i (File.create type major minor)) i name
      (by rw [hnew hfree (hdir hdp)]; exact hdp) j
    rwa [hnew hfree hj] at hF
  | @mkdir dp i name hdp hlook hi hfree =>
    have hlink := kept_setNlink (F := update F i (newDir i dp)) (i := dp)
      (((update F i (newDir i dp) dp).nlink + 1) % 2 ^ 16)
    have hF := (hlink j).trans (kept_addEntry i name
      (by rw [(hlink dp).type, hnew hfree (hdir hdp.1)]; exact hdp.1) j)
    rwa [hnew hfree hj] at hF
  | @link dp i name h0 hfile hi hdp hlook =>
    have hlink := kept_setNlink (F := F) (i := i) (((F i).nlink + 1) % 2 ^ 16)
    exact (hlink j).trans (kept_addEntry i name (by rw [(hlink dp).type]; exact hdp) j)
  | unlink hdp hm hin hdot hdotdot hne hlive hlink hempty =>
    exact (kept_clearName hdp _ j).trans (kept_setNlink _ j)

theorem Ready.ran_effect (h : Ready sb s F B) (he : Effect sb.ninodes F a F₁)
    (h₁ : Abs sb s₁ F₁ R L) (hkeep : Keep B s s₁)
    (hR : ∀ k, 0 < R k → (F₁ (s₁.icache k).inum).type ≠ 0 ∨ 0 < B k) :
    Ran sb s F B a s₁ F₁ R L := by
  refine ⟨⟨h₁, fun k hk => ?_⟩, ⟨F₁, he, Released.refl F₁⟩, fun k hk _ => hkeep k hk⟩
  rcases hR k hk with hlive | hB
  · exact hlive
  · rw [hkeep k hB, (he.kept (h.live k hB)).type]
    exact h.live k hB

/-! ### `create` -/

/-- How `create` ends. -/
def Created (sb : Superblock) (s : FsState) (F : Nat → File) (B : Nat → Nat) (path : List UInt8)
    (c : Nat) (r : Option Nat) (s' : FsState) : Prop :=
  match r with
  | none => Ran sb s F B .none s' F B ∅
  | some l => ∃ a F', Adds (newEntry F path c) a ∧ Ran sb s F B a s' F' (inc B l) {l}

theorem Ready.create_found {l : Nat} (h : Ready sb s F B)
    (h₁ : Abs sb s₁ F (inc (inc B dp) l) {dp}) (hkeep : Keep B s s₁)
    (hr : 0 < (s₁.icache l).inum ∧ (s₁.icache l).inum < sb.ninodes)
    (hreach : Reaches F c (s₁.icache l).inum) (type : Nat) :
    wp (do
      iunlockput dp
      Fs.ilock l
      let i ← getInode l
      if type = T_FILE ∧ i.din.type = T_FILE then pure (some l)
      else
        iunlockput l
        pure none) s₁ (Created sb s F B path c) (Halts (Dangling F c)) := by
  have hanch := h.toAbs.anchored
  rw [inc_comm] at h₁
  refine wp_seq (h₁.iunlockput_temp ((hanch.keep hkeep).mono (le_inc B l))
    (Finset.mem_singleton_self dp)) ?_
  rintro _ s₂ ⟨h₂, hk₂⟩
  rw [Finset.erase_singleton] at h₂
  have hin₂ : (s₂.icache l).inum = (s₁.icache l).inum := hk₂ l inc_pos
  have hkeep₂ : Keep B s s₂ := hkeep.trans (hk₂.mono (le_inc B l))
  refine wp_chain (h.toRunning.ilock_new h₂ hkeep₂ (Finset.notMem_empty l) (by rwa [hin₂])) ?_ ?_
  · rintro _ s₃ ⟨h₃, hk₃⟩
    have hkeep₃ : Keep B s s₃ := hkeep₂.trans (hk₃.mono (le_inc B l))
    rw [wp_bind, wp_getInode]
    split_ifs
    · exact ⟨.none, F, Adds.none, h.ran h₃ hkeep₃⟩
    · refine wp_seq (h₃.toAbs.iunlockput_temp (hanch.keep hkeep₃) (Finset.mem_insert_self l ∅)) ?_
      rintro _ s₄ ⟨h₄, hk₄⟩
      rw [insert_empty_eq, Finset.erase_singleton] at h₄
      have hkeep₄ := hkeep₃.trans hk₄
      exact h.ran (h.same h₄ hkeep₄).toRunning hkeep₄
  · rintro e ⟨rfl, hfree⟩
    rw [hin₂] at hfree
    exact halts_noType ⟨_, hreach, hfree⟩

theorem Ready.create_entry {T : Prop} (h : Ready sb s F B)
    (h₁ : Abs sb s₁ F₁ (inc (inc B dp) k) {k, dp}) (hkeep : Keep B s s₁) (hne : k ≠ dp)
    (hki : (s₁.icache k).inum = i) (hdi : (s₁.icache dp).inum = d) (hdir : (F₁ d).IsDir)
    (hlook : (F₁ d).lookup (key (cstr name)) = none)
    (he : Effect sb.ninodes F (.add d) (addEntry F₁ d i name)) (hadd : newEntry F path c = some d) :
    wp (do
      let i ← getInode k
      let r ← dirlink dp name i.inum
      if r < 0 then panicWith "create: dirlink"
      else
        iunlockput dp
        pure (some k)) s₁ (Created sb s F B path c) (Halts T) := by
  have hdp : dp ∈ ({k, dp} : Finset Nat) := by simp
  rw [wp_bind, wp_getInode, hki]
  refine wp_seq (h₁.dirlink_none hdp hdi hdir i hlook) ?_
  rintro r s₂ ⟨rfl, h₂, hin₂⟩
  have hran : Ran sb s F B (.add d) s₂ (addEntry F₁ d i name) (inc (inc B dp) k) {k, dp} := by
    refine h.ran_effect he h₂ (fun l hl => (hin₂ l).trans (hkeep l hl)) ?_
    intro l hl
    by_cases hlk : l = k
    · exact Or.inl (h₂.live (by simp [hlk]))
    · rw [inc_of_ne hlk] at hl
      by_cases hld : l = dp
      · exact Or.inl (h₂.live (by simp [hld]))
      · rw [inc_of_ne hld] at hl
        exact Or.inr hl
  rw [if_neg (by decide)]
  refine wp_seq (hran.iunlockput hdp) ?_
  intro _ s₃ h₃
  rw [inc_comm, dec_inc, Finset.erase_insert_of_ne hne, Finset.erase_singleton] at h₃
  exact ⟨.add d, _, Or.inr ⟨d, hadd, rfl⟩, h₃⟩

theorem Ready.create_new {T : Prop} {type major minor : Nat}
    (h : Ready sb s F B) (h₁ : Running sb s₁ F (inc B dp) {dp}) (hkeep : Keep B s s₁)
    (hdi : (s₁.icache dp).inum = d) (hdir : (F d).IsDir)
    (hlook : (F d).lookup (key (cstr name)) = none) (hadd : newEntry F path c = some d)
    (h0 : type ≠ 0) (ht : type < 2 ^ 16) (hmaj : major < 2 ^ 16) (hmin : minor < 2 ^ 16)
    (hdev : type = T_DIR → major = 0 ∧ minor = 0) :
    wp (do
      let ip ← createInode type major minor
      if type = T_DIR then createDots ip dp else pure ()
      let i ← getInode ip
      let r ← dirlink dp name i.inum
      if r < 0 then panicWith "create: dirlink"
      else
        iunlockput dp
        pure (some ip)) s₁ (Created sb s F B path c) (Halts T) := by
  refine wp_seq (h₁.toAbs.createInode h0 ht hmaj hmin) ?_
  rintro k s₂ ⟨i, hi, hfree, hkL, h₂, hk₂, hki⟩
  have hne : k ≠ dp := by simpa using hkL
  have hin₂ : (s₂.icache dp).inum = d := by
    rw [hk₂ dp inc_pos, hdi]
  have hkeep₂ : Keep B s s₂ := hkeep.trans (hk₂.mono (le_inc B dp))
  have hdni : d ≠ i := by
    rintro rfl
    rw [hdir.type] at hfree
    cases hfree
  have hrange := h.range_of_live (i := d) (by rw [hdir.type]; decide)
  have hkL₂ : k ∈ insert k ({dp} : Finset Nat) := Finset.mem_insert_self k _
  have hdpL₂ : dp ∈ insert k ({dp} : Finset Nat) := by simp
  dsimp only
  by_cases htype : type = T_DIR
  · obtain ⟨rfl, rfl⟩ := hdev htype
    subst htype
    rw [if_pos rfl, wp_bind]
    have hsmall := h.small
    refine wp_mono (h₂.createDots hkL₂ hdpL₂ hki hin₂ hdni (by omega) (by omega)) ?_
    rintro _ s₃ ⟨h₃, hin₃⟩
    have hFd : addLink (update F i (newDir i d)) d d =
        (F d).setNlink (((F d).nlink + 1) % 2 ^ 16) := by
      rw [addLink, update_self, update_of_ne hdni]
    exact h.create_entry h₃ (fun l hl => (hin₃ l).trans (hkeep₂ l hl)) hne (by rw [hin₃, hki])
      (by rw [hin₃, hin₂]) (by rw [hFd]; exact ⟨hdir.type, hdir.whole⟩) (by rw [hFd]; exact hlook)
      (Effect.mkdir ⟨hdir.type, hrange.2⟩ hlook hi hfree) hadd
  · rw [if_neg htype]
    have hFd : update F i (File.create type major minor) d = F d :=
      update_of_ne hdni _ _
    exact h.create_entry h₂ hkeep₂ hne hki hin₂ (by rwa [hFd]) (by rwa [hFd])
      (Effect.create h0 htype hdir.type hlook hi hfree) hadd

theorem Ready.create (h : Ready sb s F B) (hc : 0 < B cwd) (path : List UInt8)
    {type major minor : Nat} (h0 : type ≠ 0) (ht : type < 2 ^ 16) (hmaj : major < 2 ^ 16)
    (hmin : minor < 2 ^ 16) (hdev : type = T_DIR → major = 0 ∧ minor = 0) :
    wp (create path type major minor cwd) s (Created sb s F B path (s.icache cwd).inum)
      (Halts (Dangling F (s.icache cwd).inum)) := by
  refine h.nameiparent_ilock hc path ?_ ?_
  · intro s₁ h₁ hk₁
    exact h.ran h₁.toRunning hk₁
  · intro dp d name s₁ hw h₁ hk₁ hdi hdir
    refine wp_chain (h₁.toAbs.dirlookup (Finset.mem_singleton_self dp) hdi hdir name) ?_
      (fun e he => by rw [he]; exact halts_noCacheEntry _)
    intro r s₂ hr
    cases hlook : (F d).lookup (key (cstr name)) with
    | some m =>
      rw [hlook] at hr
      obtain ⟨l, rfl, h₂, hk₂, hl₂⟩ := hr
      obtain ⟨hm, hin, -⟩ := lookup_some hlook
      have hrange := (h.sane d hdir.type).entry m hm
      refine h.create_found h₂ (hk₁.trans (hk₂.mono (le_inc B dp))) ?_ ?_ type
      · rw [hl₂]
        exact ⟨Nat.pos_of_ne_zero hin, hrange⟩
      · rw [hl₂]
        exact (walkPath_reaches hw).step hdir.type hm hin
    | none =>
      rw [hlook] at hr
      obtain ⟨rfl, rfl⟩ := hr
      exact h.create_new h₁ hk₁ hdi hdir hlook (newEntry_of_walk hw hlook) h0 ht hmaj hmin hdev

end Xv6.Fs
