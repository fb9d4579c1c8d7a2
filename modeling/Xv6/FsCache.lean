import Xv6.FsTrunc

/-!
# The inode cache

References to inodes and their locks: `iget`, `idup`, `ilock`, `iunlock`, `iput` and `ialloc` on
good states. Dropping the last reference to an inode without links frees it.
-/

namespace Xv6.Fs

open Function

open Prog

variable {s s' : FsState} {k i : Nat} {E : Fault → Prop}

theorem Good.putInode (h : Good s) {x : Inode}
    (hx : 0 < x.ref → x.valid = true → x.din = dinodes s.sb s.disk x.inum ∧ x.din.type ≠ 0)
    (hu : 0 < x.ref → ∀ l < NINODE, l ≠ k → 0 < (s.icache l).ref → (s.icache l).inum ≠ x.inum) :
    Good (s.putInode k x) where
  vol := h.vol
  covered := h.covered
  cache l hl hr hv := by
    rw [putInode_icache] at hr hv ⊢
    by_cases hlk : l = k
    · subst hlk
      rw [update_self] at hr hv ⊢
      exact hx hr hv
    · rw [update_of_ne hlk] at hr hv ⊢
      exact h.cache l hl hr hv
  unique l hl m hm hrl hrm hlm := by
    rw [putInode_icache] at hrl hrm hlm
    by_cases hlk : l = k <;> by_cases hmk : m = k
    · rw [hlk, hmk]
    · rw [hlk, update_self] at hrl hlm
      rw [update_of_ne hmk] at hrm hlm
      exact absurd hlm.symm (hu hrl m hm hmk hrm)
    · rw [hmk, update_self] at hrm hlm
      rw [update_of_ne hlk] at hrl hlm
      exact absurd hlm (hu hrm l hl hlk hrl)
    · rw [update_of_ne hlk] at hrl hlm
      rw [update_of_ne hmk] at hrm hlm
      exact h.unique l hl m hm hrl hrm hlm

theorem Good.setEntry (h : Good s) (hk : k < NINODE) (hr : 0 < (s.icache k).ref) {x : Inode}
    (hinum : x.inum = (s.icache k).inum) (hvalid : x.valid = (s.icache k).valid)
    (hdin : x.din = (s.icache k).din) : Good (s.putInode k x) := by
  apply h.putInode
  · intro _ hv
    rw [hdin, hinum]
    exact h.cache k hk hr (by rwa [← hvalid])
  · intro _ l hl hlk hrl hc
    rw [hinum] at hc
    exact hlk (h.unique l hl k hk hrl hr hc)

/-! ### `iget` -/

def noCacheEntry : Fault := .panic "iget: no inodes"

/-- Entry `k` is the one of inode `i` if there is one, else an unused one. -/
def Got (s : FsState) (i k : Nat) (s' : FsState) : Prop :=
  k < NINODE ∧
    (0 < (s.icache k).ref ∧ (s.icache k).inum = i ∧
        s' = s.putInode k { s.icache k with ref := (s.icache k).ref + 1 } ∨
      (∀ l < NINODE, 0 < (s.icache l).ref → (s.icache l).inum ≠ i) ∧ (s.icache k).ref = 0 ∧
        s' = s.putInode k { s.icache k with inum := i, ref := 1, valid := false })

theorem iget_spec (i : Nat) (s : FsState) :
    wp (iget i) s (fun k s' => Got s i k s')
      (fun e => e = noCacheEntry ∧ ∀ l < NINODE, 0 < (s.icache l).ref) := by
  simp only [iget, wp_bind, wp_get]
  cases hhit : (List.range NINODE).find?
      (fun k => (s.icache k).ref > 0 ∧ (s.icache k).inum = i) with
  | some k =>
    have hk := List.mem_range.mp (List.mem_of_find?_eq_some hhit)
    have hp := List.find?_some hhit
    simp only [decide_eq_true_eq] at hp
    exact ⟨hk, Or.inl ⟨hp.1, hp.2, rfl⟩⟩
  | none =>
    have hmiss : ∀ l < NINODE, 0 < (s.icache l).ref → (s.icache l).inum ≠ i := by
      intro l hl hr hc
      have := List.find?_eq_none.mp hhit l (List.mem_range.mpr hl)
      simp [hr, hc] at this
    cases hfree : (List.range NINODE).find? (fun k => (s.icache k).ref = 0) with
    | some k =>
      have hk := List.mem_range.mp (List.mem_of_find?_eq_some hfree)
      have hp := List.find?_some hfree
      simp only [decide_eq_true_eq] at hp
      exact ⟨hk, Or.inr ⟨hmiss, hp, rfl⟩⟩
    | none =>
      refine ⟨rfl, fun l hl => Nat.pos_of_ne_zero (fun h0 => ?_)⟩
      have := List.find?_eq_none.mp hfree l (List.mem_range.mpr hl)
      simp [h0] at this

theorem Got.good (h : Good s) (hg : Got s i k s') : Good s' := by
  obtain ⟨hk, ⟨hr, -, rfl⟩ | ⟨hmiss, -, rfl⟩⟩ := hg
  · exact h.setEntry hk hr rfl rfl rfl
  · apply h.putInode
    · intro _ hv
      cases hv
    · intro _ l hl _ hr
      exact hmiss l hl hr

theorem Got.frame (hg : Got s i k s') : s'.sb = s.sb ∧ s'.disk = s.disk ∧ files s' = files s := by
  obtain ⟨-, ⟨-, -, rfl⟩ | ⟨-, -, rfl⟩⟩ := hg
  · exact ⟨rfl, rfl, rfl⟩
  · exact ⟨rfl, rfl, rfl⟩

/-! ### `ilock` -/

theorem putInode_putInode (s : FsState) (k : Nat) (x y : Inode) :
    (s.putInode k x).putInode k y = s.putInode k y := by
  simp [FsState.putInode]

def noType : Fault := .panic "ilock: no type"

/-- The inode that `ilock` finds in memory or reads from the disk. -/
def FsState.fetched (s : FsState) (k : Nat) : Dinode :=
  if (s.icache k).valid then (s.icache k).din
  else readDinode (s.disk (IBLOCK (s.icache k).inum s.sb)) ((s.icache k).inum % IPB)

theorem ilock_spec (hr : 0 < (s.icache k).ref) (hu : (s.icache k).locked = false) :
    wp (ilock k) s
      (fun _ s' => s' = s.putInode k
          { s.icache k with locked := true, valid := true, din := s.fetched k } ∧
        ((s.icache k).valid = false → (s.fetched k).type ≠ 0))
      (fun e => e = noType ∧ (s.icache k).valid = false ∧ (s.fetched k).type = 0) := by
  simp only [ilock, acquiresleep, wp_bind, wp_getInode]
  rw [if_neg (by omega), wp_bind, wp_bind, wp_getInode, if_neg (by simp [hu]), wp_setInode, wp_bind,
    wp_getInode]
  simp only [putInode_icache, update_self]
  cases hv : (s.icache k).valid with
  | true =>
    simp only [if_true, wp_pure, FsState.fetched, hv, true_and]
    exact fun hc => by cases hc
  | false =>
    simp only [Bool.false_eq_true, if_false, wp_bind, wp_getSb, wp_bread, wp_setInode,
      putInode_disk, putInode_sb, FsState.fetched, hv]
    by_cases ht : (readDinode (s.disk (IBLOCK (s.icache k).inum s.sb))
        ((s.icache k).inum % IPB)).type = 0
    · simp only [ht, if_true, wp_panicWith, and_true]
      rfl
    · simp only [ht, if_false, wp_pure]
      exact ⟨putInode_putInode s k _ _, fun _ => ht⟩

/-! ### Freeing an inode -/

/-- `s'` is `s` after the last reference to the unlinked inode in entry `k` was dropped. -/
structure Freed (s s' : FsState) (k : Nat) : Prop where
  good : Good s'
  files : files s' = update (files s) (s.icache k).inum File.free
  sb : s'.sb = s.sb
  others : ∀ l ≠ k, s'.icache l = s.icache l
  inum : (s'.icache k).inum = (s.icache k).inum
  ref : (s'.icache k).ref = 0
  locked : (s'.icache k).locked = false

/-- An inode without blocks got type 0 on the disk, and its entry is given up. -/
theorem freed_of_flushed {s₁ s₂ : FsState} (h : Good s) (hl : Loaded s k)
    (hheld : held s₁.disk (tblOf s₁ k) = held s.disk (dinodes s.sb s.disk))
    (htbl : tblOf s₁ k = update (dinodes s.sb s.disk) (s.icache k).inum ((s.icache k).din.setType
      0)) (hview : view s₁.disk (dinodes s.sb s.disk) = files s) (hf : Flushed s₁ s₂ k)
    (hsb : s₁.sb = s.sb) (hsb' : s'.sb = s₂.sb) (hdisk : s'.disk = s₂.disk)
    (hothers : ∀ l ≠ k, s'.icache l = s.icache l) (hinum : (s'.icache k).inum = (s.icache k).inum)
    (href : (s'.icache k).ref = 0) (hlocked : (s'.icache k).locked = false) : Freed s s' k := by
  have htable : dinodes s'.sb s'.disk =
      update (dinodes s.sb s.disk) (s.icache k).inum ((s.icache k).din.setType 0) := by
    rw [hsb', hdisk, hf.table, htbl]
  have hne : ∀ l, 0 < (s'.icache l).ref → l ≠ k := by
    rintro l hrl rfl
    omega
  refine ⟨⟨?_, ?_, ?_, ?_⟩, ?_, by rw [hsb', hf.sb, hsb], hothers, hinum, href, hlocked⟩
  · have hv := hf.vol
    rwa [← hf.table, ← hsb', ← hdisk] at hv
  · apply h.covered_update htable
    · intro j l _
      rw [hsb', hdisk, hf.table, hf.held, hheld]
    · intro hc
      exact absurd rfl hc
  · intro l hln hrl hvl
    have hlk := hne l hrl
    rw [hothers l hlk] at hrl hvl ⊢
    rw [htable, update_of_ne (fun hc => hlk (h.unique l hln k hl.lt hrl hl.ref hc))]
    exact h.cache l hln hrl hvl
  · intro l hln m hmn hrl hrm hlm
    have hlk := hne l hrl
    have hmk := hne m hrm
    rw [hothers l hlk] at hrl hlm
    rw [hothers m hmk] at hrm hlm
    exact h.unique l hln m hmn hrl hrm hlm
  · rw [files, hsb', hdisk, hf.table, hf.view, htbl, ← hview]
    funext j
    by_cases hj : j = (s.icache k).inum
    · subst hj
      rw [update_self, view, update_self]
      exact fileOf_free rfl
    · rw [update_of_ne hj, view, update_of_ne hj, view]

theorem iupdate_free (h : Good s) (hl : Loaded s k)
    (hz : ∀ l, ptr s.disk (s.icache k).din l = 0) :
    wp (iupdate k) (s.setDin k ((s.icache k).din.setType 0)) (fun _ s₂ =>
      (s₂.icache k).ref = (s.icache k).ref ∧
        ∀ s', s'.sb = s₂.sb → s'.disk = s₂.disk → (∀ l ≠ k, s'.icache l = s₂.icache l) →
      (s'.icache k).inum = (s₂.icache k).inum → (s'.icache k).ref = 0 →
      (s'.icache k).locked = false → Freed s s' k) E := by
  have hact := h.active hl
  have hself : (s.setDin k ((s.icache k).din.setType 0)).icache k =
      { s.icache k with din := (s.icache k).din.setType 0 } := setDin_icache_self _
  have htbl : tblOf (s.setDin k ((s.icache k).din.setType 0)) k =
      update (dinodes s.sb s.disk) (s.icache k).inum ((s.icache k).din.setType 0) := by
    simp only [tblOf, hself]
    rfl
  have hheld : held s.disk (tblOf (s.setDin k ((s.icache k).din.setType 0)) k) =
      held s.disk (dinodes s.sb s.disk) := by
    funext x
    obtain ⟨j, l⟩ := x
    by_cases hj : j = (s.icache k).inum
    · subst hj
      rw [held_free (by rw [htbl, update_self]; rfl), ← h.tblOf_eq hl, hact.held_eq, hz]
    · exact held_congr (by rw [htbl, update_of_ne hj]) (fun _ => rfl)
  have hvol : Volume (bitUsed s.sb s.disk) s.sb s.disk
      (tblOf (s.setDin k ((s.icache k).din.setType 0)) k) := by
    refine ⟨h.vol.layout, h.vol.super, ?_⟩
    rw [hheld]
    exact h.vol.owns
  have hwf : ((s.icache k).din.setType 0).Wf :=
    ⟨Nat.two_pow_pos 16, hact.wf.major, hact.wf.minor, hact.wf.nlink, hact.wf.size,
      hact.wf.addrs, hact.wf.short⟩
  refine wp_mono (iupdate_spec hvol (by rwa [hself]) (by rw [hself]; exact hact.range)) ?_
  intro _ s₂ hf
  refine ⟨by rw [hf.icache, hself], ?_⟩
  intro s' hsb' hdisk hothers hinum href hlocked
  refine freed_of_flushed h hl hheld htbl rfl hf rfl hsb' hdisk ?_ ?_ href hlocked
  · intro l hlk
    rw [hothers l hlk, hf.icache, setDin_icache_ne _ hlk]
  · rw [hinum, hf.icache, hself]

/-! ### `iput` -/

theorem itrunc_good (h : Good s) (hl : Loaded s k) :
    wp (itrunc k) s (fun _ s' => Changed s s' k
        { files s (s.icache k).inum with size := 0, bytes := fun _ => 0 } ∧
      (s'.icache k).din = (s.icache k).din.truncate) E := by
  refine wp_mono (itrunc_spec (h.active hl)) ?_
  rintro _ s₂ ⟨s₁, hp, hdin, hv, hf⟩
  refine ⟨h.changed hl hp ?_ hf (by rw [hv, ← h.files_eq hl]), by rw [hf.icache, hdin]⟩
  intro bn hbn
  rw [hdin] at hbn
  exact absurd hbn (Nat.not_lt_zero _)

/-- The condition under which `iput` frees the inode. -/
def LastRef (s : FsState) (k : Nat) : Prop :=
  (s.icache k).valid = true ∧ (s.icache k).din.nlink = 0 ∧ (s.icache k).ref = 1

theorem iput_spec (h : Good s) (hk : k < NINODE) (hr : 0 < (s.icache k).ref)
    (hu : (s.icache k).locked = false) :
    wp (iput k) s (fun _ s' =>
      ¬ LastRef s k ∧ s' = s.putInode k { s.icache k with ref := (s.icache k).ref - 1 } ∨
      LastRef s k ∧ Freed s s' k) E := by
  have hlock : Good (s.putInode k { s.icache k with locked := true }) :=
    h.setEntry hk hr rfl rfl rfl
  simp only [iput, acquiresleep, releasesleep, wp_bind, wp_getInode, hu]
  simp only [Bool.false_eq_true, if_false, wp_setInode, putInode_icache, update_self]
  by_cases hlast : LastRef s k
  · have hl : Loaded (s.putInode k { s.icache k with locked := true }) k := by
      refine ⟨hk, ?_, ?_⟩
      · rw [putInode_icache, update_self]
        exact hr
      · rw [putInode_icache, update_self]
        exact hlast.1
    rw [if_pos (by exact hlast)]
    simp only [wp_bind, wp_getInode, wp_setInode, putInode_icache, update_self,
      putInode_putInode]
    refine wp_mono (itrunc_good hlock hl) ?_
    rintro _ s₂ ⟨hch, hdin⟩
    have hz : ∀ l, ptr s₂.disk (s₂.icache k).din l = 0 := by
      intro l
      rw [hdin, ptr_truncate]
    have href : (s₂.icache k).ref = 1 := by
      rw [hch.inode, putInode_icache, update_self]
      exact hlast.2.2
    refine wp_mono (iupdate_free hch.good (hch.loaded hl) hz) ?_
    rintro _ s₃ ⟨href₃, hfree⟩
    have hfreed := hfree (s₃.putInode k { s₃.icache k with
        ref := (s₃.icache k).ref - 1, locked := false, valid := false })
      rfl rfl (fun l hlk => by rw [putInode_icache, update_of_ne hlk])
      (by rw [putInode_icache, update_self])
      (by rw [putInode_icache, update_self, href₃, href])
      (by rw [putInode_icache, update_self])
    refine Or.inr ⟨hlast, ?_⟩
    have hinum : (s₂.icache k).inum = (s.icache k).inum := by
      rw [hch.inum, putInode_icache, update_self]
    refine ⟨hfreed.good, ?_, hfreed.sb.trans hch.sb, ?_, hfreed.inum.trans hinum, hfreed.ref,
      hfreed.locked⟩
    · rw [hfreed.files, hch.files, hinum, putInode_icache, update_self,
        update_idem]
      rfl
    · intro l hlk
      rw [hfreed.others l hlk, hch.others l hlk, putInode_icache, update_of_ne hlk]
  · rw [if_neg (by exact hlast)]
    simp only [wp_bind, wp_setInode, wp_getInode, putInode_icache, update_self,
      putInode_putInode]
    exact Or.inl ⟨hlast, trivial⟩

/-! ### `ialloc` -/

def noInodes : Fault := .panic "ialloc: no inodes"

def Dinode.new (type : Nat) : Dinode := { Dinode.zero with type := type }

def File.new (type : Nat) : File := ⟨type, 0, 0, 0, 0, fun _ => 0⟩

/-- The state after `ialloc` has taken inode `i`. -/
def newInode (s : FsState) (i type : Nat) : FsState :=
  s.put (IBLOCK i s.sb) (writeDinode (s.disk (IBLOCK i s.sb)) (i % IPB) (Dinode.new type))

theorem ptr_new (disk : Nat → Block) (type l : Nat) : ptr disk (Dinode.new type) l = 0 := by
  simp [ptr, Dinode.new, Dinode.zero]

theorem newInode_good {type : Nat} (h : Good s) (hi : 0 < i ∧ i < s.sb.ninodes)
    (hfree : (dinodes s.sb s.disk i).type = 0) (ht : type < 2 ^ 16) :
    Good (newInode s i type) ∧
      (type ≠ 0 → files (newInode s i type) = update (files s) i (File.new type)) := by
  have hmap := h.vol.layout.bmapstart_lt
  have hlow := h.vol.layout.IBLOCK_lt hi.2
  have hwf : (Dinode.new type).Wf :=
    ⟨ht, Nat.two_pow_pos 16, Nat.two_pow_pos 16, Nat.two_pow_pos 16, Nat.two_pow_pos 32,
      fun _ => Nat.two_pow_pos 32, fun _ _ => rfl⟩
  have htable : dinodes (newInode s i type).sb (newInode s i type).disk =
      update (dinodes s.sb s.disk) i (Dinode.new type) := dinodes_writeDinode hwf hi
  have hold : held (newInode s i type).disk (dinodes s.sb s.disk) =
      held s.disk (dinodes s.sb s.disk) := h.vol.held_update_low _ (by omega)
  have hheld : held (newInode s i type).disk (dinodes (newInode s i type).sb
      (newInode s i type).disk) = held s.disk (dinodes s.sb s.disk) := by
    rw [htable, ← hold]
    funext ⟨j, l⟩
    by_cases hj : j = i
    · subst hj
      rw [held_free hfree]
      by_cases h0 : type = 0
      · exact held_free (by rw [update_self]; exact h0)
      · rw [held_live (by rw [update_self]; exact h0), update_self, ptr_new]
    · exact held_congr (update_of_ne hj _ _) (fun _ => rfl)
  refine ⟨⟨⟨h.vol.layout, ?_, ?_⟩, ?_, ?_, h.unique⟩, ?_⟩
  · rw [newInode, put_disk, update_of_ne (Ne.symm h.vol.layout.IBLOCK_ne_one), put_sb]
    exact h.vol.super
  · rw [hheld]
    refine h.vol.owns.congr (fun c _ => bitUsed_update_of_ne ?_)
    have hle : s.sb.bmapstart ≤ BBLOCK c (newInode s i type).sb := bmapstart_le
    omega
  · apply h.covered_update htable
    · intro j l _
      rw [hheld]
    · intro _ bn hbn
      exact absurd hbn (Nat.not_lt_zero _)
  · have hic : (newInode s i type).icache = s.icache := rfl
    intro l hl hr hv
    rw [hic] at hr hv ⊢
    obtain ⟨hdin, hlive⟩ := h.cache l hl hr hv
    have hne : (s.icache l).inum ≠ i := by
      intro hc
      rw [hdin, hc] at hlive
      exact hlive hfree
    rw [htable, update_of_ne hne]
    exact ⟨hdin, hlive⟩
  · intro h0
    have hview : view (newInode s i type).disk (dinodes s.sb s.disk) = files s :=
      h.vol.view_update_low _ (by omega)
    rw [files, htable, ← hview]
    funext j
    by_cases hj : j = i
    · subst hj
      rw [update_self, view, update_self, fileOf_live h0]
      congr 1
      funext x
      exact byteAt_of_eq (ptr_new _ _ _)
    · rw [update_of_ne hj, view, update_of_ne hj, view]

theorem ialloc_spec (type : Nat) (s : FsState) :
    wp (ialloc type) s (fun k s' => ∃ i, (0 < i ∧ i < s.sb.ninodes) ∧
        (dinodes s.sb s.disk i).type = 0 ∧ Got (newInode s i type) i k s')
      (fun e => e = noInodes ∨ e = noCacheEntry) := by
  simp only [ialloc, wp_bind, wp_get]
  cases hfind : (List.range' 1 (s.sb.ninodes - 1)).find?
      (fun inum => (readDinode (s.disk (IBLOCK inum s.sb)) (inum % IPB)).type = 0) with
  | none => exact Or.inl rfl
  | some i =>
    have hi : 0 < i ∧ i < s.sb.ninodes := by
      have := List.mem_range'_1.mp (List.mem_of_find?_eq_some hfind)
      omega
    have hfree : (dinodes s.sb s.disk i).type = 0 := by
      rw [dinodes, if_pos hi]
      simpa using List.find?_some hfind
    simp only [wp_bind, wp_bread, wp_logWrite]
    refine wp_conseq (iget_spec i _) ?_ (fun e he => Or.inr he.1)
    intro k s₁ hg
    exact ⟨i, hi, hfree, hg⟩

end Xv6.Fs
