import Xv6.FsEntries

/-!
# References and locks

What a state of the file system stands for while calls run: its files, the number of references to
each entry of the inode cache, and the entries that are locked. An allocated inode without links
is kept alive by a reference. The rules for `iget`, `idup`, `ilock`, `iunlock` and `iput` say how
these three change; dropping the last reference to an inode without links frees it.
-/

namespace Xv6.Fs

open Function

open Prog

def inc (R : Nat → Nat) (k : Nat) : Nat → Nat := update R k (R k + 1)

def dec (R : Nat → Nat) (k : Nat) : Nat → Nat := update R k (R k - 1)

/-- `s` has the files `F`, entry `k` of the inode cache is referenced `R k` times, and the entries
in `L` are locked. -/
structure Abs (sb : Superblock) (s : FsState) (F : Nat → File) (R : Nat → Nat) (L : Finset Nat) :
    Prop where
  super : s.sb = sb
  good : Good s
  files : files s = F
  refs : ∀ k < NINODE, (s.icache k).ref = R k
  range : ∀ k, 0 < R k → k < NINODE
  lock : ∀ k < NINODE, (s.icache k).locked = true ↔ k ∈ L
  held : ∀ k ∈ L, 0 < R k ∧ (s.icache k).valid = true
  orphan : ∀ i, (F i).type ≠ 0 → (F i).nlink = 0 →
    ∃ k < NINODE, 0 < R k ∧ (s.icache k).inum = i ∧ (s.icache k).valid = true

/-- Referenced entries stay entries of the same inodes. -/
def Keep (R : Nat → Nat) (s s' : FsState) : Prop :=
  ∀ k, 0 < R k → (s'.icache k).inum = (s.icache k).inum

variable {sb : Superblock} {s s' : FsState} {F : Nat → File} {R R' : Nat → Nat} {L L' : Finset Nat}
  {k i : Nat} {E : Fault → Prop}

@[simp] theorem inc_self (R : Nat → Nat) (k : Nat) : inc R k k = R k + 1 := update_self _ _ _

theorem inc_pos {R : Nat → Nat} {k : Nat} : 0 < inc R k k := by
  rw [inc_self]
  exact Nat.succ_pos _

theorem inc_of_ne {l : Nat} (h : l ≠ k) : inc R k l = R l := update_of_ne h _ _

@[simp] theorem dec_self (R : Nat → Nat) (k : Nat) : dec R k k = R k - 1 := update_self _ _ _

theorem dec_of_ne {l : Nat} (h : l ≠ k) : dec R k l = R l := update_of_ne h _ _

@[simp] theorem dec_inc (R : Nat → Nat) (k : Nat) : dec (inc R k) k = R := by
  simp [dec, inc]

theorem inc_comm (R : Nat → Nat) (k l : Nat) : inc (inc R k) l = inc (inc R l) k := by
  by_cases h : k = l
  · rw [h]
  · simp only [inc, update_of_ne h, update_of_ne (Ne.symm h)]
    exact update_comm h _ _ _

theorem le_inc (R : Nat → Nat) (k l : Nat) : R l ≤ inc R k l := by
  by_cases h : l = k
  · rw [h, inc_self]
    omega
  · rw [inc_of_ne h]

theorem Keep.refl (R : Nat → Nat) (s : FsState) : Keep R s s := fun _ _ => rfl

theorem Keep.trans {s'' : FsState} (h : Keep R s s') (h' : Keep R s' s'') : Keep R s s'' :=
  fun k hk => (h' k hk).trans (h k hk)

theorem Keep.mono (h : Keep R' s s') (hle : ∀ k, R k ≤ R' k) : Keep R s s' :=
  fun k hk => h k (lt_of_lt_of_le hk (hle k))

namespace Abs

section

variable (h : Abs sb s F R L)
include h

theorem ref_pos (hk : 0 < R k) : k < NINODE ∧ 0 < (s.icache k).ref := by
  have hlt := h.range k hk
  exact ⟨hlt, by rwa [h.refs k hlt]⟩

theorem loaded (hk : k ∈ L) : Loaded s k := by
  obtain ⟨hr, hv⟩ := h.held k hk
  exact ⟨h.range k hr, (h.ref_pos hr).2, hv⟩

theorem unlocked (hk : 0 < R k) (hl : k ∉ L) :
    (s.icache k).locked = false := by
  have := (h.lock k (h.range k hk)).not.mpr hl
  simpa using this

theorem inum_inj {l : Nat} (hk : 0 < R k) (hl : 0 < R l)
    (hi : (s.icache k).inum = (s.icache l).inum) : k = l := by
  obtain ⟨hk₁, hk₂⟩ := h.ref_pos hk
  obtain ⟨hl₁, hl₂⟩ := h.ref_pos hl
  exact h.good.unique k hk₁ l hl₁ hk₂ hl₂ hi

theorem live (hk : k ∈ L) : (F (s.icache k).inum).type ≠ 0 := by
  rw [← h.files, h.good.file_eq (h.loaded hk)]
  exact h.good.live (h.loaded hk)

theorem putInode (hk : k < NINODE) {x : Inode} (hgood : Good (s.putInode k x))
    (href : x.ref = R' k) (hR : ∀ l ≠ k, R' l = R l) (hlock : x.locked = true ↔ k ∈ L')
    (hL : ∀ l ≠ k, l ∈ L' ↔ l ∈ L) (hheld : k ∈ L' → 0 < R' k ∧ x.valid = true)
    (horph : 0 < R k → (s.icache k).valid = true → (F (s.icache k).inum).type ≠ 0 → (F (s.icache
      k).inum).nlink = 0 → 0 < R' k ∧ x.inum = (s.icache k).inum ∧ x.valid = true) :
    Abs sb (s.putInode k x) F R' L' := by
  have hself : (s.putInode k x).icache k = x := update_self _ _ _
  have hne : ∀ l ≠ k, (s.putInode k x).icache l = s.icache l :=
    fun l hl => update_of_ne hl _ _
  refine ⟨h.super, hgood, h.files, ?_, ?_, ?_, ?_, ?_⟩
  · intro l hl
    by_cases hlk : l = k
    · rw [hlk, hself, href]
    · rw [hne l hlk, hR l hlk, h.refs l hl]
  · intro l hl
    by_cases hlk : l = k
    · rwa [hlk]
    · rw [hR l hlk] at hl
      exact h.range l hl
  · intro l hl
    by_cases hlk : l = k
    · rw [hlk, hself, hlock]
    · rw [hne l hlk, hL l hlk, h.lock l hl]
  · intro l hl
    by_cases hlk : l = k
    · rw [hlk] at hl ⊢
      rw [hself]
      exact hheld hl
    · rw [hne l hlk, hR l hlk]
      exact h.held l ((hL l hlk).mp hl)
  · intro i ht h0
    obtain ⟨l, hl, hr, hi, hv⟩ := h.orphan i ht h0
    by_cases hlk : l = k
    · subst hlk
      rw [← hi] at ht h0
      obtain ⟨hr', hi', hv'⟩ := horph hr hv ht h0
      exact ⟨l, hl, hr', by rw [hself, hi', hi], by rw [hself, hv']⟩
    · exact ⟨l, hl, by rwa [hR l hlk], by rw [hne l hlk, hi], by rw [hne l hlk, hv]⟩

end

end Abs

/-! ### Taking references -/

theorem Abs.got (h : Abs sb s F R L) (hg : Got s i k s') :
    Abs sb s' F (inc R k) L ∧ Keep R s s' ∧ (s'.icache k).inum = i := by
  have hgood := Got.good h.good hg
  have hR : ∀ l ≠ k, inc R k l = R l := fun l hl => inc_of_ne hl
  obtain ⟨hk, ⟨hr, hi, rfl⟩ | ⟨-, hr, rfl⟩⟩ := hg
  · refine ⟨h.putInode hk hgood ?_ hR (h.lock k hk) (fun _ _ => Iff.rfl) ?_ ?_, ?_, ?_⟩
    · rw [inc_self, h.refs k hk]
    · intro hkL
      exact ⟨inc_pos, (h.held k hkL).2⟩
    · intro _ hv _ _
      exact ⟨inc_pos, rfl, hv⟩
    · intro l _
      by_cases hlk : l = k
      · rw [hlk, putInode_icache, update_self]
      · rw [putInode_icache, update_of_ne hlk]
    · rw [putInode_icache, update_self]
      exact hi
  · have hzero : R k = 0 := by rw [← h.refs k hk, hr]
    have hkL : k ∉ L := fun hkL => absurd (h.held k hkL).1 (by omega)
    refine ⟨h.putInode hk hgood ?_ hR (h.lock k hk) (fun _ _ => Iff.rfl) (fun hc => absurd hc hkL)
      (fun hc => by omega), ?_, ?_⟩
    · rw [inc_self, hzero]
    · intro l hl
      have hlk : l ≠ k := by
        rintro rfl
        omega
      rw [putInode_icache, update_of_ne hlk]
    · rw [putInode_icache, update_self]

/-- `iget` fails only when every entry of the cache is referenced. -/
theorem Abs.iget_cases (h : Abs sb s F R L) (i : Nat) :
    wp (iget i) s
      (fun k s' => Abs sb s' F (inc R k) L ∧ Keep R s s' ∧ (s'.icache k).inum = i)
      (fun e => e = noCacheEntry ∧ ∀ l < NINODE, 0 < R l) := by
  refine wp_conseq (iget_spec i s) (fun _ _ hg => h.got hg) ?_
  rintro e ⟨he, hfull⟩
  exact ⟨he, fun l hl => h.refs l hl ▸ hfull l hl⟩

theorem Abs.idup (h : Abs sb s F R L) (hk : 0 < R k) :
    wp (idup k) s (fun l s' => l = k ∧ Abs sb s' F (inc R k) L ∧ Keep R s s') E := by
  obtain ⟨hlt, hr⟩ := h.ref_pos hk
  have hg : Got s (s.icache k).inum k
      (s.putInode k { s.icache k with ref := (s.icache k).ref + 1 }) := ⟨hlt, Or.inl ⟨hr, rfl, rfl⟩⟩
  obtain ⟨habs, hkeep, -⟩ := h.got hg
  simp only [Fs.idup, wp_bind, wp_getInode, wp_setInode, wp_pure]
  exact ⟨trivial, habs, hkeep⟩

/-! ### Locks -/

theorem Abs.fetched_eq (h : Abs sb s F R L) (hk : 0 < R k)
    (hr : 0 < (s.icache k).inum ∧ (s.icache k).inum < sb.ninodes) :
    s.fetched k = dinodes s.sb s.disk (s.icache k).inum := by
  obtain ⟨hlt, href⟩ := h.ref_pos hk
  rw [FsState.fetched]
  split_ifs with hv
  · exact (h.good.cache k hlt href hv).1
  · rw [dinodes, if_pos (by rwa [h.super])]

theorem Abs.ilock (h : Abs sb s F R L) (hk : 0 < R k) (hl : k ∉ L)
    (hr : 0 < (s.icache k).inum ∧ (s.icache k).inum < sb.ninodes) :
    wp (ilock k) s (fun _ s' => Abs sb s' F R (insert k L) ∧ Keep R s s')
      (fun e => e = noType ∧ (F (s.icache k).inum).type = 0) := by
  obtain ⟨hlt, href⟩ := h.ref_pos hk
  have hd := h.fetched_eq hk hr
  refine wp_conseq (ilock_spec href (h.unlocked hk hl)) ?_ ?_
  · rintro _ s₁ ⟨rfl, hnew⟩
    have hlive : (s.fetched k).type ≠ 0 := by
      cases hv : (s.icache k).valid with
      | true =>
        rw [hd, ← (h.good.cache k hlt href hv).1]
        exact (h.good.cache k hlt href hv).2
      | false => exact hnew hv
    have hgood := h.good.putInode (k := k)
      (x := { s.icache k with locked := true, valid := true, din := s.fetched k })
      (fun _ _ => ⟨hd, hlive⟩)
      (fun _ l hln hlk hrl hc => hlk (h.good.unique l hln k hlt hrl href hc))
    refine ⟨h.putInode hlt hgood (h.refs k hlt) (fun _ _ => rfl) ?_ ?_ (fun _ => ⟨hk, rfl⟩)
      (fun hp _ _ _ => ⟨hp, rfl, rfl⟩), ?_⟩
    · simp
    · intro l hlk
      simp [hlk]
    · intro l _
      by_cases hlk : l = k
      · rw [hlk, putInode_icache, update_self]
      · rw [putInode_icache, update_of_ne hlk]
  · rintro e ⟨he, -, h0⟩
    refine ⟨he, ?_⟩
    rw [← h.files, Fs.files, view, fileOf_type, ← hd, h0]

theorem Abs.iunlock (h : Abs sb s F R L) (hk : k ∈ L) :
    wp (iunlock k) s (fun _ s' => Abs sb s' F R (L.erase k) ∧ Keep R s s') E := by
  obtain ⟨hr, hv⟩ := h.held k hk
  obtain ⟨hlt, href⟩ := h.ref_pos hr
  have hlocked : (s.icache k).locked = true := (h.lock k hlt).mpr hk
  simp only [Fs.iunlock, releasesleep, wp_bind, wp_getInode, hlocked, Bool.not_true, Bool.false_or,
    decide_eq_true_eq]
  rw [if_neg (by omega), wp_bind, wp_getInode, wp_setInode]
  have hgood := h.good.setEntry (x := { s.icache k with locked := false }) hlt href rfl rfl rfl
  refine ⟨h.putInode hlt hgood (h.refs k hlt) (fun _ _ => rfl) ?_ ?_ ?_
    (fun hp hv _ _ => ⟨hp, rfl, hv⟩), ?_⟩
  · simp
  · intro l hlk
    simp [hlk]
  · intro hc
    simp at hc
  · intro l _
    by_cases hlk : l = k
    · rw [hlk, putInode_icache, update_self]
    · rw [putInode_icache, update_of_ne hlk]

/-! ### Dropping references -/

/-- The files after the references to inode `i` in entry `k` became `R k`. -/
def drop (F : Nat → File) (R : Nat → Nat) (k i : Nat) : Nat → File :=
  if R k = 0 ∧ (F i).nlink = 0 then update F i File.free else F

theorem File.eq_free {disk : Nat → Block} {tbl : Nat → Dinode} (h : (view disk tbl i).type = 0) :
    view disk tbl i = File.free := by
  rw [view, fileOf_type] at h
  exact fileOf_free h

theorem Abs.file_free (h : Abs sb s F R L) (hi : (F i).type = 0) : F i = File.free := by
  rw [← h.files] at hi ⊢
  exact File.eq_free hi

theorem Abs.drop_eq (h : Abs sb s F R L) (hk : 0 < R k) (hlast : ¬ LastRef s k) :
    drop F (dec R k) k (s.icache k).inum = F := by
  rw [drop]
  split_ifs with hc
  · obtain ⟨hone, h0⟩ := hc
    by_cases ht : (F (s.icache k).inum).type = 0
    · rw [← h.file_free ht, update_eq_self]
    · obtain ⟨l, hl, hrl, hil, hvl⟩ := h.orphan _ ht h0
      have hlk := h.inum_inj hrl hk hil
      subst hlk
      have hld : Loaded s l := ⟨hl, (h.ref_pos hk).2, hvl⟩
      refine absurd ⟨hvl, ?_, ?_⟩ hlast
      · rw [← h.files, h.good.file_eq hld] at h0
        exact h0
      · rw [dec_self] at hone
        rw [h.refs l hl]
        omega
  · rfl

theorem Abs.iput (h : Abs sb s F R L) (hk : 0 < R k) (hl : k ∉ L) :
    wp (iput k) s (fun _ s' => Abs sb s' (drop F (dec R k) k (s.icache k).inum) (dec R k) L ∧
      Keep (dec R k) s s') E := by
  obtain ⟨hlt, href⟩ := h.ref_pos hk
  have hrefs := h.refs k hlt
  have hR : ∀ l ≠ k, dec R k l = R l := fun l hl => dec_of_ne hl
  refine wp_mono (iput_spec h.good hlt href (h.unlocked hk hl)) ?_
  rintro _ s₁ (⟨hlast, rfl⟩ | ⟨hlast, hfreed⟩)
  · rw [h.drop_eq hk hlast]
    have hgood := h.good.setEntry (x := { s.icache k with ref := (s.icache k).ref - 1 }) hlt href
      rfl rfl rfl
    refine ⟨h.putInode hlt hgood ?_ hR (h.lock k hlt) (fun _ _ => Iff.rfl)
      (fun hc => absurd hc hl) ?_, ?_⟩
    · rw [dec_self, hrefs]
    · intro _ hv ht h0
      have hld : Loaded s k := ⟨hlt, href, hv⟩
      rw [← h.files, h.good.file_eq hld] at h0
      have hne : (s.icache k).ref ≠ 1 := fun hone => hlast ⟨hv, h0, hone⟩
      exact ⟨by rw [dec_self]; omega, rfl, hv⟩
    · intro l _
      by_cases hlk : l = k
      · rw [hlk, putInode_icache, update_self]
      · rw [putInode_icache, update_of_ne hlk]
  · have hone : R k = 1 := by rw [← hrefs, hlast.2.2]
    have hld : Loaded s k := ⟨hlt, href, hlast.1⟩
    have h0 : (F (s.icache k).inum).nlink = 0 := by
      rw [← h.files, h.good.file_eq hld]
      exact hlast.2.1
    rw [drop, if_pos ⟨by rw [dec_self, hone], h0⟩]
    refine ⟨⟨hfreed.sb.trans h.super, hfreed.good, by rw [hfreed.files, h.files], ?_, ?_, ?_, ?_, ?_⟩,
      ?_⟩
    · intro l hln
      by_cases hlk : l = k
      · rw [hlk, hfreed.ref, dec_self, hone]
      · rw [hfreed.others l hlk, hR l hlk, h.refs l hln]
    · intro l hrl
      by_cases hlk : l = k
      · rw [hlk]
        exact hlt
      · rw [hR l hlk] at hrl
        exact h.range l hrl
    · intro l hln
      by_cases hlk : l = k
      · rw [hlk, hfreed.locked]
        simp [hl]
      · rw [hfreed.others l hlk, h.lock l hln]
    · intro l hlL
      have hlk : l ≠ k := fun hc => hl (hc ▸ hlL)
      rw [hfreed.others l hlk, hR l hlk]
      exact h.held l hlL
    · intro j ht hj
      by_cases hji : j = (s.icache k).inum
      · rw [hji, update_self] at ht
        exact absurd rfl ht
      · rw [update_of_ne hji] at ht hj
        obtain ⟨l, hln, hrl, hil, hvl⟩ := h.orphan j ht hj
        have hlk : l ≠ k := by
          rintro rfl
          exact hji hil.symm
        exact ⟨l, hln, by rwa [hR l hlk], by rw [hfreed.others l hlk, hil],
          by rw [hfreed.others l hlk, hvl]⟩
    · intro l hrl
      have hlk : l ≠ k := by
        rintro rfl
        rw [dec_self, hone] at hrl
        omega
      rw [hfreed.others l hlk]

end Xv6.Fs
