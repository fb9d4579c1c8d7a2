import Xv6.FsWrite

/-!
# Truncating inodes

`itrunc` gives back the blocks of an inode one by one. In between, the addresses in the indirect
block still name blocks that are free already, so the loops are followed with the blocks that the
places hold for the free map: a place that has been passed counts as empty.
-/

namespace Xv6.Fs

open Function

open Prog

/-- `P` with the places `S` of inode `i` empty. -/
def clearRow (P : Nat × Nat → Nat) (i : Nat) (S : List Nat) (x : Nat × Nat) : Nat :=
  if x.1 = i ∧ x.2 ∈ S then 0 else P x

variable {s s' s'' : FsState} {ip i k b : Nat} {P : Nat × Nat → Nat} {E : Fault → Prop}

theorem clearRow_nil (P : Nat × Nat → Nat) (i : Nat) : clearRow P i [] = P := by
  funext x
  simp [clearRow]

theorem clearRow_cons (P : Nat × Nat → Nat) (i k : Nat) (S : List Nat) :
    clearRow (update P (i, k) 0) i S = clearRow P i (k :: S) := by
  funext ⟨j, l⟩
  simp only [clearRow, List.mem_cons]
  by_cases hjl : (j, l) = (i, k)
  · obtain ⟨rfl, rfl⟩ := Prod.mk.inj hjl
    simp
  · have hne : ¬ (j = i ∧ l = k) := by simpa using hjl
    rw [update_of_ne hjl]
    by_cases hj : j = i
    · have hl : l ≠ k := fun hc => hne ⟨hj, hc⟩
      simp [hj, hl]
    · simp [hj]

theorem clearRow_of_empty {S : List Nat} (h : ∀ k ∈ S, P (i, k) = 0) : clearRow P i S = P := by
  funext ⟨j, l⟩
  rw [clearRow]
  split_ifs with hjl
  · obtain ⟨rfl, hl⟩ := hjl
    exact (h l hl).symm
  · rfl

theorem clearRow_append (P : Nat × Nat → Nat) (i : Nat) (S T : List Nat) :
    clearRow (clearRow P i S) i T = clearRow P i (S ++ T) := by
  funext x
  simp only [clearRow, List.mem_append]
  by_cases hx : x.1 = i <;> by_cases hS : x.2 ∈ S <;> simp [hx, hS]

/-- `s'` differs from `s` in the free map only. -/
structure MapChange (s s' : FsState) : Prop where
  sb : s'.sb = s.sb
  icache : s'.icache = s.icache
  disk : ∀ c, c < s.sb.bmapstart ∨ dataStart s.sb ≤ c → s'.disk c = s.disk c

theorem MapChange.refl (s : FsState) : MapChange s s := ⟨rfl, rfl, fun _ _ => rfl⟩

theorem MapChange.trans (h : MapChange s s') (h' : MapChange s' s'') : MapChange s s'' where
  sb := h'.sb.trans h.sb
  icache := h'.icache.trans h.icache
  disk c hc := (h'.disk c (by rwa [h.sb])).trans (h.disk c hc)

/-- The free map of `s` marks the blocks in the places `P`. -/
def Marks (s : FsState) (P : Nat × Nat → Nat) : Prop :=
  Owns (dataStart s.sb) s.sb.size (bitUsed s.sb s.disk) P

theorem bfree_marks (hL : Layout s.sb) (hsb : readsb (s.disk 1) = s.sb) (h : Marks s P)
    (hb : P (i, k) ≠ 0) :
    wp (bfree (P (i, k))) s (fun _ s' => MapChange s s' ∧ Marks s' (update P (i, k) 0)) E := by
  have hlt := (h.bounds hb).2
  refine wp_mono (bfree_spec hsb (h.used_of_held hb)) ?_
  rintro _ s₁ rfl
  have hmap := hL.BBLOCK_lt hlt
  have hle : s.sb.bmapstart ≤ BBLOCK (P (i, k)) s.sb := bmapstart_le
  refine ⟨⟨rfl, rfl, fun c hc => ?_⟩, ?_⟩
  · rw [freeBlock, put_disk, update_of_ne (by omega)]
  · rw [Marks, freeBlock, put_sb, put_disk,
      bitUsed_update (v := false) _ (fun data i j hj => isFree_clearBit data hj)]
    exact h.release hb

theorem truncIndirect_spec {a : Block} {js : List Nat} (hL : Layout s.sb)
    (hsb : readsb (s.disk 1) = s.sb) (h : Marks s P) (hn : js.Nodup)
    (hP : ∀ j ∈ js, P (i, NDIRECT + 1 + j) = a.word (4 * j) 4) :
    wp (truncIndirect a js) s (fun _ s' => MapChange s s' ∧
      Marks s' (clearRow P i (js.map (NDIRECT + 1 + ·)))) E := by
  induction js generalizing s P with
  | nil =>
    refine ⟨MapChange.refl s, ?_⟩
    rw [List.map_nil, clearRow_nil]
    exact h
  | cons j js ih =>
    have hj := hP j List.mem_cons_self
    have hn' := List.nodup_cons.mp hn
    simp only [truncIndirect, List.map_cons, ← clearRow_cons]
    by_cases h0 : a.word (4 * j) 4 = 0
    · have hP0 : update P (i, NDIRECT + 1 + j) 0 = P := by
        rw [← h0, ← hj, update_eq_self]
      rw [if_neg (not_not.mpr h0), hP0]
      exact ih hL hsb h hn'.2 (fun l hl => hP l (List.mem_cons_of_mem _ hl))
    · rw [if_pos h0, wp_bind, ← hj]
      refine wp_mono (bfree_marks hL hsb h (by rwa [hj])) ?_
      rintro _ s₁ ⟨hc, hm⟩
      have hsb₁ : readsb (s₁.disk 1) = s₁.sb := by
        rw [hc.disk 1 (Or.inl hL.one_lt_bmapstart), hc.sb, hsb]
      have hP₁ : ∀ l ∈ js, update P (i, NDIRECT + 1 + j) 0 (i, NDIRECT + 1 + l) =
          a.word (4 * l) 4 := by
        intro l hl
        have hlj : l ≠ j := fun hc => hn'.1 (hc ▸ hl)
        rw [update_of_ne (by simpa using hlj), hP l (List.mem_cons_of_mem _ hl)]
      refine wp_mono (ih (by rwa [hc.sb]) hsb₁ hm hn'.2 hP₁) ?_
      rintro _ s₂ ⟨hc₂, hm₂⟩
      exact ⟨hc.trans hc₂, hm₂⟩

def Dinode.clearAddrs (d : Dinode) (ks : List Nat) : Dinode :=
  { d with addrs := fun k => if k ∈ ks then 0 else d.addrs k }

theorem Dinode.clearAddrs_cons (d : Dinode) (k : Nat) (ks : List Nat) :
    (d.setAddr k 0).clearAddrs ks = d.clearAddrs (k :: ks) := by
  refine Dinode.ext' rfl rfl rfl rfl rfl (fun l => ?_)
  by_cases hl : l = k
  · subst hl
    simp [Dinode.clearAddrs, Dinode.setAddr]
  · simp [Dinode.clearAddrs, Dinode.setAddr, hl]

theorem MapChange.setDin (h : MapChange s s') (ip : Nat) (d : Dinode) :
    MapChange (s.setDin ip d) (s'.setDin ip d) where
  sb := h.sb
  icache := by simp only [FsState.setDin, putInode_icache, h.icache]
  disk := h.disk

theorem setDin_setDin (d d' : Dinode) : (s.setDin ip d).setDin ip d' = s.setDin ip d' := by
  simp [FsState.setDin, FsState.putInode]

@[simp] theorem wp_setAddr (addr : Nat) {Q : Unit → FsState → Prop} :
    wp (setAddr ip k addr) s Q E ↔ Q () (s.setDin ip ((s.icache ip).din.setAddr k addr)) := Iff.rfl

theorem truncDirect_spec {ks : List Nat} (hL : Layout s.sb) (hsb : readsb (s.disk 1) = s.sb)
    (h : Marks s P) (hn : ks.Nodup) (hP : ∀ k ∈ ks, P (i, k) = (s.icache ip).din.addrs k) :
    wp (truncDirect ip ks) s (fun _ s' =>
      MapChange (s.setDin ip ((s.icache ip).din.clearAddrs ks)) s' ∧
        Marks s' (clearRow P i ks)) E := by
  induction ks generalizing s P with
  | nil =>
    refine ⟨?_, by rwa [clearRow_nil]⟩
    have hsame : s.setDin ip ((s.icache ip).din.clearAddrs []) = s := by
      simp [FsState.setDin, FsState.putInode, Dinode.clearAddrs]
    rw [hsame]
    exact MapChange.refl s
  | cons k ks ih =>
    have hk := hP k List.mem_cons_self
    have hn' := List.nodup_cons.mp hn
    simp only [truncDirect, wp_bind, wp_getInode, ← clearRow_cons, ← Dinode.clearAddrs_cons]
    by_cases h0 : (s.icache ip).din.addrs k = 0
    · have hP0 : update P (i, k) 0 = P := by rw [← h0, ← hk, update_eq_self]
      rw [if_neg (not_not.mpr h0), hP0, Dinode.setAddr_eq_self h0]
      exact ih hL hsb h hn'.2 (fun l hl => hP l (List.mem_cons_of_mem _ hl))
    · rw [if_pos h0, wp_bind, ← hk]
      refine wp_mono (bfree_marks hL hsb h (by rwa [hk])) ?_
      rintro _ s₁ ⟨hc, hm⟩
      simp only [wp_bind, wp_setAddr, hc.icache]
      have hsb₁ : readsb (s₁.disk 1) = s₁.sb := by
        rw [hc.disk 1 (Or.inl hL.one_lt_bmapstart), hc.sb, hsb]
      have hP₁ : ∀ l ∈ ks, update P (i, k) 0 (i, l) =
          ((s₁.setDin ip ((s.icache ip).din.setAddr k 0)).icache ip).din.addrs l := by
        intro l hl
        have hlk : l ≠ k := fun hc => hn'.1 (hc ▸ hl)
        rw [update_of_ne (by simpa using hlk), hP l (List.mem_cons_of_mem _ hl),
          setDin_icache_self]
        exact (update_of_ne hlk _ _).symm
      have hL₁ : Layout s₁.sb := by rwa [hc.sb]
      refine wp_mono (ih hL₁ hsb₁ hm hn'.2 hP₁) ?_
      rintro _ s₂ ⟨hc₂, hm₂⟩
      rw [setDin_setDin, setDin_icache_self] at hc₂
      exact ⟨(hc.setDin ip _).trans hc₂, hm₂⟩

/-! ### `itrunc` -/

/-- An inode without blocks. -/
def Dinode.truncate (d : Dinode) : Dinode := { d with size := 0, addrs := fun _ => 0 }

theorem Dinode.truncate_wf {d : Dinode} (h : d.Wf) : d.truncate.Wf :=
  ⟨h.type, h.major, h.minor, h.nlink, Nat.two_pow_pos 32, fun _ => Nat.two_pow_pos 32,
    fun _ _ => rfl⟩

theorem ptr_truncate (disk : Nat → Block) (d : Dinode) (k : Nat) : ptr disk d.truncate k = 0 := by
  simp [ptr, Dinode.truncate]

theorem Dinode.truncate_eq {d : Dinode} (h : d.Wf) :
    ((d.clearAddrs (List.range NDIRECT)).setAddr NDIRECT 0).setSize 0 = d.truncate := by
  refine Dinode.ext' rfl rfl rfl rfl rfl (fun k => ?_)
  simp only [Dinode.setSize, Dinode.setAddr, Dinode.truncate]
  by_cases hk : k = NDIRECT
  · rw [hk, update_self]
  · rw [update_of_ne hk]
    simp only [Dinode.clearAddrs, List.mem_range]
    split_ifs with hlt
    · rfl
    · exact h.short k (by omega)

theorem MapChange.dinodes (h : MapChange s s') (hL : Layout s.sb) :
    dinodes s'.sb s'.disk = dinodes s.sb s.disk := by
  funext j
  rw [h.sb, Fs.dinodes, Fs.dinodes]
  split_ifs with hj
  · rw [h.disk _ (Or.inl (hL.IBLOCK_lt hj.2))]
  · rfl

/-- The inode in memory has lost its blocks, and they are free. -/
theorem pending_truncate (h : Active s ip)
    (hc : MapChange (s.setDin ip (s.icache ip).din.truncate) s')
    (hm : Marks s' (fun x => if x.1 = (s.icache ip).inum then 0
      else held s.disk (tblOf s ip) x)) :
    Pending s s' ip ∧ view s'.disk (tblOf s' ip) =
      update (view s.disk (tblOf s ip)) (s.icache ip).inum
        { view s.disk (tblOf s ip) (s.icache ip).inum with size := 0, bytes := fun _ => 0 } := by
  have hic : s'.icache ip = { s.icache ip with din := (s.icache ip).din.truncate } := by
    rw [hc.icache, setDin_icache_self]
  have hsb : s'.sb = s.sb := hc.sb
  have htable : dinodes s'.sb s'.disk = dinodes s.sb s.disk := hc.dinodes h.vol.layout
  have htbl : tblOf s' ip =
      update (tblOf s ip) (s.icache ip).inum (s.icache ip).din.truncate := by
    simp only [tblOf, htable, hic, update_idem]
  have hlive : (s.icache ip).din.truncate.type ≠ 0 := h.live
  have hself : ∀ k, held s'.disk (tblOf s' ip) ((s.icache ip).inum, k) = 0 := by
    intro k
    rw [held_live (by rwa [htbl, update_self]), htbl, update_self, ptr_truncate]
  have hother : ∀ j l, j ≠ (s.icache ip).inum →
      held s'.disk (tblOf s' ip) (j, l) = held s.disk (tblOf s ip) (j, l) := by
    intro j l hj
    apply held_congr (by rw [htbl, update_of_ne hj])
    intro h0
    exact hc.disk _ (Or.inr (h.vol.owns.bounds h0).1)
  have hheld : held s'.disk (tblOf s' ip) =
      fun x => if x.1 = (s.icache ip).inum then 0 else held s.disk (tblOf s ip) x := by
    funext x
    obtain ⟨j, l⟩ := x
    by_cases hj : j = (s.icache ip).inum
    · subst hj
      rw [hself, if_pos rfl]
    · rw [hother j l hj, if_neg hj]
  have hsuper : s'.disk 1 = s.disk 1 := hc.disk 1 (Or.inl h.vol.layout.one_lt_bmapstart)
  have hactive : Active s' ip := by
    refine ⟨⟨by rw [hsb]; exact h.vol.layout, by rw [hsuper, hsb]; exact h.vol.super, ?_⟩, ?_, ?_, ?_⟩
    · rw [hheld]
      exact hm
    · rw [hic]
      exact Dinode.truncate_wf h.wf
    · rwa [hic]
    · rw [hic, hsb]
      exact h.range
  refine ⟨⟨hactive, hsb, htable, ?_, by rw [hic], hother⟩, ?_⟩
  · intro l hl
    rw [hc.icache, setDin_icache_ne _ hl]
  · funext j
    by_cases hj : j = (s.icache ip).inum
    · subst hj
      rw [update_self, view, htbl, update_self, fileOf_live hlive, h.view_self]
      congr 1
      funext x
      exact byteAt_of_eq (ptr_truncate _ _ _)
    · rw [update_of_ne hj]
      have htj : tblOf s' ip j = tblOf s ip j := by rw [htbl, update_of_ne hj]
      rw [view, htj]
      refine fileOf_congr ⟨rfl, rfl, rfl, rfl, rfl⟩ (fun hlj => byteAt_congr (fun bn => ?_) ?_)
      · have ho := hother j (place bn) hj
        rwa [held_live hlj, held_live (by rwa [htj]), htj] at ho
      · intro bn h0
        rw [addrOf, ← held_live hlj] at h0 ⊢
        exact hc.disk _ (Or.inr (h.vol.owns.bounds h0).1)

/-- The places of the indirect block and its entries. -/
def indirectPlaces : List Nat := (List.range NINDIRECT).map (NDIRECT + 1 + ·) ++ [NDIRECT]

theorem clearRow_all (h : Active s ip) :
    clearRow (held s.disk (tblOf s ip)) (s.icache ip).inum (List.range NDIRECT ++ indirectPlaces) =
      fun x => if x.1 = (s.icache ip).inum then 0 else held s.disk (tblOf s ip) x := by
  funext ⟨j, l⟩
  rw [clearRow]
  by_cases hj : j = (s.icache ip).inum
  · subst hj
    by_cases hl : l ∈ List.range NDIRECT ++ indirectPlaces
    · rw [if_pos ⟨rfl, hl⟩, if_pos rfl]
    · rw [if_neg (by simp [hl]), if_pos rfl, h.held_eq]
      apply ptr_of_gt
      by_contra hle
      apply hl
      simp only [indirectPlaces, List.mem_append, List.mem_range, List.mem_map, List.mem_singleton,
        MAXFILE, NINDIRECT, BSIZE] at hle ⊢
      by_cases h₁ : l < NDIRECT
      · exact Or.inl h₁
      · by_cases h₂ : l = NDIRECT
        · exact Or.inr (Or.inr h₂)
        · exact Or.inr (Or.inl ⟨l - (NDIRECT + 1), by omega, by omega⟩)
  · rw [if_neg (by simp [hj]), if_neg hj]

theorem freeIndirect_spec {a : Block} {ind : Nat} (hL : Layout s.sb)
    (hsb : readsb (s.disk 1) = s.sb) (h : Marks s P) (hind : P (i, NDIRECT) = ind) (h0 : ind ≠ 0)
    (hP : ∀ j < NINDIRECT, P (i, NDIRECT + 1 + j) = a.word (4 * j) 4) :
    wp (truncIndirect a (List.range NINDIRECT)) s (fun _ s₁ => wp (bfree ind) s₁ (fun _ s' =>
      MapChange s s' ∧ Marks s' (clearRow P i indirectPlaces)) E) E := by
  refine wp_mono (truncIndirect_spec hL hsb h List.nodup_range
    (fun j hj => hP j (List.mem_range.mp hj))) ?_
  rintro _ s₁ ⟨hc, hm⟩
  have hsb₁ : readsb (s₁.disk 1) = s₁.sb := by
    rw [hc.disk 1 (Or.inl hL.one_lt_bmapstart), hc.sb, hsb]
  have hind₁ : clearRow P i ((List.range NINDIRECT).map (NDIRECT + 1 + ·)) (i, NDIRECT) = ind := by
    rw [clearRow, if_neg, hind]
    simp only [List.mem_map, true_and]
    rintro ⟨j, -, hj⟩
    omega
  rw [← hind₁] at h0 ⊢
  refine wp_mono (bfree_marks (by rwa [hc.sb]) hsb₁ hm h0) ?_
  rintro _ s₂ ⟨hc₂, hm₂⟩
  refine ⟨hc.trans hc₂, ?_⟩
  rw [indirectPlaces, ← clearRow_append, ← clearRow_cons, clearRow_nil]
  exact hm₂

/-- `s'` is `s` with the file of `ip` cut to nothing, in memory and on the disk. -/
def Truncated (s s' : FsState) (ip : Nat) : Prop :=
  ∃ s₁, Pending s s₁ ip ∧ (s₁.icache ip).din = (s.icache ip).din.truncate ∧
    view s₁.disk (tblOf s₁ ip) =
      update (view s.disk (tblOf s ip)) (s.icache ip).inum
        { view s.disk (tblOf s ip) (s.icache ip).inum with size := 0, bytes := fun _ => 0 } ∧
    Flushed s₁ s' ip

theorem iupdate_truncate (h : Active s ip)
    (hc : MapChange (s.setDin ip (s.icache ip).din.truncate) s')
    (hm : Marks s' (clearRow (held s.disk (tblOf s ip)) (s.icache ip).inum (List.range NDIRECT ++
      indirectPlaces))) : wp (iupdate ip) s' (fun _ s'' => Truncated s s'' ip) E := by
  rw [clearRow_all h] at hm
  obtain ⟨hp, hv⟩ := pending_truncate h hc hm
  refine wp_mono (iupdate_spec hp.active.vol hp.active.wf hp.active.range) ?_
  intro _ s₂ hf
  exact ⟨s', hp, by rw [hc.icache, setDin_icache_self], hv, hf⟩

theorem itrunc_spec (h : Active s ip) : wp (itrunc ip) s (fun _ s' => Truncated s s' ip) E := by
  have hL := h.vol.layout
  have hone := hL.one_lt_bmapstart
  have hP : ∀ k ≤ NDIRECT, held s.disk (tblOf s ip) ((s.icache ip).inum, k) =
      (s.icache ip).din.addrs k := by
    intro k hk
    rw [h.held_eq, ptr, if_pos hk]
  simp only [itrunc, wp_bind]
  refine wp_mono (truncDirect_spec hL h.vol.super h.vol.owns List.nodup_range
    (fun k hk => hP k (List.mem_range.mp hk).le)) ?_
  rintro _ s₁ ⟨hc, hm⟩
  have hdin : (s₁.icache ip).din = (s.icache ip).din.clearAddrs (List.range NDIRECT) := by
    rw [hc.icache, setDin_icache_self]
  have h12 : (s₁.icache ip).din.addrs NDIRECT = (s.icache ip).din.addrs NDIRECT := by
    rw [hdin]
    simp [Dinode.clearAddrs]
  simp only [wp_getInode, h12]
  -- the direct loop has not touched the places from `NDIRECT` on
  have hrow : ∀ k, NDIRECT ≤ k → clearRow (held s.disk (tblOf s ip)) (s.icache ip).inum
      (List.range NDIRECT) ((s.icache ip).inum, k) = ptr s.disk (s.icache ip).din k := by
    intro k hk
    rw [clearRow, if_neg (by simp [hk]), h.held_eq]
  by_cases h0 : (s.icache ip).din.addrs NDIRECT = 0
  · have htr : (s₁.icache ip).din.setSize 0 = (s.icache ip).din.truncate := by
      rw [← Dinode.truncate_eq h.wf, ← hdin, Dinode.setAddr_eq_self (h12.trans h0)]
    rw [if_neg (not_not.mpr h0)]
    simp only [wp_bind, wp_setSize, htr]
    refine iupdate_truncate h ?_ ?_
    · have hset := hc.setDin ip (s.icache ip).din.truncate
      rwa [setDin_setDin] at hset
    · rw [← clearRow_append, clearRow_of_empty]
      · exact hm
      · intro k hk
        have hk12 : NDIRECT ≤ k := by
          simp only [indirectPlaces, List.mem_append, List.mem_map, List.mem_singleton] at hk
          omega
        rw [hrow k hk12, ptr]
        split_ifs with hle hmax
        · rwa [show k = NDIRECT by omega]
        · exact absurd h0 hmax.2
        · rfl
  · have hlo : dataStart s.sb ≤ (s.icache ip).din.addrs NDIRECT := by
      rw [← hP NDIRECT le_rfl] at h0 ⊢
      exact (h.vol.owns.bounds h0).1
    have hblk : s₁.disk ((s.icache ip).din.addrs NDIRECT) =
        s.disk ((s.icache ip).din.addrs NDIRECT) := hc.disk _ (Or.inr hlo)
    have hL₁ : Layout s₁.sb := by rwa [hc.sb]
    have hsb₁ : readsb (s₁.disk 1) = s₁.sb := by
      rw [hc.disk 1 (Or.inl hone), hc.sb]
      exact h.vol.super
    rw [if_pos h0]
    simp only [wp_bind, wp_bread, hblk]
    refine wp_mono (freeIndirect_spec hL₁ hsb₁ hm
      (by rw [hrow NDIRECT le_rfl, ptr, if_pos le_rfl]) h0 ?_) ?_
    · intro j hj
      rw [hrow _ (by omega), ptr, if_neg (by omega), if_pos ⟨by simp only [MAXFILE]; omega, h0⟩,
        Nat.add_sub_cancel_left]
    · intro _ s₂ hfree
      refine wp_mono hfree ?_
      rintro _ s₃ ⟨hc₃, hm₃⟩
      have htr : ((s₃.icache ip).din.setAddr NDIRECT 0).setSize 0 = (s.icache ip).din.truncate := by
        rw [hc₃.icache, hdin, Dinode.truncate_eq h.wf]
      simp only [wp_setAddr, wp_setSize, setDin_icache_self, setDin_setDin, htr]
      refine iupdate_truncate h ?_ ?_
      · have hset := (hc.setDin ip (s.icache ip).din.truncate).trans (hc₃.setDin ip _)
        rwa [setDin_setDin] at hset
      · rw [clearRow_append] at hm₃
        exact hm₃

end Xv6.Fs
