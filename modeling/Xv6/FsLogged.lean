import Mathlib.Order.Interval.Finset.Nat
import Xv6.FsWrite

/-!
# Blocks logged by a write

Writing a range of bytes logs the blocks of the range. A block that was not there costs a block of
the free map too, and entering its address costs the indirect block or the inode block. However the
new blocks are spread over the free map, and even if the indirect block is new, the writes that
`filewrite` cuts out fit into one transaction, because a block that is written from its middle on
was there before.
-/

namespace Xv6.Fs

open Prog

variable {s s' s'' : FsState} {ip b off n : Nat} {X Y : Finset Nat}

/-- From `s` to `s'` only the blocks `X` and the indirect block of `ip` have been logged. -/
def LogsIn (s s' : FsState) (ip : Nat) (X : Finset Nat) : Prop :=
  s'.logged.Nodup ∧ ∀ c ∈ s'.logged, c ∈ s.logged ∨ c ∈ X ∨
    (s'.icache ip).din.addrs NDIRECT ≠ 0 ∧ c = (s'.icache ip).din.addrs NDIRECT

variable {data : Block} {S : Finset Nat}

theorem mem_logged_put {c : Nat} : c ∈ (s.put b data).logged ↔ c ∈ s.logged ∨ c = b := by
  change c ∈ (if b ∈ s.logged then s.logged else s.logged ++ [b]) ↔ _
  split_ifs with hb
  · constructor
    · exact Or.inl
    · rintro (hc | rfl)
      · exact hc
      · exact hb
  · rw [List.mem_append, List.mem_singleton]

theorem nodup_logged_put (h : s.logged.Nodup) : (s.put b data).logged.Nodup := by
  change (if b ∈ s.logged then s.logged else s.logged ++ [b]).Nodup
  split_ifs with hb
  · exact h
  · exact h.append (List.nodup_singleton b) (List.disjoint_singleton.mpr hb)

theorem LogsIn.refl (h : s.logged.Nodup) : LogsIn s s ip ∅ := ⟨h, fun _ hc => Or.inl hc⟩

theorem LogsIn.mono (h : LogsIn s s' ip X) (hXY : X ⊆ Y) : LogsIn s s' ip Y :=
  ⟨h.1, fun c hc => (h.2 c hc).imp_right (Or.imp_left (fun hX => hXY hX))⟩

theorem Mapped.indirect (h : Mapped s s' ip S) (hne : (s.icache ip).din.addrs NDIRECT ≠ 0) :
    (s'.icache ip).din.addrs NDIRECT = (s.icache ip).din.addrs NDIRECT := by
  have hptr : ∀ t : FsState, ptr t.disk (t.icache ip).din NDIRECT =
      (t.icache ip).din.addrs NDIRECT := fun t => by rw [ptr, if_pos le_rfl]
  rw [← hptr s', h.keep NDIRECT (fun _ => by rwa [hptr s]), hptr s]

theorem LogsIn.trans (h : LogsIn s s' ip X) (h' : LogsIn s' s'' ip Y)
    (hm : Mapped s' s'' ip S) : LogsIn s s'' ip (X ∪ Y) := by
  refine ⟨h'.1, fun c hc => ?_⟩
  rcases h'.2 c hc with hc | hc | hc
  · rcases h.2 c hc with hc | hc | ⟨hne, hc⟩
    · exact Or.inl hc
    · exact Or.inr (Or.inl (Finset.mem_union_left Y hc))
    · have hsame := hm.indirect hne
      rw [← hsame] at hne hc
      exact Or.inr (Or.inr ⟨hne, hc⟩)
  · exact Or.inr (Or.inl (Finset.mem_union_right X hc))
  · exact Or.inr (Or.inr hc)

/-! ### `bmap` -/

/-- `balloc` logs the block of the free map and the new block. -/
theorem balloc_logs (h : s.logged.Nodup) :
    wp balloc s (fun b s' => s'.logged.Nodup ∧ s'.icache = s.icache ∧
      ∃ c, ∀ x ∈ s'.logged, x ∈ s.logged ∨ x = c ∨ x = b) (fun _ => True) := by
  refine wp_conseq (balloc_spec s) ?_ (fun _ _ => trivial)
  intro b s' hb
  rw [hb.2.2.2]
  refine ⟨nodup_logged_put (nodup_logged_put h), rfl, BBLOCK b s.sb, fun x hx => ?_⟩
  rcases mem_logged_put.mp hx with hx | rfl
  · exact (mem_logged_put.mp hx).imp_right Or.inl
  · exact Or.inr (Or.inr rfl)

theorem allocAddr_logs {k : Nat} (h : s.logged.Nodup) :
    wp (do let addr ← balloc; setAddr ip k addr; pure addr) s
      (fun b s' => s'.logged.Nodup ∧ ∃ c, ∀ x ∈ s'.logged, x ∈ s.logged ∨ x = c ∨ x = b)
      (fun _ => True) := by
  refine wp_seq (balloc_logs h) ?_
  rintro b s' ⟨hnodup, -, hlog⟩
  exact ⟨hnodup, hlog⟩

theorem card_missing_singleton {k : Nat} (h : ptr s.disk (s.icache ip).din k = 0) :
    (missing s ip {k}).card = 1 := by
  rw [missing, Finset.filter_singleton, if_pos h, Finset.card_singleton]

theorem loadIndirect_logs (h : Active s ip) (hs : s.logged.Nodup) :
    wp (loadIndirect ip) s
      (fun _ s' => ∃ Y, Y.card ≤ (missing s ip {NDIRECT}).card ∧ LogsIn s s' ip Y)
      (fun _ => True) := by
  simp only [loadIndirect, wp_bind, wp_getInode]
  by_cases h0 : (s.icache ip).din.addrs NDIRECT = 0
  · rw [if_pos h0]
    refine wp_conseq (wp_and (allocAddr_spec h le_rfl h0) (allocAddr_logs hs)) ?_ (fun _ _ => trivial)
    rintro b s' ⟨⟨hb, hm, -⟩, hnodup, c, hlog⟩
    have hne := hm.filled NDIRECT (Finset.mem_singleton_self _)
    rw [ptr, if_pos le_rfl] at hb hne
    refine ⟨{c}, ?_, hnodup, fun x hx => ?_⟩
    · rw [card_missing_singleton (by rw [ptr, if_pos le_rfl, h0]), Finset.card_singleton]
    · rcases hlog x hx with hx | rfl | rfl
      · exact Or.inl hx
      · exact Or.inr (Or.inl (Finset.mem_singleton_self x))
      · exact Or.inr (Or.inr ⟨hne, hb⟩)
  · rw [if_neg h0]
    exact ⟨∅, Nat.zero_le _, LogsIn.refl hs⟩

theorem allocEntry_logs {bn : Nat} (hs : s.logged.Nodup)
    (hne : (s.icache ip).din.addrs NDIRECT ≠ 0) :
    wp (do
        let addr ← balloc
        let a ← bread ((s.icache ip).din.addrs NDIRECT)
        logWrite ((s.icache ip).din.addrs NDIRECT) (a.setWord (4 * (bn - NDIRECT)) 4 addr)
        pure addr) s
      (fun b s' => ∃ c, LogsIn s s' ip {b, c}) (fun _ => True) := by
  refine wp_seq (balloc_logs hs) ?_
  rintro b s₁ ⟨hnodup, hic, c, hlog⟩
  refine ⟨c, nodup_logged_put hnodup, fun x hx => ?_⟩
  rcases mem_logged_put.mp hx with hx | rfl
  · rcases hlog x hx with hx | rfl | rfl
    · exact Or.inl hx
    · exact Or.inr (Or.inl (by simp))
    · exact Or.inr (Or.inl (by simp))
  · refine Or.inr (Or.inr ?_)
    rw [put_icache, hic]
    exact ⟨hne, rfl⟩

theorem bmap_logs {bn : Nat} (h : Active s ip) (hs : s.logged.Nodup) (hmax : bn < MAXFILE) :
    wp (bmap ip bn) s
      (fun b s' => ∃ Y, Y.card ≤ (missing s ip (path bn)).card ∧ LogsIn s s' ip (insert b Y))
      (fun _ => True) := by
  have hnone : ∀ b S, ∃ Y, Y.card ≤ (missing s ip S).card ∧ LogsIn s s ip (insert b Y) :=
    fun b S => ⟨∅, Nat.zero_le _, (LogsIn.refl hs).mono (Finset.empty_subset _)⟩
  simp only [bmap, wp_bind, wp_getInode]
  by_cases hbn : bn < NDIRECT
  · rw [if_pos hbn]
    by_cases h0 : (s.icache ip).din.addrs bn = 0
    · rw [if_pos h0]
      refine wp_mono (allocAddr_logs hs) ?_
      rintro b s' ⟨hnodup, c, hlog⟩
      refine ⟨{c}, ?_, hnodup, fun x hx => ?_⟩
      · rw [path, if_pos hbn, card_missing_singleton (by rw [ptr, if_pos (by omega), h0]),
          Finset.card_singleton]
      · rcases hlog x hx with hx | rfl | rfl
        · exact Or.inl hx
        · exact Or.inr (Or.inl (by simp))
        · exact Or.inr (Or.inl (by simp))
    · rw [if_neg h0]
      exact hnone _ _
  · have hn : bn - NDIRECT < NINDIRECT := by
      simp only [MAXFILE] at hmax
      omega
    have hpath : path bn = {NDIRECT} ∪ {bn + 1} := by
      rw [path, if_neg hbn]
      rfl
    rw [if_neg hbn, if_pos hn, wp_bind, hpath]
    refine wp_conseq (wp_and (loadIndirect_spec h) (loadIndirect_logs h hs)) ?_ (fun _ _ => trivial)
    intro ind s₁ hload
    have hm := hload.1.2.1
    have hact := hm.grown.active
    have hne := hm.indirect_ne
    have hentry := ptr_entry s₁.disk (Nat.not_lt.mp hbn) hmax hne
    have hnodup : s₁.logged.Nodup := by
      obtain ⟨Y, -, hlogs⟩ := hload.2
      exact hlogs.1
    rw [hload.1.1, ptr_indirect, hm.missing_union]
    simp only [wp_bind, wp_bread, ← hentry]
    by_cases h0 : ptr s₁.disk (s₁.icache ip).din (bn + 1) = 0
    · rw [if_pos h0, card_missing_singleton h0]
      refine wp_conseq (wp_and (allocEntry_spec hact (Nat.not_lt.mp hbn) hmax hne h0)
        (allocEntry_logs hnodup hne)) ?_ (fun _ _ => trivial)
      rintro b s₂ ⟨⟨-, hm₂, -⟩, c, hlogs₂⟩
      obtain ⟨Y, hY, hlogs⟩ := hload.2
      refine ⟨Y ∪ {c}, ?_, (hlogs.trans hlogs₂ hm₂).mono ?_⟩
      · have hcard := Finset.card_union_le Y {c}
        rw [Finset.card_singleton] at hcard
        omega
      · intro x hx
        simp only [Finset.mem_union, Finset.mem_insert, Finset.mem_singleton] at hx ⊢
        tauto
    · rw [if_neg h0]
      obtain ⟨Y, hY, hlogs⟩ := hload.2
      exact ⟨Y, hY.trans (Nat.le_add_right _ _), hlogs.mono (Finset.subset_insert _ _)⟩

/-! ### `writei` -/

/-- `s'` arises from `s` by using up a free block for each empty place among `S`. -/
structure Spent (s s' : FsState) (ip : Nat) (S : Finset Nat) : Prop where
  free : freeBlocks s' + (missing s ip S).card = freeBlocks s
  rest : ∀ T, (missing s ip (S ∪ T)).card = (missing s ip S).card + (missing s' ip T).card

/-- How many blocks a range of bytes touches. -/
def rounds (off n : Nat) : Nat := if n = 0 then 0 else (off + n - 1) / BSIZE + 1 - off / BSIZE

/-- The loop of `writei` stores to the end of one block in each round. -/
theorem rounds_eq (h0 : n ≠ 0) : rounds off n =
    1 + rounds (off + min n (BSIZE - off % BSIZE)) (n - min n (BSIZE - off % BSIZE)) := by
  have hpos : 0 < BSIZE - off % BSIZE := Nat.sub_pos_of_lt (Nat.mod_lt _ (by decide))
  rcases Nat.lt_or_ge (BSIZE - off % BSIZE) n with hlt | hge
  · rw [rounds, rounds, min_eq_right hlt.le, if_neg h0, if_neg (by omega)]
    simp only [BSIZE] at *
    omega
  · rw [rounds, rounds, min_eq_left hge, if_neg h0, Nat.sub_self, if_pos rfl]
    simp only [BSIZE] at *
    omega

theorem logs_nothing (h : Active s ip) (hs : s.logged.Nodup) (off : Nat) :
    Mapped s s ip (span off 0) ∧
      ∃ Y, Y.card ≤ (missing s ip (span off 0)).card + rounds off 0 ∧ LogsIn s s ip Y :=
  ⟨mapped_of_filled h (fun k hk => by simp [span] at hk), ∅, Nat.zero_le _, LogsIn.refl hs⟩

/-- Each round logs the block that it stores to, and each place that is filled costs a block of the
free map. -/
theorem writeiLoop_logs {fuel : Nat} {src : Nat → UInt8} (h : Active s ip) (hs : s.logged.Nodup)
    (hmax : off + n ≤ MAXFILE * BSIZE) (hfuel : n ≤ fuel) :
    wp (writeiLoop ip fuel src off n) s
      (fun _ s' => Mapped s s' ip (span off n) ∧
        ∃ Y, Y.card ≤ (missing s ip (span off n)).card + rounds off n ∧ LogsIn s s' ip Y)
      (fun _ => True) := by
  induction fuel generalizing s src off n with
  | zero =>
    have h0 : n = 0 := by omega
    subst h0
    exact logs_nothing h hs off
  | succ fuel ih =>
    simp only [writeiLoop]
    by_cases h0 : n = 0
    · subst h0
      rw [if_pos rfl]
      exact logs_nothing h hs off
    · have hbn : off / BSIZE < MAXFILE := by
        simp only [BSIZE, MAXFILE, NDIRECT, NINDIRECT] at *
        omega
      have hm : min n (BSIZE - off % BSIZE) ≤ n := Nat.min_le_left _ _
      have hm0 : 0 < min n (BSIZE - off % BSIZE) := by
        simp only [BSIZE]
        omega
      rw [if_neg h0, wp_bind, span_eq hm0 hm (Nat.min_le_right _ _), rounds_eq h0]
      refine wp_conseq (wp_and (bmap_spec h hbn) (bmap_logs h hs hbn)) ?_ (fun _ _ => trivial)
      rintro b s₁ ⟨⟨rfl, hm₁, -⟩, Y, hY, hlogs⟩
      have hb0 : addrOf s₁.disk (s₁.icache ip).din (off / BSIZE) ≠ 0 :=
        hm₁.filled _ (place_mem_path _)
      simp only [wp_bind, wp_bread, wp_logWrite]
      generalize hdata : (s₁.disk (addrOf s₁.disk (s₁.icache ip).din (off / BSIZE))).write
        (off % BSIZE) src (min n (BSIZE - off % BSIZE)) = data
      obtain ⟨hm₂, -⟩ := mapped_put hm₁.grown.active rfl hb0 data
      have hput : LogsIn s₁ (s₁.put (addrOf s₁.disk (s₁.icache ip).din (off / BSIZE)) data) ip
          {addrOf s₁.disk (s₁.icache ip).din (off / BSIZE)} := by
        refine ⟨nodup_logged_put hlogs.1, fun c hc => ?_⟩
        exact (mem_logged_put.mp hc).imp_right (fun hc => Or.inl (Finset.mem_singleton.mpr hc))
      have hm₁₂ := hm₁.trans hm₂
      have hlogs₂ := hlogs.trans hput hm₂
      rw [Finset.union_empty] at hm₁₂
      refine wp_mono (ih hm₂.grown.active hlogs₂.1 (by omega) (by omega)) ?_
      rintro _ s₃ ⟨hm₃, Z, hZ, hlogs₃⟩
      refine ⟨hm₁₂.trans hm₃, _, ?_, hlogs₂.trans hlogs₃ hm₃⟩
      rw [hm₁₂.missing_union]
      refine (Finset.card_union_le _ _).trans ?_
      rw [Finset.insert_union, Finset.union_comm Y, Finset.singleton_union, Finset.insert_idem]
      have hcard := Finset.card_insert_le (addrOf s₁.disk (s₁.icache ip).din (off / BSIZE)) Y
      omega

theorem path_subset (bn : Nat) : path bn ⊆ {NDIRECT, place bn} := by
  rw [path, place]
  split_ifs
  · exact Finset.subset_insert _ _
  · exact Finset.Subset.refl _

theorem div_lt_of_rounds {i : Nat} (hi : i < n) : (off + i) / BSIZE < off / BSIZE + rounds off n := by
  rw [rounds, if_neg (by omega)]
  simp only [BSIZE]
  omega

theorem card_missing_span (n : Nat) {first : Nat}
    (hfirst : ∀ bn, off / BSIZE ≤ bn → bn < first → addrOf s.disk (s.icache ip).din bn ≠ 0) :
    (missing s ip (span off n)).card ≤ 1 + (off / BSIZE + rounds off n - first) := by
  have hsub : missing s ip (span off n) ⊆
      insert NDIRECT ((Finset.Ico first (off / BSIZE + rounds off n)).image place) := by
    intro k hk
    obtain ⟨hspan, h0⟩ := Finset.mem_filter.mp hk
    obtain ⟨i, hi, hk⟩ := Finset.mem_biUnion.mp hspan
    have hlt : (off + i) / BSIZE < off / BSIZE + rounds off n :=
      div_lt_of_rounds (Finset.mem_range.mp hi)
    have hle : off / BSIZE ≤ (off + i) / BSIZE := Nat.div_le_div_right (Nat.le_add_right off i)
    rcases Finset.mem_insert.mp (path_subset _ hk) with hk | hk
    · exact Finset.mem_insert.mpr (Or.inl hk)
    · rw [Finset.mem_singleton] at hk
      refine Finset.mem_insert_of_mem (Finset.mem_image.mpr ⟨_, ?_, hk.symm⟩)
      refine Finset.mem_Ico.mpr ⟨?_, hlt⟩
      by_contra hlt'
      rw [hk] at h0
      exact hfirst _ hle (Nat.not_le.mp hlt') h0
  calc (missing s ip (span off n)).card
      ≤ (insert NDIRECT ((Finset.Ico first (off / BSIZE + rounds off n)).image place)).card :=
        Finset.card_le_card hsub
    _ ≤ ((Finset.Ico first (off / BSIZE + rounds off n)).image place).card + 1 :=
        Finset.card_insert_le _ _
    _ ≤ (Finset.Ico first (off / BSIZE + rounds off n)).card + 1 :=
        Nat.add_le_add_right Finset.card_image_le 1
    _ = 1 + (off / BSIZE + rounds off n - first) := by rw [Nat.card_Ico, Nat.add_comm]

/-- Three blocks' length of bytes from anywhere inside a file or from its end on. An unaligned range
touches four blocks, but the first one is there. -/
theorem missing_add_rounds (hc : Covered s.disk (s.icache ip).din)
    (hoff : off ≤ (s.icache ip).din.size) (hn : n ≤ 3 * BSIZE) :
    (missing s ip (span off n)).card + rounds off n ≤ 8 := by
  by_cases halign : off % BSIZE = 0
  · have hfirst : ∀ bn, off / BSIZE ≤ bn → bn < off / BSIZE →
        addrOf s.disk (s.icache ip).din bn ≠ 0 := fun bn h₁ h₂ => absurd h₂ (Nat.not_lt.mpr h₁)
    have hcard := card_missing_span n hfirst
    have hrounds : rounds off n ≤ 3 := by
      simp only [rounds, BSIZE] at *
      split_ifs <;> omega
    omega
  · have hfirst : ∀ bn, off / BSIZE ≤ bn → bn < off / BSIZE + 1 →
        addrOf s.disk (s.icache ip).din bn ≠ 0 := by
      intro bn h₁ h₂
      have hbn : bn = off / BSIZE := by omega
      rw [hbn]
      refine hc _ ?_
      simp only [BSIZE] at *
      omega
    have hcard := card_missing_span n hfirst
    have hrounds : rounds off n ≤ 4 := by
      simp only [rounds, BSIZE] at *
      split_ifs <;> omega
    omega

theorem LogsIn.length_le (h : LogsIn s s' ip X) (hs : s.logged = []) :
    s'.logged.length ≤ X.card + 1 := by
  have hsub : s'.logged.toFinset ⊆ insert ((s'.icache ip).din.addrs NDIRECT) X := by
    intro c hc
    rcases h.2 c (List.mem_toFinset.mp hc) with hc | hc | ⟨-, hc⟩
    · rw [hs] at hc
      cases hc
    · exact Finset.mem_insert_of_mem hc
    · rw [hc]
      exact Finset.mem_insert_self _ _
  rw [← List.toFinset_card_of_nodup h.1]
  exact (Finset.card_le_card hsub).trans (Finset.card_insert_le _ _)

theorem logged_put_length : (s.put b data).logged.length ≤ s.logged.length + 1 := by
  change (if b ∈ s.logged then s.logged else s.logged ++ [b]).length ≤ _
  split_ifs
  · exact Nat.le_succ _
  · rw [List.length_append, List.length_singleton]

theorem Mapped.spent (h : Mapped s s' ip S) : Spent s s' ip S :=
  ⟨h.free, fun _ => h.missing_union⟩

theorem Spent.congr (h : Spent s s' ip S) (hfree : freeBlocks s'' = freeBlocks s')
    (hptr : ∀ k, ptr s''.disk (s''.icache ip).din k = ptr s'.disk (s'.icache ip).din k) :
    Spent s s'' ip S := by
  refine ⟨by rw [hfree, h.free], fun T => ?_⟩
  have hmissing : missing s'' ip T = missing s' ip T := by simp only [missing, hptr]
  rw [hmissing, h.rest]

theorem Flushed.ptr_eq (h : Flushed s s' ip) (ha : Active s ip) (k : Nat) :
    ptr s'.disk (s'.icache ip).din k = ptr s.disk (s.icache ip).din k := by
  have hheld := congrFun h.held ((s.icache ip).inum, k)
  have hlive : (tblOf s ip (s.icache ip).inum).type ≠ 0 := by
    rw [Active.tbl_self]
    exact ha.live
  rw [ha.held_eq, held_live hlive, Active.tbl_self] at hheld
  rw [h.icache, hheld]

/-- A write of at most three blocks' length logs at most `MAXOPBLOCKS` blocks. -/
theorem writei_logs {src : Nat → UInt8} (h : Good s) (hl : Loaded s ip)
    (hdev : (s.icache ip).din.type ≠ T_DEV) (hs : s.logged = []) (hn : n ≤ 3 * BSIZE) :
    wp (writei ip src off n) s
      (fun _ s' => s'.logged.Nodup ∧ s'.logged.length ≤ MAXOPBLOCKS ∧
        (¬ WriteFails (s.icache ip).din.size off n → Spent s s' ip (span off n)))
      (fun _ => True) := by
  have hnodup : s.logged.Nodup := by
    rw [hs]
    exact List.nodup_nil
  by_cases hok : WriteFails (s.icache ip).din.size off n
  · refine wp_of_ok (writei_refused hdev hok) ⟨hnodup, ?_, absurd hok⟩
    rw [hs]
    exact Nat.zero_le _
  rw [WriteFails, ← or_assoc, not_or] at hok
  simp only [writei, wp_bind, wp_getInode, wp_get, if_neg hdev, if_neg hok.1, if_neg hok.2]
  have hoff : off ≤ (s.icache ip).din.size := by omega
  have hcount := missing_add_rounds (h.covered_din hl) hoff hn
  refine wp_conseq (wp_and (writeiLoop_spec (h.active hl) (by omega) le_rfl)
    (writeiLoop_logs (h.active hl) hnodup (by omega) le_rfl)) ?_ (fun _ _ => trivial)
  rintro _ s₁ ⟨⟨hm, hv⟩, -, Y, hY, hlogs⟩
  have hlen := hlogs.length_le hs
  simp only [hm.grown.sameMeta.size]
  by_cases hgrow : n > 0 ∧ off + n > (s.icache ip).din.size
  · obtain ⟨hp, -, -⟩ := pending_grow h hl (by omega) hgrow.2 (by omega) (by omega) hm hv
    rw [if_pos hgrow]
    simp only [wp_bind, wp_setSize]
    have hlog : wp (iupdate ip) (s₁.setDin ip ((s₁.icache ip).din.setSize (off + n)))
        (fun _ s' => s'.logged.Nodup ∧ s'.logged.length ≤ s₁.logged.length + 1) (fun _ => True) :=
      ⟨nodup_logged_put hlogs.1, logged_put_length⟩
    refine wp_conseq (wp_and (iupdate_spec (E := fun _ => True) hp.active.vol hp.active.wf
      hp.active.range) hlog) ?_ (fun _ _ => trivial)
    rintro _ s₂ ⟨hf, hnodup₂, hlen₂⟩
    refine ⟨hnodup₂, ?_, fun _ => hm.spent.congr hf.free (fun k => ?_)⟩
    · simp only [MAXOPBLOCKS]
      omega
    · rw [hf.ptr_eq hp.active, setDin_icache_self]
      exact ptr_congr rfl (fun _ => rfl)
  · rw [if_neg hgrow]
    refine ⟨hlogs.1, ?_, fun _ => hm.spent⟩
    simp only [MAXOPBLOCKS]
    omega

end Xv6.Fs
