import Xv6.UmallocFree

/-!
# Allocating a block

The loop of `malloc` goes once around the free list. It takes the first block that is large enough,
or its upper part. If there is none, it gets more memory, which `free` puts into the list, and then
finds a block in the second round.
-/

namespace Xv6.Umalloc

variable {σ : Type} {base : Nat} {m m' : Mem} {fr live xs ys : List Block} {b x : Block}
  {regions : List (Nat × Nat)} {k k' : Heap σ} {n : Nat}

/-! ### Taking a block -/

theorem plus_one (h : Holds base regions m k.freep fr live) (hb : b ∈ fr ++ live) :
    plus b.addr 1 = b.addr + 8 := by
  have hpos := h.tiles.pos b hb
  have hfin := h.fin_lt hb
  simp only [plus, Block.fin] at *
  omega

theorem Holds.freep_ne_zero {freep : Nat} (h : Holds base regions m freep fr live) : freep ≠ 0 := by
  have hbase := h.base_pos
  rcases List.mem_cons.mp h.freep_mem with heq | hmem
  · omega
  · obtain ⟨y, hy, heq⟩ := List.mem_map.mp hmem
    have := h.base_le (List.mem_append_left live hy)
    omega

section Carve

variable (h : Holds base regions k.mem k.freep (xs ++ x :: ys) live) {prevp : Nat}
  (hprev : prevp = lastNode base (xs.map Block.addr))
include h hprev

theorem Holds.carve_all (hn : x.units = n) :
    ∃ k', carve n prevp x.addr k = (x.addr + 8, k') ∧ k'.sys = k.sys ∧
      Holds base regions k'.mem k'.freep (xs ++ ys) (x :: live) := by
  have hxmem : x ∈ (xs ++ x :: ys) ++ live := by simp
  have hxsize := h.sizes x hxmem
  have hcarve : carve n prevp x.addr k =
      (x.addr + 8, ⟨setPtr k.mem prevp (ptr k.mem x.addr), prevp, k.sys⟩) := by
    rw [carve, if_pos (hxsize.trans hn), plus_one h hxmem]
  have hperm : ((xs ++ x :: ys) ++ live).Perm ((xs ++ ys) ++ x :: live) := by
    refine (List.Perm.append_right live List.perm_middle).trans ?_
    exact List.perm_middle.symm
  have hring := h.ring
  rw [List.map_append, List.map_cons] at hring
  have hasc := h.ascending
  rw [nodes, List.map_append, List.map_cons, ← List.cons_append] at hasc
  obtain ⟨hfirst, -, hcross⟩ := List.pairwise_append.mp hasc
  have hlast : prevp ∈ base :: xs.map Block.addr := hprev ▸ lastNode_mem _ _
  have hsub : ∀ a ∈ base :: xs.map Block.addr, a ∈ nodes base (xs ++ x :: ys) := by
    intro a ha
    rw [nodes, List.map_append, ← List.cons_append]
    exact List.mem_append_left _ ha
  have hoff : SameOff k.mem (setPtr k.mem prevp (ptr k.mem x.addr)) prevp := sameOff_setPtr
  have hptr : ∀ a ∈ nodes base (xs ++ x :: ys), a ≠ prevp →
      ptr (setPtr k.mem prevp (ptr k.mem x.addr)) a = ptr k.mem a :=
    fun a ha hne => hoff.ptr (h.apart_nodes (hsub _ hlast) ha (Ne.symm hne))
  refine ⟨_, hcarve, rfl, ?_⟩
  dsimp only
  refine ⟨h.base_pos, h.low, h.high, h.tiles.perm hperm, ?_, ?_, ?_, ?_, ?_⟩
  · exact h.spaced.sublist ((List.sublist_cons_self x ys).append_left xs)
  · rw [List.map_append]
    refine hring.replace (hfirst.imp (fun hlt => Nat.ne_of_lt hlt)) ?_ ?_
    · intro a ha hne
      exact hptr a (hsub a ha) (hprev ▸ hne)
    · rw [← hprev]
      refine (seg_append.mp hring).2.head_congr (ptr_setPtr (load_lt k.mem x.addr)) ?_
      intro a ha
      have hlt := hcross prevp hlast a (List.mem_cons_of_mem _ ha)
      refine hptr a ?_ (by omega)
      rw [nodes, List.map_append, List.map_cons]
      exact List.mem_cons_of_mem _ (List.mem_append_right _ (List.mem_cons_of_mem _ ha))
  · intro z hz
    have hz' := hperm.mem_iff.mpr hz
    rcases h.node_cases (hsub _ hlast) hz' with heq | hapart
    · rw [← heq, size_setPtr, heq]
      exact h.sizes z hz'
    · rw [hoff.size hapart]
      exact h.sizes z hz'
  · by_cases heq : prevp = base
    · rw [heq, size_setPtr]
      exact h.base_size
    · rw [hoff.size (h.apart_nodes (hsub _ hlast) List.mem_cons_self heq)]
      exact h.base_size
  · rw [nodes, List.map_append, ← List.cons_append]
    exact List.mem_append_left _ hlast

theorem Holds.carve_part (hn0 : 0 < n) (hn : n < x.units) :
    ∃ c k' fr', carve n prevp x.addr k = (c.addr + 8, k') ∧ k'.sys = k.sys ∧ c.units = n ∧
      Holds base regions k'.mem k'.freep fr' (c :: live) := by
  have hxmem : x ∈ (xs ++ x :: ys) ++ live := by simp
  have hxsize := h.sizes x hxmem
  have hxfin := h.fin_lt hxmem
  simp only [Block.fin] at hxfin
  have hperm : ((xs ++ x :: ys) ++ live).Perm (x :: ((xs ++ ys) ++ live)) :=
    List.Perm.append_right live List.perm_middle
  have htiles := (h.tiles.perm hperm).cut hn0 hn
  generalize hx' : Block.mk x.addr (x.units - n) = x' at htiles
  generalize hc : Block.mk (x.addr + 8 * (x.units - n)) n = c at htiles
  have hxaddr : x'.addr = x.addr := by rw [← hx']
  have hxunits : x'.units = x.units - n := by rw [← hx']
  have hcaddr : c.addr = x.addr + 8 * (x.units - n) := by rw [← hc]
  have hcunits : c.units = n := by rw [← hc]
  have hperm' : (x' :: c :: ((xs ++ ys) ++ live)).Perm ((xs ++ x' :: ys) ++ c :: live) := by
    refine (List.Perm.cons x' List.perm_middle.symm).trans ?_
    exact List.Perm.append_right (c :: live) List.perm_middle.symm
  have hmap : (xs ++ x' :: ys).map Block.addr = (xs ++ x :: ys).map Block.addr := by
    rw [List.map_append, List.map_append, List.map_cons, List.map_cons, hxaddr]
  obtain ⟨hxapart, hcapart⟩ := List.pairwise_cons.mp htiles.apart
  obtain ⟨hcapart, -⟩ := List.pairwise_cons.mp hcapart
  have hhdr : ∀ {y z : Block}, y.Apart z → y ∈ x' :: c :: ((xs ++ ys) ++ live) →
      z ∈ x' :: c :: ((xs ++ ys) ++ live) → HdrApart y.addr z.addr :=
    fun hyz hy hz => hdrApart_of_apart hyz (htiles.pos _ hy) (htiles.pos _ hz)
  -- the headers of the two parts, the lower one at the address of `x`
  have hoffx : SameOff k.mem (setSize k.mem x.addr (x.units - n)) x.addr := sameOff_setSize
  have hoffc : SameOff (setSize k.mem x.addr (x.units - n))
      (setSize (setSize k.mem x.addr (x.units - n)) c.addr n) c.addr := sameOff_setSize
  have hxc : HdrApart c.addr x.addr := by
    rw [← hxaddr]
    exact (hhdr (hxapart c List.mem_cons_self) List.mem_cons_self (by simp)).symm
  have hrest : ∀ z ∈ (xs ++ ys) ++ live, z ∈ x' :: c :: ((xs ++ ys) ++ live) :=
    fun z hz => List.mem_cons_of_mem _ (List.mem_cons_of_mem _ hz)
  have hcz : ∀ z ∈ (xs ++ ys) ++ live, HdrApart c.addr z.addr :=
    fun z hz => hhdr (hcapart z hz) (by simp) (hrest z hz)
  have hxz : ∀ z ∈ (xs ++ ys) ++ live, HdrApart x.addr z.addr := by
    intro z hz
    rw [← hxaddr]
    exact hhdr (hxapart z (List.mem_cons_of_mem _ hz)) List.mem_cons_self (hrest z hz)
  have hcbase : HdrApart c.addr base := by
    refine Or.inr ?_
    exact htiles.base_le h.low (List.mem_cons_of_mem _ List.mem_cons_self)
  have hcnode : ∀ a ∈ nodes base (xs ++ x :: ys), HdrApart c.addr a := by
    intro a ha
    rcases List.mem_cons.mp ha with rfl | ha
    · exact hcbase
    · obtain ⟨z, hz, rfl⟩ := List.mem_map.mp ha
      rcases List.mem_cons.mp (List.perm_middle.mem_iff.mp hz) with rfl | hz
      · exact hxc
      · exact hcz z (List.mem_append_left live hz)
  have hcarve : carve n prevp x.addr k = (c.addr + 8,
      ⟨setSize (setSize k.mem x.addr (x.units - n)) c.addr n, prevp, k.sys⟩) := by
    have hq : plus x.addr (x.units - n) = c.addr := by
      rw [plus, hcaddr]
      omega
    have hq' : plus c.addr 1 = c.addr + 8 := by
      rw [plus, hcaddr]
      omega
    rw [carve, hxsize, if_neg (by omega)]
    simp only [size_setSize (m := k.mem) (a := x.addr) (v := x.units - n) (by omega), hq, hq']
  refine ⟨c, _, xs ++ x' :: ys, hcarve, rfl, hcunits, ?_⟩
  dsimp only
  refine ⟨h.base_pos, h.low, h.high, htiles.perm hperm', ?_, ?_, ?_, ?_, ?_⟩
  · obtain ⟨hxs, hys, hcross⟩ := List.pairwise_append.mp h.spaced
    obtain ⟨hup, hys⟩ := List.pairwise_cons.mp hys
    refine List.pairwise_append.mpr ⟨hxs, List.pairwise_cons.mpr ⟨?_, hys⟩, ?_⟩
    · intro y hy
      have := hup y hy
      simp only [Block.fin, hxaddr, hxunits] at this ⊢
      omega
    · intro w hw y hy
      rcases List.mem_cons.mp hy with rfl | hy
      · rw [hxaddr]
        exact hcross w hw x List.mem_cons_self
      · exact hcross w hw y (List.mem_cons_of_mem _ hy)
  · rw [hmap]
    refine h.ring.congr (fun a ha => ?_)
    rw [hoffc.ptr (hcnode a ha)]
    rcases h.node_cases ha hxmem with rfl | hapart
    · exact ptr_setSize
    · exact hoffx.ptr hapart.symm
  · intro z hz
    rcases List.mem_cons.mp (hperm'.mem_iff.mpr hz) with rfl | hz
    · rw [hxaddr, hoffc.size hxc, size_setSize (by omega), hxunits]
    · rcases List.mem_cons.mp hz with rfl | hz
      · rw [size_setSize (by omega), hcunits]
      · rw [hoffc.size (hcz z hz), hoffx.size (hxz z hz)]
        exact h.sizes z (hperm.mem_iff.mpr (List.mem_cons_of_mem _ hz))
  · rw [hoffc.size hcbase, hoffx.size (Or.inr (h.base_le hxmem))]
    exact h.base_size
  · rw [nodes, hmap, List.map_append, ← List.cons_append]
    exact List.mem_append_left _ (hprev ▸ lastNode_mem _ _)

end Carve

/-- A block of `n` units for the caller. -/
def Served (base : Nat) (regions : List (Nat × Nat)) (live : List Block) (n : Nat) (sys : σ)
    (r : Nat × Heap σ) : Prop :=
  ∃ c fr, r.1 = c.addr + 8 ∧ c.units = n ∧ r.2.sys = sys ∧
    Holds base regions r.2.mem r.2.freep fr (c :: live)

section Loop

variable (h : Holds base regions k.mem k.freep fr live)
include h

theorem Holds.exists_pred {q : Nat} (hx : x ∈ fr) (hq : q ∈ nodes base fr)
    (hnext : ptr k.mem q = x.addr) :
    ∃ xs ys, fr = xs ++ x :: ys ∧ q = lastNode base (xs.map Block.addr) := by
  obtain ⟨xs, ys, rfl⟩ := List.append_of_mem hx
  refine ⟨xs, ys, rfl, ?_⟩
  have hring := h.ring
  have hlast : ptr k.mem (lastNode base (xs.map Block.addr)) = x.addr := by
    rw [List.map_append, List.map_cons] at hring
    exact (seg_append.mp hring).1.last
  refine hring.inj (h.ascending.imp (fun hlt => Nat.ne_of_lt hlt)) hq ?_ (hnext.trans hlast.symm)
  rw [List.map_append, ← List.cons_append]
  exact List.mem_append_left _ (lastNode_mem _ _)

theorem Holds.carve_spec {q p : Nat} (hq : q ∈ nodes base fr) (hp : p ∈ nodes base fr)
    (hnext : ptr k.mem q = p) (hn0 : 0 < n) (hn : n ≤ size k.mem p) :
    Served base regions live n k.sys (carve n q p k) := by
  rcases List.mem_cons.mp hp with rfl | hp
  · rw [h.base_size] at hn
    omega
  · obtain ⟨x, hx, rfl⟩ := List.mem_map.mp hp
    obtain ⟨xs, ys, rfl, hlast⟩ := h.exists_pred hx hq hnext
    rw [h.sizes x (List.mem_append_left live hx)] at hn
    rcases Nat.eq_or_lt_of_le hn with heq | hlt
    · obtain ⟨k', hcarve, hsys, hholds⟩ := h.carve_all hlast heq.symm
      rw [hcarve]
      exact ⟨x, xs ++ ys, rfl, heq.symm, hsys, hholds⟩
    · obtain ⟨c, k', fr', hcarve, hsys, hunits, hholds⟩ := h.carve_part hlast hn0 hlt
      rw [hcarve]
      exact ⟨c, fr', rfl, hunits, hsys, hholds⟩

variable (sbrk : Int → σ → Option Nat × σ)

/-- The loop from `q` on to the node `freep`: it finds a block, or asks for more memory. -/
theorem Holds.scan {q : Nat} {as : List Nat} (hseg : Seg (ptr k.mem) q as k.freep)
    (hmem : ∀ a ∈ q :: as, a ∈ nodes base fr) (hend : k.freep ∉ as) (hn0 : 0 < n) :
    (∃ r, Served base regions live n k.sys r ∧
      ∀ fuel, as.length < fuel → mallocLoop sbrk n fuel q (ptr k.mem q) k = some r) ∨
    (∀ a ∈ as ++ [k.freep], size k.mem a < n) ∧
      ∀ fuel, mallocLoop sbrk n (as.length + 1 + fuel) q (ptr k.mem q) k =
        (morecore sbrk fuel n k).bind (fun r =>
          if r.1 = 0 then some (0, r.2)
          else mallocLoop sbrk n fuel r.1 (ptr r.2.mem r.1) r.2) := by
  induction as generalizing q with
  | nil =>
    have hnext : ptr k.mem q = k.freep := hseg
    rw [hnext]
    by_cases hsize : size k.mem k.freep ≥ n
    · refine Or.inl ⟨_, h.carve_spec (hmem q List.mem_cons_self) h.freep_mem hnext hn0 hsize, ?_⟩
      intro fuel hfuel
      obtain ⟨fuel, rfl⟩ := Nat.exists_eq_add_of_lt hfuel
      rw [mallocLoop, if_pos hsize]
    · refine Or.inr ⟨fun a ha => ?_, fun fuel => ?_⟩
      · rw [List.mem_singleton.mp ha]
        omega
      · rw [List.length_nil, Nat.zero_add, Nat.add_comm, mallocLoop, if_neg hsize, if_pos rfl]
        cases morecore sbrk fuel n k with
        | none => rfl
        | some r => rfl
  | cons a as ih =>
    have hnext : ptr k.mem q = a := hseg.1
    have hne : a ≠ k.freep := fun hc => hend (hc ▸ List.mem_cons_self)
    rw [hnext]
    by_cases hsize : size k.mem a ≥ n
    · refine Or.inl ⟨_, h.carve_spec (hmem q List.mem_cons_self)
        (hmem a (List.mem_cons_of_mem _ List.mem_cons_self)) hnext hn0 hsize, ?_⟩
      intro fuel hfuel
      obtain ⟨fuel, rfl⟩ := Nat.exists_eq_add_of_lt hfuel
      rw [mallocLoop, if_pos hsize]
    · have hstep : ∀ fuel, mallocLoop sbrk n (fuel + 1) q a k =
          mallocLoop sbrk n fuel a (ptr k.mem a) k := by
        intro fuel
        rw [mallocLoop, if_neg hsize, if_neg hne]
      rcases ih hseg.2 (fun b hb => hmem b (List.mem_cons_of_mem _ hb))
          (fun hc => hend (List.mem_cons_of_mem _ hc)) with ⟨r, hr, hloop⟩ | ⟨hall, hloop⟩
      · refine Or.inl ⟨r, hr, fun fuel hfuel => ?_⟩
        rw [List.length_cons] at hfuel
        obtain ⟨fuel, rfl⟩ : ∃ f, fuel = f + 1 := ⟨fuel - 1, by omega⟩
        rw [hstep, hloop fuel (by omega)]
      · refine Or.inr ⟨fun b hb => ?_, fun fuel => ?_⟩
        · rcases List.mem_cons.mp hb with rfl | hb
          · omega
          · exact hall b hb
        · rw [List.length_cons, show as.length + 1 + 1 + fuel = as.length + 1 + fuel + 1 by omega,
            hstep, hloop]

theorem Holds.round (hn0 : 0 < n) :
    (∃ r, Served base regions live n k.sys r ∧ ∀ fuel, fr.length < fuel →
      mallocLoop sbrk n fuel k.freep (ptr k.mem k.freep) k = some r) ∨
    (∀ b ∈ fr, b.units < n) ∧
      ∀ fuel, mallocLoop sbrk n (fr.length + 1 + fuel) k.freep (ptr k.mem k.freep) k =
        (morecore sbrk fuel n k).bind (fun r =>
          if r.1 = 0 then some (0, r.2)
          else mallocLoop sbrk n fuel r.1 (ptr r.2.mem r.1) r.2) := by
  obtain ⟨as, hseg, hperm⟩ := h.ring.rotate h.freep_mem
  have hnodup : (k.freep :: as).Nodup :=
    hperm.nodup_iff.mpr (h.ascending.imp (fun hlt => Nat.ne_of_lt hlt))
  have hlen : as.length = fr.length := by simpa using hperm.length_eq
  have hscan := h.scan sbrk hseg (fun a ha => hperm.mem_iff.mp ha)
    (List.nodup_cons.mp hnodup).1 hn0
  rw [hlen] at hscan
  refine hscan.imp_right (fun hnone => ⟨fun b hb => ?_, hnone.2⟩)
  have hmem : b.addr ∈ k.freep :: as :=
    hperm.mem_iff.mpr (List.mem_cons_of_mem _ (List.mem_map_of_mem hb))
  have hlt := hnone.1 b.addr ((List.perm_append_singleton k.freep as).mem_iff.mpr hmem)
  rwa [h.sizes b (List.mem_append_left live hb)] at hlt

end Loop

/-! ### More memory -/

/-- The units that `morecore` asks for. -/
def asked (n : Nat) : Nat := if n < 4096 then 4096 else n

theorem le_asked (n : Nat) : n ≤ asked n := by
  unfold asked
  split_ifs <;> omega

theorem asked_pos (n : Nat) : 0 < asked n := by
  unfold asked
  split_ifs <;> omega

theorem Holds.grow {p nu : Nat} {freep : Nat} (h : Holds base regions m freep fr live)
    (hnu : 0 < nu) (hp : ∀ r ∈ regions, r.1 + r.2 ≤ p) (hlow : base + 8 ≤ p)
    (hhigh : p + 8 * nu < 2 ^ 32) :
    Holds base (regions ++ [(p, 8 * nu)]) (setSize m p nu) freep fr (⟨p, nu⟩ :: live) := by
  have htiles := h.tiles.grow hnu hp
  have hoff : SameOff m (setSize m p nu) p := sameOff_setSize
  have hapart : ∀ x ∈ fr ++ live, HdrApart p x.addr := by
    intro x hx
    exact hdrApart_of_apart (htiles.apart_of_mem hx) hnu (h.tiles.pos x hx)
  have hbase : HdrApart p base := Or.inr hlow
  have hregion : ∀ r ∈ regions ++ [(p, 8 * nu)], r ∈ regions ∨ r = (p, 8 * nu) := by
    intro r hr
    simpa using hr
  refine ⟨h.base_pos, ?_, ?_, htiles.perm List.perm_middle.symm, h.spaced, ?_, ?_, ?_, h.freep_mem⟩
  · intro r hr
    rcases hregion r hr with hr | rfl
    · exact h.low r hr
    · exact hlow
  · intro r hr
    rcases hregion r hr with hr | rfl
    · exact h.high r hr
    · exact hhigh
  · refine h.ring.congr (fun a ha => hoff.ptr ?_)
    rcases List.mem_cons.mp ha with rfl | ha
    · exact hbase
    · obtain ⟨x, hx, rfl⟩ := List.mem_map.mp ha
      exact hapart x (List.mem_append_left live hx)
  · intro x hx
    rcases List.mem_cons.mp (List.perm_middle.mem_iff.mp hx) with rfl | hx
    · exact size_setSize (by omega)
    · rw [hoff.size (hapart x hx)]
      exact h.sizes x hx
  · rw [hoff.size hbase]
    exact h.base_size

/-- `sbrk` fails, or returns fresh memory above all that it has `given` before. -/
structure Fresh (sbrk : Int → σ → Option Nat × σ) (inv : σ → Prop)
    (given : σ → List (Nat × Nat)) (base : Nat) : Prop where
  fails : ∀ n s s', inv s → 0 < n → n < 2 ^ 31 → sbrk n s = (none, s') →
    inv s' ∧ given s' = given s
  grants : ∀ n s p s', inv s → 0 < n → n < 2 ^ 31 → sbrk n s = (some p, s') →
    inv s' ∧ given s' = given s ++ [(p, n.toNat)] ∧ (∀ r ∈ given s, r.1 + r.2 ≤ p) ∧
      base + 8 ≤ p ∧ p + n.toNat < 2 ^ 32

section Malloc

variable {sbrk : Int → σ → Option Nat × σ} {inv : σ → Prop} {given : σ → List (Nat × Nat)}
  (hfresh : Fresh sbrk inv given base) (hinv : inv k.sys) (hn : 8 * asked n < 2 ^ 31)
include hfresh hinv hn

theorem Holds.morecore_spec (h : Holds base (given k.sys) k.mem k.freep fr live) :
    (∃ sys, sbrk (8 * asked n : Nat) k.sys = (none, sys) ∧ inv sys ∧ given sys = given k.sys ∧
      ∀ fuel, morecore sbrk fuel n k = some (0, { k with sys := sys })) ∨
    ∃ k' fr', (∀ fuel, fr.length < fuel → morecore sbrk fuel n k = some (k'.freep, k')) ∧
      inv k'.sys ∧ Holds base (given k'.sys) k'.mem k'.freep fr' live ∧ ∃ x ∈ fr', n ≤ x.units := by
  have hpos := asked_pos n
  have hwrap : wrap32 (asked n * 8) = (8 * asked n : Nat) := by
    rw [wrap32_of_range (by omega) (by omega)]
    omega
  rcases hcall : sbrk (8 * asked n : Nat) k.sys with ⟨_ | p, sys⟩
  · obtain ⟨hinv', hgiven⟩ := hfresh.fails _ _ _ hinv (by omega) (by omega) hcall
    refine Or.inl ⟨sys, rfl, hinv', hgiven, fun fuel => ?_⟩
    rw [← hwrap, asked] at hcall
    simp only [morecore, hcall]
  · obtain ⟨hinv', hgiven, habove, hlow, hhigh⟩ :=
      hfresh.grants _ _ _ _ hinv (by omega) (by omega) hcall
    rw [Int.toNat_natCast] at hgiven hhigh
    have hplus : plus p 1 = (⟨p, asked n⟩ : Block).addr + 8 := by
      simp only [plus]
      omega
    have hgrow : Holds base (given sys) (setSize k.mem p (asked n)) k.freep fr
        (⟨p, asked n⟩ :: live) := by
      rw [hgiven]
      exact h.grow hpos habove hlow hhigh
    have hfree := Holds.free_spec (k := { k with mem := setSize k.mem p (asked n), sys := sys })
      hgrow
    obtain ⟨k', fr', hrun, hsys, hholds, x, hx, hunits⟩ := hfree
    refine Or.inr ⟨k', fr', fun fuel hfuel => ?_, ?_, ?_, x, hx, (le_asked n).trans hunits⟩
    · have hrun' := hrun fuel hfuel
      rw [← hplus, asked] at hrun'
      rw [← hwrap, asked] at hcall
      simp only [morecore, hcall, hrun']
    · rw [hsys]
      exact hinv'
    · rw [hsys]
      exact hholds

/-- What `malloc` does with a heap that has been set up. -/
theorem Holds.mallocLoop_spec (h : Holds base (given k.sys) k.mem k.freep fr live) (hn0 : 0 < n) :
    ∃ N r, (∀ fuel, N < fuel →
        mallocLoop sbrk n fuel k.freep (ptr k.mem k.freep) k = some r) ∧ inv r.2.sys ∧
      (Served base (given r.2.sys) live n r.2.sys r ∨
        r.1 = 0 ∧ (∃ sys, sbrk (8 * asked n : Nat) k.sys = (none, sys)) ∧
          Holds base (given r.2.sys) r.2.mem r.2.freep fr live) := by
  rcases h.round sbrk hn0 with ⟨r, hr, hloop⟩ | ⟨-, hloop⟩
  · have hsys : r.2.sys = k.sys := by
      obtain ⟨c, fr', -, -, hsys, -⟩ := hr
      exact hsys
    refine ⟨fr.length, r, hloop, ?_⟩
    rw [hsys]
    exact ⟨hinv, Or.inl hr⟩
  · rcases h.morecore_spec hfresh hinv hn with
      ⟨sys, hcall, hinv', hgiven, hmore⟩ | ⟨k', fr', hmore, hinv', hholds, x, hx, hunits⟩
    · refine ⟨fr.length, (0, { k with sys := sys }), fun fuel hfuel => ?_, hinv', Or.inr ?_⟩
      · obtain ⟨f, rfl⟩ := Nat.exists_eq_add_of_lt hfuel
        rw [show fr.length + f + 1 = fr.length + 1 + f by omega, hloop, hmore, Option.bind_some,
          if_pos rfl]
      · refine ⟨rfl, ⟨sys, hcall⟩, ?_⟩
        dsimp only
        rw [hgiven]
        exact h
    · -- in the second round there is a block that is large enough
      rcases hholds.round sbrk hn0 with ⟨r, hr, hloop'⟩ | ⟨hsmall, -⟩
      · have hsys : r.2.sys = k'.sys := by
          obtain ⟨c, fr', -, -, hsys, -⟩ := hr
          exact hsys
        refine ⟨2 * fr.length + fr'.length + 1, r, fun fuel hfuel => ?_, ?_⟩
        · obtain ⟨f, rfl⟩ : ∃ f, fuel = fr.length + 1 + f := ⟨fuel - (fr.length + 1), by omega⟩
          rw [hloop, hmore f (by omega), Option.bind_some, if_neg hholds.freep_ne_zero, hloop' f (by omega)]
        · rw [hsys]
          exact ⟨hinv', Or.inl hr⟩
      · have := hsmall x hx
        omega

end Malloc

end Xv6.Umalloc
