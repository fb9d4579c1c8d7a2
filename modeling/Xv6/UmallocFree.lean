import Mathlib.Data.List.Pairwise
import Xv6.Umalloc
import Xv6.UmallocBlocks

/-!
# Freeing a block

The free blocks form a circular list in memory, in the order of their addresses, that starts at
`base`. The loop of `free` ends at the last free block below the new one, wherever `freep` points
to, and the pointers and sizes that `free` then stores are those of the list with the block in its
place.
-/

namespace Xv6.Umalloc

variable {σ : Type} {base : Nat} {m m' : Mem} {fr live xs ys : List Block} {b : Block}
  {regions : List (Nat × Nat)}

/-- `base` and the free blocks. -/
def nodes (base : Nat) (fr : List Block) : List Nat := base :: fr.map Block.addr

/-- The heap that is in memory: `fr` are the free blocks, `live` the others, and all of them lie
above `base`. -/
structure Holds (base : Nat) (regions : List (Nat × Nat)) (m : Mem) (freep : Nat)
    (fr live : List Block) : Prop where
  base_pos : 0 < base
  low : ∀ r ∈ regions, base + 8 ≤ r.1
  high : ∀ r ∈ regions, r.1 + r.2 < 2 ^ 32
  tiles : Tiles regions (fr ++ live)
  spaced : Spaced fr
  ring : Seg (ptr m) base (fr.map Block.addr) base
  sizes : ∀ b ∈ fr ++ live, size m b.addr = b.units
  base_size : size m base = 0
  freep_mem : freep ∈ nodes base fr

theorem Tiles.base_le {l : List Block} (h : Tiles regions l) (low : ∀ r ∈ regions, base + 8 ≤ r.1)
    (hb : b ∈ l) : base + 8 ≤ b.addr := by
  have hpos := h.pos b hb
  obtain ⟨r, hr, hle, -⟩ := h.inside b hb b.addr le_rfl (by simp only [Block.fin]; omega)
  exact (low r hr).trans hle

theorem Tiles.fin_lt {l : List Block} (h : Tiles regions l)
    (high : ∀ r ∈ regions, r.1 + r.2 < 2 ^ 32) (hb : b ∈ l) : b.fin < 2 ^ 32 := by
  have hpos := h.pos b hb
  obtain ⟨r, hr, -, hlt⟩ := h.inside b hb (b.fin - 1) (by simp only [Block.fin]; omega)
    (by simp only [Block.fin]; omega)
  have := high r hr
  omega

namespace Holds

variable {freep : Nat} (h : Holds base regions m freep fr live)
include h

theorem base_le (hb : b ∈ fr ++ live) : base + 8 ≤ b.addr := h.tiles.base_le h.low hb

theorem fin_lt (hb : b ∈ fr ++ live) : b.fin < 2 ^ 32 := h.tiles.fin_lt h.high hb

theorem addr_lt (hb : b ∈ fr ++ live) : b.addr < 2 ^ 32 := by
  have hpos := h.tiles.pos b hb
  have hfin := h.fin_lt hb
  simp only [Block.fin] at hfin
  omega

theorem ascending : (nodes base fr).Pairwise (· < ·) := by
  refine List.pairwise_cons.mpr ⟨?_, ?_⟩
  · intro a ha
    obtain ⟨x, hx, rfl⟩ := List.mem_map.mp ha
    have := h.base_le (List.mem_append_left live hx)
    omega
  · refine List.pairwise_map.mpr (h.spaced.imp_of_mem ?_)
    intro x y _ _ hxy
    simp only [Block.fin] at hxy
    omega

end Holds

/-! ### The search -/

theorem freeSearch_eq (m : Mem) (bp fuel p : Nat) :
    freeSearch m bp fuel p = search (Seg.Fits (ptr m) bp) (ptr m) fuel p := by
  induction fuel generalizing p with
  | zero => rfl
  | succ fuel ih =>
    rw [freeSearch, search, ih]
    by_cases h₁ : bp > p ∧ bp < ptr m p
    · have hfit : Seg.Fits (ptr m) bp p := Or.inl h₁
      rw [if_pos h₁, if_pos hfit]
    · rw [if_neg h₁]
      by_cases h₂ : p ≥ ptr m p ∧ (bp > p ∨ bp < ptr m p)
      · have hfit : Seg.Fits (ptr m) bp p := Or.inr h₂
        rw [if_pos h₂, if_pos hfit]
      · have hfit : ¬ Seg.Fits (ptr m) bp p := not_or.mpr ⟨h₁, h₂⟩
        rw [if_neg h₂, if_neg hfit]

section Free

variable {freep fuel : Nat} (h : Holds base regions m freep (xs ++ ys) (b :: live))
  (hxs : ∀ x ∈ xs, x.fin ≤ b.addr) (hys : ∀ y ∈ ys, b.fin ≤ y.addr)
include h hxs hys

theorem Holds.freeSearch (hfuel : (xs ++ ys).length < fuel) :
    freeSearch m b.addr fuel freep = some (lastNode base (xs.map Block.addr)) := by
  have hbmem : b ∈ (xs ++ ys) ++ b :: live := List.mem_append_right _ List.mem_cons_self
  have hb0 := h.tiles.pos b hbmem
  have hbase := h.base_le hbmem
  have hasc := h.ascending
  have hbelow : ∀ a ∈ nodes base xs, a < b.addr := by
    intro a ha
    rcases List.mem_cons.mp ha with rfl | ha
    · omega
    · obtain ⟨x, hx, rfl⟩ := List.mem_map.mp ha
      have hx0 := h.tiles.pos x (List.mem_append_left _ (List.mem_append_left _ hx))
      have hle := hxs x hx
      simp only [Block.fin] at hle
      omega
  have habove : ∀ a ∈ ys.map Block.addr, b.addr < a := by
    intro a ha
    obtain ⟨y, hy, rfl⟩ := List.mem_map.mp ha
    have hle := hys y hy
    simp only [Block.fin] at hle
    omega
  have hsplit : nodes base (xs ++ ys) = nodes base xs ++ ys.map Block.addr := by
    rw [nodes, nodes, List.map_append, List.cons_append]
  have hlow : (nodes base xs).Pairwise (· < ·) := by
    rw [hsplit] at hasc
    exact (List.pairwise_append.mp hasc).1
  obtain ⟨zs, hring, hperm⟩ := h.ring.rotate h.freep_mem
  have hlen : zs.length = (xs ++ ys).length := by
    have := hperm.length_eq
    simpa using this
  have hlast := lastNode_mem base (xs.map Block.addr)
  have hlastmem : lastNode base (xs.map Block.addr) ∈ nodes base (xs ++ ys) := by
    rw [hsplit]
    exact List.mem_append_left _ hlast
  rw [freeSearch_eq]
  refine hring.search_eq (hperm.mem_iff.mpr hlastmem) ?_ (by omega)
  intro a ha
  refine h.ring.fits_iff hasc ?_ (by omega) (hperm.mem_iff.mp ha) hlastmem (hbelow _ hlast) ?_
  · intro hb
    change b.addr ∈ nodes base (xs ++ ys) at hb
    rw [hsplit] at hb
    rcases List.mem_append.mp hb with hb | hb
    · exact absurd (hbelow _ hb) (lt_irrefl _)
    · exact absurd (habove _ hb) (lt_irrefl _)
  · intro z hz hzb
    change z ∈ nodes base (xs ++ ys) at hz
    rw [hsplit] at hz
    rcases List.mem_append.mp hz with hz | hz
    · exact Seg.le_lastNode hlow hz
    · exact absurd (hzb.trans (habove z hz)) (lt_irrefl _)

end Free

/-! ### Joining -/

theorem hdrApart_of_apart {c : Block} (h : b.Apart c) (hb : 0 < b.units) (hc : 0 < c.units) :
    HdrApart b.addr c.addr := by
  simp only [Block.Apart, Block.fin, HdrApart] at *
  omega

theorem HdrApart.symm {a c : Nat} (h : HdrApart a c) : HdrApart c a := Or.symm h

/-- After the first `if`, `b` is joined to the upper neighbour and leads to the rest of the list. -/
theorem joinUpper_spec {p : Nat} (hseg : Seg (ptr m) p (ys.map Block.addr) base)
    (hsize : size m b.addr = b.units) (hysize : ∀ y ∈ ys, size m y.addr = y.units)
    (hys : ∀ y ∈ ys, b.fin ≤ y.addr) (hfin : ∀ y ∈ ys, y.fin < 2 ^ 32) (hb : b.fin < 2 ^ 32)
    (hb0 : 0 < b.units) (hbase : base + 8 ≤ b.addr) (hp : HdrApart b.addr p) :
    ∃ u zs, joinUp b ys = u :: zs ∧ u.addr = b.addr ∧ (∀ z ∈ zs, z ∈ ys) ∧
      SameOff m (joinUpper m b.addr p) b.addr ∧
      Seg (ptr (joinUpper m b.addr p)) b.addr (zs.map Block.addr) base ∧
      size (joinUpper m b.addr p) b.addr = u.units := by
  have hplus : plus b.addr (size m b.addr) = b.fin := by
    rw [plus, hsize]
    exact Nat.mod_eq_of_lt hb
  have hapart : ∀ y ∈ ys, HdrApart b.addr y.addr := by
    intro y hy
    have := hys y hy
    simp only [Block.fin, HdrApart] at *
    omega
  -- the block that `p` points to is not joined
  have hskip : plus b.addr (size m b.addr) ≠ ptr m p →
      SameOff m (joinUpper m b.addr p) b.addr ∧
      Seg (ptr (joinUpper m b.addr p)) b.addr (ys.map Block.addr) base ∧
      size (joinUpper m b.addr p) b.addr = b.units := by
    intro hne
    rw [joinUpper, if_neg hne]
    refine ⟨sameOff_setPtr, hseg.head_congr (ptr_setPtr (load_lt m p)) ?_, ?_⟩
    · intro a ha
      obtain ⟨y, hy, rfl⟩ := List.mem_map.mp ha
      exact sameOff_setPtr.ptr (hapart y hy)
    · rw [size_setPtr, hsize]
  cases ys with
  | nil =>
    have hne : plus b.addr (size m b.addr) ≠ ptr m p := by
      rw [hplus, show ptr m p = base from hseg]
      simp only [Block.fin]
      omega
    exact ⟨b, [], rfl, rfl, fun z hz => hz, hskip hne⟩
  | cons y ys =>
    have hpy : ptr m p = y.addr := hseg.1
    by_cases htouch : b.fin = y.addr
    · have hyapart := hapart y List.mem_cons_self
      have hyfin := hfin y List.mem_cons_self
      have hsum : (size m b.addr + size m y.addr) % 2 ^ 32 = b.units + y.units := by
        rw [hsize, hysize y List.mem_cons_self]
        simp only [Block.fin] at *
        omega
      have hlt : b.units + y.units < 2 ^ 32 := by
        simp only [Block.fin] at *
        omega
      refine ⟨b.join y, ys, by rw [joinUp, if_pos htouch], rfl,
        fun z hz => List.mem_cons_of_mem y hz, ?_⟩
      have hoff : SameOff m (setSize m b.addr (b.units + y.units)) b.addr := sameOff_setSize
      rw [joinUpper, if_pos (by rw [hplus, hpy, htouch])]
      simp only [hpy, hsum, hoff.ptr hp, hoff.ptr hyapart]
      refine ⟨hoff.trans sameOff_setPtr, hseg.2.head_congr ?_ ?_, ?_⟩
      · exact ptr_setPtr (load_lt m y.addr)
      · intro a ha
        obtain ⟨z, hz, rfl⟩ := List.mem_map.mp ha
        exact (hoff.trans sameOff_setPtr).ptr (hapart z (List.mem_cons_of_mem _ hz))
      · rw [size_setPtr, size_setSize hlt]
        rfl
    · have hne : plus b.addr (size m b.addr) ≠ ptr m p := by rwa [hplus, hpy]
      exact ⟨b, y :: ys, by rw [joinUp, if_neg htouch], rfl, fun z hz => hz, hskip hne⟩

/-- After the second `if`, the last node below `u` is joined to it or points to it. -/
theorem joinLower_spec {u : Block} {zs : List Block} {bp p : Nat} (hbp : u.addr = bp)
    (hp : p = lastNode base (xs.map Block.addr)) (hseg : Seg (ptr m) bp (zs.map Block.addr) base)
    (hsizes : ∀ x ∈ xs ++ u :: zs, size m x.addr = x.units) (hbsize : size m base = 0)
    (hspaced : Spaced xs) (hxs : ∀ x ∈ xs, x.fin ≤ u.addr) (hxpos : ∀ x ∈ xs, 0 < x.units)
    (hxbase : ∀ x ∈ xs, base + 8 ≤ x.addr) (hu : ∀ z ∈ u :: zs, HdrApart p z.addr)
    (hfin : u.fin < 2 ^ 32) (hbase : base + 8 ≤ u.addr) :
    SameOff m (joinLower m bp p) p ∧ size (joinLower m bp p) base = 0 ∧
    (∃ tail, (joinDown xs (u :: zs)).map Block.addr = xs.map Block.addr ++ tail ∧
      Seg (ptr (joinLower m bp p)) p tail base) ∧
    ∀ x ∈ joinDown xs (u :: zs), size (joinLower m bp p) x.addr = x.units := by
  subst hbp
  have hu32 : u.addr < 2 ^ 32 := by
    simp only [Block.fin] at hfin
    omega
  -- without joining, `p` points to `u`
  have hskip : plus p (size m p) ≠ u.addr → SameOff m (joinLower m u.addr p) p ∧
      Seg (ptr (joinLower m u.addr p)) p (u.addr :: zs.map Block.addr) base ∧
      size (joinLower m u.addr p) p = size m p := by
    intro hne
    rw [joinLower, if_neg hne]
    refine ⟨sameOff_setPtr, ⟨ptr_setPtr hu32, hseg.congr ?_⟩, size_setPtr⟩
    intro a ha
    obtain ⟨z, hz, rfl⟩ := List.mem_map.mp (List.map_cons ▸ ha)
    exact sameOff_setPtr.ptr (hu z hz)
  rcases List.eq_nil_or_concat xs with rfl | ⟨xs, x, rfl⟩
  · have hpb : p = base := hp
    have hne : plus p (size m p) ≠ u.addr := by
      rw [hpb, hbsize, plus]
      omega
    obtain ⟨hoff, hring, hsame⟩ := hskip hne
    refine ⟨hoff, ?_, ⟨u.addr :: zs.map Block.addr, rfl, hring⟩, fun x hx => ?_⟩
    · rw [hpb] at hsame ⊢
      exact hsame.trans hbsize
    · rw [hoff.size (hu x hx)]
      exact hsizes x hx
  · rw [List.concat_eq_append] at *
    have hpx : p = x.addr := by rw [hp, List.map_append, List.map_singleton, lastNode_concat]
    have hxmem : x ∈ xs ++ [x] := by simp
    have hxsize : size m p = x.units := by
      rw [hpx]
      exact hsizes x (List.mem_append_left _ hxmem)
    have hxu := hxs x hxmem
    have hplus : plus p (size m p) = x.fin := by
      rw [plus, hxsize, hpx]
      refine Nat.mod_eq_of_lt ?_
      change x.fin < 2 ^ 32
      omega
    have hpbase : HdrApart p base := by
      rw [hpx]
      exact Or.inr (hxbase x hxmem)
    -- the nodes before `p` keep their sizes
    have hbefore : ∀ {m'}, SameOff m m' p → ∀ w ∈ xs, size m' w.addr = w.units := by
      intro m' hoff w hw
      have hwx : w.fin < x.addr :=
        (List.pairwise_append.mp hspaced).2.2 w hw x (List.mem_singleton_self x)
      have hw0 := hxpos w (List.mem_append_left _ hw)
      have hapart : HdrApart p w.addr := by
        rw [hpx]
        simp only [Block.fin, HdrApart] at *
        omega
      rw [hoff.size hapart]
      exact hsizes w (List.mem_append_left _ (List.mem_append_left _ hw))
    have hafter : ∀ {m'}, SameOff m m' p → ∀ z ∈ u :: zs, size m' z.addr = z.units := by
      intro m' hoff z hz
      rw [hoff.size (hu z hz)]
      exact hsizes z (List.mem_append_right _ hz)
    rw [joinDown_concat, joinUp]
    by_cases htouch : x.fin = u.addr
    · have husize := hsizes u (List.mem_append_right _ List.mem_cons_self)
      have hsum : (size m p + size m u.addr) % 2 ^ 32 = x.units + u.units := by
        rw [hxsize, husize]
        simp only [Block.fin] at *
        omega
      have hlt : x.units + u.units < 2 ^ 32 := by
        simp only [Block.fin] at *
        omega
      have hoff : SameOff m (setSize m p (x.units + u.units)) p := sameOff_setSize
      have huapart := hu u List.mem_cons_self
      rw [if_pos htouch, joinLower, if_pos (by rw [hplus, htouch])]
      simp only [hsum, hoff.ptr huapart]
      have hall := hoff.trans (sameOff_setPtr (v := ptr m u.addr))
      refine ⟨hall, (hall.size hpbase).trans hbsize,
        ⟨zs.map Block.addr, ?_, hseg.head_congr (ptr_setPtr (load_lt m u.addr)) ?_⟩, ?_⟩
      · rw [List.map_append, List.map_append, List.map_cons, List.append_assoc]
        rfl
      · intro a ha
        obtain ⟨z, hz, rfl⟩ := List.mem_map.mp ha
        exact hall.ptr (hu z (List.mem_cons_of_mem _ hz))
      · intro w hw
        rcases List.mem_append.mp hw with hw | hw
        · exact hbefore hall w hw
        · rcases List.mem_cons.mp hw with rfl | hw
          · change size _ x.addr = x.units + u.units
            rw [← hpx, size_setPtr, size_setSize hlt]
          · exact hafter hall w (List.mem_cons_of_mem _ hw)
    · have hne : plus p (size m p) ≠ u.addr := by rwa [hplus]
      obtain ⟨hoff, hring, hsame⟩ := hskip hne
      rw [if_neg htouch]
      refine ⟨hoff, (hoff.size hpbase).trans hbsize, ⟨u.addr :: zs.map Block.addr, ?_, hring⟩, ?_⟩
      · rw [List.map_append, List.map_append, List.append_assoc]
        rfl
      · intro w hw
        rcases List.mem_append.mp hw with hw | hw
        · exact hbefore hoff w hw
        · rcases List.mem_cons.mp hw with rfl | hw
          · rw [← hpx, hsame, hxsize]
          · exact hafter hoff w hw

section Apart

variable {freep : Nat} {x y : Block} (h : Holds base regions m freep fr live)
include h

theorem Holds.apart_blocks (hx : x ∈ fr ++ live) (hy : y ∈ fr ++ live) (hne : x ≠ y) :
    HdrApart x.addr y.addr :=
  hdrApart_of_apart (h.tiles.apart.forall hx hy hne) (h.tiles.pos x hx) (h.tiles.pos y hy)

theorem Holds.node_cases {a : Nat} (ha : a ∈ nodes base fr) (hx : x ∈ fr ++ live) :
    a = x.addr ∨ HdrApart a x.addr := by
  rcases List.mem_cons.mp ha with rfl | ha
  · exact Or.inr (Or.inl (h.base_le hx))
  · obtain ⟨y, hy, rfl⟩ := List.mem_map.mp ha
    by_cases hxy : y = x
    · exact Or.inl (by rw [hxy])
    · exact Or.inr (h.apart_blocks (List.mem_append_left live hy) hx hxy)

theorem Holds.apart_nodes {a c : Nat} (ha : a ∈ nodes base fr) (hc : c ∈ nodes base fr)
    (hne : a ≠ c) : HdrApart a c := by
  rcases List.mem_cons.mp hc with rfl | hc
  · rcases List.mem_cons.mp ha with rfl | ha
    · exact absurd rfl hne
    · obtain ⟨x, hx, rfl⟩ := List.mem_map.mp ha
      exact Or.inr (h.base_le (List.mem_append_left live hx))
  · obtain ⟨y, hy, rfl⟩ := List.mem_map.mp hc
    exact (h.node_cases ha (List.mem_append_left live hy)).resolve_left hne

end Apart

theorem apart_last {a : Nat} (ha : HdrApart base a) (hxs : ∀ x ∈ xs, HdrApart x.addr a) :
    HdrApart (lastNode base (xs.map Block.addr)) a := by
  rcases List.mem_cons.mp (lastNode_mem base (xs.map Block.addr)) with hp | hp
  · rw [hp]
    exact ha
  · obtain ⟨x, hx, hp⟩ := List.mem_map.mp hp
    rw [← hp]
    exact hxs x hx

section Freed

variable {freep fuel : Nat} (h : Holds base regions m freep (xs ++ ys) (b :: live))
include h

theorem Holds.tiles_new : Tiles regions (b :: ((xs ++ ys) ++ live)) :=
  h.tiles.perm List.perm_middle

theorem Holds.apart_new {x : Block} (hx : x ∈ (xs ++ ys) ++ live) : HdrApart b.addr x.addr :=
  hdrApart_of_apart (h.tiles_new.apart_of_mem hx) (h.tiles_new.pos b List.mem_cons_self)
    (h.tiles_new.pos x (List.mem_cons_of_mem b hx))

theorem Holds.apart_of_mem {x y : Block} (hx : x ∈ (xs ++ ys) ++ live)
    (hy : y ∈ (xs ++ ys) ++ live) (hne : x ≠ y) : HdrApart x.addr y.addr :=
  h.apart_blocks (List.perm_middle.mem_iff.mpr (List.mem_cons_of_mem b hx))
    (List.perm_middle.mem_iff.mpr (List.mem_cons_of_mem b hy)) hne

theorem Holds.tiles_joined : Tiles regions (xs ++ (joinUp b ys ++ live)) := by
  have hfront : (b :: ((xs ++ ys) ++ live)).Perm (b :: (ys ++ (xs ++ live))) := by
    refine List.Perm.cons b ?_
    rw [← List.append_assoc]
    exact List.Perm.append_right live List.perm_append_comm
  refine (tiles_joinUp (h.tiles_new.perm hfront)).perm ?_
  rw [← List.append_assoc, ← List.append_assoc]
  exact List.Perm.append_right live List.perm_append_comm

theorem Holds.spaced_joined (hxs : ∀ x ∈ xs, x.fin ≤ b.addr) (hys : ∀ y ∈ ys, b.fin ≤ y.addr) :
    Spaced (joinDown xs (joinUp b ys)) := by
  obtain ⟨hsx, hsy, hsxy⟩ := List.pairwise_append.mp h.spaced
  have hpos := h.tiles_joined.pos
  refine spaced_joinDown hsx (spaced_joinUp hsy ?_ hys) ?_ ?_ ?_
  · exact fun y hy => h.tiles.pos y (by simp [hy])
  · exact fun x hx => hpos x (by simp [hx])
  · exact fun z hz => hpos z (by simp [hz])
  · intro x hx z hz
    rcases mem_joinUp hz with hz | hz
    · rw [hz]
      exact hxs x hx
    · exact (hsxy x hx z hz).le

theorem Holds.freed (hxs : ∀ x ∈ xs, x.fin ≤ b.addr) (hys : ∀ y ∈ ys, b.fin ≤ y.addr) {p : Nat}
    (hp : p = lastNode base (xs.map Block.addr)) :
    Holds base regions (joinLower (joinUpper m b.addr p) b.addr p) p
      (joinDown xs (joinUp b ys)) live := by
  have hbmem : b ∈ (xs ++ ys) ++ b :: live := List.mem_append_right _ List.mem_cons_self
  have hbase := h.base_le hbmem
  have hbbase : HdrApart b.addr base := Or.inr hbase
  have hxmem : ∀ x ∈ xs, x ∈ (xs ++ ys) ++ live := fun x hx => by simp [hx]
  have hymem : ∀ y ∈ ys, y ∈ (xs ++ ys) ++ live := fun y hy => by simp [hy]
  have hlow : ∀ x ∈ (xs ++ ys) ++ live, base + 8 ≤ x.addr :=
    fun x hx => h.tiles_new.base_le h.low (List.mem_cons_of_mem b hx)
  have hsize : ∀ x ∈ (xs ++ ys) ++ live, size m x.addr = x.units :=
    fun x hx => h.sizes x (List.perm_middle.mem_iff.mpr (List.mem_cons_of_mem b hx))
  have hpb : HdrApart p b.addr := by
    rw [hp]
    exact apart_last hbbase.symm (fun x hx => (h.apart_new (hxmem x hx)).symm)
  have hring := h.ring
  rw [List.map_append] at hring
  have htail : Seg (ptr m) p (ys.map Block.addr) base := by
    rw [hp]
    exact hring.suffix
  obtain ⟨u, zs, hjoin, hu, hzs, hoff₁, hseg₁, husize⟩ := joinUpper_spec htail
    (h.sizes b hbmem) (fun y hy => hsize y (hymem y hy)) hys
    (fun y hy => h.tiles_new.fin_lt h.high (List.mem_cons_of_mem b (hymem y hy))) (h.fin_lt hbmem)
    (h.tiles.pos b hbmem) hbase hpb.symm
  generalize joinUpper m b.addr p = m₁ at hoff₁ hseg₁ husize ⊢
  have hsize₁ : ∀ x ∈ (xs ++ ys) ++ live, size m₁ x.addr = x.units := by
    intro x hx
    rw [hoff₁.size (h.apart_new hx), hsize x hx]
  have hsizes₁ : ∀ x ∈ xs ++ u :: zs, size m₁ x.addr = x.units := by
    intro x hx
    rcases List.mem_append.mp hx with hx | hx
    · exact hsize₁ x (hxmem x hx)
    · rcases List.mem_cons.mp hx with rfl | hx
      · rw [hu, husize]
      · exact hsize₁ x (hymem x (hzs x hx))
  obtain ⟨hsx, -, hsxy⟩ := List.pairwise_append.mp h.spaced
  have hpu : ∀ z ∈ u :: zs, HdrApart p z.addr := by
    intro z hz
    rcases List.mem_cons.mp hz with rfl | hz
    · rw [hu]
      exact hpb
    · have hzy := hzs z hz
      rw [hp]
      refine apart_last (Or.inl (hlow z (hymem z hzy))) (fun x hx => ?_)
      have hxz := hsxy x hx z hzy
      refine h.apart_of_mem (hxmem x hx) (hymem z hzy) ?_
      rintro rfl
      simp only [Block.fin] at hxz
      omega
  have hufin : u.fin < 2 ^ 32 := h.tiles_joined.fin_lt h.high (by simp [hjoin])
  obtain ⟨hoff₂, hbsize₂, ⟨tail, hmap, hseg₂⟩, hsizes₂⟩ := joinLower_spec hu hp hseg₁ hsizes₁
    ((hoff₁.size hbbase).trans h.base_size) hsx (by rwa [hu])
    (fun x hx => h.tiles_joined.pos x (by simp [hx])) (fun x hx => hlow x (hxmem x hx)) hpu hufin
    (by rwa [hu])
  generalize joinLower m₁ b.addr p = m₂ at hoff₂ hbsize₂ hseg₂ hsizes₂ ⊢
  rw [← hjoin] at hmap hsizes₂
  refine ⟨h.base_pos, h.low, h.high, tiles_joinDown h.tiles_joined, h.spaced_joined hxs hys, ?_, ?_,
    hbsize₂, ?_⟩
  · -- only the pointers of `b` and `p` have changed
    have hsub : nodes base xs ⊆ nodes base (xs ++ ys) := by
      rw [nodes, nodes, List.map_append]
      exact List.cons_subset_cons base (List.subset_append_left _ _)
    rw [hmap]
    refine hring.replace ?_ ?_ (by rwa [← hp])
    · have hasc := h.ascending
      rw [nodes, List.map_append, ← List.cons_append] at hasc
      exact (List.pairwise_append.mp hasc).1.imp (fun hlt => Nat.ne_of_lt hlt)
    · intro a ha hne
      have hba : HdrApart b.addr a := by
        rcases List.mem_cons.mp ha with rfl | ha
        · exact hbbase
        · obtain ⟨x, hx, rfl⟩ := List.mem_map.mp ha
          exact h.apart_new (hxmem x hx)
      have hpa : HdrApart p a := by
        rw [hp]
        exact h.apart_nodes (hsub (lastNode_mem _ _)) (hsub ha) (Ne.symm hne)
      rw [hoff₂.ptr hpa, hoff₁.ptr hba]
  · intro x hx
    rcases List.mem_append.mp hx with hx | hx
    · exact hsizes₂ x hx
    · have hxl : x ∈ (xs ++ ys) ++ live := List.mem_append_right _ hx
      have hpx : HdrApart p x.addr := by
        rw [hp]
        refine apart_last (Or.inl (hlow x hxl)) (fun w hw => ?_)
        have hwx : w.Apart x :=
          (List.pairwise_append.mp (List.pairwise_cons.mp h.tiles_new.apart).2).2.2 w
            (List.mem_append_left ys hw) x hx
        exact hdrApart_of_apart hwx (h.tiles_joined.pos w (by simp [hw]))
          (h.tiles_joined.pos x (by simp [hx]))
      rw [hoff₂.size hpx]
      exact hsize₁ x hxl
  · rw [nodes, hmap, ← List.cons_append, hp]
    exact List.mem_append_left _ (lastNode_mem _ _)

end Freed

/-- `free` puts a block that was in use into its place among the free ones. -/
theorem Holds.free_spec {k : Heap σ} (h : Holds base regions k.mem k.freep fr (b :: live)) :
    ∃ k' fr', (∀ fuel, fr.length < fuel → free fuel (b.addr + 8) k = some k') ∧
      k'.sys = k.sys ∧ Holds base regions k'.mem k'.freep fr' live ∧
      ∃ x ∈ fr', b.units ≤ x.units := by
  have htiles : Tiles regions (b :: (fr ++ live)) := h.tiles.perm List.perm_middle
  obtain ⟨xs, ys, rfl, hxs, hys⟩ := exists_split h.spaced
    (fun x hx => htiles.apart_of_mem (List.mem_append_left live hx))
  have hbmem : b ∈ (xs ++ ys) ++ b :: live := List.mem_append_right _ List.mem_cons_self
  have hbp : (b.addr + 8 + 2 ^ 32 - 8) % 2 ^ 32 = b.addr := by
    have := h.addr_lt hbmem
    omega
  obtain ⟨v, hv, hle⟩ := exists_joinUp b ys
  obtain ⟨x, hx, hle'⟩ := exists_joinDown xs hv
  generalize hp : lastNode base (xs.map Block.addr) = p
  have hfree : ∀ fuel, (xs ++ ys).length < fuel → free fuel (b.addr + 8) k =
      some ⟨joinLower (joinUpper k.mem b.addr p) b.addr p, p, k.sys⟩ := by
    intro fuel hfuel
    have hsearch := h.freeSearch hxs hys hfuel
    rw [hp] at hsearch
    simp only [free, hbp, hsearch]
  have hfreed := h.freed hxs hys hp.symm
  refine ⟨_, joinDown xs (joinUp b ys), hfree, rfl, ?_, x, hx, hle.trans hle'⟩
  dsimp only
  exact hfreed

end Xv6.Umalloc
