import Mathlib.Algebra.BigOperators.Group.List.Basic
import Mathlib.Data.List.Perm.Basic
import Mathlib.Tactic.Linarith
import Mathlib.Tactic.Ring

/-!
# Blocks of a heap

The blocks of a heap, free or not, cut up the memory that it has got: they lie inside it, do not
overlap and have the same total length. This stays so when two neighbours are joined, when a block
is cut in two and when more memory is added. The free ones are kept in the order of their addresses
with a gap between any two, and a new one is put in its place and joined to the neighbours that it
touches.
-/

namespace Xv6.Umalloc

/-- `units` units of eight bytes, of which the first is the header. -/
structure Block where
  addr : Nat
  units : Nat
  deriving DecidableEq, Repr

/-- The end of a block. -/
def Block.fin (b : Block) : Nat := b.addr + 8 * b.units

def Block.Apart (b c : Block) : Prop := b.fin ≤ c.addr ∨ c.fin ≤ b.addr

theorem Block.Apart.symm {b c : Block} (h : b.Apart c) : c.Apart b := Or.symm h

instance : Std.Symm Block.Apart := ⟨fun _ _ h => h.symm⟩

/-- Two neighbours as one block. -/
def Block.join (b c : Block) : Block := ⟨b.addr, b.units + c.units⟩

variable {regions : List (Nat × Nat)} {b c u x y : Block} {l l' xs ys fr live : List Block}

theorem Block.fin_join (h : b.fin = c.addr) : (b.join c).fin = c.fin := by
  simp only [Block.fin, Block.join] at *
  omega

/-- The blocks cut up the memory in `regions`, a list of addresses and lengths. -/
structure Tiles (regions : List (Nat × Nat)) (l : List Block) : Prop where
  pos : ∀ b ∈ l, 0 < b.units
  apart : l.Pairwise Block.Apart
  inside : ∀ b ∈ l, ∀ i, b.addr ≤ i → i < b.fin → ∃ r ∈ regions, r.1 ≤ i ∧ i < r.1 + r.2
  total : 8 * (l.map Block.units).sum = (regions.map Prod.snd).sum

namespace Tiles

theorem nil : Tiles [] [] :=
  ⟨fun _ hb => absurd hb List.not_mem_nil, List.Pairwise.nil, fun _ hb => absurd hb List.not_mem_nil,
    rfl⟩

theorem perm (h : Tiles regions l) (hl : l.Perm l') : Tiles regions l' where
  pos b hb := h.pos b (hl.mem_iff.mpr hb)
  apart := hl.pairwise h.apart (fun hab => hab.symm)
  inside b hb := h.inside b (hl.mem_iff.mpr hb)
  total := by rw [← h.total, (hl.map Block.units).sum_eq]

theorem apart_of_mem (h : Tiles regions (b :: l)) (hc : c ∈ l) : b.Apart c :=
  (List.pairwise_cons.mp h.apart).1 c hc

theorem join (h : Tiles regions (b :: c :: l)) (hbc : b.fin = c.addr) :
    Tiles regions (b.join c :: l) := by
  obtain ⟨hb, hrest⟩ := List.pairwise_cons.mp h.apart
  obtain ⟨hc, hl⟩ := List.pairwise_cons.mp hrest
  have hfin := Block.fin_join hbc
  refine ⟨?_, List.pairwise_cons.mpr ⟨?_, hl⟩, ?_, ?_⟩
  · intro x hx
    rcases List.mem_cons.mp hx with rfl | hx
    · exact Nat.add_pos_left (h.pos b List.mem_cons_self) _
    · exact h.pos x (List.mem_cons_of_mem _ (List.mem_cons_of_mem _ hx))
  · intro x hx
    have hxpos := h.pos x (List.mem_cons_of_mem _ (List.mem_cons_of_mem _ hx))
    have hbx := hb x (List.mem_cons_of_mem _ hx)
    have hcx := hc x hx
    simp only [Block.Apart, hfin] at hbx hcx ⊢
    simp only [Block.fin, Block.join] at *
    omega
  · intro x hx i hi hfini
    rcases List.mem_cons.mp hx with rfl | hx
    · rw [hfin] at hfini
      by_cases hib : i < b.fin
      · exact h.inside b List.mem_cons_self i hi hib
      · refine h.inside c (List.mem_cons_of_mem _ List.mem_cons_self) i ?_ hfini
        omega
    · exact h.inside x (List.mem_cons_of_mem _ (List.mem_cons_of_mem _ hx)) i hi hfini
  · rw [← h.total]
    simp only [List.map_cons, List.sum_cons, Block.join]
    ring

theorem cut {n : Nat} (h : Tiles regions (b :: l)) (hn : 0 < n) (hlt : n < b.units) :
    Tiles regions (⟨b.addr, b.units - n⟩ :: ⟨b.addr + 8 * (b.units - n), n⟩ :: l) := by
  obtain ⟨hb, hl⟩ := List.pairwise_cons.mp h.apart
  have hin := h.inside b List.mem_cons_self
  simp only [Block.Apart, Block.fin] at hb hin
  refine ⟨?_, List.pairwise_cons.mpr ⟨?_, List.pairwise_cons.mpr ⟨?_, hl⟩⟩, ?_, ?_⟩
  · intro x hx
    rcases List.mem_cons.mp hx with rfl | hx
    · exact Nat.sub_pos_of_lt hlt
    · rcases List.mem_cons.mp hx with rfl | hx
      · exact hn
      · exact h.pos x (List.mem_cons_of_mem _ hx)
  · intro x hx
    simp only [Block.Apart, Block.fin]
    rcases List.mem_cons.mp hx with rfl | hx
    · exact Or.inl le_rfl
    · have := hb x hx
      omega
  · intro x hx
    have := hb x hx
    simp only [Block.Apart, Block.fin]
    omega
  · intro x hx i hi hfin
    rcases List.mem_cons.mp hx with rfl | hx
    · refine hin i hi ?_
      simp only [Block.fin] at hfin
      omega
    · rcases List.mem_cons.mp hx with rfl | hx
      · simp only [Block.fin] at hi hfin
        exact hin i (by omega) (by omega)
      · exact h.inside x (List.mem_cons_of_mem _ hx) i hi hfin
  · rw [← h.total]
    simp only [List.map_cons, List.sum_cons]
    omega

theorem grow {p n : Nat} (h : Tiles regions l) (hn : 0 < n) (hp : ∀ r ∈ regions, r.1 + r.2 ≤ p) :
    Tiles (regions ++ [(p, 8 * n)]) (⟨p, n⟩ :: l) := by
  refine ⟨?_, List.pairwise_cons.mpr ⟨?_, h.apart⟩, ?_, ?_⟩
  · intro x hx
    rcases List.mem_cons.mp hx with rfl | hx
    · exact hn
    · exact h.pos x hx
  · -- the last byte of an old block is below the new memory
    intro x hx
    have hx0 := h.pos x hx
    obtain ⟨r, hr, -, hlt⟩ := h.inside x hx (x.fin - 1) (by simp only [Block.fin]; omega)
      (by simp only [Block.fin]; omega)
    have := hp r hr
    refine Or.inr ?_
    simp only [Block.fin] at *
    omega
  · intro x hx i hi hfin
    rcases List.mem_cons.mp hx with rfl | hx
    · exact ⟨(p, 8 * n), by simp, hi, hfin⟩
    · obtain ⟨r, hr, hri⟩ := h.inside x hx i hi hfin
      exact ⟨r, List.mem_append_left _ hr, hri⟩
  · simp only [List.map_cons, List.sum_cons, List.map_append, List.sum_append, List.map_nil,
      List.sum_nil, ← h.total]
    ring

end Tiles

/-! ### The free blocks -/

/-- In ascending order with gaps. -/
def Spaced (fr : List Block) : Prop := fr.Pairwise (fun x y => x.fin < y.addr)

/-- `b` and the blocks above it, joined if they touch. -/
def joinUp (b : Block) : List Block → List Block
  | [] => [b]
  | y :: ys => if b.fin = y.addr then b.join y :: ys else b :: y :: ys

/-- The blocks `xs` below `ys`, the last of them joined if they touch. -/
def joinDown : List Block → List Block → List Block
  | [], ys => ys
  | [x], ys => joinUp x ys
  | x :: x' :: xs, ys => x :: joinDown (x' :: xs) ys

theorem joinDown_concat (xs : List Block) (x : Block) (ys : List Block) :
    joinDown (xs ++ [x]) ys = xs ++ joinUp x ys := by
  induction xs with
  | nil => rfl
  | cons w xs ih =>
    obtain ⟨w', rest, hw⟩ := List.exists_cons_of_ne_nil (List.concat_ne_nil x xs)
    rw [hw] at ih
    rw [List.cons_append, List.cons_append, hw, joinDown, ih]

theorem mem_joinUp (h : x ∈ joinUp b ys) : x.addr = b.addr ∨ x ∈ ys := by
  cases ys with
  | nil => exact Or.inl (by rw [List.mem_singleton.mp h])
  | cons y ys =>
    rw [joinUp] at h
    split_ifs at h
    · rcases List.mem_cons.mp h with rfl | h
      · exact Or.inl rfl
      · exact Or.inr (List.mem_cons_of_mem _ h)
    · rcases List.mem_cons.mp h with rfl | h
      · exact Or.inl rfl
      · exact Or.inr h

theorem tiles_joinUp (h : Tiles regions (b :: (ys ++ l))) : Tiles regions (joinUp b ys ++ l) := by
  cases ys with
  | nil => exact h
  | cons y ys =>
    rw [joinUp]
    split_ifs with htouch
    · exact h.join htouch
    · exact h

theorem tiles_joinDown (h : Tiles regions (xs ++ (ys ++ l))) :
    Tiles regions (joinDown xs ys ++ l) := by
  rcases List.eq_nil_or_concat xs with rfl | ⟨xs, x, rfl⟩
  · exact h
  · rw [List.concat_eq_append] at h ⊢
    rw [joinDown_concat]
    have hfront : ((xs ++ [x]) ++ (ys ++ l)).Perm (x :: (ys ++ (xs ++ l))) := by
      rw [List.append_assoc, List.singleton_append]
      refine List.perm_middle.trans (List.Perm.cons x ?_)
      rw [← List.append_assoc, ← List.append_assoc]
      exact List.Perm.append_right l List.perm_append_comm
    have hback : (joinUp x ys ++ (xs ++ l)).Perm ((xs ++ joinUp x ys) ++ l) := by
      rw [← List.append_assoc]
      exact List.Perm.append_right l List.perm_append_comm
    exact (tiles_joinUp (h.perm hfront)).perm hback

theorem spaced_joinUp (hys : Spaced ys) (hpos : ∀ y ∈ ys, 0 < y.units)
    (hb : ∀ y ∈ ys, b.fin ≤ y.addr) : Spaced (joinUp b ys) := by
  cases ys with
  | nil => exact List.pairwise_singleton _ _
  | cons y ys =>
    obtain ⟨hy, hrest⟩ := List.pairwise_cons.mp hys
    have hby := hb y List.mem_cons_self
    rw [joinUp]
    split_ifs with htouch
    · refine List.pairwise_cons.mpr ⟨fun z hz => ?_, hrest⟩
      rw [Block.fin_join htouch]
      exact hy z hz
    · have hlt : b.fin < y.addr := by omega
      refine List.pairwise_cons.mpr ⟨fun z hz => ?_, hys⟩
      rcases List.mem_cons.mp hz with rfl | hz
      · exact hlt
      · have hyz := hy z hz
        simp only [Block.fin] at *
        omega

theorem spaced_joinDown (hxs : Spaced xs) (hys : Spaced ys) (hxpos : ∀ x ∈ xs, 0 < x.units)
    (hypos : ∀ y ∈ ys, 0 < y.units) (hxy : ∀ x ∈ xs, ∀ y ∈ ys, x.fin ≤ y.addr) :
    Spaced (joinDown xs ys) := by
  rcases List.eq_nil_or_concat xs with rfl | ⟨xs, x, rfl⟩
  · exact hys
  · rw [List.concat_eq_append] at hxs hxpos hxy ⊢
    rw [joinDown_concat]
    have hx : x ∈ xs ++ [x] := by simp
    obtain ⟨hinit, -, hlast⟩ := List.pairwise_append.mp hxs
    refine List.pairwise_append.mpr ⟨hinit, spaced_joinUp hys hypos (hxy x hx), ?_⟩
    intro w hw z hz
    have hwx : w.fin < x.addr := hlast w hw x (List.mem_singleton_self x)
    rcases mem_joinUp hz with hzx | hz
    · omega
    · have hle := hxy x hx z hz
      simp only [Block.fin] at *
      omega

theorem exists_joinUp (b : Block) (ys : List Block) : ∃ u ∈ joinUp b ys, b.units ≤ u.units := by
  cases ys with
  | nil => exact ⟨b, List.mem_singleton_self b, le_rfl⟩
  | cons y ys =>
    rw [joinUp]
    split_ifs
    · exact ⟨b.join y, List.mem_cons_self, Nat.le_add_right _ _⟩
    · exact ⟨b, List.mem_cons_self, le_rfl⟩

theorem exists_joinDown (xs : List Block) (h : u ∈ ys) :
    ∃ x ∈ joinDown xs ys, u.units ≤ x.units := by
  rcases List.eq_nil_or_concat xs with rfl | ⟨xs, x, rfl⟩
  · exact ⟨u, h, le_rfl⟩
  · rw [List.concat_eq_append, joinDown_concat]
    cases ys with
    | nil => cases h
    | cons y ys =>
      rw [joinUp]
      split_ifs
      · rcases List.mem_cons.mp h with rfl | h
        · exact ⟨x.join u, by simp, Nat.le_add_left _ _⟩
        · exact ⟨u, by simp [h], le_rfl⟩
      · exact ⟨u, List.mem_append_right _ (List.mem_cons_of_mem _ h), le_rfl⟩

theorem exists_split (h : Spaced fr) (hb : ∀ x ∈ fr, b.Apart x) :
    ∃ xs ys, fr = xs ++ ys ∧ (∀ x ∈ xs, x.fin ≤ b.addr) ∧ ∀ y ∈ ys, b.fin ≤ y.addr := by
  induction fr with
  | nil => exact ⟨[], [], rfl, fun _ hx => absurd hx List.not_mem_nil,
      fun _ hx => absurd hx List.not_mem_nil⟩
  | cons w fr ih =>
    obtain ⟨hw, hrest⟩ := List.pairwise_cons.mp h
    rcases hb w List.mem_cons_self with hup | hlow
    · refine ⟨[], w :: fr, rfl, fun _ hx => absurd hx List.not_mem_nil, fun y hy => ?_⟩
      rcases List.mem_cons.mp hy with rfl | hy
      · exact hup
      · have hwy := hw y hy
        simp only [Block.fin] at *
        omega
    · obtain ⟨xs, ys, rfl, hxs, hys⟩ := ih hrest
        (fun x hx => hb x (List.mem_cons_of_mem _ hx))
      refine ⟨w :: xs, ys, rfl, fun x hx => ?_, hys⟩
      rcases List.mem_cons.mp hx with rfl | hx
      · exact hlow
      · exact hxs x hx

end Xv6.Umalloc
