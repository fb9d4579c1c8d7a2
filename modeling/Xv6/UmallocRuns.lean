import Mathlib.Data.List.Forall2
import Mathlib.Logic.Function.Basic
import Xv6.Run
import Xv6.UmallocMalloc

/-!
# Programs that use the allocator

A program calls `malloc`, gives back blocks that it holds with `free`, and writes bytes of the blocks
that it holds. After every such run the free blocks form a circular list in the order of their
addresses, and they and the blocks of the program make up the memory that was obtained.
-/

namespace Xv6.Umalloc

open Function

/-- The heap, and the blocks that the program holds: what `malloc` returned, and the size. -/
structure State (σ : Type) where
  heap : Heap σ
  live : List (Nat × Nat)

inductive Event where
  | malloc (nbytes : UInt32) (fuel : Nat)
  | free (ap fuel : Nat)
  /-- The program stores a byte. -/
  | write (a : Nat) (v : UInt8)

variable {σ : Type}

def step (sbrk : Int → σ → Option Nat × σ) (base : Nat) (s : State σ) : Event → Option (State σ)
  | .malloc nbytes fuel =>
    match malloc sbrk base fuel nbytes.toNat s.heap with
    | none => none
    | some (p, heap) => some ⟨heap, if p = 0 then s.live else (p, nbytes.toNat) :: s.live⟩
  | .free ap fuel =>
    if s.live.any (fun x => x.1 == ap) then
      match free fuel ap s.heap with
      | none => none
      | some heap => some ⟨heap, s.live.eraseP (fun x => x.1 == ap)⟩
    else none
  | .write a v =>
    if s.live.any (fun x => x.1 ≤ a && a < x.1 + x.2) then
      some { s with heap := { s.heap with mem := update s.heap.mem a v } }
    else none

/-- No `malloc` asks for `n` bytes or more. -/
def Event.Below (n : Nat) : Event → Prop
  | .malloc nbytes _ => nbytes.toNat < n
  | .free _ _ | .write _ _ => True

instance (n : Nat) : DecidablePred (Event.Below n)
  | .malloc nbytes _ => inferInstanceAs (Decidable (nbytes.toNat < n))
  | .free _ _ | .write _ _ => inferInstanceAs (Decidable True)

variable {sbrk : Int → σ → Option Nat × σ} {inv : σ → Prop} {given : σ → List (Nat × Nat)}
  {base n : Nat} {k : Heap σ} {s s' s₀ : State σ} {m : Mem} {fr lv lv' : List Block} {b : Block}
  {regions : List (Nat × Nat)}

/-! ### The calls -/

/-- `lv` are the blocks in use. Before the first call of `malloc` there is nothing. -/
def Ready (base : Nat) (inv : σ → Prop) (given : σ → List (Nat × Nat)) (k : Heap σ)
    (lv : List Block) : Prop :=
  inv k.sys ∧ (k.freep = 0 ∧ lv = [] ∧ given k.sys = [] ∨
    ∃ fr, Holds base (given k.sys) k.mem k.freep fr lv)

theorem Ready.initHeap (h : Ready base inv given k lv) (hbase : 0 < base ∧ base < 2 ^ 32) :
    (initHeap base k).sys = k.sys ∧
      ∃ fr, Holds base (given k.sys) (initHeap base k).mem (initHeap base k).freep fr lv := by
  unfold Umalloc.initHeap
  rcases h.2 with ⟨hfreep, rfl, hgiven⟩ | ⟨fr, hholds⟩
  · rw [if_pos hfreep, hgiven]
    refine ⟨rfl, [], ?_⟩
    dsimp only
    refine ⟨hbase.1, fun _ hr => absurd hr List.not_mem_nil, fun _ hr => absurd hr List.not_mem_nil,
      Tiles.nil, List.Pairwise.nil, ?_, fun _ hb => absurd hb List.not_mem_nil, ?_,
      List.mem_cons_self⟩
    · exact ptr_setSize.trans (ptr_setPtr hbase.2)
    · exact size_setSize (by decide)
  · rw [if_neg hholds.freep_ne_zero]
    exact ⟨rfl, fr, hholds⟩

theorem units_pos (n : Nat) : 0 < units n := Nat.succ_pos _

theorem asked_units (hn : n < 2 ^ 31 - 15) : 8 * asked (units n) < 2 ^ 31 := by
  unfold asked units
  split_ifs <;> omega

theorem Ready.malloc (h : Ready base inv given k lv) (hbase : 0 < base ∧ base < 2 ^ 32)
    (hfresh : Fresh sbrk inv given base) (hn : 8 * asked (units n) < 2 ^ 31) :
    ∃ N r, (∀ fuel, N < fuel → malloc sbrk base fuel n k = some r) ∧
      (r.1 = 0 ∧ (∃ sys, sbrk (8 * asked (units n) : Nat) k.sys = (none, sys)) ∧
          Ready base inv given r.2 lv ∨
        ∃ c, r.1 = c.addr + 8 ∧ c.units = units n ∧ Ready base inv given r.2 (c :: lv)) := by
  obtain ⟨hsys, fr, hholds⟩ := h.initHeap hbase
  rw [← hsys] at hholds
  obtain ⟨N, r, hrun, hinv, hres⟩ := hholds.mallocLoop_spec hfresh (hsys ▸ h.1) hn (units_pos n)
  refine ⟨N, r, hrun, ?_⟩
  rcases hres with ⟨c, fr', hr, hunits, -, hserved⟩ | ⟨hr, hcall, hkept⟩
  · exact Or.inr ⟨c, hr, hunits, hinv, Or.inr ⟨fr', hserved⟩⟩
  · rw [hsys] at hcall
    exact Or.inl ⟨hr, hcall, hinv, Or.inr ⟨fr, hkept⟩⟩

theorem Ready.free (h : Ready base inv given k (b :: lv)) :
    ∃ N k', (∀ fuel, N < fuel → free fuel (b.addr + 8) k = some k') ∧
      Ready base inv given k' lv := by
  rcases h.2 with ⟨-, hc, -⟩ | ⟨fr, hholds⟩
  · cases hc
  · obtain ⟨k', fr', hrun, hsys, hholds', -⟩ := hholds.free_spec
    refine ⟨fr.length, k', hrun, ?_⟩
    rw [Ready, hsys]
    exact ⟨h.1, Or.inr ⟨fr', hholds'⟩⟩

theorem Holds.perm_live {freep : Nat} (h : Holds base regions m freep fr lv) (hp : lv.Perm lv') :
    Holds base regions m freep fr lv' := by
  have hperm : (fr ++ lv).Perm (fr ++ lv') := List.Perm.append_left fr hp
  exact ⟨h.base_pos, h.low, h.high, h.tiles.perm hperm, h.spaced, h.ring,
    fun b hb => h.sizes b (hperm.mem_iff.mpr hb), h.base_size, h.freep_mem⟩

theorem Ready.perm (h : Ready base inv given k lv) (hp : lv.Perm lv') :
    Ready base inv given k lv' := by
  refine ⟨h.1, h.2.imp ?_ ?_⟩
  · rintro ⟨hfreep, rfl, hgiven⟩
    exact ⟨hfreep, hp.nil_eq.symm, hgiven⟩
  · rintro ⟨fr, hholds⟩
    exact ⟨fr, hholds.perm_live hp⟩

theorem Holds.write {freep a : Nat} (h : Holds base regions m freep fr lv) (hb : b ∈ lv)
    (hlo : b.addr + 8 ≤ a) (hhi : a < b.fin) (v : UInt8) :
    Holds base regions (update m a v) freep fr lv := by
  have hbmem : b ∈ fr ++ lv := List.mem_append_right fr hb
  have hout : ∀ c, c + 8 ≤ a ∨ a < c → ptr (update m a v) c = ptr m c ∧
      size (update m a v) c = size m c := by
    intro c hc
    refine ⟨load_congr (fun i h₁ h₂ => ?_), load_congr (fun i h₁ h₂ => ?_)⟩
    · exact Function.update_of_ne (by omega) _ _
    · exact Function.update_of_ne (by omega) _ _
  have hblock : ∀ z ∈ fr ++ lv, z.addr + 8 ≤ a ∨ a < z.addr := by
    intro z hz
    have hz0 := h.tiles.pos z hz
    by_cases hbz : z = b
    · exact Or.inl (hbz ▸ hlo)
    · have hapart : z.Apart b := h.tiles.apart.forall hz hbmem hbz
      simp only [Block.Apart, Block.fin] at hapart hhi
      omega
  have hnode : ∀ c ∈ nodes base fr, c + 8 ≤ a ∨ a < c := by
    intro c hc
    rcases List.mem_cons.mp hc with rfl | hc
    · have := h.base_le hbmem
      omega
    · obtain ⟨z, hz, rfl⟩ := List.mem_map.mp hc
      exact hblock z (List.mem_append_left lv hz)
  refine ⟨h.base_pos, h.low, h.high, h.tiles, h.spaced, ?_, ?_, ?_, h.freep_mem⟩
  · exact h.ring.congr (fun c hc => (hout c (hnode c hc)).1)
  · intro z hz
    rw [(hout z.addr (hblock z hz)).2]
    exact h.sizes z hz
  · rw [(hout base (hnode base List.mem_cons_self)).2]
    exact h.base_size

/-! ### Runs -/

/-- The block behind a pointer that the program holds. -/
def Backs (x : Nat × Nat) (b : Block) : Prop := x.1 = b.addr + 8 ∧ x.2 + 8 ≤ 8 * b.units

/-- The heap serves the program. -/
def Serves (base : Nat) (inv : σ → Prop) (given : σ → List (Nat × Nat)) (s : State σ) : Prop :=
  ∃ lv, List.Forall₂ Backs s.live lv ∧ Ready base inv given s.heap lv

/-- The program holds nothing and nothing has been obtained. -/
def Start (inv : σ → Prop) (given : σ → List (Nat × Nat)) (s : State σ) : Prop :=
  s.heap.freep = 0 ∧ s.live = [] ∧ inv s.heap.sys ∧ given s.heap.sys = []

theorem Start.serves (h : Start inv given s) : Serves base inv given s := by
  obtain ⟨hfreep, hlive, hinv, hgiven⟩ := h
  refine ⟨[], ?_, hinv, Or.inl ⟨hfreep, rfl, hgiven⟩⟩
  rw [hlive]
  exact List.Forall₂.nil

theorem exists_backed {live : List (Nat × Nat)} {ap : Nat} (h : List.Forall₂ Backs live lv)
    (hany : live.any (fun x => x.1 == ap) = true) :
    ∃ b lv', ap = b.addr + 8 ∧ lv.Perm (b :: lv') ∧
      List.Forall₂ Backs (live.eraseP (fun x => x.1 == ap)) lv' := by
  induction h with
  | nil => cases hany
  | @cons x b live lv hxb hrest ih =>
    by_cases hx : x.1 = ap
    · refine ⟨b, lv, hx ▸ hxb.1, List.Perm.refl _, ?_⟩
      rwa [List.eraseP_cons_of_pos (by simpa using hx)]
    · rw [List.any_cons, beq_eq_false_iff_ne.mpr hx, Bool.false_or] at hany
      obtain ⟨c, lv', hap, hperm, hlive⟩ := ih hany
      refine ⟨c, b :: lv', hap, (hperm.cons b).trans (List.Perm.swap c b lv'), ?_⟩
      rw [List.eraseP_cons_of_neg (by simpa using hx)]
      exact List.Forall₂.cons hxb hlive

theorem exists_backing {live : List (Nat × Nat)} {x : Nat × Nat} (h : List.Forall₂ Backs live lv)
    (hx : x ∈ live) : ∃ b ∈ lv, Backs x b := by
  induction h with
  | nil => cases hx
  | cons hxb hrest ih =>
    rcases List.mem_cons.mp hx with rfl | hx
    · exact ⟨_, List.mem_cons_self, hxb⟩
    · obtain ⟨b, hb, hback⟩ := ih hx
      exact ⟨b, List.mem_cons_of_mem _ hb, hback⟩

section Steps

variable (hbase : 0 < base ∧ base < 2 ^ 32) (hfresh : Fresh sbrk inv given base)
include hbase hfresh

theorem Serves.malloc {fuel : Nat} {r : Nat × Heap σ} (h : Serves base inv given s)
    (hn : n < 2 ^ 31 - 15) (hrun : malloc sbrk base fuel n s.heap = some r) :
    Serves base inv given ⟨r.2, if r.1 = 0 then s.live else (r.1, n) :: s.live⟩ := by
  obtain ⟨lv, hlive, hready⟩ := h
  obtain ⟨N, r', hrun', hres⟩ := hready.malloc hbase hfresh (asked_units hn)
  have hr : r = r' := by
    have hmore := mallocLoop_mono (Nat.le_max_left fuel (N + 1)) hrun
    have := hrun' (max fuel (N + 1)) (by omega)
    exact Option.some.inj (hmore.symm.trans this)
  subst hr
  rcases hres with ⟨hzero, -, hkept⟩ | ⟨c, hc, hunits, hready'⟩
  · rw [if_pos hzero]
    exact ⟨lv, hlive, hkept⟩
  · rw [if_neg (by omega)]
    refine ⟨c :: lv, List.Forall₂.cons ⟨hc, ?_⟩ hlive, hready'⟩
    rw [hunits, units]
    omega

omit hbase hfresh in
theorem Serves.free {ap fuel : Nat} {k : Heap σ} (h : Serves base inv given s)
    (hany : s.live.any (fun x => x.1 == ap) = true) (hrun : free fuel ap s.heap = some k) :
    Serves base inv given ⟨k, s.live.eraseP (fun x => x.1 == ap)⟩ := by
  obtain ⟨lv, hlive, hready⟩ := h
  obtain ⟨b, lv', rfl, hperm, hlive'⟩ := exists_backed hlive hany
  obtain ⟨N, k', hrun', hready'⟩ := (hready.perm hperm).free
  have hk : k = k' := by
    have hmore := free_mono (Nat.le_max_left fuel (N + 1)) hrun
    have := hrun' (max fuel (N + 1)) (by omega)
    exact Option.some.inj (hmore.symm.trans this)
  subst hk
  exact ⟨lv', hlive', hready'⟩

omit hbase hfresh in
theorem Serves.write {a : Nat} (h : Serves base inv given s)
    (hany : s.live.any (fun x => x.1 ≤ a && a < x.1 + x.2) = true) (v : UInt8) :
    Serves base inv given
      { s with heap := { s.heap with mem := update s.heap.mem a v } } := by
  obtain ⟨lv, hlive, hinv, hready⟩ := h
  obtain ⟨x, hx, hin⟩ := List.any_eq_true.mp hany
  simp only [Bool.and_eq_true, decide_eq_true_eq] at hin
  obtain ⟨b, hb, haddr, hsize⟩ := exists_backing hlive hx
  refine ⟨lv, hlive, hinv, hready.imp_right ?_⟩
  rintro ⟨fr, hholds⟩
  refine ⟨fr, hholds.write hb (by omega) ?_ v⟩
  simp only [Block.fin]
  omega

theorem serves_step {e : Event} (h : Serves base inv given s) (he : e.Below (2 ^ 31 - 15))
    (hstep : step sbrk base s e = some s') : Serves base inv given s' := by
  cases e with
  | malloc nbytes fuel =>
    simp only [step] at hstep
    split at hstep
    · cases hstep
    · next hrun =>
      cases hstep
      exact h.malloc hbase hfresh he hrun
  | free ap fuel =>
    simp only [step] at hstep
    split_ifs at hstep with hany
    split at hstep
    · cases hstep
    · next hrun =>
      cases hstep
      exact h.free hany hrun
  | write a v =>
    simp only [step] at hstep
    split_ifs at hstep with hany
    cases hstep
    exact h.write hany v

theorem serves_run {es : List Event} (h₀ : Start inv given s₀)
    (hes : ∀ e ∈ es, e.Below (2 ^ 31 - 15)) (hrun : run (step sbrk base) s₀ es = some s) :
    Serves base inv given s := by
  have hstep : ∀ t e t', Serves base inv given t → e.Below (2 ^ 31 - 15) →
      step sbrk base t e = some t' → Serves base inv given t' :=
    fun t e t' => serves_step hbase hfresh
  exact run_invariant_along _ hstep h₀.serves (along_of_mem _ (fun _ e he => hes e he)) hrun

end Steps

/-! ### The free list -/

/-- The heap is well formed: `fr` are the blocks of the free list and `lv` those of the program. -/
structure WellFormed (base : Nat) (regions : List (Nat × Nat)) (s : State σ) (fr lv : List Block) :
    Prop where
  circular : Seg (ptr s.heap.mem) base (fr.map Block.addr) base
  entered : s.heap.freep ∈ nodes base fr
  sizes : ∀ b ∈ fr ++ lv, size s.heap.mem b.addr = b.units
  live : List.Forall₂ Backs s.live lv
  above : ∀ b ∈ fr ++ lv, base + 8 ≤ b.addr
  disjoint : (fr ++ lv).Pairwise Block.Apart
  descent : ∃! a, a ∈ nodes base fr ∧ ptr s.heap.mem a ≤ a
  gaps : ∀ x ∈ fr, ∀ y ∈ fr, x.fin ≠ y.addr
  total : 8 * ((fr ++ lv).map Block.units).sum = (regions.map Prod.snd).sum

section WellFormed

variable {freep : Nat} (h : Holds base regions m freep fr lv)
include h

/-- Only the last node points down. -/
theorem Holds.one_descent : ∃! a, a ∈ nodes base fr ∧ ptr m a ≤ a := by
  have hlast := lastNode_mem base (fr.map Block.addr)
  have hgreatest : ∀ a ∈ nodes base fr, ptr m a ≤ a → ∀ c ∈ nodes base fr, c ≤ a := by
    intro a ha hdown
    rcases h.ring.next_ascending h.ascending ha with ⟨hup, -⟩ | ⟨-, hall⟩
    · omega
    · exact hall
  refine ⟨lastNode base (fr.map Block.addr), ⟨hlast, ?_⟩, ?_⟩
  · rw [h.ring.last]
    exact Seg.le_lastNode h.ascending List.mem_cons_self
  · rintro a ⟨ha, hdown⟩
    exact le_antisymm (Seg.le_lastNode h.ascending ha) (hgreatest a ha hdown _ hlast)

theorem Holds.not_adjacent {x y : Block} (hx : x ∈ fr) (hy : y ∈ fr) : x.fin ≠ y.addr := by
  have hx0 := h.tiles.pos x (List.mem_append_left lv hx)
  have hy0 := h.tiles.pos y (List.mem_append_left lv hy)
  by_cases hxy : x = y
  · rw [← hxy]
    simp only [Block.fin]
    omega
  · have hspaced : fr.Pairwise (fun x y => x.fin < y.addr ∨ y.fin < x.addr) :=
      h.spaced.imp Or.inl
    have hsymm : Std.Symm (fun x y : Block => x.fin < y.addr ∨ y.fin < x.addr) :=
      ⟨fun _ _ hor => hor.symm⟩
    have := hspaced.forall hx hy hxy
    simp only [Block.fin] at this ⊢
    omega

end WellFormed

/-- In every run the free list stays well formed, and `malloc` and `free` return. -/
theorem heap_well_formed (hbase : 0 < base ∧ base < 2 ^ 32) (hfresh : Fresh sbrk inv given base)
    (h₀ : Start inv given s₀) {es : List Event} (hes : ∀ e ∈ es, e.Below (2 ^ 30))
    (hrun : run (step sbrk base) s₀ es = some s) :
    (s.heap.freep = 0 ∧ s.live = [] ∧ given s.heap.sys = [] ∨
      ∃ fr lv, WellFormed base (given s.heap.sys) s fr lv) ∧
    (∀ nbytes < 2 ^ 30, ∃ N r, ∀ fuel, N < fuel → malloc sbrk base fuel nbytes s.heap = some r) ∧
    ∀ x ∈ s.live, ∃ N k, ∀ fuel, N < fuel → free fuel x.1 s.heap = some k := by
  have hbelow : ∀ e : Event, e.Below (2 ^ 30) → e.Below (2 ^ 31 - 15) := by
    intro e he
    cases e with
    | malloc nbytes fuel => exact lt_trans he (by decide)
    | free ap fuel => trivial
    | write a v => trivial
  obtain ⟨lv, hlive, hready⟩ := serves_run hbase hfresh h₀ (fun e he => hbelow e (hes e he)) hrun
  refine ⟨?_, ?_, ?_⟩
  · rcases hready.2 with ⟨hfreep, rfl, hgiven⟩ | ⟨fr, hholds⟩
    · exact Or.inl ⟨hfreep, List.forall₂_nil_right_iff.mp hlive, hgiven⟩
    · exact Or.inr ⟨fr, lv, hholds.ring, hholds.freep_mem, hholds.sizes, hlive,
        fun b hb => hholds.base_le hb, hholds.tiles.apart, hholds.one_descent,
        fun x hx y hy => hholds.not_adjacent hx hy, hholds.tiles.total⟩
  · intro nbytes hn
    obtain ⟨N, r, hmalloc, -⟩ := hready.malloc hbase hfresh (asked_units (n := nbytes) (by omega))
    exact ⟨N, r, hmalloc⟩
  · intro x hx
    have hany : s.live.any (fun y => y.1 == x.1) = true :=
      List.any_eq_true.mpr ⟨x, hx, beq_self_eq_true x.1⟩
    obtain ⟨b, lv', hap, hperm, -⟩ := exists_backed hlive hany
    obtain ⟨N, k, hfree, -⟩ := (hready.perm hperm).free
    rw [hap]
    exact ⟨N, k, hfree⟩

/-- A break that moves up to the end of user memory, and the memory that it has passed. -/
def bump (n : Int) (s : Nat × List (Nat × Nat)) : Option Nat × Nat × List (Nat × Nat) :=
  if s.1 + n.toNat < 2 ^ 31 then (some s.1, s.1 + n.toNat, s.2 ++ [(s.1, n.toNat)]) else (none, s)

theorem bump_fresh : Fresh bump (fun s => 4096 ≤ s.1 ∧ ∀ r ∈ s.2, r.1 + r.2 ≤ s.1) Prod.snd 4000 := by
  refine ⟨fun n s s' hs h0 hn hcall => ?_, fun n s p s' hs h0 hn hcall => ?_⟩
  · rw [bump] at hcall
    split_ifs at hcall
    · cases hcall
    · cases hcall
      exact ⟨hs, rfl⟩
  · rw [bump] at hcall
    split_ifs at hcall with hfit
    · cases hcall
      refine ⟨⟨Nat.le_add_right_of_le hs.1, fun r hr => ?_⟩, rfl, hs.2, by omega, by omega⟩
      rcases List.mem_append.mp hr with hr | hr
      · exact Nat.le_add_right_of_le (hs.2 r hr)
      · rw [List.mem_singleton.mp hr]
    · cases hcall

/-- Two blocks, and the first given back. -/
theorem bump_well_formed : ∃ s : State (Nat × List (Nat × Nat)),
    run (step bump 4000) ⟨⟨fun _ => 0, 0, (4096, [])⟩, []⟩
      [.malloc 10 9, .malloc 100 9, .free 36848 9] = some s ∧ s.live = [(36736, 100)] ∧
    ((s.heap.freep = 0 ∧ s.live = [] ∧ s.heap.sys.2 = [] ∨
        ∃ fr lv, WellFormed 4000 s.heap.sys.2 s fr lv) ∧
      (∀ nbytes < 2 ^ 30, ∃ N r, ∀ fuel, N < fuel → malloc bump 4000 fuel nbytes s.heap = some r) ∧
      ∀ x ∈ s.live, ∃ N k, ∀ fuel, N < fuel → free fuel x.1 s.heap = some k) := by
  have hlive : (run (step bump 4000) ⟨⟨fun _ => 0, 0, (4096, [])⟩, []⟩
      [.malloc 10 9, .malloc 100 9, .free 36848 9]).map State.live = some [(36736, 100)] := by
    decide +kernel
  obtain ⟨s, hrun, hs⟩ := Option.map_eq_some_iff.mp hlive
  refine ⟨s, hrun, hs, heap_well_formed (by decide) bump_fresh ?_ (by decide) hrun⟩
  exact ⟨rfl, rfl, ⟨le_rfl, fun r hr => absurd hr List.not_mem_nil⟩, rfl⟩

end Xv6.Umalloc
