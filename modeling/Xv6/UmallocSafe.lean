import Xv6.MemoryGrow
import Xv6.UmallocRuns

/-!
# The heap in the memory of a process

The allocator with the `sbrk` of the kernel. As long as no `malloc` asks for so many bytes that the
size in bytes is no `int` any more, the blocks of the program are memory that it has obtained, and
they overlap neither each other nor the free list.
-/

namespace Xv6.Umalloc

/-- The address space of the process, and the memory that `sbrk` has returned. -/
structure Process where
  mem : Vm.Mem
  pgdir : Vm.Pgdir
  sz : Nat
  got : List (Nat × Nat)

/-- A panic of the kernel does not return. -/
def sysSbrk (n : Int) (p : Process) : Option Nat × Process :=
  match Vm.serve (Vm.growproc p.pgdir p.sz n) p.mem with
  | .error _ => (none, p)
  | .ok ((pgdir, sz, res), mem) =>
    if res < 0 then (none, ⟨mem, pgdir, sz, p.got⟩)
    else (some p.sz, ⟨mem, pgdir, sz, p.got ++ [(p.sz, n.toNat)]⟩)

/-- The program with its data at `base` is below the break, and so is what it has obtained. -/
structure Process.Ok (base : Nat) (p : Process) : Prop where
  space : Vm.Space p.mem p.pgdir p.sz
  base_le : base + 8 ≤ p.sz
  got_le : ∀ r ∈ p.got, r.1 + r.2 ≤ p.sz

variable {base : Nat} {n : Int} {p p' : Process} {s s₀ : State Process}

theorem sysSbrk_cases (h : Vm.Space p.mem p.pgdir p.sz) (h0 : 0 < n) (hn : n < 2 ^ 31) :
    ∃ mem pgdir sz, Vm.Space mem pgdir sz ∧
      (sysSbrk n p = (none, ⟨mem, pgdir, sz, p.got⟩) ∧ sz = p.sz ∨
        sysSbrk n p = (some p.sz, ⟨mem, pgdir, sz, p.got ++ [(p.sz, n.toNat)]⟩) ∧
          sz = p.sz + n.toNat) := by
  have hspec := Vm.growproc_space (E := fun _ => False) h h0 hn
  obtain ⟨⟨pgdir, sz, res⟩, mem, hrun, hspace, hres⟩ := wp_returns hspec (fun _ h => h)
  refine ⟨mem, pgdir, sz, hspace, ?_⟩
  unfold sysSbrk
  rw [hrun]
  rcases hres with ⟨hres, hsize⟩ | ⟨hres, hsize⟩
  · change res = 0 at hres
    change (sz : Int) = p.sz + n at hsize
    subst hres
    exact Or.inr ⟨rfl, by omega⟩
  · change res = -1 at hres
    subst hres
    exact Or.inl ⟨rfl, hsize⟩

theorem sysSbrk_fresh (base : Nat) : Fresh sysSbrk (Process.Ok base) Process.got base := by
  refine ⟨fun n p p' hp h0 hn hcall => ?_, fun n p a p' hp h0 hn hcall => ?_⟩
  · obtain ⟨mem, pgdir, sz, hspace, ⟨hrun, rfl⟩ | ⟨hrun, -⟩⟩ := sysSbrk_cases hp.space h0 hn
    · rw [hrun] at hcall
      cases hcall
      exact ⟨⟨hspace, hp.base_le, hp.got_le⟩, rfl⟩
    · rw [hrun] at hcall
      cases hcall
  · obtain ⟨mem, pgdir, sz, hspace, ⟨hrun, -⟩ | ⟨hrun, rfl⟩⟩ := sysSbrk_cases hp.space h0 hn
    · rw [hrun] at hcall
      cases hcall
    · rw [hrun] at hcall
      cases hcall
      have hsize := hspace.size
      simp only [KERNBASE] at hsize
      refine ⟨⟨hspace, Nat.le_add_right_of_le hp.base_le, fun r hr => ?_⟩, rfl, hp.got_le,
        hp.base_le, by omega⟩
      rcases List.mem_append.mp hr with hr | hr
      · exact Nat.le_add_right_of_le (hp.got_le r hr)
      · rw [List.mem_singleton.mp hr]

/-- The blocks of the program are memory that it has obtained and do not overlap; the nodes of the
free list are found from `freep` on. -/
structure Safe (s : State Process) : Prop where
  inside : ∀ x ∈ s.live, ∀ i, x.1 ≤ i → i < x.1 + x.2 →
    i < s.heap.sys.sz ∧ ∃ r ∈ s.heap.sys.got, r.1 ≤ i ∧ i < r.1 + r.2
  apart : s.live.Pairwise (fun x y => x.1 + x.2 ≤ y.1 ∨ y.1 + y.2 ≤ x.1)
  free : ∀ x ∈ s.live, ∀ j a, a = (ptr s.heap.mem)^[j] s.heap.freep →
    x.1 + x.2 ≤ a ∨ a + 8 * max 1 (size s.heap.mem a) ≤ x.1

theorem live_apart {live : List (Nat × Nat)} {lv : List Block} (h : List.Forall₂ Backs live lv)
    (hapart : lv.Pairwise Block.Apart) :
    live.Pairwise (fun x y => x.1 + x.2 ≤ y.1 ∨ y.1 + y.2 ≤ x.1) := by
  induction h with
  | nil => exact List.Pairwise.nil
  | @cons x b live lv hxb hrest ih =>
    obtain ⟨hb, hlv⟩ := List.pairwise_cons.mp hapart
    refine List.pairwise_cons.mpr ⟨fun y hy => ?_, ih hlv⟩
    obtain ⟨c, hc, hyc⟩ := exists_backing hrest hy
    have hbc := hb c hc
    simp only [Backs, Block.Apart, Block.fin] at hxb hyc hbc
    omega

theorem Serves.safe (h : Serves base (Process.Ok base) Process.got s) : Safe s := by
  obtain ⟨lv, hlive, hok, hready⟩ := h
  rcases hready with ⟨-, rfl, -⟩ | ⟨fr, hholds⟩
  · have hnil := List.forall₂_nil_right_iff.mp hlive
    refine ⟨fun x hx => ?_, ?_, fun x hx => ?_⟩
    · rw [hnil] at hx
      cases hx
    · rw [hnil]
      exact List.Pairwise.nil
    · rw [hnil] at hx
      cases hx
  · refine ⟨fun x hx i hlo hhi => ?_, ?_, fun x hx j a ha => ?_⟩
    · obtain ⟨b, hb, haddr, hsize⟩ := exists_backing hlive hx
      obtain ⟨r, hr, hri⟩ := hholds.tiles.inside b (List.mem_append_right fr hb) i (by omega)
        (by simp only [Block.fin]; omega)
      have hle := hok.got_le r hr
      exact ⟨by omega, r, hr, hri⟩
    · exact live_apart hlive (List.pairwise_append.mp hholds.tiles.apart).2.1
    · obtain ⟨b, hb, haddr, hsize⟩ := exists_backing hlive hx
      have hbmem : b ∈ fr ++ lv := List.mem_append_right fr hb
      have hnode : a ∈ nodes base fr := ha ▸ hholds.ring.iterate_mem hholds.freep_mem j
      rcases List.mem_cons.mp hnode with rfl | hnode
      · rw [hholds.base_size]
        have := hholds.base_le hbmem
        omega
      · obtain ⟨z, hz, rfl⟩ := List.mem_map.mp hnode
        have hzmem : z ∈ fr ++ lv := List.mem_append_left lv hz
        rw [hholds.sizes z hzmem]
        have hz0 := hholds.tiles.pos z hzmem
        have hapart : z.Apart b := (List.pairwise_append.mp hholds.tiles.apart).2.2 z hz b hb
        simp only [Block.Apart, Block.fin] at hapart
        omega

/-- In every run without a `malloc` of more than `2 ^ 31 - 16` bytes the heap is safe. -/
theorem heap_safe (hbase : 0 < base ∧ base < 2 ^ 32) (h₀ : Start (Process.Ok base) Process.got s₀)
    {es : List Event} (hes : ∀ e ∈ es, e.Below (2 ^ 31 - 15))
    (hrun : run (step sysSbrk base) s₀ es = some s) : Safe s :=
  (serves_run hbase (sysSbrk_fresh base) h₀ hes hrun).safe

/-- A process with one page that has called neither `malloc` nor `sbrk`. -/
def onePageProcess : State Process :=
  ⟨⟨fun _ => 0, 0, ⟨Vm.freshMem, Vm.onePage, 4096, []⟩⟩, []⟩

theorem onePageProcess_start : Start (Process.Ok 4000) Process.got onePageProcess :=
  ⟨rfl, rfl, ⟨Vm.onePage_freshMem, by decide, fun r hr => absurd hr List.not_mem_nil⟩, rfl⟩

/-- Seven bytes more than the largest `uint` are six: the block has a header and nothing else. -/
theorem malloc_wraps : Start (Process.Ok 4000) Process.got onePageProcess ∧
    ∃ fuel s, run (step sysSbrk 4000) onePageProcess [.malloc 4294967295 fuel] = some s ∧
      ¬ Safe s := by
  have hlive : (run (step sysSbrk 4000) onePageProcess [.malloc 4294967295 9]).map
      (fun s => (s.live, s.heap.sys.sz)) = some ([(36864, 4294967295)], 36864) := by
    decide +kernel
  obtain ⟨s, hrun, hs⟩ := Option.map_eq_some_iff.mp hlive
  obtain ⟨hlive, hsz⟩ := Prod.mk.inj hs
  refine ⟨onePageProcess_start, 9, s, hrun, fun hsafe => ?_⟩
  have hmem : (36864, 4294967295) ∈ s.live := hlive ▸ List.mem_cons_self
  have hin := hsafe.inside _ hmem 36864 le_rfl (by decide)
  omega

/-- Two blocks, and the first given back. -/
theorem malloc_ten_safe : ∃ s, run (step sysSbrk 4000) onePageProcess
      [.malloc 10 9, .malloc 100 9, .free 36848 9] = some s ∧ s.live = [(36736, 100)] ∧ Safe s := by
  have hlive : (run (step sysSbrk 4000) onePageProcess
      [.malloc 10 9, .malloc 100 9, .free 36848 9]).map State.live = some [(36736, 100)] := by
    decide +kernel
  obtain ⟨s, hrun, hs⟩ := Option.map_eq_some_iff.mp hlive
  exact ⟨s, hrun, hs, heap_safe (by decide) onePageProcess_start (by decide) hrun⟩

end Xv6.Umalloc
