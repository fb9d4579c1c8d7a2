import Xv6.FsWrite
import Xv6.Run

/-!
# The block allocator

`balloc` and `bfree` in a file system whose free map has the blocks that hold it, and the
superblock, marked as used. One call changes one bit, and in a run no block is given out twice. The
map does not protect itself: if the bit of one of its own blocks is clear, `balloc` gives this block
out and zeroes it.
-/

namespace Xv6.Fs

open Function

variable {s s' : FsState} {b : Nat}

/-- The blocks of the superblock and of the free map. -/
def Reserved (sb : Superblock) (b : Nat) : Prop := b = 1 ∨ ∃ c < sb.size, b = BBLOCK c sb

/-- The bits of the free map, up to the end of its last block. -/
def InMap (sb : Superblock) (c : Nat) : Prop := BPB * (c / BPB) < sb.size

def bits (s : FsState) : Nat → Bool := bitUsed s.sb s.disk

structure FreeMap (s : FsState) : Prop where
  super : readsb (s.disk 1) = s.sb
  start : 1 < s.sb.bmapstart
  size : s.sb.size ≤ 2 ^ 30
  used : ∀ b < s.sb.size, Reserved s.sb b → bits s b = true

theorem inMap_of_lt {sb : Superblock} (h : b < sb.size) : InMap sb b :=
  lt_of_le_of_lt (Nat.mul_div_le b BPB) h

theorem InMap.reserved {sb : Superblock} (h : InMap sb b) : Reserved sb (BBLOCK b sb) := by
  refine Or.inr ⟨BPB * (b / BPB), h, ?_⟩
  rw [BBLOCK, BBLOCK, Nat.mul_div_cancel_left _ (by decide)]

namespace FreeMap

theorem not_reserved (h : FreeMap s) (hb : b < s.sb.size) (hfree : bits s b = false) :
    ¬ Reserved s.sb b := by
  intro hr
  rw [h.used b hb hr] at hfree
  cases hfree

theorem bits_allocBlock (h : FreeMap s) (hb : b < s.sb.size) (hfree : bits s b = false) {c : Nat}
    (hc : InMap s.sb c) : bits (allocBlock s b) c = update (bits s) b true c := by
  have hne : b ≠ BBLOCK c s.sb := by
    rintro rfl
    exact h.not_reserved hb hfree hc.reserved
  refine (bitUsed_update_of_ne hne).trans ?_
  exact congrFun (bitUsed_update b (fun data => isFree_setBit data)) c

theorem bits_freeBlock (s : FsState) (b : Nat) : bits (freeBlock s b) = update (bits s) b false :=
  bitUsed_update b (fun data => isFree_clearBit data)

theorem BBLOCK_ne_one (h : FreeMap s) (b : Nat) : BBLOCK b s.sb ≠ 1 := by
  have hstart := h.start
  exact ne_of_gt (lt_of_lt_of_le hstart (Nat.le_add_left _ _))

theorem alloc (h : FreeMap s) (hb : b < s.sb.size) (hfree : bits s b = false) :
    FreeMap (allocBlock s b) := by
  have hne : b ≠ 1 := fun hone => h.not_reserved hb hfree (Or.inl hone)
  refine ⟨?_, h.start, h.size, fun c hc hr => ?_⟩
  · refine Eq.trans ?_ h.super
    simp only [allocBlock, FsState.put, update_of_ne hne.symm, update_of_ne (h.BBLOCK_ne_one b).symm]
  · rw [h.bits_allocBlock hb hfree (inMap_of_lt hc)]
    rcases eq_or_ne c b with rfl | hcb
    · exact update_self _ _ _
    · rw [update_of_ne hcb]
      exact h.used c hc hr

theorem free (h : FreeMap s) (hb : ¬ Reserved s.sb b) : FreeMap (freeBlock s b) := by
  refine ⟨?_, h.start, h.size, fun c hc hr => ?_⟩
  · refine Eq.trans ?_ h.super
    simp only [freeBlock, FsState.put, update_of_ne (h.BBLOCK_ne_one b).symm]
  · rw [bits_freeBlock, update_of_ne]
    · exact h.used c hc hr
    · rintro rfl
      exact hb hr

end FreeMap

/-- What the two functions do. -/
structure Exact (s : FsState) : Prop where
  balloc : ∀ b s', balloc s = .ok (b, s') → b < s.sb.size ∧ bits s b = false ∧
    (∀ c < b, bits s c = true) ∧ s'.sb = s.sb ∧ s'.disk b = Bytes.zero ∧
    ∀ c, InMap s.sb c → bits s' c = update (bits s) b true c
  full : ∀ e, Fs.balloc s = .error e ↔ e = outOfBlocks ∧ ∀ c < s.sb.size, bits s c = true
  bfree : ∀ b, bits s b = true → ∃ s', bfree b s = .ok ((), s') ∧ s'.sb = s.sb ∧
    bits s' = update (bits s) b false
  refused : ∀ b, bits s b = false → Fs.bfree b s = .error (.panic "freeing free block")
  restored : ∀ b s', Fs.balloc s = .ok (b, s') → ∃ s'', Fs.bfree b s' = .ok ((), s'') ∧
    ∀ c, InMap s.sb c → bits s'' c = bits s c

theorem bfree_free (hsuper : readsb (s.disk 1) = s.sb) (hb : bits s b = false) :
    bfree b s = .error (.panic "freeing free block") := by
  have hspec : wp (bfree b) s (fun _ _ => False) (· = .panic "freeing free block") := by
    have hfree : isFree (s.disk (BBLOCK b s.sb)) (b % BPB) = true := by
      simpa [bits, bitUsed] using hb
    simp [bfree, hsuper, hfree]
  cases hrun : bfree b s with
  | ok r => exact (wp_ok hspec hrun).elim
  | error e => rw [wp_error hspec hrun]

theorem FreeMap.exact (h : FreeMap s) : Exact s := by
  have hbfree : ∀ {s b}, FreeMap s → bits s b = true →
      Fs.bfree b s = .ok ((), freeBlock s b) := by
    intro s b h hb
    obtain ⟨_, s', hrun, rfl⟩ := wp_returns (bfree_spec (E := fun _ => False) h.super hb) (fun _ => id)
    exact hrun
  refine ⟨fun b s' hrun => ?_, fun e => ⟨wp_error (balloc_spec s), ?_⟩,
    fun b hb => ⟨_, hbfree h hb, rfl, FreeMap.bits_freeBlock s b⟩, fun b => bfree_free h.super,
    fun b s' hrun => ?_⟩
  · obtain ⟨hb, hfree, hlow, rfl⟩ := wp_ok (balloc_spec s) hrun
    exact ⟨hb, hfree, hlow, rfl, update_self _ _ _, fun c => h.bits_allocBlock hb hfree⟩
  · rintro ⟨rfl, hall⟩
    cases hrun : Fs.balloc s with
    | ok r =>
      obtain ⟨hb, hfree, -⟩ := wp_ok (balloc_spec s) hrun
      rw [show bitUsed s.sb s.disk r.1 = true from hall r.1 hb] at hfree
      cases hfree
    | error e => rw [(wp_error (balloc_spec s) hrun).1]
  · obtain ⟨hb, hfree, -, rfl⟩ := wp_ok (balloc_spec s) hrun
    have hself : bits (allocBlock s b) b = true := by
      rw [h.bits_allocBlock hb hfree (inMap_of_lt hb), update_self]
    refine ⟨_, hbfree (h.alloc hb hfree) hself, fun c hc => ?_⟩
    rw [FreeMap.bits_freeBlock]
    rcases eq_or_ne c b with rfl | hcb
    · rw [update_self]
      exact hfree.symm
    · rw [update_of_ne hcb, h.bits_allocBlock hb hfree hc, update_of_ne hcb]

/-! ### Runs -/

inductive BlockCall
  | balloc
  | bfree (b : Nat)

/-- The file system, with the blocks that `balloc` has returned and `bfree` has not got back. -/
structure Blocks where
  fs : FsState
  given : List Nat

def blockStep (k : Blocks) : BlockCall → Option Blocks
  | .balloc =>
    match balloc k.fs with
    | .ok (b, s) => some ⟨s, b :: k.given⟩
    | .error _ => none
  | .bfree b =>
    match bfree b k.fs with
    | .ok (_, s) => some ⟨s, k.given.erase b⟩
    | .error _ => none

def FreesData (k : Blocks) (c : BlockCall) : Prop := ∀ b, c = .bfree b → ¬ Reserved k.fs.sb b

structure Given (k : Blocks) : Prop where
  map : FreeMap k.fs
  nodup : k.given.Nodup
  used : ∀ b ∈ k.given, b < k.fs.sb.size ∧ bits k.fs b = true

variable {k : Blocks}

theorem Given.balloc (h : Given k) (hrun : balloc k.fs = .ok (b, s')) :
    Given ⟨s', b :: k.given⟩ := by
  obtain ⟨hb, hfree, -, rfl⟩ := wp_ok (balloc_spec k.fs) hrun
  have hnew : b ∉ k.given := by
    intro hmem
    rw [show bitUsed k.fs.sb k.fs.disk b = true from (h.used b hmem).2] at hfree
    cases hfree
  refine ⟨h.map.alloc hb hfree, List.nodup_cons.mpr ⟨hnew, h.nodup⟩, fun c hc => ?_⟩
  have hlt : c < k.fs.sb.size := by
    rcases List.mem_cons.mp hc with rfl | hc
    · exact hb
    · exact (h.used c hc).1
  refine ⟨hlt, (h.map.bits_allocBlock hb hfree (inMap_of_lt hlt)).trans ?_⟩
  rcases List.mem_cons.mp hc with rfl | hc
  · exact update_self _ _ _
  · have hne : c ≠ b := fun heq => hnew (by rwa [heq] at hc)
    rw [update_of_ne hne]
    exact (h.used c hc).2

theorem Given.bfree (h : Given k) (hb : ¬ Reserved k.fs.sb b)
    (hrun : bfree b k.fs = .ok ((), s')) : Given ⟨s', k.given.erase b⟩ := by
  have hused : bits k.fs b = true := by
    by_contra hnot
    rw [bfree_free h.map.super (by simpa using hnot)] at hrun
    cases hrun
  obtain rfl := wp_ok (bfree_spec (E := fun _ => False) h.map.super hused) hrun
  refine ⟨h.map.free hb, h.nodup.erase b, fun c hc => ?_⟩
  obtain ⟨hcb, hc⟩ := (h.nodup.mem_erase_iff).mp hc
  refine ⟨(h.used c hc).1, ?_⟩
  change bits (freeBlock k.fs b) c = true
  rw [FreeMap.bits_freeBlock, update_of_ne hcb]
  exact (h.used c hc).2

theorem given_run {cs : List BlockCall} (h : FreeMap s)
    (halong : Along blockStep FreesData ⟨s, []⟩ cs) (hrun : run blockStep ⟨s, []⟩ cs = some k) :
    Given k := by
  refine run_invariant_along blockStep ?_ ⟨h, List.nodup_nil, by simp⟩ halong hrun
  rintro k c k' hk hc hstep
  cases c with
  | balloc =>
    simp only [blockStep] at hstep
    split at hstep
    · next hcall =>
      cases hstep
      exact hk.balloc hcall
    · cases hstep
  | bfree b =>
    simp only [blockStep] at hstep
    split at hstep
    · next hcall =>
      cases hstep
      exact hk.bfree (hc b rfl) hcall
    · cases hstep

/-- In every run in which the blocks of the superblock and the map are not freed, `balloc` and
`bfree` are exact, and the blocks that have been given out are distinct and marked. -/
theorem blocks_exact {cs : List BlockCall} (h : FreeMap s)
    (halong : Along blockStep FreesData ⟨s, []⟩ cs) (hrun : run blockStep ⟨s, []⟩ cs = some k) :
    Exact k.fs ∧ k.given.Nodup ∧ ∀ b ∈ k.given, b < k.fs.sb.size ∧ bits k.fs b = true :=
  have hgiven := given_run h halong hrun
  ⟨hgiven.map.exact, hgiven.nodup, hgiven.used⟩

theorem tiny_freeMap : FreeMap tiny := by
  refine ⟨tiny_good.vol.super, by decide, by decide, fun b hb hr => ?_⟩
  have hbit : bits tiny b = decide (b < 4) := tiny_bitUsed hb
  rw [hbit, decide_eq_true_eq]
  rcases hr with rfl | ⟨c, hc, rfl⟩
  · decide
  · have hdiv : c / BPB = 0 := Nat.div_eq_of_lt (lt_of_lt_of_le hc (by decide))
    rw [BBLOCK, hdiv]
    decide

theorem tiny_blocks_exact : ∃ k, run blockStep ⟨tiny, []⟩ [.balloc, .bfree 4] = some k ∧
    Exact k.fs := by
  obtain ⟨k, hrun⟩ := Option.isSome_iff_exists.mp (by decide +kernel :
    (run blockStep ⟨tiny, []⟩ [.balloc, .bfree 4]).isSome = true)
  have halong : Along blockStep FreesData ⟨tiny, []⟩ [.balloc, .bfree 4] := by
    refine ⟨by rintro _ ⟨⟩, fun k hk => ⟨?_, fun _ _ => trivial⟩⟩
    have hsb : k.fs.sb = tiny.sb := by
      simp only [blockStep] at hk
      split at hk
      · next hcall =>
        cases hk
        exact (tiny_freeMap.exact.balloc _ _ hcall).2.2.2.1
      · cases hk
    rintro _ ⟨⟩
    rw [hsb]
    exact tiny_freeMap.not_reserved (by decide) (tiny_bitUsed (by decide))
  exact ⟨k, hrun, (blocks_exact tiny_freeMap halong hrun).1⟩

/-- The bit of block 3, which holds the map, is clear. -/
def unmarked : FsState := tiny.put 3 (bitsBelow 3)

/-- `balloc` returns the block that holds the map, and the map is lost. -/
theorem balloc_wipes_map : ∃ s s', readsb (s.disk 1) = s.sb ∧ balloc s = .ok (3, s') ∧
    bits s 0 = true ∧ bits s' 0 = false ∧ bits s' 3 = false := by
  obtain ⟨b, s', hrun, hr⟩ := returns_of_eval (by decide +kernel : (balloc unmarked).toOption.map
    (fun r => (r.1, bits r.2 0, bits r.2 3)) = some (3, false, false))
  simp only [Prod.mk.injEq] at hr
  rw [hr.1] at hrun
  exact ⟨unmarked, s', by decide +kernel, hrun, by decide +kernel, hr.2⟩

end Xv6.Fs
