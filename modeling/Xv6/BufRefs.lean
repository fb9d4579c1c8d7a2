import Xv6.BufCache
import Xv6.Counts

/-!
# References to buffers

The reference count of a buffer is the number of processes that have it locked, wait for its lock
or are about to give it back. A buffer keeps its block while it is referenced, and no two buffers
are for the same block.
-/

namespace Xv6.Bio

open Function

variable {N : Nat} {α : Type*}

namespace Pc

/-- References that a process has next to the buffers that it has locked. -/
def pending (i : Fin NBUF) : Pc → Nat
  | lock j _ | unref j => if j = i then 1 else 0
  | idle | test _ _ | enter _ _ | wait _ _ => 0

/-- The buffer that a process has locked and waits for. -/
def busy : Pc → Option (Fin NBUF)
  | test i _ | enter i _ | wait i _ => some i
  | idle | lock _ _ | unref _ => none

/-- The buffer and the block that a call is about. -/
def wants : Pc → Option (Fin NBUF × Nat)
  | lock i b | test i b | enter i b | wait i b => some (i, b)
  | idle | unref _ => none

end Pc

structure Counted (s : Cache N α) : Prop where
  refcnt : ∀ i, (s.buf i).refcnt = (s.buf i).lock.isSome.toNat + ∑ p, (s.pc p).pending i
  busy : ∀ p i, (s.pc p).busy = some i → (s.buf i).lock = some p

/-- Every buffer keeps the block that it was given. -/
structure Named (dev : Nat) (s : Cache N α) : Prop where
  order : ∀ i, i ∈ s.order
  unique : ∀ i j, (s.buf i).dev = dev → (s.buf j).dev = dev →
    (s.buf i).blockno = (s.buf j).blockno → i = j
  wants : ∀ p i b, (s.pc p).wants = some (i, b) → (s.buf i).dev = dev ∧ (s.buf i).blockno = b
  locked : ∀ i, (s.buf i).lock ≠ none → (s.buf i).dev = dev

variable {dev b : Nat} {s s' : Cache N α} {p : Fin N} {i : Fin NBUF} {v : Pc} {x : Buf N α}

theorem Counted.change (h : Counted s) (hbuf : s'.buf = update s.buf i x)
    (hpc : s'.pc = update s.pc p v)
    (hcount : x.refcnt + (s.buf i).lock.isSome.toNat + (s.pc p).pending i = (s.buf i).refcnt +
      x.lock.isSome.toNat + v.pending i) (hother : ∀ j, j ≠ i → v.pending j = (s.pc p).pending j)
    (hlock : ∀ q, q ≠ p → (s.buf i).lock = some q → x.lock = some q)
    (hbusy : ∀ j, v.busy = some j → (update s.buf i x j).lock = some p) : Counted s' := by
  refine ⟨?_, ?_⟩
  · intro j
    have hsum := sum_update (Pc.pending j) s.pc p v
    have hold := h.refcnt j
    rw [hbuf, hpc]
    rcases eq_or_ne j i with rfl | hj
    · rw [update_self]
      omega
    · rw [update_of_ne hj]
      have := hother j hj
      omega
  · intro q j hq
    rw [hbuf]
    rw [hpc] at hq
    rcases eq_or_ne q p with rfl | hqp
    · rw [update_self] at hq
      exact hbusy j hq
    · rw [update_of_ne hqp] at hq
      have hold := h.busy q j hq
      rcases eq_or_ne j i with rfl | hj
      · rw [update_self]
        exact hlock q hqp hold
      · rwa [update_of_ne hj]

theorem Counted.goto (h : Counted s) (hbuf : s'.buf = s.buf) (hpc : s'.pc = update s.pc p v)
    (hcount : ∀ j, v.pending j = (s.pc p).pending j)
    (hbusy : ∀ j, v.busy = some j → (s.buf j).lock = some p) : Counted s' := by
  refine ⟨?_, ?_⟩
  · intro j
    have hsum := sum_update (Pc.pending j) s.pc p v
    have := hcount j
    rw [hbuf, hpc, h.refcnt j]
    omega
  · intro q j hq
    rw [hbuf]
    rw [hpc] at hq
    rcases eq_or_ne q p with rfl | hqp
    · rw [update_self] at hq
      exact hbusy j hq
    · rw [update_of_ne hqp] at hq
      exact h.busy q j hq

/-- Nobody has anything to do with a buffer that is not referenced. -/
theorem Counted.free (h : Counted s) (hi : (s.buf i).refcnt = 0) :
    (s.buf i).lock = none ∧ ∀ q, (s.pc q).wants ≠ some (i, b) := by
  have hcount := h.refcnt i
  have hlock : (s.buf i).lock = none := by
    cases hl : (s.buf i).lock with
    | none => rfl
    | some q =>
      rw [hl] at hcount
      simp only [Option.isSome_some, Bool.toNat_true] at hcount
      omega
  refine ⟨hlock, ?_⟩
  intro q hq
  have hzero : (s.pc q).pending i = 0 := by
    have hle := le_sum (fun q => (s.pc q).pending i) q
    omega
  have hbusy := h.busy q i
  cases hpc : s.pc q <;> simp only [hpc, Pc.wants, Pc.busy, Pc.pending, Option.some.injEq,
    Prod.mk.injEq, reduceCtorEq] at hq hzero hbusy
  case lock j b' =>
    rw [if_pos hq.1] at hzero
    cases hzero
  all_goals
    have := hbusy hq.1
    rw [hlock] at this
    cases this

theorem Named.change (h : Named dev s) (hpc : s'.pc = update s.pc p v)
    (hdev : ∀ j, (s'.buf j).dev = (s.buf j).dev)
    (hblockno : ∀ j, (s'.buf j).blockno = (s.buf j).blockno) (horder : ∀ j, j ∈ s'.order)
    (hwants : ∀ j b, v.wants = some (j, b) → (s.buf j).dev = dev ∧ (s.buf j).blockno = b)
    (hlocked : ∀ j, (s'.buf j).lock ≠ none → (s.buf j).dev = dev) : Named dev s' := by
  refine ⟨horder, ?_, ?_, ?_⟩
  · intro j k hj hk hjk
    rw [hdev] at hj hk
    rw [hblockno, hblockno] at hjk
    exact h.unique j k hj hk hjk
  · intro q j b hq
    rw [hdev, hblockno]
    rw [hpc] at hq
    rcases eq_or_ne q p with rfl | hqp
    · rw [update_self] at hq
      exact hwants j b hq
    · rw [update_of_ne hqp] at hq
      exact h.wants q j b hq
  · intro j hj
    rw [hdev]
    exact hlocked j hj

theorem lookup_eq_some (h : s.lookup dev b = some i) :
    (s.buf i).dev = dev ∧ (s.buf i).blockno = b := by
  simpa using List.find?_some h

theorem lookup_eq_none (hn : Named dev s) (h : s.lookup dev b = none) :
    (s.buf i).dev = dev → (s.buf i).blockno ≠ b := by
  have := List.find?_eq_none.mp h i (hn.order i)
  simpa using this

theorem victim_eq_some (h : s.victim = some i) :
    (s.buf i).refcnt = 0 ∧ (s.buf i).dirty = false := by
  simpa using List.find?_some h

theorem Named.recycle (h : Named dev s) (hc : Counted s) (hl : s.lookup dev b = none)
    (hi : (s.buf i).refcnt = 0) :
    Named dev ((s.setBuf i (s.recycled dev b i)).goto p (.lock i b)) := by
  obtain ⟨hlock, -⟩ := hc.free (b := b) hi
  refine ⟨h.order, ?_, ?_, ?_⟩ <;> simp only [Cache.goto, Cache.setBuf]
  · intro j k hj hk hjk
    rcases eq_or_ne j i with rfl | hji <;> rcases eq_or_ne k j with rfl | hkj
    · rfl
    · simp only [update_self, update_of_ne hkj, Cache.recycled] at hk hjk
      exact absurd hjk.symm (lookup_eq_none h hl hk)
    · rfl
    · rcases eq_or_ne k i with rfl | hki
      · simp only [update_self, update_of_ne hji, Cache.recycled] at hj hjk
        exact absurd hjk (lookup_eq_none h hl hj)
      · simp only [update_of_ne hji, update_of_ne hki] at hj hk hjk
        exact h.unique j k hj hk hjk
  · intro q j b' hq
    rcases eq_or_ne q p with rfl | hqp
    · simp only [update_self, Pc.wants, Option.some.injEq, Prod.mk.injEq] at hq
      obtain ⟨rfl, rfl⟩ := hq
      simp [Cache.recycled]
    · rw [update_of_ne hqp] at hq
      rcases eq_or_ne j i with rfl | hj
      · exact absurd hq ((hc.free hi).2 q)
      · rw [update_of_ne hj]
        exact h.wants q j b' hq
  · intro j hj
    rcases eq_or_ne j i with rfl | hji
    · simp [Cache.recycled, hlock] at hj
    · rw [update_of_ne hji] at hj ⊢
      exact h.locked j hj

end Xv6.Bio
