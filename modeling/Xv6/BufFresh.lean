import Xv6.BufRefs

/-!
# Contents of buffers

A valid buffer holds the last data written for its block, unless the process that has it locked has
modified it since. The disk holds it as well if no buffer for the block is dirty.
-/

namespace Xv6.Bio

open Function

variable {N : Nat} {α : Type*} {dev b : Nat} {s s' : Cache N α} {p : Fin N} {i : Fin NBUF} {v : Pc}
  {x : Buf N α}

/-- The buffers and the disk hold what was written. -/
structure Fresh (dev : Nat) (s : Cache N α) (w : View α) : Prop where
  valid : ∀ i p, (s.buf i).lock = some p → (s.pc p).busy ≠ some i → (s.buf i).valid = true
  dirty : ∀ i, (s.buf i).dirty = true → (s.buf i).valid = true ∧ (s.buf i).dev = dev
  touched : ∀ i, w.touched i = true → ∃ p, (s.buf i).lock = some p ∧ (s.pc p).busy ≠ some i
  nodup : s.idequeue.Nodup
  queued : ∀ i ∈ s.idequeue, ∃ p b, s.pc p = .wait i b
  needed : ∀ i ∈ s.idequeue, (s.buf i).valid = true → (s.buf i).dirty = true
  request : s.request = s.idequeue.head?.map (fun i => (s.buf i).request)
  data : ∀ i, (s.buf i).dev = dev → (s.buf i).valid = true → w.touched i = false →
    (s.buf i).data = w.last (s.buf i).blockno
  disk : ∀ b, (∀ i, (s.buf i).dev = dev → (s.buf i).blockno = b → (s.buf i).dirty = false) →
    s.disk b = w.last b
  owed : ∀ b, w.owed b = true →
    ∃ i, (s.buf i).dev = dev ∧ (s.buf i).blockno = b ∧ (s.buf i).dirty = true

variable {w : View α}

/-- What a buffer holds, without who uses it. -/
def Buf.content (x : Buf N α) : Nat × Nat × Bool × Bool × α :=
  (x.dev, x.blockno, x.valid, x.dirty, x.data)

theorem Buf.content_inj {x y : Buf N α} (h : x.content = y.content) : x.dev = y.dev ∧
    x.blockno = y.blockno ∧ x.valid = y.valid ∧ x.dirty = y.dirty ∧ x.data = y.data := by
  simpa [Buf.content] using h

theorem Fresh.same (h : Fresh dev s w) (hbuf : ∀ j, (s'.buf j).content = (s.buf j).content)
    (hqueue : s'.idequeue = s.idequeue) (hrequest : s'.request = s.request)
    (hdisk : s'.disk = s.disk)
    (hvalid : ∀ j q, (s'.buf j).lock = some q → (s'.pc q).busy ≠ some j → (s.buf j).valid = true)
    (htouched : ∀ j, w.touched j = true → ∃ q, (s'.buf j).lock = some q ∧ (s'.pc q).busy ≠ some j)
    (hwait : ∀ q j b, j ∈ s.idequeue → s.pc q = .wait j b → s'.pc q = .wait j b) :
    Fresh dev s' w := by
  have hd : ∀ j, (s'.buf j).dev = (s.buf j).dev := fun j => (Buf.content_inj (hbuf j)).1
  have hb : ∀ j, (s'.buf j).blockno = (s.buf j).blockno := fun j => (Buf.content_inj (hbuf j)).2.1
  have hv : ∀ j, (s'.buf j).valid = (s.buf j).valid := fun j => (Buf.content_inj (hbuf j)).2.2.1
  have hdirty : ∀ j, (s'.buf j).dirty = (s.buf j).dirty :=
    fun j => (Buf.content_inj (hbuf j)).2.2.2.1
  have hdata : ∀ j, (s'.buf j).data = (s.buf j).data := fun j => (Buf.content_inj (hbuf j)).2.2.2.2
  refine ⟨?_, ?_, htouched, ?_, ?_, ?_, ?_, ?_, ?_, ?_⟩
  · simpa only [hv] using hvalid
  · simpa only [hd, hv, hdirty] using h.dirty
  · rw [hqueue]
    exact h.nodup
  · intro j hj
    rw [hqueue] at hj
    obtain ⟨q, b, hq⟩ := h.queued j hj
    exact ⟨q, b, hwait q j b hj hq⟩
  · simpa only [hqueue, hv, hdirty] using h.needed
  · simpa only [hrequest, hqueue, Buf.request, hb, hdirty, hdata] using h.request
  · simpa only [hd, hv, hb, hdata] using h.data
  · simpa only [hdisk, hd, hb, hdirty] using h.disk
  · simpa only [hd, hb, hdirty] using h.owed

theorem Fresh.not_queued (h : Fresh dev s w) (hc : Counted s) (hl : (s.buf i).lock = none) :
    i ∉ s.idequeue := by
  intro hi
  obtain ⟨q, b, hq⟩ := h.queued i hi
  have := hc.busy q i (by rw [hq]; rfl)
  rw [hl] at this
  cases this

theorem Fresh.untouched (h : Fresh dev s w) (hl : (s.buf i).lock = none) : w.touched i = false := by
  cases ht : w.touched i with
  | false => rfl
  | true =>
    obtain ⟨q, hq, -⟩ := h.touched i ht
    rw [hl] at hq
    cases hq

theorem head_map_congr {q : List (Fin NBUF)} {f g : Fin NBUF → Nat × Option α}
    (h : ∀ j ∈ q, f j = g j) : q.head?.map f = q.head?.map g := by
  cases q with
  | nil => rfl
  | cons j q => exact congrArg some (h j List.mem_cons_self)

theorem Fresh.recycle (h : Fresh dev s w) (hc : Counted s) (hi : (s.buf i).refcnt = 0)
    (hdirty : (s.buf i).dirty = false) (hp : s.pc p = .idle) :
    Fresh dev ((s.setBuf i (s.recycled dev b i)).goto p (.lock i b)) w := by
  obtain ⟨hlock, -⟩ := hc.free (b := b) hi
  have hq : ∀ j ∈ s.idequeue, j ≠ i := by
    rintro j hj rfl
    exact h.not_queued hc hlock hj
  have hbusy : ∀ q, (update s.pc p (.lock i b) q).busy = (s.pc q).busy := by
    intro q
    rcases eq_or_ne q p with rfl | hqp
    · rw [update_self, hp]
      rfl
    · rw [update_of_ne hqp]
  refine ⟨?_, ?_, ?_, h.nodup, ?_, ?_, ?_, ?_, ?_, ?_⟩ <;>
    simp only [Cache.goto, Cache.setBuf, hbusy]
  · intro j q hj
    rcases eq_or_ne j i with rfl | hji
    · simp [Cache.recycled, hlock] at hj
    · simp only [update_of_ne hji] at hj ⊢
      exact h.valid j q hj
  · intro j hj
    rcases eq_or_ne j i with rfl | hji
    · simp [Cache.recycled] at hj
    · simp only [update_of_ne hji] at hj ⊢
      exact h.dirty j hj
  · intro j hj
    rcases eq_or_ne j i with rfl | hji
    · rw [h.untouched hlock] at hj
      cases hj
    · simp only [update_of_ne hji]
      exact h.touched j hj
  · intro j hj
    obtain ⟨q, b', hq'⟩ := h.queued j hj
    refine ⟨q, b', ?_⟩
    rcases eq_or_ne q p with rfl | hqp
    · rw [hp] at hq'
      cases hq'
    · rw [update_of_ne hqp]
      exact hq'
  · intro j hj
    simp only [update_of_ne (hq j hj)]
    exact h.needed j hj
  · rw [h.request]
    refine head_map_congr ?_
    intro j hj
    simp only [update_of_ne (hq j hj)]
  · intro j hd hv
    rcases eq_or_ne j i with rfl | hji
    · simp [Cache.recycled] at hv
    · simp only [update_of_ne hji] at hd hv ⊢
      exact h.data j hd hv
  · -- the recycled buffer was clean, and nobody held the new block
    intro b' hb'
    refine h.disk b' ?_
    intro j hd hb
    rcases eq_or_ne j i with rfl | hji
    · exact hdirty
    · have := hb' j
      simp only [update_of_ne hji] at this
      exact this hd hb
  · intro b' hb'
    obtain ⟨j, hd, hb, hj⟩ := h.owed b' hb'
    have hji : j ≠ i := by
      rintro rfl
      rw [hdirty] at hj
      cases hj
    refine ⟨j, ?_⟩
    simp only [update_of_ne hji]
    exact ⟨hd, hb, hj⟩

structure Ok (dev : Nat) (s : Cache N α) (w : View α) : Prop where
  counted : Counted s
  named : Named dev s
  fresh : Fresh dev s w

theorem binit_ok (hdev : dev ≠ 0) (zero : α) (disk : Nat → α) :
    Ok dev (binit zero disk : Cache N α) (View.init disk) := by
  refine ⟨⟨?_, ?_⟩, ⟨?_, ?_, ?_, ?_⟩, ⟨?_, ?_, ?_, ?_, ?_, ?_, ?_, ?_, ?_, ?_⟩⟩ <;>
    simp [binit, View.init, Pc.pending, Pc.busy, Pc.wants, hdev.symm]

namespace Ok

/-- The contents of buffers stay when the buffer of one of them only changes its users. -/
theorem content_update (hx : x.content = (s.buf i).content) (j : Fin NBUF) :
    (update s.buf i x j).content = (s.buf j).content := by
  rcases eq_or_ne j i with rfl | hj
  · rw [update_self, hx]
  · rw [update_of_ne hj]

theorem users (h : Ok dev s w) (hx : x.content = (s.buf i).content)
    (hcounted : Counted ((s.setBuf i x).goto p v))
    (hwants : ∀ j b, v.wants = some (j, b) → (s.buf j).dev = dev ∧ (s.buf j).blockno = b)
    (hlocked : x.lock ≠ none → (s.buf i).dev = dev)
    (hvalid : ∀ j q, (update s.buf i x j).lock = some q → (update s.pc p v q).busy ≠ some j → (s.buf
      j).valid = true)
    (htouched : ∀ j, w.touched j = true → ∃ q, (update s.buf i x j).lock = some q ∧ (update s.pc p v
      q).busy ≠ some j) (hwait : ∀ j b, s.pc p = .wait j b → j ∉ s.idequeue) :
    Ok dev ((s.setBuf i x).goto p v) w := by
  refine ⟨hcounted, h.named.change rfl ?_ ?_ h.named.order hwants ?_,
    h.fresh.same (content_update hx) rfl rfl rfl hvalid htouched ?_⟩
  · exact fun j => (Buf.content_inj (content_update hx j)).1
  · exact fun j => (Buf.content_inj (content_update hx j)).2.1
  · intro j hj
    rcases eq_or_ne j i with rfl | hji
    · simp only [Cache.goto, Cache.setBuf, update_self] at hj
      exact hlocked hj
    · simp only [Cache.goto, Cache.setBuf, update_of_ne hji] at hj
      exact h.named.locked j hj
  · intro q j b hj hq
    rcases eq_or_ne q p with rfl | hqp
    · exact absurd hj (hwait j b hq)
    · simp only [Cache.goto, update_of_ne hqp]
      exact hq

theorem busy_update (hv : v.busy = (s.pc p).busy) (q : Fin N) :
    (update s.pc p v q).busy = (s.pc q).busy := by
  rcases eq_or_ne q p with rfl | hqp
  · rw [update_self, hv]
  · rw [update_of_ne hqp]

section

variable (h : Ok dev s w)
include h

theorem refs {n : Nat}
    (hcount : n + (s.pc p).pending i = (s.buf i).refcnt + v.pending i)
    (hother : ∀ j, j ≠ i → v.pending j = (s.pc p).pending j) (hbusy : v.busy = (s.pc p).busy)
    (hidle : v.busy = none)
    (hwants : ∀ j b, v.wants = some (j, b) → (s.buf j).dev = dev ∧ (s.buf j).blockno = b) :
    Ok dev ((s.setBuf i { s.buf i with refcnt := n }).goto p v) w := by
  have hlock : ∀ j, (update s.buf i { s.buf i with refcnt := n } j).lock = (s.buf j).lock := by
    intro j
    rcases eq_or_ne j i with rfl | hj
    · rw [update_self]
    · rw [update_of_ne hj]
  refine h.users rfl (h.counted.change rfl rfl ?_ hother (fun _ _ hq => hq) ?_) hwants
    (h.named.locked i) ?_ ?_ ?_
  · simp only
    omega
  · simp [hidle]
  · simpa only [hlock, busy_update hbusy] using h.fresh.valid
  · simpa only [hlock, busy_update hbusy] using h.fresh.touched
  · intro j b hj
    rw [hidle, hj] at hbusy
    cases hbusy

theorem hit (hp : s.pc p = .idle) (hl : s.lookup dev b = some i) :
    Ok dev ((s.setBuf i { s.buf i with refcnt := (s.buf i).refcnt + 1 }).goto p (.lock i b)) w := by
  refine h.refs ?_ ?_ (by rw [hp]; rfl) rfl ?_
  · simp [hp, Pc.pending]
  · intro j hj
    simp [hp, Pc.pending, hj.symm]
  · intro j b' hj
    simp only [Pc.wants, Option.some.injEq, Prod.mk.injEq] at hj
    obtain ⟨rfl, rfl⟩ := hj
    exact lookup_eq_some hl

theorem recycle (hp : s.pc p = .idle) (hl : s.lookup dev b = none)
    (hv : s.victim = some i) : Ok dev ((s.setBuf i (s.recycled dev b i)).goto p (.lock i b)) w := by
  obtain ⟨hi, hdirty⟩ := victim_eq_some hv
  obtain ⟨hlock, -⟩ := h.counted.free (b := b) hi
  refine ⟨h.counted.change rfl rfl ?_ ?_ ?_ ?_, h.named.recycle h.counted hl hi,
    h.fresh.recycle h.counted hi hdirty hp⟩
  · simp [Cache.recycled, hi, hp, hlock, Pc.pending]
  · intro j hj
    simp [hp, Pc.pending, hj.symm]
  · intro q _ hq
    rw [hlock] at hq
    cases hq
  · simp [Pc.busy]

theorem acquiresleep (hp : s.pc p = .lock i b) (hl : (s.buf i).lock = none) :
    Ok dev ((s.setBuf i { s.buf i with lock := some p }).goto p (.test i b)) w := by
  have hwants := h.named.wants p i b (by rw [hp]; rfl)
  refine h.users rfl (h.counted.change rfl rfl ?_ ?_ ?_ ?_) ?_ (fun _ => hwants.1) ?_ ?_ ?_
  · simp [hp, hl, Pc.pending]
  · intro j hj
    simp [hp, Pc.pending, hj.symm]
  · simp [hl]
  · simp [Pc.busy]
  · intro j b' hj
    simp only [Pc.wants, Option.some.injEq, Prod.mk.injEq] at hj
    obtain ⟨rfl, rfl⟩ := hj
    exact hwants
  · intro j q hj hq
    rcases eq_or_ne j i with rfl | hji
    · obtain rfl : p = q := by simpa using hj
      simp [Pc.busy] at hq
    · rw [update_of_ne hji] at hj
      refine h.fresh.valid j q hj ?_
      rcases eq_or_ne q p with rfl | hqp
      · rw [hp]
        simp [Pc.busy]
      · rwa [update_of_ne hqp] at hq
  · intro j hj
    have hji : j ≠ i := by
      rintro rfl
      rw [h.fresh.untouched hl] at hj
      cases hj
    obtain ⟨q, hq, hbusy⟩ := h.fresh.touched j hj
    refine ⟨q, by rwa [update_of_ne hji], ?_⟩
    rcases eq_or_ne q p with rfl | hqp
    · simp [Pc.busy, hji.symm]
    · rwa [update_of_ne hqp]
  · simp [hp]

theorem untouched_of_busy (hp : (s.pc p).busy = some i) : w.touched i = false := by
  cases ht : w.touched i with
  | false => rfl
  | true =>
    obtain ⟨q, hq, hbusy⟩ := h.fresh.touched i ht
    obtain rfl : p = q := by simpa [h.counted.busy p i hp] using hq
    exact absurd hp hbusy

/-- A buffer is in the queue only while the process that holds it waits. -/
theorem not_queued (hlock : (s.buf i).lock = some p)
    (hp : ∀ b, s.pc p ≠ .wait i b) : i ∉ s.idequeue := by
  intro hi
  obtain ⟨q, b, hq⟩ := h.fresh.queued i hi
  obtain rfl : p = q := by simpa [hlock] using h.counted.busy q i (by rw [hq]; rfl)
  exact hp b hq

theorem goto (hcount : ∀ j, v.pending j = (s.pc p).pending j)
    (hbusy : ∀ j, v.busy = some j → (s.buf j).lock = some p ∧ w.touched j = false)
    (hwants : ∀ j b, v.wants = some (j, b) → (s.buf j).dev = dev ∧ (s.buf j).blockno = b)
    (hvalid : ∀ j, (s.buf j).lock = some p → v.busy ≠ some j → (s.buf j).valid = true)
    (hwait : ∀ j b, s.pc p = .wait j b → j ∉ s.idequeue) : Ok dev (s.goto p v) w := by
  refine ⟨h.counted.goto rfl rfl hcount (fun j hj => (hbusy j hj).1),
    h.named.change rfl (fun _ => rfl) (fun _ => rfl) h.named.order hwants h.named.locked,
    h.fresh.same (fun _ => rfl) rfl rfl rfl ?_ ?_ ?_⟩ <;> simp only [Cache.goto]
  · intro j q hj hq
    rcases eq_or_ne q p with rfl | hqp
    · rw [update_self] at hq
      exact hvalid j hj hq
    · rw [update_of_ne hqp] at hq
      exact h.fresh.valid j q hj hq
  · intro j hj
    obtain ⟨q, hq, hb⟩ := h.fresh.touched j hj
    refine ⟨q, hq, ?_⟩
    rcases eq_or_ne q p with rfl | hqp
    · rw [update_self]
      intro hv
      rw [(hbusy j hv).2] at hj
      cases hj
    · rwa [update_of_ne hqp]
  · intro q j b hj hq
    rcases eq_or_ne q p with rfl | hqp
    · exact absurd hj (hwait j b hq)
    · rwa [update_of_ne hqp]

theorem returns (hp : (s.pc p).busy = some i) (hv : (s.buf i).valid = true)
    (hcount : ∀ j, (s.pc p).pending j = 0) (hq : i ∉ s.idequeue) : Ok dev (s.goto p .idle) w := by
  refine h.goto (fun j => (hcount j).symm) (by simp [Pc.busy]) (by simp [Pc.wants]) ?_ ?_
  · intro j hj _
    rcases eq_or_ne j i with rfl | hji
    · exact hv
    · refine h.fresh.valid j p hj ?_
      rw [hp]
      simpa using hji.symm
  · intro j b hj
    rw [hj] at hp
    obtain rfl : j = i := by simpa [Pc.busy] using hp
    exact hq

theorem test (hp : s.pc p = .test i b) :
    Ok dev (s.goto p (if (s.buf i).valid then .idle else .enter i b)) w := by
  have hbusy : (s.pc p).busy = some i := by rw [hp]; rfl
  have hlock := h.counted.busy p i hbusy
  split_ifs with hv
  · exact h.returns hbusy hv (by simp [hp, Pc.pending]) (h.not_queued hlock (by simp [hp]))
  · refine h.goto (by simp [hp, Pc.pending]) ?_ ?_ ?_ (by simp [hp])
    · intro j hj
      obtain rfl : i = j := by simpa [Pc.busy] using hj
      exact ⟨hlock, h.untouched_of_busy hbusy⟩
    · intro j b' hj
      refine h.named.wants p j b' ?_
      rw [hp]
      exact hj
    · intro j hj hv'
      refine h.fresh.valid j p hj ?_
      rw [hp]
      exact hv'

theorem wake (hp : s.pc p = .wait i b) (hv : (s.buf i).valid = true)
    (hd : (s.buf i).dirty = false) : Ok dev (s.goto p .idle) w := by
  refine h.returns (by rw [hp]; rfl) hv (by simp [hp, Pc.pending]) ?_
  intro hi
  rw [h.fresh.needed i hi hv] at hd
  cases hd

theorem brelse (ho : s.Owns p i) (ht : w.touched i = false) :
    Ok dev ((s.setBuf i { s.buf i with lock := none }).goto p (.unref i)) w := by
  obtain ⟨hp, hlock⟩ := ho
  have hbusy := @busy_update N α s p (.unref i) (by rw [hp]; rfl)
  refine h.users rfl (h.counted.change rfl rfl ?_ ?_ ?_ ?_) ?_ (absurd rfl) ?_ ?_ ?_
  · simp [hp, hlock, Pc.pending]
  · intro j hj
    simp [hp, Pc.pending, hj.symm]
  · intro q hq hl
    rw [hlock] at hl
    exact absurd (Option.some.inj hl).symm hq
  · simp [Pc.busy]
  · simp [Pc.wants]
  · intro j q hj hq
    rw [hbusy] at hq
    rcases eq_or_ne j i with rfl | hji
    · simp at hj
    · rw [update_of_ne hji] at hj
      exact h.fresh.valid j q hj hq
  · intro j hj
    have hji : j ≠ i := by
      rintro rfl
      rw [ht] at hj
      cases hj
    simpa only [hbusy, update_of_ne hji] using h.fresh.touched j hj
  · simp [hp]

theorem reorder {order : List (Fin NBUF)} (ho : ∀ j, j ∈ order) :
    Ok dev { s with order := order } w :=
  ⟨⟨h.counted.refcnt, h.counted.busy⟩, ⟨ho, h.named.unique, h.named.wants, h.named.locked⟩,
    h.fresh.same (fun _ => rfl) rfl rfl rfl h.fresh.valid h.fresh.touched (fun _ _ _ _ hq => hq)⟩

theorem unref (hp : s.pc p = .unref i) : Ok dev (s.unref p i) w := by
  have hrefs : 1 ≤ (s.buf i).refcnt := by
    have hle := le_sum (fun q => (s.pc q).pending i) p
    have hone : (s.pc p).pending i = 1 := by simp [hp, Pc.pending]
    have := h.counted.refcnt i
    omega
  have hok : Ok dev ((s.setBuf i { s.buf i with refcnt := (s.buf i).refcnt - 1 }).goto p .idle)
      w := by
    refine h.refs ?_ ?_ (by rw [hp]; rfl) rfl (by simp [Pc.wants])
    · simp only [hp, Pc.pending, if_true]
      omega
    · intro j hj
      simp [hp, Pc.pending, hj.symm]
  simp only [Cache.unref]
  split
  · refine hok.reorder ?_
    intro j
    rcases eq_or_ne j i with rfl | hji
    · exact List.mem_cons_self
    · exact List.mem_cons_of_mem _ ((List.mem_erase_of_ne hji).mpr (h.named.order j))
  · exact hok

theorem enqueue (hp : s.pc p = .enter i b)
    (hneed : (s.buf i).valid = true → (s.buf i).dirty = true) (hbuf : s'.buf = s.buf)
    (hpc : s'.pc = update s.pc p (.wait i b)) (horder : s'.order = s.order)
    (hqueue : s'.idequeue = s.idequeue ++ [i]) (hdisk : s'.disk = s.disk)
    (hrequest : s'.request = s'.idequeue.head?.map (fun j => (s.buf j).request)) : Ok dev s' w := by
  have hlock := h.counted.busy p i (by rw [hp]; rfl)
  have hbusy := @busy_update N α s p (.wait i b) (by rw [hp]; rfl)
  have hi := h.not_queued hlock (by simp [hp])
  refine ⟨h.counted.goto hbuf hpc (by simp [hp, Pc.pending]) ?_,
    h.named.change hpc (by simp [hbuf]) (by simp [hbuf]) (by simpa [horder] using h.named.order)
      ?_ (by simpa [hbuf] using h.named.locked),
    ⟨?_, ?_, ?_, ?_, ?_, ?_, ?_, ?_, ?_, ?_⟩⟩
  · intro j hj
    obtain rfl : i = j := by simpa [Pc.busy] using hj
    exact hlock
  · intro j b' hj
    refine h.named.wants p j b' ?_
    rw [hp]
    exact hj
  · simpa only [hbuf, hpc, hbusy] using h.fresh.valid
  · simpa only [hbuf] using h.fresh.dirty
  · simpa only [hbuf, hpc, hbusy] using h.fresh.touched
  · rw [hqueue]
    refine List.nodup_append.mpr ⟨h.fresh.nodup, List.nodup_singleton i, ?_⟩
    rintro j hj k hk rfl
    rw [List.mem_singleton.mp hk] at hj
    exact hi hj
  · intro j hj
    rw [hqueue, List.mem_append, List.mem_singleton] at hj
    rw [hpc]
    rcases hj with hj | rfl
    · obtain ⟨q, b', hq⟩ := h.fresh.queued j hj
      refine ⟨q, b', ?_⟩
      rcases eq_or_ne q p with rfl | hqp
      · rw [hp] at hq
        cases hq
      · rwa [update_of_ne hqp]
    · exact ⟨p, b, update_self _ _ _⟩
  · intro j hj
    rw [hqueue, List.mem_append, List.mem_singleton] at hj
    rw [hbuf]
    rcases hj with hj | rfl
    · exact h.fresh.needed j hj
    · exact hneed
  · rw [hrequest, hbuf]
  · simpa only [hbuf] using h.fresh.data
  · simpa only [hbuf, hdisk] using h.fresh.disk
  · simpa only [hbuf] using h.fresh.owed

theorem iderw (hp : s.pc p = .enter i b) (hs : s.iderw p i b = some s') :
    Ok dev s' w := by
  unfold Cache.iderw at hs
  split at hs
  · cases hs
  · next hdone =>
    have hneed : (s.buf i).valid = true → (s.buf i).dirty = true := by simpa using hdone
    by_cases hhead : (s.idequeue ++ [i]).head? = some i
    · rw [if_pos (by exact hhead)] at hs
      obtain rfl := idestart_eq_some hs
      refine h.enqueue hp hneed rfl rfl rfl rfl rfl ?_
      simp only [Cache.goto, hhead]
      rfl
    · rw [if_neg (by exact hhead)] at hs
      cases hs
      refine h.enqueue hp hneed rfl rfl rfl rfl rfl ?_
      simp only [Cache.goto, h.fresh.request]
      cases hq : s.idequeue with
      | nil => simp [hq] at hhead
      | cons j q => rfl

/-- The buffer that the disk has served holds what was written last. -/
theorem served_data (hi : i ∈ s.idequeue) :
    (if (s.buf i).dirty then (s.buf i).data else s.disk (s.buf i).blockno) =
      w.last (s.buf i).blockno := by
  obtain ⟨p, b, hp⟩ := h.fresh.queued i hi
  obtain ⟨hdev, -⟩ := h.named.wants p i b (by rw [hp]; rfl)
  split_ifs with hd
  · exact h.fresh.data i hdev (h.fresh.dirty i hd).1 (h.untouched_of_busy (p := p) (by rw [hp]; rfl))
  · refine h.fresh.disk _ ?_
    intro j hj hb
    obtain rfl := h.named.unique j i hj hdev hb
    simpa using hd

end

variable {rest : List (Fin NBUF)}

section

variable (h : Ok dev s w)
include h

theorem record_ideintr (hq : s.idequeue = i :: rest) :
    w.record s .ideintr = { w with owed :=
      if (s.buf i).dirty then update w.owed (s.buf i).blockno false else w.owed } := by
  have hrequest := h.fresh.request
  rw [hq] at hrequest
  cases hd : (s.buf i).dirty <;>
    simp [View.record, hrequest, Buf.request, hd]

theorem finish_eq (hq : s.idequeue = i :: rest) :
    s.finish i rest = { s.setBuf i { s.buf i with
        data := w.last (s.buf i).blockno, valid := true, dirty := false } with
      idequeue := rest
      request := none
      disk := if (s.buf i).dirty then update s.disk (s.buf i).blockno (s.buf i).data
        else s.disk } := by
  have hrequest : s.request = some (s.buf i).request := by rw [h.fresh.request, hq]; rfl
  have hdata := h.served_data (i := i) (by simp [hq])
  unfold Cache.finish
  cases hd : (s.buf i).dirty <;> simp_all [Buf.request]

theorem finish (hq : s.idequeue = i :: rest)
    (hs : s' = { s.finish i rest with request := rest.head?.map (fun j => (s.buf j).request) }) :
    Ok dev s' (w.record s .ideintr) := by
  rw [h.finish_eq hq] at hs
  have hi : i ∈ s.idequeue := by simp [hq]
  have hnodup := h.fresh.nodup
  rw [hq, List.nodup_cons] at hnodup
  have hne : ∀ j ∈ rest, j ≠ i := by
    rintro j hj rfl
    exact hnodup.1 hj
  have hself : s'.buf i = { s.buf i with
      data := w.last (s.buf i).blockno, valid := true, dirty := false } := by
    simp [hs, Cache.setBuf]
  have hother : ∀ j, j ≠ i → s'.buf j = s.buf j := by
    intro j hj
    simp [hs, Cache.setBuf, hj]
  have hpc : s'.pc = s.pc := by rw [hs]; rfl
  have hqueue : s'.idequeue = rest := by rw [hs]
  have hsame : ∀ j, (s'.buf j).dev = (s.buf j).dev ∧ (s'.buf j).blockno = (s.buf j).blockno ∧
      (s'.buf j).lock = (s.buf j).lock ∧ (s'.buf j).refcnt = (s.buf j).refcnt := by
    intro j
    rcases eq_or_ne j i with rfl | hj
    · simp [hself]
    · simp [hother j hj]
  rw [h.record_ideintr hq]
  refine ⟨⟨?_, ?_⟩, ⟨?_, ?_, ?_, ?_⟩, ⟨?_, ?_, ?_, ?_, ?_, ?_, ?_, ?_, ?_, ?_⟩⟩
  · simpa only [hsame, hpc] using h.counted.refcnt
  · simpa only [hsame, hpc] using h.counted.busy
  · rw [hs]
    exact h.named.order
  · simpa only [hsame] using h.named.unique
  · simpa only [hsame, hpc] using h.named.wants
  · simpa only [hsame] using h.named.locked
  · intro j q hj hbusy
    rw [(hsame j).2.2.1] at hj
    rw [hpc] at hbusy
    rcases eq_or_ne j i with rfl | hji
    · rw [hself]
    · rw [hother j hji]
      exact h.fresh.valid j q hj hbusy
  · intro j hj
    rcases eq_or_ne j i with rfl | hji
    · simp [hself] at hj
    · rw [hother j hji] at hj ⊢
      exact h.fresh.dirty j hj
  · simpa only [hsame, hpc] using h.fresh.touched
  · rw [hqueue]
    exact hnodup.2
  · intro j hj
    rw [hqueue] at hj
    rw [hpc]
    exact h.fresh.queued j (by simp [hq, hj])
  · intro j hj
    rw [hqueue] at hj
    rw [hother j (hne j hj)]
    exact h.fresh.needed j (by simp [hq, hj])
  · rw [hqueue, show s'.request = rest.head?.map (fun j => (s.buf j).request) by rw [hs]]
    refine head_map_congr ?_
    intro j hj
    rw [hother j (hne j hj)]
  · intro j hj hv ht
    rcases eq_or_ne j i with rfl | hji
    · rw [hself]
    · rw [hother j hji] at hj hv ⊢
      exact h.fresh.data j hj hv ht
  · intro b' hb'
    rw [show s'.disk = if (s.buf i).dirty then update s.disk (s.buf i).blockno (s.buf i).data
      else s.disk by rw [hs]]
    have hold : b' ≠ (s.buf i).blockno ∨ (s.buf i).dirty = false → s.disk b' = w.last b' := by
      intro hcase
      refine h.fresh.disk b' ?_
      intro j hj hb
      rcases eq_or_ne j i with rfl | hji
      · exact hcase.resolve_left (not_not_intro hb.symm)
      · have := hb' j
        rw [hother j hji] at this
        exact this hj hb
    have hserved := h.served_data hi
    split_ifs at hserved ⊢ with hd
    · rcases eq_or_ne b' (s.buf i).blockno with rfl | hne'
      · rw [update_self]
        exact hserved
      · rw [update_of_ne hne']
        exact hold (Or.inl hne')
    · exact hold (Or.inr (by simpa using hd))
  · intro b' hb'
    have howed : w.owed b' = true ∧ (b' ≠ (s.buf i).blockno ∨ (s.buf i).dirty = false) := by
      split_ifs at hb' with hd
      · rcases eq_or_ne b' (s.buf i).blockno with rfl | hne'
        · simp at hb'
        · simp only [update_of_ne hne'] at hb'
          exact ⟨hb', Or.inl hne'⟩
      · exact ⟨hb', Or.inr (by simpa using hd)⟩
    obtain ⟨j, hj, hb, hjd⟩ := h.fresh.owed b' howed.1
    have hji : j ≠ i := by
      rintro rfl
      rcases howed.2 with hne' | hd
      · exact hne' hb.symm
      · rw [hd] at hjd
        cases hjd
    refine ⟨j, ?_⟩
    rw [hother j hji]
    exact ⟨hj, hb, hjd⟩

theorem ideintr (hs : s.ideintr = some s') : Ok dev s' (w.record s .ideintr) := by
  cases hq : s.idequeue with
  | nil =>
    simp only [Cache.ideintr, hq, Option.some.injEq] at hs
    have hrequest := h.fresh.request
    rw [hq] at hrequest
    simp only [View.record, hrequest, List.head?_nil, Option.map_none]
    exact hs ▸ h
  | cons i rest =>
    refine h.finish hq ?_
    cases rest with
    | nil =>
      simp only [Cache.ideintr, hq, Option.some.injEq] at hs
      exact hs.symm
    | cons j rest =>
      simp only [Cache.ideintr, hq] at hs
      have hnodup := h.fresh.nodup
      rw [hq] at hnodup
      have hji : j ≠ i := by
        rintro rfl
        simp at hnodup
      have hbuf : (s.finish i (j :: rest)).buf j = s.buf j := by
        simp [Cache.finish, Cache.setBuf, hji]
      rw [idestart_eq_some hs, hbuf]
      rfl

theorem owned (ho : s.Owns p i) {data : α} {dirty : Bool} {w' : View α}
    (htouched : ∀ j, j ≠ i → w'.touched j = w.touched j)
    (hlast : ∀ b, b ≠ (s.buf i).blockno → w'.last b = w.last b)
    (howed : ∀ b, b ≠ (s.buf i).blockno → w'.owed b = w.owed b)
    (hdata : w'.touched i = false → data = w'.last (s.buf i).blockno)
    (hdirty : dirty = true ∨ dirty = (s.buf i).dirty ∧
      w'.last (s.buf i).blockno = w.last (s.buf i).blockno ∧
      w'.owed (s.buf i).blockno = w.owed (s.buf i).blockno) :
    Ok dev (s.setBuf i { s.buf i with data := data, dirty := dirty }) w' := by
  have hdev := h.named.locked i (by simp [ho.2])
  have hbusy : (s.pc p).busy ≠ some i := by simp [ho.1, Pc.busy]
  have hnotq := h.not_queued ho.2 (by simp [ho.1])
  have hne : ∀ j ∈ s.idequeue, j ≠ i := by
    rintro j hj rfl
    exact hnotq hj
  have hsame : ∀ j, let x := update s.buf i { s.buf i with data := data, dirty := dirty } j
      x.dev = (s.buf j).dev ∧ x.blockno = (s.buf j).blockno ∧ x.valid = (s.buf j).valid ∧
        x.lock = (s.buf j).lock ∧ x.refcnt = (s.buf j).refcnt := by
    intro j
    rcases eq_or_ne j i with rfl | hj
    · simp
    · simp [hj]
  refine ⟨⟨?_, ?_⟩, ⟨h.named.order, ?_, ?_, ?_⟩, ⟨?_, ?_, ?_, h.fresh.nodup, h.fresh.queued,
    ?_, ?_, ?_, ?_, ?_⟩⟩ <;> simp only [Cache.setBuf, hsame]
  · exact h.counted.refcnt
  · exact h.counted.busy
  · exact h.named.unique
  · exact h.named.wants
  · exact h.named.locked
  · exact h.fresh.valid
  · intro j hj
    rcases eq_or_ne j i with rfl | hji
    · exact ⟨h.fresh.valid j p ho.2 hbusy, hdev⟩
    · rw [update_of_ne hji] at hj
      exact h.fresh.dirty j hj
  · intro j hj
    rcases eq_or_ne j i with rfl | hji
    · exact ⟨p, ho.2, hbusy⟩
    · rw [htouched j hji] at hj
      exact h.fresh.touched j hj
  · intro j hj
    rw [update_of_ne (hne j hj)]
    exact h.fresh.needed j hj
  · rw [h.fresh.request]
    refine head_map_congr ?_
    intro j hj
    rw [update_of_ne (hne j hj)]
  · intro j hj hv ht
    rcases eq_or_ne j i with rfl | hji
    · rw [update_self]
      exact hdata ht
    · rw [update_of_ne hji]
      rw [htouched j hji] at ht
      rw [h.fresh.data j hj hv ht]
      exact (hlast _ (fun hb => hji (h.named.unique j i hj hdev hb))).symm
  · intro b hb
    have hold : b ≠ (s.buf i).blockno ∨ dirty = (s.buf i).dirty → s.disk b = w.last b := by
      intro hcase
      refine h.fresh.disk b ?_
      intro j hj hjb
      have := hb j hj hjb
      rcases eq_or_ne j i with rfl | hji
      · rw [update_self] at this
        rw [← hcase.resolve_left (not_not_intro hjb.symm)]
        exact this
      · rwa [update_of_ne hji] at this
    rcases eq_or_ne b (s.buf i).blockno with rfl | hne'
    · have hclean : dirty = false := by simpa using hb i hdev rfl
      obtain ⟨hsame', hlast', -⟩ := hdirty.resolve_left (by simp [hclean])
      rw [hlast']
      exact hold (Or.inr hsame')
    · rw [hlast b hne']
      exact hold (Or.inl hne')
  · intro b hb
    rcases eq_or_ne b (s.buf i).blockno with rfl | hne'
    · rcases hdirty with hd | ⟨hd, -, ho'⟩
      · exact ⟨i, hdev, rfl, by rw [update_self]; exact hd⟩
      · rw [ho'] at hb
        obtain ⟨j, hj, hjb, hjd⟩ := h.fresh.owed _ hb
        obtain rfl := h.named.unique j i hj hdev hjb
        exact ⟨j, hj, rfl, by rw [update_self, ← hjd]; exact hd⟩
    · rw [howed b hne'] at hb
      obtain ⟨j, hj, hjb, hjd⟩ := h.fresh.owed b hb
      have hji : j ≠ i := by
        rintro rfl
        exact hne' hjb.symm
      exact ⟨j, hj, hjb, by rw [update_of_ne hji]; exact hjd⟩

theorem modify (ho : s.Owns p i) (data : α) :
    Ok dev (s.setBuf i { s.buf i with data := data }) (w.record s (.modify p i data)) := by
  exact h.owned ho (fun _ hj => update_of_ne hj _ _) (fun _ _ => rfl) (fun _ _ => rfl)
    (by simp [View.record]) (Or.inr ⟨rfl, rfl, rfl⟩)

theorem pin (ho : s.Owns p i) :
    Ok dev (s.setBuf i { s.buf i with dirty := true }) (w.record s (.pin p i)) := by
  exact h.owned ho (fun _ hj => update_of_ne hj _ _) (fun _ hb => update_of_ne hb _ _)
    (fun _ hb => update_of_ne hb _ _) (by simp [View.record]) (Or.inl rfl)

theorem bwrite (ho : s.Owns p i) :
    Ok dev ((s.setBuf i { s.buf i with dirty := true }).goto p (.enter i (s.buf i).blockno))
      (w.record s (.bwrite p i)) := by
  have hdev := h.named.locked i (by simp [ho.2])
  have hok : Ok dev (s.setBuf i { s.buf i with dirty := true }) (w.record s (.bwrite p i)) :=
    h.owned ho (fun _ hj => update_of_ne hj _ _) (fun _ hb => update_of_ne hb _ _) (fun _ _ => rfl)
      (by simp [View.record]) (Or.inl rfl)
  refine hok.goto ?_ ?_ ?_ ?_ ?_
  · simp [Cache.setBuf, ho.1, Pc.pending]
  · intro j hj
    obtain rfl : i = j := by simpa [Pc.busy] using hj
    simp [Cache.setBuf, ho.2, View.record]
  · intro j b hj
    simp only [Pc.wants, Option.some.injEq, Prod.mk.injEq] at hj
    obtain ⟨rfl, rfl⟩ := hj
    simp [Cache.setBuf, hdev]
  · intro j hj _
    refine hok.fresh.valid j p hj ?_
    simp [Cache.setBuf, ho.1, Pc.busy]
  · simp [Cache.setBuf, ho.1]

end

end Ok

theorem step_ok (h : Ok dev s w) {e : Event N α} (hw : WritesBack w e)
    (hs : step dev s e = some s') : Ok dev s' (w.record s e) := by
  cases step_cases hs with
  | hit hp hl => exact h.hit hp hl
  | recycle hp hl hv => exact h.recycle hp hl hv
  | acquiresleep hp hl => exact h.acquiresleep hp hl
  | test hp => exact h.test hp
  | iderw hp hs => exact h.iderw hp hs
  | wake hp hv hd => exact h.wake hp hv hd
  | unref hp => exact h.unref hp
  | ideintr hs => exact h.ideintr hs
  | modify ho => exact h.modify ho _
  | pin ho => exact h.pin ho
  | bwrite ho => exact h.bwrite ho
  | brelse ho => exact h.brelse ho hw

/-! ### Reading and recycling -/

theorem Ok.returned (h : Ok dev s w) (hp : s.pc p = .test i b ∨ s.pc p = .wait i b)
    (hs : step dev s (.go p) = some s') (hidle : s'.pc p = .idle) :
    (s'.buf i).lock = some p ∧ (s'.buf i).dev = dev ∧ (s'.buf i).blockno = b ∧
      (s'.buf i).data = w.last b := by
  have hbusy : (s.pc p).busy = some i := by rcases hp with hp | hp <;> rw [hp] <;> rfl
  obtain ⟨hdev, hb⟩ := h.named.wants p i b (by rcases hp with hp | hp <;> rw [hp] <;> rfl)
  have hlock := h.counted.busy p i hbusy
  have hstep : s' = s.goto p .idle ∧ (s.buf i).valid = true := by
    rcases hp with hp | hp
    · simp only [step, Cache.go, hp, Option.some.injEq] at hs
      subst hs
      split_ifs at hidle ⊢ with hv
      · exact ⟨rfl, hv⟩
      · simp [Cache.goto] at hidle
    · simp only [step, Cache.go, hp] at hs
      split at hs
      · next hv => exact ⟨(Option.some.inj hs).symm, hv.1⟩
      · cases hs
  obtain ⟨rfl, hv⟩ := hstep
  refine ⟨hlock, hdev, hb, ?_⟩
  rw [← hb]
  exact h.fresh.data i hdev hv (h.untouched_of_busy hbusy)

/-- Buffer `i` is for another block after a step. -/
def Recycled (s s' : Cache N α) (i : Fin NBUF) : Prop :=
  ((s'.buf i).dev, (s'.buf i).blockno) ≠ ((s.buf i).dev, (s.buf i).blockno)

theorem not_recycled_setBuf {j : Fin NBUF} (hbuf : s'.buf = update s.buf j x)
    (hd : x.dev = (s.buf j).dev) (hb : x.blockno = (s.buf j).blockno) : ¬ Recycled s s' i := by
  unfold Recycled
  rw [hbuf]
  rcases eq_or_ne i j with rfl | hij
  · simp [hd, hb]
  · simp [hij]

theorem recycled_cases {e : Event N α} (hs : step dev s e = some s') (hr : Recycled s s' i) :
    s.victim = some i := by
  cases step_cases hs with
  | recycle hp hl hv =>
    rename_i p b j
    rcases eq_or_ne i j with rfl | hij
    · exact hv
    · simp [Recycled, Cache.goto, Cache.setBuf, hij] at hr
  | iderw hp hs => simp [Recycled, (iderw_frame hs).1] at hr
  | unref hp => exact absurd hr (not_recycled_setBuf unref_frame.2 rfl rfl)
  | ideintr hs =>
    have := (ideintr_frame hs).2 i
    simp only [Buf.users, Prod.mk.injEq] at this
    simp [Recycled, this] at hr
  | test hp => exact absurd rfl hr
  | wake hp hv hd => exact absurd rfl hr
  | _ => exact absurd hr (not_recycled_setBuf rfl rfl rfl)

/-- Buffers in use are not recycled, and neither is a buffer that the disk lacks. -/
theorem Ok.recycled (h : Ok dev s w) {e : Event N α} (hs : step dev s e = some s')
    (hr : Recycled s s' i) :
    (s.buf i).refcnt = 0 ∧ ((s.buf i).dev = dev → w.owed (s.buf i).blockno = false) := by
  obtain ⟨hrefs, hdirty⟩ := victim_eq_some (recycled_cases hs hr)
  refine ⟨hrefs, ?_⟩
  intro hdev
  by_contra howed
  obtain ⟨j, hj, hb, hjd⟩ := h.fresh.owed _ (by simpa using howed)
  obtain rfl := h.named.unique j i hj hdev hb
  rw [hdirty] at hjd
  cases hjd

end Xv6.Bio
