import Mathlib.Data.Fintype.Card
import Xv6.Ide

/-!
# The disk serves every request once, in order

The queue is the requests that have arrived and are not done, in this order, and the first of them is the
one that the device works on. Each waiting process sleeps until its request is done.
-/

namespace Xv6.Ide

open Function

variable {P : Type} {α : Type*} {s s' : State P α} {p : P} {b : Fin NBUF} {k : Nat}
  {qs : List (Fin NBUF)}

/-- A buffer without its link. -/
def Buf.core (x : Buf P α) : Buf P α := { x with qnext := none }

def Call.buf : Call → Option (Fin NBUF)
  | idle => none
  | asleep b _ => some b
  | awake b _ => some b

/-- The request `k` of process `p` for buffer `b` is not done. -/
structure Pending (s : State P α) (p : P) (b : Fin NBUF) (k : Nat) : Prop where
  lock : (s.buf b).lock = some p
  unclean : (s.buf b).clean = false
  request : s.arrived[k]? = some (s.request b)

/-- The transfer is the one that was asked for. -/
structure Carries (a : Request α) (t : Transfer α) : Prop where
  buf : t.buf = a.buf
  drive : t.drive = a.drive
  block : t.sector = a.block
  write : t.write = a.write
  data : ∀ data, a.write = some data → t.data = data

/-- The request `k` of process `p` for buffer `b` is done: the buffer holds what is in its block. -/
structure Finished (s : State P α) (p : P) (b : Fin NBUF) (k : Nat) : Prop where
  lock : (s.buf b).lock = some p
  clean : (s.buf b).clean = true
  transfer : ∃ a t, s.arrived[k]? = some a ∧ s.done[k]? = some t ∧ Carries a t ∧ a.buf = b ∧
    a.drive = (s.buf b).dev % 2 ∧ a.block = (s.buf b).blockno ∧ t.data = (s.buf b).data

/-- The buffers `qs` wait for the device, each with the process that has called `iderw`. -/
structure Waiting (s : State P α) (qs : List (Fin NBUF)) : Prop where
  linked : Linked s.link none qs
  arrived : s.arrived.map Request.buf = s.done.map Transfer.buf ++ qs
  queued : ∀ i b, qs[i]? = some b → ∃ p, s.call p = .asleep b (s.done.length + i)
  asleep : ∀ p b k, s.call p = .asleep b k →
    Pending s p b k ∧ ∃ i, k = s.done.length + i ∧ qs[i]? = some b
  awake : ∀ p b k, s.call p = .awake b k → Finished s p b k
  carried : ∀ (k : Nat) a t, s.arrived[k]? = some a → s.done[k]? = some t → Carries a t

/-- The device works on the first buffer of `qs`. -/
structure Working (s : State P α) (qs : List (Fin NBUF)) : Prop where
  started : s.started = s.done.map Transfer.buf ++ qs.take 1
  device : s.device = qs.head?.map (fun b => (s.buf b).command)
  block : ∀ b, qs.head? = some b → (s.buf b).blockno < FSSIZE

theorem boot_waiting (h : Boot s) : Waiting s [] := by
  refine ⟨.nil h.idequeue, ?_, ?_, ?_, ?_, ?_⟩
  · rw [h.arrived, h.done]
    rfl
  · rintro i b hi
    cases hi
  · intro p b k hp
    rw [h.call p] at hp
    cases hp
  · intro p b k hp
    rw [h.call p] at hp
    cases hp
  · intro k a t ha
    rw [h.arrived] at ha
    cases ha

theorem boot_working (h : Boot s) : Working s [] := by
  refine ⟨?_, h.device, ?_⟩
  · rw [h.started, h.done]
    rfl
  · rintro b ⟨⟩

theorem Waiting.lock (h : Waiting s qs) (hp : (s.call p).buf = some b) : (s.buf b).lock = some p := by
  cases hc : s.call p with
  | idle =>
    rw [hc] at hp
    cases hp
  | asleep b' k =>
    rw [hc] at hp
    cases hp
    exact (h.asleep p b k hc).1.lock
  | awake b' k =>
    rw [hc] at hp
    cases hp
    exact (h.awake p b k hc).lock

theorem Waiting.caller (h : Waiting s qs) (hb : b ∈ qs) : ∃ p, (s.call p).buf = some b := by
  obtain ⟨i, hi⟩ := List.mem_iff_getElem?.mp hb
  obtain ⟨p, hp⟩ := h.queued i b hi
  exact ⟨p, by rw [hp]; rfl⟩

variable {x y : Buf P α} {b' : Fin NBUF} {c : Command α} {answer : α}

theorem Buf.core_inj (h : x.core = y.core) : x.dev = y.dev ∧
    x.blockno = y.blockno ∧ x.valid = y.valid ∧ x.dirty = y.dirty ∧ x.lock = y.lock ∧
    x.data = y.data := by
  simpa [Buf.core] using h

theorem Buf.clean_congr (h : x.core = y.core) : x.clean = y.clean := by
  obtain ⟨-, -, hv, hd, -⟩ := Buf.core_inj h
  rw [Buf.clean, Buf.clean, hv, hd]

theorem Buf.command_congr (h : x.core = y.core) : x.command = y.command := by
  obtain ⟨hdev, hblock, -, hd, -, hdata⟩ := Buf.core_inj h
  rw [Buf.command, Buf.command, hdev, hblock, hd, hdata]

theorem request_congr (h : (s'.buf b).core = (s.buf b).core) : s'.request b = s.request b := by
  obtain ⟨hdev, hblock, -, hd, -, hdata⟩ := Buf.core_inj h
  rw [State.request, State.request, hdev, hblock, hd, hdata]

theorem Pending.congr (h : Pending s p b k) (hcore : (s'.buf b).core = (s.buf b).core)
    (harr : s'.arrived[k]? = s.arrived[k]?) : Pending s' p b k := by
  refine ⟨?_, ?_, ?_⟩
  · rw [(Buf.core_inj hcore).2.2.2.2.1]
    exact h.lock
  · rw [Buf.clean_congr hcore]
    exact h.unclean
  · rw [harr, request_congr hcore]
    exact h.request

theorem Finished.congr (h : Finished s p b k) (hcore : (s'.buf b).core = (s.buf b).core)
    (harr : ∀ a, s.arrived[k]? = some a → s'.arrived[k]? = some a)
    (hdone : ∀ t, s.done[k]? = some t → s'.done[k]? = some t) : Finished s' p b k := by
  obtain ⟨hdev, hblock, -, -, hlock, hdata⟩ := Buf.core_inj hcore
  obtain ⟨a, t, ha, ht, hrest⟩ := h.transfer
  refine ⟨hlock.trans h.lock, (Buf.clean_congr hcore).trans h.clean, a, t, harr a ha, hdone t ht, ?_⟩
  rwa [hdev, hblock, hdata]

theorem Waiting.frame (h : Waiting s qs) (hlink : Linked s'.link none qs)
    (harr : s'.arrived = s.arrived) (hdone : s'.done = s.done) (hcall : s'.call = s.call)
    (hcore : ∀ p b, (s.call p).buf = some b → (s'.buf b).core = (s.buf b).core) : Waiting s' qs := by
  refine ⟨hlink, ?_, ?_, ?_, ?_, ?_⟩
  · rw [harr, hdone]
    exact h.arrived
  · rw [hcall, hdone]
    exact h.queued
  · intro p b k hp
    rw [hcall] at hp
    obtain ⟨hpend, i, hi, hb⟩ := h.asleep p b k hp
    refine ⟨hpend.congr (hcore p b (by rw [hp]; rfl)) (by rw [harr]), i, ?_, hb⟩
    rw [hdone]
    exact hi
  · intro p b k hp
    rw [hcall] at hp
    exact (h.awake p b k hp).congr (hcore p b (by rw [hp]; rfl)) (by rw [harr]; exact fun _ h => h)
      (by rw [hdone]; exact fun _ h => h)
  · rw [harr, hdone]
    exact h.carried

theorem Working.frame (h : Working s qs) (hstart : s'.started = s.started) (hdone : s'.done = s.done)
    (hdev : s'.device = s.device) (hcore : ∀ b ∈ qs, (s'.buf b).core = (s.buf b).core) :
    Working s' qs := by
  have hhead : ∀ b, qs.head? = some b → (s'.buf b).core = (s.buf b).core :=
    fun b hb => hcore b (List.mem_of_mem_head? hb)
  refine ⟨?_, ?_, ?_⟩
  · rw [hstart, hdone]
    exact h.started
  · rw [hdev, h.device]
    cases hq : qs.head? with
    | none => rfl
    | some b => exact congrArg some (Buf.command_congr (hhead b hq)).symm
  · intro b hb
    rw [(Buf.core_inj (hhead b hb)).2.1]
    exact h.block b hb

/-- No process has called `iderw` for the buffer. -/
def Free (s : State P α) (b : Fin NBUF) : Prop := ∀ p, (s.call p).buf ≠ some b

theorem Waiting.free_of_unlocked (h : Waiting s qs) (hb : (s.buf b).lock = none) : Free s b := by
  intro p hp
  rw [h.lock hp] at hb
  cases hb

theorem Waiting.free_of_idle (h : Waiting s qs) (hp : s.call p = .idle) (hb : (s.buf b).lock = some p) :
    Free s b := by
  intro q hq
  have hlock := h.lock hq
  rw [hb] at hlock
  cases hlock
  rw [hp] at hq
  cases hq

theorem Waiting.not_mem (h : Waiting s qs) (hb : Free s b) : b ∉ qs := by
  intro hmem
  obtain ⟨p, hp⟩ := h.caller hmem
  exact hb p hp

theorem link_setBuf {x : Buf P α} (b : Fin NBUF) {a : Option (Fin NBUF)} (ha : a ≠ some b) :
    (s.setBuf b x).link a = s.link a := by
  cases a with
  | none => rfl
  | some b' =>
    have hne : b' ≠ b := fun hc => ha (congrArg some hc)
    simp only [State.link, State.setBuf, update_of_ne hne]

theorem core_setBuf {x : Buf P α} (hne : b' ≠ b) :
    ((s.setBuf b x).buf b').core = (s.buf b').core := by
  simp only [State.setBuf, update_of_ne hne]

theorem Waiting.setBuf (h : Waiting s qs) (hb : Free s b) (x : Buf P α) :
    Waiting (s.setBuf b x) qs := by
  refine h.frame (h.linked.congr rfl ?_) rfl rfl rfl ?_
  · intro b' hb'
    refine link_setBuf b ?_
    rintro ⟨⟩
    exact h.not_mem hb hb'
  · intro p b' hp
    exact core_setBuf (fun hc => hb p (hc ▸ hp))

theorem Working.setBuf (h : Working s qs) (hb : b ∉ qs) (x : Buf P α) : Working (s.setBuf b x) qs :=
  h.frame rfl rfl rfl (fun _ hb' => core_setBuf (fun hc => hb (hc ▸ hb')))

/-! ### A new request -/

theorem link_setLink (s : State P α) (pp v : Option (Fin NBUF)) :
    (s.setLink pp v).link = update s.link pp v := by
  funext a
  cases pp with
  | none =>
    cases a with
    | none => rw [update_self]; rfl
    | some b => rw [update_of_ne (Option.some_ne_none _)]; rfl
  | some b' =>
    by_cases ha : a = some b'
    · subst ha
      rw [update_self]
      simp [State.link, State.setLink, State.setBuf]
    · rw [update_of_ne ha]
      exact link_setBuf b' ha

theorem core_setLink (s : State P α) (pp v : Option (Fin NBUF)) (b : Fin NBUF) :
    ((s.setLink pp v).buf b).core = (s.buf b).core := by
  cases pp with
  | none => rfl
  | some b' =>
    by_cases hb : b = b'
    · subst hb
      simp [State.setLink, State.setBuf, Buf.core]
    · simp [State.setLink, State.setBuf, update_of_ne hb]

/-- What `append` leaves as it is. -/
structure Appended (s s' : State P α) (qs : List (Fin NBUF)) : Prop where
  linked : Linked s'.link none qs
  core : ∀ b, (s'.buf b).core = (s.buf b).core
  device : s'.device = s.device
  disk : s'.disk = s.disk
  call : s'.call = s.call
  started : s'.started = s.started
  done : s'.done = s.done

theorem Waiting.append (h : Waiting s qs) (hb : Free s b) :
    ∃ s', s.append b = .ok s' ∧ Appended s s' (qs ++ [b]) := by
  have h' := h.setBuf hb { s.buf b with qnext := none }
  have hlen : qs.length < NBUF + 1 := by
    have := h.linked.nodup.length_le_card
    rw [Fintype.card_fin] at this
    omega
  have hcore : ∀ b', ((s.setBuf b { s.buf b with qnext := none }).buf b').core = (s.buf b').core := by
    intro b'
    by_cases hb' : b' = b
    · subst hb'
      simp [State.setBuf, Buf.core]
    · simp [State.setBuf, update_of_ne hb']
  refine ⟨(s.setBuf b { s.buf b with qnext := none }).setLink (lastLink none qs) (some b), ?_, ?_⟩
  · simp only [State.append, h'.linked.walk_eq hlen]
  · refine ⟨?_, fun b' => (core_setLink _ _ _ b').trans (hcore b'), ?_, ?_, ?_, ?_, ?_⟩
    · rw [link_setLink]
      refine h'.linked.snoc ?_ (h.not_mem hb) (Option.some_ne_none b).symm
        (fun x _ => (Option.some_ne_none x).symm)
      simp [State.link, State.setBuf]
    all_goals cases lastLink none qs <;> rfl

theorem Waiting.length_arrived (h : Waiting s qs) : s.arrived.length = s.done.length + qs.length := by
  have := congrArg List.length h.arrived
  simpa using this

theorem Appended.startFirst {s₁ s₂ : State P α} (h : Appended s s₁ (qs ++ [b])) (hb : b ∉ qs)
    (hw : Working s qs) (he : s₁.startFirst b = .ok s₂) :
    Working s₂ (qs ++ [b]) ∧ s₂.idequeue = s₁.idequeue ∧ s₂.buf = s₁.buf ∧ s₂.call = s₁.call ∧
      s₂.done = s₁.done ∧ s₂.disk = s₁.disk := by
  have hhead : s₁.idequeue = (qs ++ [b]).head? := h.linked.head_eq
  rw [State.startFirst] at he
  cases qs with
  | nil =>
    have hb : s₁.idequeue = some b := hhead
    rw [if_pos hb, State.idestart] at he
    split at he
    · cases he
    · next hblock =>
      cases he
      refine ⟨⟨?_, rfl, ?_⟩, rfl, rfl, rfl, rfl, rfl⟩
      · simp only [h.started, hw.started, h.done, List.take_nil, List.append_nil]
        rfl
      · rintro b' ⟨⟩
        exact Nat.lt_of_not_ge hblock
  | cons a as =>
    have hne : s₁.idequeue ≠ some b := by
      rw [hhead]
      rintro ⟨⟩
      exact hb List.mem_cons_self
    rw [if_neg hne] at he
    cases he
    have hw' : Working s₁ (a :: as) := hw.frame h.started h.done h.device (fun b' _ => h.core b')
    exact ⟨⟨hw'.started, hw'.device, hw'.block⟩, rfl, rfl, rfl, rfl, rfl⟩

section Waits

variable [DecidableEq P] {havedisk1 : Bool}

theorem Waiting.enqueue {s₁ : State P α} (h : Waiting s qs) (hp : s.call p = .idle)
    (hlock : (s.buf b).lock = some p) (hclean : (s.buf b).clean = false)
    (hs₁ : Appended s s₁ (qs ++ [b])) (hlink : s'.link = s₁.link) (hbuf : s'.buf = s₁.buf)
    (hdone : s'.done = s₁.done) (harr : s'.arrived = s.arrived ++ [s.request b])
    (hcall : s'.call = update s.call p (.asleep b s.arrived.length)) : Waiting s' (qs ++ [b]) := by
  have hcore : ∀ b', (s'.buf b').core = (s.buf b').core := fun b' => by rw [hbuf, hs₁.core]
  have hdone' : s'.done = s.done := hdone.trans hs₁.done
  have hlen := h.length_arrived
  have hold : ∀ (k : Nat) a, s.arrived[k]? = some a → s'.arrived[k]? = some a := by
    intro k a ha
    rw [harr, List.getElem?_append_left (List.getElem?_eq_some_iff.mp ha).1]
    exact ha
  have hother : ∀ q v, s'.call q = v → q ≠ p → s.call q = v := by
    intro q v hq hne
    rw [hcall, update_of_ne hne] at hq
    exact hq
  refine ⟨hlink ▸ hs₁.linked, ?_, ?_, ?_, ?_, ?_⟩
  · rw [harr, hdone', List.map_append, h.arrived, List.append_assoc]
    rfl
  · intro i b' hi
    rw [hdone', hcall]
    rw [List.getElem?_append] at hi
    split at hi
    · obtain ⟨q, hq⟩ := h.queued i b' hi
      have hne : q ≠ p := by
        rintro rfl
        rw [hp] at hq
        cases hq
      exact ⟨q, by rw [update_of_ne hne, hq]⟩
    · next hge =>
      have hi0 := (List.getElem?_eq_some_iff.mp hi).1
      have hi1 : i = qs.length := by
        simp only [List.length_singleton] at hi0
        omega
      simp only [hi1, Nat.sub_self, List.getElem?_cons_zero, Option.some.injEq] at hi
      refine ⟨p, ?_⟩
      rw [update_self, hi1, ← hlen, hi]
  · intro q b' k hq
    by_cases hne : q = p
    · subst hne
      rw [hcall, update_self] at hq
      cases hq
      refine ⟨⟨?_, ?_, ?_⟩, qs.length, by rw [hdone', hlen], by simp⟩
      · rw [(Buf.core_inj (hcore b)).2.2.2.2.1, hlock]
      · rw [Buf.clean_congr (hcore b), hclean]
      · rw [harr, request_congr (hcore b)]
        simp
    · obtain ⟨hpend, i, hk, hi⟩ := h.asleep q b' k (hother q _ hq hne)
      refine ⟨hpend.congr (hcore b') ?_, i, by rw [hdone', hk], ?_⟩
      · rw [hold k _ hpend.request, hpend.request]
      · rw [List.getElem?_append_left (List.getElem?_eq_some_iff.mp hi).1]
        exact hi
  · intro q b' k hq
    have hne : q ≠ p := by
      rintro rfl
      rw [hcall, update_self] at hq
      cases hq
    exact (h.awake q b' k (hother q _ hq hne)).congr (hcore b') (hold k) (fun t ht => hdone' ▸ ht)
  · intro k a t ha ht
    rw [hdone'] at ht
    have hk := (List.getElem?_eq_some_iff.mp ht).1
    rw [harr, List.getElem?_append_left (by omega)] at ha
    exact h.carried k a t ha ht

/-- `iderw` panics, or appends the buffer and starts the device if it is the only one. -/
theorem Waiting.iderw_cases (h : Waiting s qs) (havedisk1 : Bool) (b : Fin NBUF)
    (hp : s.call p = .idle) :
    (∃ msg, s.iderw havedisk1 p b = .error (.panic msg)) ∨
    ∃ s₁ s₂, (s.buf b).lock = some p ∧ (s.buf b).clean = false ∧ Appended s s₁ (qs ++ [b]) ∧
      s₁.startFirst b = .ok s₂ ∧ s.iderw havedisk1 p b =
        .ok ({ s₂ with arrived := s.arrived ++ [s.request b] }.await p b s.arrived.length) := by
  rw [State.iderw]
  split
  · exact .inl ⟨_, rfl⟩
  next hlock =>
  split
  · exact .inl ⟨_, rfl⟩
  next hclean =>
  split
  · exact .inl ⟨_, rfl⟩
  have hlock := not_not.mp hlock
  obtain ⟨s₁, hs₁, happ⟩ := h.append (h.free_of_idle hp hlock)
  rw [hs₁]
  simp only [bind, Except.bind]
  cases hs₂ : s₁.startFirst b with
  | error e =>
    rw [State.startFirst, State.idestart] at hs₂
    split at hs₂
    · split at hs₂
      · cases hs₂
        exact .inl ⟨_, rfl⟩
      · cases hs₂
    · cases hs₂
  | ok s₂ =>
    exact .inr ⟨s₁, s₂, hlock, Bool.eq_false_of_not_eq_true hclean, happ, hs₂, rfl⟩

theorem Waiting.iderw_ends (h : Waiting s qs) (hp : s.call p = .idle) :
    s.iderw havedisk1 p b ≠ .error .loops := by
  rcases h.iderw_cases havedisk1 b hp with ⟨msg, he⟩ | ⟨s₁, s₂, -, -, -, -, he⟩ <;> rw [he] <;> rintro ⟨⟩

theorem Waiting.iderw_ok (h : Waiting s qs) (hw : Working s qs) (hp : s.call p = .idle)
    (he : s.iderw havedisk1 p b = .ok s') :
    Waiting s' (qs ++ [b]) ∧ Working s' (qs ++ [b]) ∧ s'.call p = .asleep b s.arrived.length ∧
      s'.disk = s.disk ∧ s'.done = s.done := by
  rcases h.iderw_cases havedisk1 b hp with
    ⟨msg, he'⟩ | ⟨s₁, s₂, hlock, hclean, happ, hs₂, he'⟩
  · rw [he'] at he
    cases he
  rw [he'] at he
  have he := (Except.ok.inj he).symm
  obtain ⟨hw₂, hidq, hbuf, hcall, hdone, hdisk⟩ :=
    happ.startFirst (h.not_mem (h.free_of_idle hp hlock)) hw hs₂
  have hclean₂ : (s₂.buf b).clean = false := by
    rw [hbuf, Buf.clean_congr (happ.core b), hclean]
  have hcall' : s'.call = update s.call p (.asleep b s.arrived.length) := by
    rw [he]
    simp only [State.await, hclean₂, hcall, happ.call]
    rfl
  have hlink : s₂.link = s₁.link := by
    funext a
    cases a with
    | none => exact hidq
    | some b' => rw [State.link, State.link, hbuf]
  subst he
  refine ⟨h.enqueue hp hlock hclean happ hlink hbuf hdone rfl hcall', ?_, ?_, ?_, ?_⟩
  · exact ⟨hw₂.started, hw₂.device, hw₂.block⟩
  · rw [hcall', update_self]
  · exact hdisk.trans happ.disk
  · exact hdone.trans happ.done

/-! ### A request is done -/

theorem Waiting.resume (h : Waiting s qs) (hp : s.call p = .awake b k) :
    Waiting (s.await p b k) qs ∧ (s.await p b k).call p = .idle := by
  have hcall : (s.await p b k).call = update s.call p .idle := by
    simp only [State.await, (h.awake p b k hp).clean]
    rfl
  have hother : ∀ q v, v ≠ .idle → (s.await p b k).call q = v → s.call q = v := by
    intro q v hv hq
    rw [hcall, update_apply] at hq
    split at hq
    · exact absurd hq.symm hv
    · exact hq
  refine ⟨⟨h.linked, h.arrived, ?_, ?_, ?_, h.carried⟩, ?_⟩
  · intro i b' hi
    obtain ⟨q, hq⟩ := h.queued i b' hi
    have hne : q ≠ p := by
      rintro rfl
      rw [hp] at hq
      cases hq
    exact ⟨q, by rw [hcall, update_of_ne hne, hq]; rfl⟩
  · intro q b' k' hq
    obtain ⟨hpend, hi⟩ := h.asleep q b' k' (hother q _ Call.noConfusion hq)
    exact ⟨⟨hpend.lock, hpend.unclean, hpend.request⟩, hi⟩
  · intro q b' k' hq
    have := h.awake q b' k' (hother q _ Call.noConfusion hq)
    exact ⟨this.lock, this.clean, this.transfer⟩
  · rw [hcall, update_self]

end Waits

theorem Buf.command_drive (x : Buf P α) : x.command.drive = x.dev % 2 := by
  simp only [Buf.command, Command.drive]
  omega

theorem Buf.command_sector {x : Buf P α} (h : x.blockno < FSSIZE) : x.command.sector = x.blockno := by
  simp only [FSSIZE] at h
  simp only [Buf.command, Command.sector, BSIZE, SECTOR_SIZE]
  omega

theorem link_finish (s : State P α) (b : Fin NBUF) (c : Command α) (answer : α) :
    (s.finish b c answer).link = update s.link none (s.link (some b)) := by
  funext a
  cases a with
  | none => rw [update_self]; rfl
  | some b' =>
    rw [update_of_ne (Option.some_ne_none _)]
    by_cases hb : b' = b
    · subst hb
      simp [State.finish, State.wakeup, State.setBuf, State.link, State.served]
    · simp [State.finish, State.wakeup, State.setBuf, State.link, update_of_ne hb]

theorem asleep_finish (c : Command α) (answer : α) :
    (s.finish b c answer).call p = .asleep b' k ↔ s.call p = .asleep b' k ∧ b' ≠ b := by
  simp only [State.finish, State.wakeup, State.setBuf]
  cases s.call p with
  | idle => simp
  | awake b₂ k₂ => simp
  | asleep b₂ k₂ =>
    dsimp only
    split
    · next hb =>
      simp only [reduceCtorEq, Call.asleep.injEq, false_iff, not_and, not_not]
      rintro ⟨rfl, -⟩
      exact hb
    · next hb =>
      simp only [Call.asleep.injEq, iff_self_and]
      rintro ⟨rfl, -⟩
      exact hb

theorem awake_finish (c : Command α) (answer : α) :
    (s.finish b c answer).call p = .awake b' k ↔
      s.call p = .awake b' k ∨ s.call p = .asleep b' k ∧ b' = b := by
  simp only [State.finish, State.wakeup, State.setBuf]
  cases s.call p with
  | idle => simp
  | awake b₂ k₂ => simp
  | asleep b₂ k₂ =>
    dsimp only
    split
    · next hb =>
      simp only [Call.awake.injEq, reduceCtorEq, Call.asleep.injEq, false_or, iff_self_and]
      rintro ⟨rfl, -⟩
      exact hb
    · next hb =>
      simp only [reduceCtorEq, Call.asleep.injEq, false_or, false_iff, not_and]
      rintro ⟨rfl, -⟩
      exact hb

theorem core_finish (c : Command α) (answer : α) (hb : b' ≠ b) :
    ((s.finish b c answer).buf b').core = (s.buf b').core := by
  simp [State.finish, State.wakeup, State.setBuf, update_of_ne hb]

theorem buf_finish (s : State P α) (b : Fin NBUF) (c : Command α) (answer : α) :
    (s.finish b c answer).buf b = s.served b answer := by
  simp [State.finish, State.wakeup, State.setBuf]

/-- The command is the one for buffer `b`, and `answer` is what is then in its block. -/
structure Answers (x : Buf P α) (c : Command α) (answer : α) : Prop where
  drive : c.drive = x.dev % 2
  sector : c.sector = x.blockno
  write : c.write = if x.dirty then some x.data else none
  data : ∀ data, c.write = some data → answer = data

theorem Answers.carries (h : Answers (s.buf b) c answer) :
    Carries (s.request b) ⟨b, c.drive, c.sector, c.write, answer⟩ := by
  refine ⟨rfl, h.drive, h.sector, h.write, ?_⟩
  intro data hdata
  exact h.data data (h.write.trans hdata)

theorem Answers.served_data (h : Answers (s.buf b) c answer) :
    (s.served b answer).data = answer := by
  simp only [State.served]
  split
  · next hd => exact (h.data _ (h.write.trans (if_pos hd))).symm
  · rfl

theorem Waiting.first {rest : List (Fin NBUF)} (h : Waiting s (b :: rest)) :
    ∃ p, s.call p = .asleep b s.done.length ∧ Pending s p b s.done.length := by
  obtain ⟨p, hp⟩ := h.queued 0 b rfl
  exact ⟨p, hp, (h.asleep p b _ hp).1⟩

theorem Waiting.finish {rest : List (Fin NBUF)} (h : Waiting s (b :: rest))
    (ha : Answers (s.buf b) c answer) : Waiting (s.finish b c answer) rest := by
  obtain ⟨p, hp, hpend⟩ := h.first
  have hb : b ∉ rest := (List.nodup_cons.mp h.linked.nodup).1
  have hne : ∀ {i : Nat} {b' : Fin NBUF}, rest[i]? = some b' → b' ≠ b := by
    rintro i b' hi rfl
    exact hb (List.mem_of_getElem? hi)
  have hdone : (s.finish b c answer).done = s.done ++ [⟨b, c.drive, c.sector, c.write, answer⟩] := rfl
  have hlen : (s.finish b c answer).done.length = s.done.length + 1 := by
    rw [hdone, List.length_append, List.length_singleton]
  refine ⟨?_, ?_, ?_, ?_, ?_, ?_⟩
  · rw [link_finish]
    exact h.linked.tail
  · rw [hdone, List.map_append, List.append_assoc]
    exact h.arrived
  · intro i b' hi
    obtain ⟨q, hq⟩ := h.queued (i + 1) b' hi
    refine ⟨q, (asleep_finish c answer).mpr ⟨?_, hne hi⟩⟩
    rw [hq, hlen, Nat.add_right_comm]
    rfl
  · intro q b' k hq
    obtain ⟨hq, hb'⟩ := (asleep_finish c answer).mp hq
    obtain ⟨hpend', i, hk, hi⟩ := h.asleep q b' k hq
    cases i with
    | zero => exact absurd (Option.some.inj hi).symm hb'
    | succ i => exact ⟨hpend'.congr (core_finish c answer hb') rfl, i, by omega, hi⟩
  · intro q b' k hq
    rcases (awake_finish c answer).mp hq with hq' | ⟨hq', rfl⟩
    · have hfin := h.awake q b' k hq'
      have hb' : b' ≠ b := by
        rintro rfl
        have hclean := hfin.clean
        rw [hpend.unclean] at hclean
        cases hclean
      refine hfin.congr (core_finish c answer hb') (fun _ h => h) ?_
      intro t ht
      rw [hdone, List.getElem?_append_left (List.getElem?_eq_some_iff.mp ht).1]
      exact ht
    · obtain ⟨hpend', i, hk, hi⟩ := h.asleep q b' k hq'
      cases i with
      | succ i => exact absurd rfl (hne hi)
      | zero =>
        rw [Nat.add_zero] at hk
        subst hk
        have hbuf := buf_finish s b' c answer
        refine ⟨?_, ?_, s.request b', ⟨b', c.drive, c.sector, c.write, answer⟩, hpend.request, ?_,
          ha.carries, rfl, ?_, ?_, ?_⟩
        · rw [hbuf]
          exact hpend'.lock
        · rw [hbuf]
          rfl
        · rw [hdone]
          exact List.getElem?_concat_length
        · rw [hbuf]
          rfl
        · rw [hbuf]
          rfl
        · rw [hbuf]
          exact ha.served_data.symm
  · intro k a t hka hkt
    rw [hdone, List.getElem?_append] at hkt
    split at hkt
    · exact h.carried k a t hka hkt
    · next hk =>
      have hk' := (List.getElem?_eq_some_iff.mp hkt).1
      rw [List.length_singleton] at hk'
      have hk'' : k = s.done.length := by omega
      subst hk''
      have hreq := hpend.request
      rw [show s.arrived[s.done.length]? = some a from hka] at hreq
      simp only [Nat.sub_self, List.getElem?_cons_zero, Option.some.injEq] at hkt
      rw [← hkt, Option.some.inj hreq]
      exact ha.carries

/-- What a transfer does to the disk. -/
structure Transferred (s s' : State P α) (t : Transfer α) : Prop where
  done : s'.done = s.done ++ [t]
  data : s'.disk t.drive t.sector = t.data
  written : t.write.isSome = true ∨ s'.disk = s.disk
  others : ∀ d n, (d, n) ≠ (t.drive, t.sector) → s'.disk d n = s.disk d n

theorem complete_eq (s : State P α) (c : Command α) : ∃ disk,
    (s.complete c).1 = { s with device := none, disk := disk } ∧
    disk c.drive c.sector = (s.complete c).2 ∧ (c.write.isSome = true ∨ disk = s.disk) ∧
    (∀ data, c.write = some data → (s.complete c).2 = data) ∧
    ∀ d n, (d, n) ≠ (c.drive, c.sector) → disk d n = s.disk d n := by
  rw [State.complete]
  cases c.write with
  | none =>
    refine ⟨s.disk, rfl, rfl, .inr rfl, ?_, fun _ _ _ => rfl⟩
    rintro data ⟨⟩
  | some data =>
    refine ⟨_, rfl, ?_, .inl rfl, ?_, ?_⟩
    · rw [update_self, update_self]
    · rintro data' ⟨⟩
      rfl
    · intro d n hdn
      by_cases hd : d = c.drive
      · subst hd
        have hn : n ≠ c.sector := by
          rintro rfl
          exact hdn rfl
        rw [update_self, update_of_ne hn]
      · rw [update_of_ne hd]

theorem Waiting.startNext (h : Waiting s qs) (hdev : s.device = none)
    (hstart : s.started = s.done.map Transfer.buf)
    (he : (match s.idequeue with
      | none => .ok s
      | some b => s.idestart b) = Except.ok s') :
    Waiting s' qs ∧ Working s' qs ∧ s'.done = s.done ∧ s'.disk = s.disk := by
  have hhead : s.idequeue = qs.head? := h.linked.head_eq
  cases qs with
  | nil =>
    rw [List.head?_nil] at hhead
    rw [hhead] at he
    cases he
    refine ⟨h, ⟨?_, hdev, ?_⟩, rfl, rfl⟩
    · rw [hstart, List.take_nil, List.append_nil]
    · rintro b ⟨⟩
  | cons b rest =>
    rw [List.head?_cons] at hhead
    rw [hhead] at he
    simp only [State.idestart] at he
    split at he
    · cases he
    · next hblock =>
      cases he
      refine ⟨h.frame h.linked rfl rfl rfl (fun _ _ _ => rfl), ⟨?_, rfl, ?_⟩, rfl, rfl⟩
      · simp only [hstart]
        rfl
      · rintro b' ⟨⟩
        exact Nat.lt_of_not_ge hblock

/-- The interrupt handler ends the first request and starts the next one. -/
theorem Waiting.ideintr_ok (h : Waiting s qs) (hw : Working s qs)
    (hc : s.device = some c) (he : s.ideintr c = .ok s') :
    ∃ b rest t, qs = b :: rest ∧ t.buf = b ∧ Waiting s' rest ∧ Working s' rest ∧
      Transferred s s' t := by
  cases qs with
  | nil =>
    rw [hw.device] at hc
    cases hc
  | cons b rest =>
  have hcmd : (s.buf b).command = c := Option.some.inj (hw.device.symm.trans hc)
  have hblock := hw.block b rfl
  obtain ⟨disk, hs₁, hread, hdisk, hdata, hrest⟩ := complete_eq s c
  have ha : Answers (s.buf b) c (s.complete c).2 := by
    refine ⟨?_, ?_, ?_, hdata⟩
    · rw [← hcmd, Buf.command_drive]
    · rw [← hcmd, Buf.command_sector hblock]
    · rw [← hcmd]
      rfl
  have h₁ : Waiting (s.complete c).1 (b :: rest) := by
    rw [hs₁]
    exact h.frame h.linked rfl rfl rfl (fun _ _ _ => rfl)
  have ha₁ : Answers ((s.complete c).1.buf b) c (s.complete c).2 := by
    rw [hs₁]
    exact ha
  have hfin := h₁.finish ha₁
  have hq : (s.complete c).1.idequeue = some b := h₁.linked.head_eq
  rw [State.ideintr] at he
  simp only [hq] at he
  obtain ⟨hwait, hwork, hdone', hdisk'⟩ := hfin.startNext (by rw [hs₁]; rfl) (by
    rw [hs₁]
    simp only [State.finish, State.wakeup, State.setBuf, hw.started, List.map_append]
    rfl) he
  refine ⟨b, rest, ⟨b, c.drive, c.sector, c.write, (s.complete c).2⟩, rfl, rfl, hwait, hwork, ?_⟩
  have hd : s'.disk = disk := by
    rw [hdisk', hs₁]
    rfl
  refine ⟨?_, hd ▸ hread, hd ▸ hdisk, hd ▸ hrest⟩
  rw [hdone', hs₁]
  rfl

/-! ### Every run -/

theorem ok_of_toOption {r : Except Stop (State P α)} (h : r.toOption = some s) : r = .ok s := by
  cases r with
  | error e => cases h
  | ok t => exact congrArg Except.ok (Option.some.inj h)

section Runs

variable [DecidableEq P] {havedisk1 : Bool} {e : Event P α}

/-- A step that is not an interrupt does not touch the disk. -/
theorem step_queue (h : Waiting s qs) (hw : Working s qs) (he : step havedisk1 s e = some s') :
    (∃ qs', Waiting s' qs' ∧ Working s' qs') ∧
      (s'.done = s.done ∧ s'.disk = s.disk ∨
        e = .ideintr ∧ ∃ b t, qs.head? = some b ∧ t.buf = b ∧ Transferred s s' t) := by
  have hset : ∀ b x, Free s b → s.setBuf b x = s' → (∃ qs', Waiting s' qs' ∧ Working s' qs') ∧
      (s'.done = s.done ∧ s'.disk = s.disk ∨
        e = .ideintr ∧ ∃ b t, qs.head? = some b ∧ t.buf = b ∧ Transferred s s' t) := by
    rintro b x hb rfl
    exact ⟨⟨qs, h.setBuf hb x, hw.setBuf (h.not_mem hb) x⟩, .inl ⟨rfl, rfl⟩⟩
  cases e with
  | acquiresleep p b =>
    obtain ⟨hc, he⟩ := Option.ite_none_right_eq_some.mp he
    exact hset b _ (h.free_of_unlocked hc.2) (Option.some.inj he)
  | releasesleep p b =>
    obtain ⟨hc, he⟩ := Option.ite_none_right_eq_some.mp he
    exact hset b _ (h.free_of_idle hc.1 hc.2) (Option.some.inj he)
  | change p b valid dirty data =>
    obtain ⟨hc, he⟩ := Option.ite_none_right_eq_some.mp he
    exact hset b _ (h.free_of_idle hc.1 hc.2) (Option.some.inj he)
  | recycle b dev blockno =>
    obtain ⟨hc, he⟩ := Option.ite_none_right_eq_some.mp he
    exact hset b _ (h.free_of_unlocked hc) (Option.some.inj he)
  | iderw p b =>
    obtain ⟨hc, he⟩ := Option.ite_none_right_eq_some.mp he
    obtain ⟨hwait, hwork, -, hdisk, hdone⟩ := h.iderw_ok hw hc (ok_of_toOption he)
    exact ⟨⟨_, hwait, hwork⟩, .inl ⟨hdone, hdisk⟩⟩
  | resume p =>
    simp only [step] at he
    split at he
    · next b k hp =>
      cases he
      exact ⟨⟨qs, (h.resume hp).1, ⟨hw.started, hw.device, hw.block⟩⟩, .inl ⟨rfl, rfl⟩⟩
    · cases he
  | ideintr =>
    obtain ⟨c, hc, he⟩ := Option.bind_eq_some_iff.mp he
    obtain ⟨b, rest, t, rfl, hb, hwait, hwork, ht⟩ :=
      h.ideintr_ok hw hc (ok_of_toOption he)
    exact ⟨⟨rest, hwait, hwork⟩, .inr ⟨rfl, b, t, rfl, hb, ht⟩⟩

theorem run_queue {s₀ : State P α} {es : List (Event P α)} (hboot : Boot s₀)
    (hr : run (step havedisk1) s₀ es = some s) : ∃ qs, Waiting s qs ∧ Working s qs := by
  refine run_invariant _ (I := fun s => ∃ qs, Waiting s qs ∧ Working s qs) ?_ ?_ hr
  · rintro s e s' ⟨qs, h, hw⟩ he
    exact (step_queue h hw he).1
  · exact ⟨[], boot_waiting hboot, boot_working hboot⟩

/-- In every run the queue is the requests that have arrived and are not done, and the device works
on the first of them. A process that returns from `iderw` has a buffer with the data of its block. -/
theorem diskQueue_serves {s₀ : State P α} {es : List (Event P α)} (hboot : Boot s₀)
    (hr : run (step havedisk1) s₀ es = some s) :
    ∃ qs, Linked s.link none qs ∧ qs.Nodup ∧
      (∀ b, b ∈ qs ↔ ∃ p k, s.call p = .asleep b k) ∧
      s.device = qs.head?.map (fun b => (s.buf b).command) ∧
      s.arrived.map Request.buf = s.done.map Transfer.buf ++ qs ∧
      s.started = s.done.map Transfer.buf ++ qs.take 1 ∧
      (∀ p b, s.call p = .idle → s.iderw havedisk1 p b ≠ .error .loops ∧
        ∀ s', s.iderw havedisk1 p b = .ok s' → s'.call p = .asleep b s.arrived.length) ∧
      (∀ p s', step havedisk1 s (.resume p) = some s' →
        ∃ b k, s.call p = .awake b k ∧ s'.call p = .idle ∧ Finished s' p b k) ∧
      ∀ e s', step havedisk1 s e = some s' → s'.done = s.done ∧ s'.disk = s.disk ∨
        e = .ideintr ∧ ∃ b t, qs.head? = some b ∧ t.buf = b ∧ Transferred s s' t := by
  obtain ⟨qs, h, hw⟩ := run_queue hboot hr
  refine ⟨qs, h.linked, h.linked.nodup, ?_, hw.device, h.arrived, hw.started, ?_, ?_, ?_⟩
  · intro b
    constructor
    · intro hb
      obtain ⟨i, hi⟩ := List.mem_iff_getElem?.mp hb
      obtain ⟨p, hp⟩ := h.queued i b hi
      exact ⟨p, _, hp⟩
    · rintro ⟨p, k, hp⟩
      obtain ⟨-, i, -, hi⟩ := h.asleep p b k hp
      exact List.mem_of_getElem? hi
  · intro p b hp
    exact ⟨h.iderw_ends hp, fun s' he => (h.iderw_ok hw hp he).2.2.1⟩
  · intro p s' he
    simp only [step] at he
    split at he
    · next b k hp =>
      cases he
      have hfin := h.awake p b k hp
      exact ⟨b, k, hp, (h.resume hp).2, hfin.lock, hfin.clean, hfin.transfer⟩
    · cases he
  · intro e s' he
    exact (step_queue h hw he).2

end Runs

/-- Two processes, and buffers for the blocks with the numbers of the buffers. -/
def freshDisk : State Bool Nat where
  buf b := ⟨0, b, false, false, none, 0, none⟩
  idequeue := none
  device := none
  disk _ n := n
  call _ := .idle
  arrived := []
  started := []
  done := []

/-- One process reads block 1 while the other writes block 2. -/
def readAndWrite : List (Event Bool Nat) :=
  [.acquiresleep false 1, .iderw false 1, .acquiresleep true 2, .change true 2 true true 7,
    .iderw true 2, .ideintr, .ideintr, .resume true, .resume false]

theorem readAndWrite_served : ∃ s, run (step false) freshDisk readAndWrite = some s ∧
    ∃ qs, Linked s.link none qs ∧ s.started = s.done.map Transfer.buf ++ qs.take 1 := by
  have hboot : Boot freshDisk := ⟨rfl, rfl, fun _ => rfl, rfl, rfl, rfl⟩
  have hsome : (run (step false) freshDisk readAndWrite).isSome = true := by decide
  obtain ⟨s, hs⟩ := Option.isSome_iff_exists.mp hsome
  obtain ⟨qs, hlinked, -, -, -, -, hstarted, -⟩ := diskQueue_serves hboot hs
  exact ⟨s, hs, qs, hlinked, hstarted⟩

end Xv6.Ide
