import Mathlib.Data.List.GetD
import Xv6.Console

/-!
# The ring refines the line discipline

The three indices of the ring run freely modulo `2 ^ 32`. `Rep` says which positions they stand for
and that the ring holds the queue and then the line from position `r` on. Every key and every
section of a read keep it, so the ring does in every run what the discipline does.
-/

namespace Xv6.Cons

open Function

/-! ### Indices modulo `2 ^ 32` -/

/-- The index `x` stands for position `A`. -/
def Index (x : UInt32) (A : Nat) : Prop := x.toNat = A % 2 ^ 32

section

variable {x y : UInt32} {A n : Nat}

theorem Index.add_one (h : Index x A) : Index (x + 1) (A + 1) := by
  have h₁ : (1 : UInt32).toNat = 1 := rfl
  simp only [Index, UInt32.toNat_add] at *
  omega

theorem Index.sub_one (h : Index x (A + 1)) : Index (x - 1) A := by
  have h₁ : (1 : UInt32).toNat = 1 := rfl
  simp only [Index, UInt32.toNat_sub] at *
  omega

namespace Index

variable (h : Index x A)
include h

theorem eq_iff (h' : Index y (A + n)) (hn : n ≤ INPUT_BUF) :
    x = y ↔ n = 0 := by
  simp only [Index, INPUT_BUF] at *
  rw [← UInt32.toNat_inj]
  omega

theorem sub_toNat (h' : Index y (A + n)) (hn : n ≤ INPUT_BUF) :
    (y - x).toNat = n := by
  simp only [Index, INPUT_BUF] at *
  rw [UInt32.toNat_sub]
  omega

theorem sub_lt (h' : Index y (A + n)) (hn : n ≤ INPUT_BUF) :
    y - x < 128 ↔ n < INPUT_BUF := by
  have h₁ : (128 : UInt32).toNat = 128 := rfl
  rw [UInt32.lt_iff_toNat_lt, h.sub_toNat h' hn, h₁]

theorem full (h' : Index y (A + n)) (hn : n ≤ INPUT_BUF) :
    y = x + 128 ↔ n = INPUT_BUF := by
  have h₁ : (128 : UInt32).toNat = 128 := rfl
  simp only [Index, INPUT_BUF] at *
  rw [← UInt32.toNat_inj, UInt32.toNat_add]
  omega

theorem mod : x.toNat % INPUT_BUF = A % INPUT_BUF := by
  simp only [Index, INPUT_BUF] at *
  omega

end Index

end

/-! ### The contents of the ring -/

/-- The ring holds `queue` and then `line`, from position `R` on. -/
structure Rep (inp : Input) (queue line : List UInt8) (R : Nat) : Prop where
  r : Index inp.r R
  w : Index inp.w (R + queue.length)
  e : Index inp.e (R + queue.length + line.length)
  room : queue.length + line.length ≤ INPUT_BUF
  bytes : ∀ j, j < queue.length + line.length →
    inp.buf.get ((R + j) % INPUT_BUF) = (queue ++ line).getD j 0
  open_ : newline ∉ line

variable {inp : Input} {queue line : List UInt8} {R : Nat} {c : UInt8}

theorem init_rep : Rep .init [] [] 0 :=
  ⟨rfl, rfl, rfl, by decide, by simp, by simp⟩

theorem Rep.last (h : Rep inp queue (line ++ [c]) R) : inp.byteAt (inp.e - 1) = c := by
  have he := h.e
  simp only [List.length_append, List.length_singleton, ← Nat.add_assoc] at he
  have hb := h.bytes (queue.length + line.length) (by simp)
  rw [Input.byteAt, he.sub_one.mod, Nat.add_assoc, hb]
  simp [List.getD_eq_getElem?_getD]

theorem Rep.erase (h : Rep inp queue (line ++ [c]) R) :
    Rep { inp with e := inp.e - 1 } queue line R := by
  have he := h.e
  have hroom := h.room
  simp only [List.length_append, List.length_singleton, ← Nat.add_assoc] at he hroom
  refine ⟨h.r, h.w, he.sub_one, by omega, ?_, fun hm => h.open_ (by simp [hm])⟩
  intro j hj
  have hb := h.bytes j (by simp; omega)
  rw [hb, ← List.append_assoc, List.getD_append _ _ _ _ (by simpa)]

theorem Rep.e_eq_w (h : Rep inp queue line R) : inp.e ≠ inp.w ↔ line ≠ [] := by
  have hroom := h.room
  have hiff := h.w.eq_iff h.e (by omega)
  rw [ne_comm, ne_eq, hiff, ne_eq, List.length_eq_zero_iff]

theorem Rep.killLine (h : Rep inp queue line R) {fuel : Nat} (hf : line.length ≤ fuel) :
    Rep (inp.killLine fuel) queue [] R := by
  induction fuel generalizing inp line with
  | zero =>
    obtain rfl : line = [] := List.length_eq_zero_iff.mp (by omega)
    exact h
  | succ fuel ih =>
    rw [Input.killLine]
    rcases List.eq_nil_or_concat line with rfl | ⟨front, c, rfl⟩
    · rw [if_neg (fun hc => (h.e_eq_w.mp hc.1) rfl)]
      exact h
    · rw [List.concat_eq_append] at h hf
      have hc : c ≠ newline := fun hc => h.open_ (by simp [hc])
      rw [if_pos ⟨h.e_eq_w.mpr (by simp), by rwa [h.last]⟩]
      exact ih h.erase (by simp at hf; omega)

theorem mod_ne {R j m : Nat} (hj : j < m) (hm : m < INPUT_BUF) :
    (R + j) % INPUT_BUF ≠ (R + m) % INPUT_BUF := by
  simp only [INPUT_BUF] at *
  omega

theorem Rep.push (h : Rep inp queue line R) (hroom : queue.length + line.length < INPUT_BUF)
    (inp' : Input) (hr : inp'.r = inp.r) (he : inp'.e = inp.e + 1)
    (hbuf : inp'.buf = inp.buf.write (inp.e.toNat % INPUT_BUF) (fun _ => c) 1) :
    Index inp'.r R ∧ Index inp'.e (R + queue.length + (line ++ [c]).length) ∧
      ∀ j, j < queue.length + (line ++ [c]).length →
        inp'.buf.get ((R + j) % INPUT_BUF) = (queue ++ (line ++ [c])).getD j 0 := by
  have hstep := h.e.add_one
  refine ⟨hr ▸ h.r, ?_, ?_⟩
  · rw [he, List.length_append, List.length_singleton, ← Nat.add_assoc]
    exact hstep
  · intro j hj
    simp only [List.length_append, List.length_singleton, ← Nat.add_assoc] at hj
    rw [hbuf, h.e.mod, Nat.add_assoc, ← List.append_assoc]
    rcases Nat.lt_succ_iff_lt_or_eq.mp hj with hlt | rfl
    · have hne := mod_ne (R := R) hlt hroom
      rw [Bytes.get_write_out _ _ (by omega), h.bytes j hlt,
        List.getD_append (queue ++ line) [c] _ _ (by simpa)]
    · rw [Bytes.get_write_in _ _ le_rfl (by omega) (Nat.mod_lt _ (by decide))]
      simp

theorem Rep.head (h : Rep inp (c :: queue) line R) : inp.byteAt inp.r = c := by
  have hb := h.bytes 0 (by simp)
  rw [Input.byteAt, h.r.mod]
  simpa using hb

theorem Rep.tail (h : Rep inp (c :: queue) line R) :
    Rep { inp with r := inp.r + 1 } queue line (R + 1) := by
  have hw := h.w
  have he := h.e
  have hroom := h.room
  have hcons : R + (c :: queue).length = R + 1 + queue.length := by
    rw [List.length_cons]
    omega
  rw [hcons] at hw he
  rw [List.length_cons] at hroom
  refine ⟨h.r.add_one, hw, he, by omega, ?_, h.open_⟩
  intro j hj
  have hb := h.bytes (j + 1) (by rw [List.length_cons]; omega)
  have hpos : R + 1 + j = R + (j + 1) := by omega
  rw [hpos, hb]
  rfl

theorem Rep.r_eq_w (h : Rep inp queue line R) : inp.r = inp.w ↔ queue = [] := by
  have hroom := h.room
  rw [h.r.eq_iff h.w (by omega), List.length_eq_zero_iff]

variable {ι : Type*} [DecidableEq ι]

omit [DecidableEq ι] in
theorem Rep.store {d : Discipline ι} (h : Rep inp d.queue d.line R)
    (hroom : d.queue.length + d.line.length < INPUT_BUF) (c : UInt8) :
    Rep (inp.store c) (d.accept c).queue (d.accept c).line R := by
  rw [Input.store, Discipline.accept]
  obtain ⟨hr, he, hb⟩ := h.push hroom (c := c) { inp with
    buf := inp.buf.write (inp.e.toNat % INPUT_BUF) (fun _ => c) 1
    e := inp.e + 1 } rfl rfl rfl
  have hlen : (d.line ++ [c]).length = d.line.length + 1 := by simp
  have hfull : inp.e + 1 = inp.r + 128 ↔
      d.queue.length + (d.line ++ [c]).length = INPUT_BUF :=
    hr.full (by rwa [Nat.add_assoc] at he) (by omega)
  have hle : d.queue.length + (d.line ++ [c]).length ≤ INPUT_BUF := by omega
  simp only [hfull]
  split_ifs with hc
  · refine ⟨hr, ?_, ?_, ?_, ?_, by simp⟩
    · rw [List.length_append, ← Nat.add_assoc]
      exact he
    · rw [List.length_append, ← Nat.add_assoc, List.length_nil, Nat.add_zero]
      exact he
    · rw [List.length_append, List.length_nil]
      omega
    · intro j hj
      rw [List.append_nil]
      exact hb j (by simpa using hj)
  · refine ⟨hr, h.w, he, hle, hb, ?_⟩
    intro hm
    rcases List.mem_append.mp hm with hm | hm
    · exact h.open_ hm
    · exact hc (Or.inl (List.mem_singleton.mp hm).symm)

omit [DecidableEq ι] in
theorem Rep.key {d : Discipline ι} (h : Rep inp d.queue d.line R) (c : UInt8) :
    Rep (inp.key c) (d.key c).queue (d.key c).line R := by
  have hroom := h.room
  have hlen := h.w.sub_toNat h.e (by omega)
  have hlt : inp.e - inp.r < 128 ↔ d.queue.length + d.line.length < INPUT_BUF :=
    h.r.sub_lt (by rw [← Nat.add_assoc]; exact h.e) hroom
  rw [Input.key, Discipline.key]
  by_cases hP : c = ctrlP
  · rw [if_pos hP, if_pos (Or.inr hP)]
    exact h
  rw [if_neg hP]
  by_cases hU : c = ctrlU
  · have h0 : ¬ (c = 0 ∨ c = ctrlP) := by
      rw [hU]
      decide
    rw [if_pos hU, if_neg h0, if_pos hU]
    exact h.killLine (by omega)
  rw [if_neg hU]
  by_cases hH : c = ctrlH ∨ c = delete
  · have h0 : ¬ (c = 0 ∨ c = ctrlP) := by
      rcases hH with rfl | rfl <;> decide
    rw [if_pos hH, if_neg h0, if_neg hU, if_pos hH]
    rcases List.eq_nil_or_concat d.line with hnil | ⟨front, b, hcat⟩
    · rw [if_neg (fun hc => (h.e_eq_w.mp hc) hnil), hnil]
      rwa [hnil] at h
    · rw [List.concat_eq_append] at hcat
      rw [if_pos (h.e_eq_w.mpr (by simp [hcat])), hcat, List.dropLast_concat]
      rw [hcat] at h
      exact h.erase
  rw [if_neg hH]
  by_cases h0 : c = 0
  · rw [if_neg (fun hc => hc.1 h0), if_pos (Or.inl h0)]
    exact h
  · have hdef : ¬ (c = 0 ∨ c = ctrlP) := by
      rintro (hc | hc)
      · exact h0 hc
      · exact hP hc
    rw [if_neg hdef, if_neg hU, if_neg hH]
    by_cases hfit : d.queue.length + d.line.length < INPUT_BUF
    · rw [if_pos ⟨h0, hlt.mpr hfit⟩, if_pos hfit]
      exact h.store hfit _
    · rw [if_neg (fun hc => hfit (hlt.mp hc.2)), if_neg hfit]
      exact h

omit [DecidableEq ι] in
theorem Rep.consoleintr {d : Discipline ι} (h : Rep inp d.queue d.line R) (cs : List UInt8) :
    Rep (inp.consoleintr cs) (cs.foldl Discipline.key d).queue
      (cs.foldl Discipline.key d).line R := by
  unfold Input.consoleintr
  induction cs generalizing inp d with
  | nil => exact h
  | cons c cs ih => exact ih (h.key c)

theorem Rep.readLoop (h : Rep inp queue line R) (target n : Nat) :
    (readLoop target n inp).1 = (Discipline.take target n queue).1 ∧
      (Cons.readLoop target n inp).2.1 = (Discipline.take target n queue).2.1 ∧
      ∃ R', Rep (Cons.readLoop target n inp).2.2 (Discipline.take target n queue).2.2 line R' := by
  induction n generalizing inp queue R with
  | zero => exact ⟨rfl, rfl, R, h⟩
  | succ n ih =>
    rw [Cons.readLoop]
    cases queue with
    | nil =>
      rw [if_pos (h.r_eq_w.mpr rfl)]
      exact ⟨rfl, rfl, R, h⟩
    | cons c queue =>
      rw [if_neg (fun hc => by simpa using h.r_eq_w.mp hc), Discipline.take]
      simp only [h.head]
      split_ifs with hD ht hn
      · refine ⟨rfl, rfl, R, ?_⟩
        have hback : inp.r + 1 - 1 = inp.r := by simp
        rw [hback]
        exact h
      · exact ⟨rfl, rfl, R + 1, h.tail⟩
      · exact ⟨rfl, rfl, R + 1, h.tail⟩
      · obtain ⟨hcs, hx, R', hR'⟩ := ih h.tail
        exact ⟨congrArg (c :: ·) hcs, hx, R', hR'⟩

/-! ### What the discipline keeps -/

/-- What is committed is put behind the queue; nothing else happens to the queue. -/
structure Committed (d d' : Discipline ι) (l : List UInt8) : Prop where
  queue : d'.queue = d.queue ++ l
  committed : d'.committed = d.committed ++ l
  reader : d'.reader = d.reader
  log : d'.log = d.log

omit [DecidableEq ι] in
theorem Committed.nil {d d' : Discipline ι} (hq : d'.queue = d.queue)
    (hc : d'.committed = d.committed) (hr : d'.reader = d.reader) (hl : d'.log = d.log) :
    Committed d d' [] :=
  ⟨by rw [hq, List.append_nil], by rw [hc, List.append_nil], hr, hl⟩

omit [DecidableEq ι] in
theorem key_committed (d : Discipline ι) (c : UInt8) : ∃ l, Committed d (d.key c) l := by
  rw [Discipline.key]
  split_ifs
  · exact ⟨[], .nil rfl rfl rfl rfl⟩
  · exact ⟨[], .nil rfl rfl rfl rfl⟩
  · exact ⟨[], .nil rfl rfl rfl rfl⟩
  · rw [Discipline.accept]
    split_ifs
    · exact ⟨_, rfl, rfl, rfl, rfl⟩
    · exact ⟨[], .nil rfl rfl rfl rfl⟩
  · rw [Discipline.accept]
    split_ifs
    · exact ⟨_, rfl, rfl, rfl, rfl⟩
    · exact ⟨[], .nil rfl rfl rfl rfl⟩
  · exact ⟨[], .nil rfl rfl rfl rfl⟩

omit [DecidableEq ι] in
theorem keys_committed (d : Discipline ι) (cs : List UInt8) :
    ∃ l, Committed d (cs.foldl Discipline.key d) l := by
  induction cs generalizing d with
  | nil => exact ⟨[], .nil rfl rfl rfl rfl⟩
  | cons c cs ih =>
    obtain ⟨l, hl⟩ := key_committed d c
    obtain ⟨l', hl'⟩ := ih (d.key c)
    refine ⟨l ++ l', ?_, ?_, hl'.reader.trans hl.reader, hl'.log.trans hl.log⟩
    · rw [List.foldl_cons, hl'.queue, hl.queue, List.append_assoc]
    · rw [List.foldl_cons, hl'.committed, hl.committed, List.append_assoc]

/-- The character that an item has consumed. -/
def Item.char : Item ι → Option UInt8
  | .byte _ c => some c
  | .ret _ _ _ => none
  | .eof _ _ => some ctrlD

/-- What `n` is when the section ends. -/
def ReadEnd.left : ReadEnd → Nat
  | .slept n | .returned n | .eof n => n

/-- What a section of a read has consumed beyond the bytes that it has stored. -/
def ReadEnd.consumed : ReadEnd → List UInt8
  | .eof _ => [ctrlD]
  | .slept _ | .returned _ => []

/-- A section takes the queue from its front: first what it stores, which is never an end of file,
then an end of file if it consumes one, as the first character of the read. -/
theorem take_spec (target n : Nat) (queue : List UInt8) (hn : n ≤ target) :
    queue = (Discipline.take target n queue).1 ++ (Discipline.take target n queue).2.1.consumed ++
        (Discipline.take target n queue).2.2 ∧
      ctrlD ∉ (Discipline.take target n queue).1 ∧
      (Discipline.take target n queue).1.length +
        (Discipline.take target n queue).2.1.left = n ∧
      ∀ m, (Discipline.take target n queue).2.1 = .eof m → m = target := by
  induction n generalizing queue with
  | zero => simp [Discipline.take, ReadEnd.consumed, ReadEnd.left]
  | succ n ih =>
    cases queue with
    | nil => simp [Discipline.take, ReadEnd.consumed, ReadEnd.left]
    | cons c queue =>
      rw [Discipline.take]
      split_ifs with hD ht hnl
      · simp [ReadEnd.consumed, ReadEnd.left]
      · subst hD
        refine ⟨rfl, by simp, by simp [ReadEnd.left], ?_⟩
        rintro m hm
        cases hm
        omega
      · refine ⟨by simp [ReadEnd.consumed], ?_, by simp [ReadEnd.left]; omega, by simp⟩
        exact fun hm => hD (List.mem_singleton.mp hm).symm
      · obtain ⟨hq, hdata, hlen, heof⟩ := ih queue (by omega)
        refine ⟨?_, ?_, ?_, heof⟩
        · simp only [List.cons_append]
          rw [← hq]
        · rintro (_ | ⟨_, hm⟩)
          · exact hD rfl
          · exact hdata hm
        · change (Discipline.take target n queue).1.length + 1 +
            (Discipline.take target n queue).2.1.left = n + 1
          omega

structure Discipline.Ok (d : Discipline ι) : Prop where
  /-- What was committed has been consumed, in order, or is in the queue. -/
  history : d.committed = d.log.filterMap Item.char ++ d.queue
  data : ∀ i c, .byte i c ∈ d.log → c ≠ ctrlD
  reader : ∀ i rd, d.reader i = some rd → rd.n + rd.got.length = rd.target
  ret : ∀ i v got, .ret i v got ∈ d.log → v = got.length
  eof : ∀ i v, .eof i v ∈ d.log → v = 0

omit [DecidableEq ι] in
theorem after_chars (i : ι) (rd : Reader) (cs : List UInt8) (x : ReadEnd) :
    (after i rd cs x).2.filterMap Item.char = cs ++ x.consumed := by
  have hbytes : (cs.map (Item.byte i)).filterMap Item.char = cs := by
    rw [List.filterMap_map]
    exact List.filterMap_some
  cases x <;> simp [after, hbytes, Item.char, ReadEnd.consumed]

theorem Discipline.Ok.readSection {d : Discipline ι} (h : d.Ok) (i : ι) {rd : Reader}
    (hrd : rd.n + rd.got.length = rd.target) : (d.readSection i rd).Ok := by
  obtain ⟨hq, hdata, hlen, heof⟩ := take_spec rd.target rd.n d.queue (by omega)
  unfold Discipline.readSection
  generalize Discipline.take rd.target rd.n d.queue = out at *
  obtain ⟨cs, x, queue⟩ := out
  simp only at hq hdata hlen heof ⊢
  have hitems : ∀ item ∈ (after i rd cs x).2, (∃ c ∈ cs, item = .byte i c) ∨
      (∃ n, x = .returned n ∧ item = .ret i (rd.target - n) (rd.got ++ cs)) ∨
      ∃ n, x = .eof n ∧ item = .eof i (rd.target - n) := by
    intro item hitem
    cases x <;> simp only [after, List.mem_append, List.mem_map, List.mem_singleton] at hitem
    · obtain ⟨c, hc, rfl⟩ := hitem
      exact Or.inl ⟨c, hc, rfl⟩
    · rcases hitem with ⟨c, hc, rfl⟩ | rfl
      · exact Or.inl ⟨c, hc, rfl⟩
      · exact Or.inr (Or.inl ⟨_, rfl, rfl⟩)
    · rcases hitem with ⟨c, hc, rfl⟩ | rfl
      · exact Or.inl ⟨c, hc, rfl⟩
      · exact Or.inr (Or.inr ⟨_, rfl, rfl⟩)
  refine ⟨?_, ?_, ?_, ?_, ?_⟩
  · rw [List.filterMap_append, after_chars, List.append_assoc, ← hq]
    exact h.history
  · intro j c hm
    rcases List.mem_append.mp hm with hm | hm
    · exact h.data j c hm
    · rcases hitems _ hm with ⟨c', hc', heq⟩ | ⟨n, -, heq⟩ | ⟨n, -, heq⟩
      · cases heq
        exact fun hc => hdata (hc ▸ hc')
      · cases heq
      · cases heq
  · intro j rd' hj
    rcases eq_or_ne j i with rfl | hji
    · simp only [Function.update_self] at hj
      cases x with
      | slept n =>
        cases hj
        simp only [ReadEnd.left, List.length_append] at hlen ⊢
        omega
      | returned n => cases hj
      | eof n => cases hj
    · simp only [Function.update_of_ne hji] at hj
      exact h.reader j rd' hj
  · intro j v got hm
    rcases List.mem_append.mp hm with hm | hm
    · exact h.ret j v got hm
    · rcases hitems _ hm with ⟨c, -, heq⟩ | ⟨n, rfl, heq⟩ | ⟨n, -, heq⟩
      · cases heq
      · cases heq
        simp only [ReadEnd.left, List.length_append] at hlen ⊢
        omega
      · cases heq
  · intro j v hm
    rcases List.mem_append.mp hm with hm | hm
    · exact h.eof j v hm
    · rcases hitems _ hm with ⟨c, -, heq⟩ | ⟨n, -, heq⟩ | ⟨n, rfl, heq⟩
      · cases heq
      · cases heq
      · cases heq
        rw [heof n rfl, Nat.sub_self]

theorem Discipline.step_ok {d d' : Discipline ι} {x : Event ι} (h : d.Ok)
    (hs : d.step x = some d') : d'.Ok := by
  cases x with
  | intr cs =>
    cases hs
    obtain ⟨l, hl⟩ := keys_committed d cs
    refine ⟨?_, ?_, ?_, ?_, ?_⟩
    · rw [hl.committed, hl.queue, hl.log, h.history, List.append_assoc]
    · rw [hl.log]
      exact h.data
    · rw [hl.reader]
      exact h.reader
    · rw [hl.log]
      exact h.ret
    · rw [hl.log]
      exact h.eof
  | read i n =>
    simp only [Discipline.step] at hs
    split at hs
    · cases hs
      exact h.readSection i rfl
    · cases hs
  | resume i =>
    obtain ⟨rd, hrd, rfl⟩ := Option.map_eq_some_iff.mp hs
    exact h.readSection i (h.reader i rd hrd)

omit [DecidableEq ι] in
theorem Discipline.boot_ok : (Discipline.boot ι).Ok :=
  ⟨rfl, by simp [Discipline.boot], by simp [Discipline.boot], by simp [Discipline.boot],
    by simp [Discipline.boot]⟩

/-! ### Runs -/

/-- The console and the discipline after the same events. -/
structure Refines (m : Console ι) (d : Discipline ι) : Prop where
  rep : ∃ R, Rep m.input d.queue d.line R
  reader : m.reader = d.reader
  log : m.log = d.log

theorem Refines.readSection {m : Console ι} {d : Discipline ι} (h : Refines m d) (i : ι)
    (rd : Reader) : Refines (readSection m i rd) (d.readSection i rd) := by
  obtain ⟨R, hrep⟩ := h.rep
  obtain ⟨hcs, hx, hrep'⟩ := hrep.readLoop rd.target rd.n
  simp only [Cons.readSection, Discipline.readSection, hcs, hx, h.reader, h.log]
  exact ⟨hrep', rfl, rfl⟩

theorem step_refines {m m' : Console ι} {d : Discipline ι} {x : Event ι} (h : Refines m d)
    (hs : step m x = some m') : ∃ d', d.step x = some d' ∧ Refines m' d' := by
  cases x with
  | intr cs =>
    cases hs
    obtain ⟨R, hrep⟩ := h.rep
    obtain ⟨l, hl⟩ := keys_committed d cs
    exact ⟨_, rfl, ⟨R, hrep.consoleintr cs⟩, h.reader.trans hl.reader.symm,
      h.log.trans hl.log.symm⟩
  | read i n =>
    simp only [step, h.reader] at hs
    simp only [Discipline.step]
    split at hs
    · cases hs
      exact ⟨_, rfl, h.readSection i _⟩
    · cases hs
  | resume i =>
    simp only [step, h.reader] at hs
    obtain ⟨rd, hrd, rfl⟩ := Option.map_eq_some_iff.mp hs
    exact ⟨_, by simp [Discipline.step, hrd], h.readSection i rd⟩

theorem run_refines {m m' : Console ι} {d : Discipline ι} {es : List (Event ι)} (h : Refines m d)
    (hr : run step m es = some m') : ∃ d', run Discipline.step d es = some d' ∧ Refines m' d' := by
  induction es generalizing m d with
  | nil =>
    cases hr
    exact ⟨d, rfl, h⟩
  | cons x es ih =>
    obtain ⟨m₁, hm₁, hrest⟩ := (run_cons step).mp hr
    obtain ⟨d₁, hd₁, h₁⟩ := step_refines h hm₁
    obtain ⟨d', hd', h'⟩ := ih h₁ hrest
    exact ⟨d', (run_cons Discipline.step).mpr ⟨d₁, hd₁, hd'⟩, h'⟩

/-- The bytes of the ring from `r` up to `w`. -/
def Input.pending (inp : Input) : List UInt8 :=
  (List.range (inp.w - inp.r).toNat).map (fun j => inp.byteAt (inp.r + UInt32.ofNat j))

theorem Rep.pending (h : Rep inp queue line R) : inp.pending = queue := by
  have hroom := h.room
  have hlen := h.r.sub_toNat h.w (by omega)
  refine List.ext_getElem (by simp [Input.pending, hlen]) ?_
  intro j hj hj'
  have hb := h.bytes j (by omega)
  have hidx : Index (inp.r + UInt32.ofNat j) (R + j) := by
    have hr := h.r
    simp only [Index, UInt32.toNat_add, UInt32.toNat_ofNat', INPUT_BUF] at *
    omega
  simp only [Input.pending, List.getElem_map, List.getElem_range, Input.byteAt, hidx.mod, hb]
  rw [List.getD_append _ _ _ _ hj', List.getD_eq_getElem _ _ hj']

theorem killLine_frame (fuel : Nat) (inp : Input) : (inp.killLine fuel).buf = inp.buf ∧
    (inp.killLine fuel).r = inp.r ∧ (inp.killLine fuel).w = inp.w := by
  induction fuel generalizing inp with
  | zero => exact ⟨rfl, rfl, rfl⟩
  | succ fuel ih =>
    rw [Input.killLine]
    split_ifs
    · exact ih _
    · exact ⟨rfl, rfl, rfl⟩

theorem edit_frame {c : UInt8} (hc : c = ctrlH ∨ c = delete ∨ c = ctrlU) (inp : Input) :
    (inp.key c).buf = inp.buf ∧ (inp.key c).r = inp.r ∧ (inp.key c).w = inp.w := by
  rcases hc with rfl | rfl | rfl
  · rw [Input.key, if_neg (by decide), if_neg (by decide), if_pos (by decide)]
    split_ifs <;> exact ⟨rfl, rfl, rfl⟩
  · rw [Input.key, if_neg (by decide), if_neg (by decide), if_pos (by decide)]
    split_ifs <;> exact ⟨rfl, rfl, rfl⟩
  · rw [Input.key, if_neg (by decide), if_pos rfl]
    exact killLine_frame _ _

/-- In every run the ring is in order, editing does not touch what has been committed, and reads
get what a line discipline on lists gives them: everything that was committed, in order and once,
where every end of file makes a read return 0 and is never data. -/
theorem console_faithful {es : List (Event ι)} {m : Console ι} (h : run step (boot ι) es = some m) :
    ((m.input.w - m.input.r).toNat ≤ (m.input.e - m.input.r).toNat ∧
      (m.input.e - m.input.r).toNat ≤ INPUT_BUF) ∧
    (∀ c, c = ctrlH ∨ c = delete ∨ c = ctrlU → (m.input.key c).buf = m.input.buf ∧
      (m.input.key c).r = m.input.r ∧ (m.input.key c).w = m.input.w) ∧
    ∃ d, run Discipline.step (Discipline.boot ι) es = some d ∧ m.reader = d.reader ∧
      m.log = d.log ∧ m.input.pending = d.queue ∧
      d.committed = m.log.filterMap Item.char ++ m.input.pending ∧
      (∀ i c, .byte i c ∈ m.log → c ≠ ctrlD) ∧
      (∀ i v got, .ret i v got ∈ m.log → v = got.length) ∧
      ∀ i v, .eof i v ∈ m.log → v = 0 := by
  have hboot : Refines (boot ι) (Discipline.boot ι) := ⟨⟨0, init_rep⟩, rfl, rfl⟩
  obtain ⟨d, hd, href⟩ := run_refines hboot h
  have hok : d.Ok := run_invariant Discipline.step (I := Discipline.Ok)
    (fun _ _ _ => Discipline.step_ok) Discipline.boot_ok hd
  obtain ⟨R, hrep⟩ := href.rep
  have hroom := hrep.room
  have hw := hrep.r.sub_toNat hrep.w (by omega)
  have he := hrep.r.sub_toNat (n := d.queue.length + d.line.length)
    (by rw [← Nat.add_assoc]; exact hrep.e) hroom
  refine ⟨⟨by omega, by omega⟩, fun c hc => edit_frame hc _, d, hd, href.reader, href.log,
    hrep.pending, ?_, ?_, ?_, ?_⟩
  · rw [href.log, hrep.pending]
    exact hok.history
  · rw [href.log]
    exact hok.data
  · rw [href.log]
    exact hok.ret
  · rw [href.log]
    exact hok.eof

/-- A read waits for `ax`, backspace, `b`, `^D`; it returns `ab`, and the next read returns 0. -/
def typedLine : List (Event Nat) :=
  [.read 0 10, .intr [97, 120, ctrlH], .intr [98, ctrlD], .resume 0, .read 1 10]

theorem typedLine_faithful : ∃ m, run step (boot Nat) typedLine = some m ∧
    m.log = [.byte 0 97, .byte 0 98, .ret 0 2 [97, 98], .eof 1 0] ∧
    ∃ d, run Discipline.step (Discipline.boot Nat) typedLine = some d ∧ m.log = d.log ∧
      d.committed = [97, 98, ctrlD] := by
  have h : (run step (boot Nat) typedLine).map (fun m => (m.log, m.input.pending)) =
      some ([.byte 0 97, .byte 0 98, .ret 0 2 [97, 98], .eof 1 0], []) := by decide +kernel
  obtain ⟨m, hm, hvals⟩ := Option.map_eq_some_iff.mp h
  simp only [Prod.mk.injEq] at hvals
  obtain ⟨hlog, hpending⟩ := hvals
  obtain ⟨-, -, d, hd, -, hdlog, -, hcommitted, -⟩ := console_faithful hm
  refine ⟨m, hm, hlog, d, hd, hdlog, ?_⟩
  rw [hcommitted, hlog, hpending]
  rfl

end Xv6.Cons
