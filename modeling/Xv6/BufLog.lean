import Xv6.BufFresh
import Xv6.LogCommit
import Xv6.LogGroup
import Xv6.Run

/-!
# The buffer cache under the log

Processes that call `bread`, modify the buffer and write it with `log_write` or `bwrite`, between
`begin_op` and `end_op` or not. The last `end_op` runs `commit`, which is itself a sequence of calls
of the buffer cache. Each part of `commit` that the log distinguishes (a round of the loop of
`write_log` or `install_trans`, or a `write_head`) is a list of calls.
-/

namespace Xv6.Bio

open Function

variable {N : Nat}

/-- A call in `commit`; the buffers that a part has got from `bread` are numbered. -/
inductive Call
  | bread (b : Nat)
  /-- `memmove` -/
  | copy (dst src : Nat)
  /-- The assignments to the header in `write_head`. -/
  | putHead (r : Nat) (block : List Nat)
  | bwrite (r : Nat)
  | brelse (r : Nat)
  deriving DecidableEq

/-- The calls of the part of `commit` that begins at `pc`. -/
def commitCalls (start : Nat) (lh : List Nat) : Log.Pc → List Call
  | .writeLog tail =>
    match lh[tail]? with
    | some b =>
      [.bread (start + tail + 1), .bread b, .copy 0 1, .bwrite 0, .brelse 1, .brelse 0]
    | none => []
  | .writeHead => [.bread start, .putHead 0 lh, .bwrite 0, .brelse 0]
  | .install tail =>
    match lh[tail]? with
    | some b =>
      [.bread (start + tail + 1), .bread b, .copy 1 0, .bwrite 1, .brelse 0, .brelse 1]
    | none => []
  | .clearHead => [.bread start, .putHead 0 [], .bwrite 0, .brelse 0]
  | .idle | .op _ | .checked _ _ | .committed => []

structure Sys (N : Nat) where
  log : Log.State N
  cache : Cache N Block
  /-- The rest of the part of `commit` that a process is in. -/
  todo : Fin N → List Call
  /-- The buffers that this part has got. -/
  reg : Fin N → List (Fin NBUF)

def boot (zero : Block) (disk : Nat → Block) : Sys N where
  log := Log.initlog N
  cache := binit zero disk
  todo _ := []
  reg _ := []

/-- A process in none of the functions of `log.c`. -/
def free : Log.Pc → Bool
  | .idle | .op _ => true
  | _ => false

/-- Who makes a call by itself. -/
def Event.caller {α : Type*} : Event N α → Option (Fin N)
  | .bread p _ | .modify p _ _ | .pin p _ | .bwrite p _ | .brelse p _ => some p
  | .go _ | .ideintr => none

inductive Action (N : Nat)
  /-- A call of the buffer cache outside of `commit`, or a step inside of one. -/
  | call (e : Event N Block)
  | logWrite (p : Fin N) (i : Fin NBUF)
  /-- The next call of `commit`. -/
  | next (p : Fin N)
  /-- `begin_op`, the checks of `log_write`, `end_op` or the next part of `commit`. -/
  | op (o : Log.Op N)

namespace Sys

variable (s : Sys N)

/-- After a step of `log.c` by process `p`. -/
def logged (p : Fin N) (log : Log.State N) : Sys N :=
  { s with
    log := log
    todo := update s.todo p (commitCalls log.start log.lh (log.pc p))
    reg := update s.reg p [] }

/-- What a call of `commit` does in the buffer cache. -/
def callEvent (p : Fin N) : Call → Option (Event N Block)
  | .bread b => some (.bread p b)
  | .copy dst src =>
    match (s.reg p)[dst]?, (s.reg p)[src]? with
    | some i, some j => some (.modify p i (s.cache.buf j).data)
    | _, _ => none
  | .putHead r block =>
    (s.reg p)[r]?.map (fun i =>
      .modify p i (Log.putBlocks 0 block ((s.cache.buf i).data.setWord 0 4 block.length)))
  | .bwrite r => (s.reg p)[r]?.map (.bwrite p)
  | .brelse r => (s.reg p)[r]?.map (.brelse p)

/-- The buffer that `bread` has just found. -/
def found (p : Fin N) (cache : Cache N Block) : List (Fin NBUF) :=
  match cache.pc p with
  | .lock i _ => [i]
  | _ => []

/-- After a call of `commit`. -/
def called (p : Fin N) (c : Cache N Block) : Sys N :=
  { s with
    cache := c
    todo := update s.todo p (s.todo p).tail
    reg := update s.reg p (s.reg p ++ found p c) }

/-- The event of the buffer cache that an action performs. -/
def event : Action N → Option (Event N Block)
  | .call e => some e
  | .logWrite p i => some (.pin p i)
  | .next p => (s.todo p).head?.bind (s.callEvent p)
  | .op _ => none

/-- Whether the log lets an action happen. -/
def enabled : Action N → Bool
  | .call e =>
    match e, e.caller with
    | .pin _ _, _ => false
    | _, some p => free (s.log.pc p)
    | _, none => true
  | .logWrite p i =>
    match s.log.pc p with
    | .checked _ b => (s.cache.buf i).blockno = b
    | _ => false
  | .next _ => true
  | .op (.logAppend _) => false
  | .op o => s.cache.pc o.proc = .idle ∧ s.todo o.proc = []

end Sys

def sysStep (dev : Nat) (s : Sys N) (a : Action N) : Option (Sys N) :=
  if s.log.panic.isSome then none
  else if s.enabled a then
    match a with
    | .call e => (step dev s.cache e).map (fun c => { s with cache := c })
    | .logWrite p i =>
      (step dev s.cache (.pin p i)).bind (fun c =>
        (Log.logStep s.log (.logAppend p)).map (fun log => { s with cache := c, log := log }))
    | .next p =>
      (s.event (.next p)).bind (fun e => (step dev s.cache e).map (s.called p))
    | .op o => (Log.logStep s.log o).map (s.logged o.proc)
  else none

/-- The system next to what was written. -/
structure Watched (N : Nat) where
  sys : Sys N
  view : View Block

def Watched.init (zero : Block) (disk : Nat → Block) : Watched N := ⟨boot zero disk, View.init disk⟩

def watchStep (dev : Nat) (w : Watched N) (a : Action N) : Option (Watched N) :=
  (sysStep dev w.sys a).map (fun s => ⟨s, match w.sys.event a with
    | some e => w.view.record w.sys.cache e
    | none => w.view⟩)

inductive SysStep (dev : Nat) (s : Sys N) : Action N → Sys N → Prop
  | call {e c} (he : s.enabled (.call e) = true) (hs : step dev s.cache e = some c) :
      SysStep dev s (.call e) { s with cache := c }
  | logWrite {p i c log} (he : s.enabled (.logWrite p i) = true)
      (hs : step dev s.cache (.pin p i) = some c)
      (hlog : Log.logStep s.log (.logAppend p) = some log) :
      SysStep dev s (.logWrite p i) { s with cache := c, log := log }
  | next {p e c call rest} (htodo : s.todo p = call :: rest)
      (hcall : s.callEvent p call = some e) (hs : step dev s.cache e = some c) :
      SysStep dev s (.next p) (s.called p c)
  | op {o log} (hlog : Log.logStep s.log o = some log) :
      SysStep dev s (.op o) (s.logged o.proc log)

variable {a : Action N} {rest : List Call} {c : Cache N Block} {e : Event N Block}

theorem sysStep_cases {dev : Nat} {s s' : Sys N} (h : sysStep dev s a = some s') :
    SysStep dev s a s' := by
  unfold sysStep at h
  split at h
  · cases h
  · split at h
    · next he =>
      cases a with
      | call e =>
        obtain ⟨c, hs, rfl⟩ := Option.map_eq_some_iff.mp h
        exact .call he hs
      | logWrite p i =>
        obtain ⟨c, hs, h⟩ := Option.bind_eq_some_iff.mp h
        obtain ⟨log, hlog, rfl⟩ := Option.map_eq_some_iff.mp h
        exact .logWrite he hs hlog
      | next p =>
        obtain ⟨e, he, h⟩ := Option.bind_eq_some_iff.mp h
        obtain ⟨c, hs, rfl⟩ := Option.map_eq_some_iff.mp h
        obtain ⟨call, hhead, hcall⟩ := Option.bind_eq_some_iff.mp he
        cases htodo : s.todo p with
        | nil => simp [htodo] at hhead
        | cons call' rest =>
          obtain rfl : call' = call := by simpa [htodo] using hhead
          exact .next htodo hcall hs
      | op o =>
        obtain ⟨log, hlog, rfl⟩ := Option.map_eq_some_iff.mp h
        exact .op hlog
    · cases h

/-- Processes outside of `commit` write what they modify before they release it. -/
def ClientsWriteBack (w : Watched N) (a : Action N) : Prop :=
  ∀ e, a = .call e → WritesBack w.view e

/-! ### The calls of `commit` -/

/-- Every modification in a list of calls is followed by `bwrite`. -/
def WellWritten : List Call → Prop
  | [] => True
  | .copy r _ :: rest | .putHead r _ :: rest => rest.head? = some (.bwrite r) ∧ WellWritten rest
  | .bread _ :: rest | .bwrite _ :: rest | .brelse _ :: rest => WellWritten rest

theorem wellWritten_commitCalls (start : Nat) (lh : List Nat) (pc : Log.Pc) :
    WellWritten (commitCalls start lh pc) := by
  unfold commitCalls
  split <;> try split
  all_goals simp [WellWritten]

theorem commitCalls_free (start : Nat) (lh : List Nat) {pc : Log.Pc} (h : ¬ pc.inCommit) :
    commitCalls start lh pc = [] := by
  cases pc <;> simp_all [commitCalls, Log.Pc.inCommit]

theorem WellWritten.tail {c : Call} (h : WellWritten (c :: rest)) : WellWritten rest := by
  cases c with
  | copy dst src => exact h.2
  | putHead r block => exact h.2
  | bread b => exact h
  | bwrite r => exact h
  | brelse r => exact h

/-- A buffer that `commit` has got and holds is unmodified, unless its `bwrite` comes next. -/
def Clean (s : Sys N) (v : View Block) (p : Fin N) (i : Fin NBUF) : Prop :=
  (∃ b, s.cache.pc p = .lock i b) ∨ v.touched i = false ∨
    ∃ r rest, s.todo p = .bwrite r :: rest ∧ (s.reg p)[r]? = some i

structure Registers (s : Sys N) (v : View Block) : Prop where
  written : ∀ p, WellWritten (s.todo p)
  idle : ∀ p, ¬ (s.log.pc p).inCommit → s.todo p = [] ∧ s.reg p = []
  clean : ∀ p, ∀ i ∈ s.reg p, (s.cache.buf i).lock = some p → Clean s v p i

variable {dev : Nat} {s s' : Sys N} {v : View Block} {p : Fin N} {i : Fin NBUF}

theorem Clean.other (h : Clean s v p i) (hs : step dev s.cache e = some c) (he : e.proc ≠ some p)
    (hlock : (s.cache.buf i).lock = some p) (hcache : s'.cache = c) (htodo : s'.todo p = s.todo p)
    (hreg : s'.reg p = s.reg p) : Clean s' (v.record s.cache e) p i := by
  rcases h with ⟨b, hb⟩ | ht | ⟨r, rest, hr, hi⟩
  · exact Or.inl ⟨b, by rw [hcache, (step_other (i := i) hs he).1, hb]⟩
  · refine Or.inr (Or.inl ?_)
    by_contra hne
    rcases record_touched (by simpa using hne) with ht' | ⟨q, data, rfl⟩
    · rw [ht] at ht'
      cases ht'
    · cases step_cases hs with
      | modify ho =>
        have := ho.2
        rw [hlock] at this
        exact he this.symm
  · exact Or.inr (Or.inr ⟨r, rest, by rw [htodo, hr], by rw [hreg, hi]⟩)

section

variable (h : Registers s v)
include h

theorem Clean.go (hok : Ok dev s.cache v)
    (hs : step dev s.cache (.go p) = some c) (hi : i ∈ s.reg p) (hlock : (c.buf i).lock = some p) :
    Clean { s with cache := c } v p i := by
  have hkeep : (s.cache.buf i).lock = some p → (∀ b, s.cache.pc p ≠ .lock i b) →
      Clean { s with cache := c } v p i := by
    intro hl hpc
    rcases h.clean p i hi hl with ⟨b, hb⟩ | hcases
    · exact absurd hb (hpc b)
    · exact Or.inr hcases
  cases step_cases hs with
  | acquiresleep hp hl =>
    rename_i b j
    rcases eq_or_ne i j with rfl | hij
    · exact Or.inr (Or.inl (hok.fresh.untouched hl))
    · simp only [Cache.goto, Cache.setBuf, update_of_ne hij] at hlock
      refine hkeep hlock ?_
      intro b' hb'
      rw [hp] at hb'
      exact hij (Pc.lock.inj hb').1.symm
  | test hp => exact hkeep hlock (by simp [hp])
  | iderw hp hs =>
    rw [(iderw_frame hs).1] at hlock
    exact hkeep hlock (by simp [hp])
  | wake hp hv hd => exact hkeep hlock (by simp [hp])
  | unref hp =>
    rw [unref_frame.2] at hlock
    exact hkeep (lock_setBuf (by exact id) hlock) (by simp [hp])

theorem Registers.call (hok : Ok dev s.cache v)
    (he : s.enabled (.call e) = true) (hs : step dev s.cache e = some c) :
    Registers { s with cache := c } (v.record s.cache e) := by
  refine ⟨h.written, h.idle, ?_⟩
  intro q i hi hlock
  by_cases hq : e.proc = some q
  · by_cases hcaller : e.caller = none
    · obtain rfl : e = .go q := by
        cases e <;> simp_all [Event.proc, Event.caller]
      exact Clean.go h hok hs hi hlock
    · -- a process outside of `commit` has no registers
      have hidle : ¬ (s.log.pc q).inCommit := by
        intro hin
        cases e <;> simp_all [Event.proc, Event.caller, Sys.enabled] <;>
          cases hpc : s.log.pc q <;> simp_all [free, Log.Pc.inCommit]
      rw [(h.idle q hidle).2] at hi
      cases hi
  · have hl := (step_other (i := i) hs hq).2 hlock
    exact (h.clean q i hi hl).other hs hq hl rfl rfl rfl

theorem Registers.logWrite {log : Log.State N}
    (he : s.enabled (.logWrite p i) = true) (hs : step dev s.cache (.pin p i) = some c)
    (hlog : Log.logStep s.log (.logAppend p) = some log) :
    Registers { s with cache := c, log := log } (v.record s.cache (.pin p i)) := by
  have hidle : ¬ (s.log.pc p).inCommit := by
    intro hin
    cases hpc : s.log.pc p <;> simp_all [Sys.enabled, Log.Pc.inCommit]
  refine ⟨h.written, ?_, ?_⟩
  · intro q hq
    rcases eq_or_ne q p with rfl | hqp
    · exact h.idle q hidle
    · rw [Log.logStep_pc_of_ne hlog hqp] at hq
      exact h.idle q hq
  · intro q j hj hlock
    have hqp : q ≠ p := by
      rintro rfl
      rw [(h.idle q hidle).2] at hj
      cases hj
    have hproc : Event.proc (.pin p i : Event N Block) ≠ some q := by
      simpa [Event.proc] using hqp.symm
    have hl := (step_other (i := j) hs hproc).2 hlock
    exact (h.clean q j hj hl).other hs hproc hl rfl rfl rfl

theorem Registers.op {o : Log.Op N} {log : Log.State N}
    (hlog : Log.logStep s.log o = some log) : Registers (s.logged o.proc log) v := by
  refine ⟨?_, ?_, ?_⟩
  · intro q
    rcases eq_or_ne q o.proc with rfl | hq
    · simp only [Sys.logged, update_self]
      exact wellWritten_commitCalls _ _ _
    · simp only [Sys.logged, update_of_ne hq]
      exact h.written q
  · intro q hin
    rcases eq_or_ne q o.proc with rfl | hq
    · simp only [Sys.logged, update_self, and_true]
      exact commitCalls_free _ _ hin
    · simp only [Sys.logged, update_of_ne hq] at hin ⊢
      rw [Log.logStep_pc_of_ne hlog hq] at hin
      exact h.idle q hin
  · intro q i hi hlock
    rcases eq_or_ne q o.proc with rfl | hq
    · simp [Sys.logged] at hi
    · simp only [Sys.logged, update_of_ne hq] at hi
      simpa only [Clean, Sys.logged, update_of_ne hq] using h.clean q i hi hlock

/-- Between two calls, the buffers of `commit` are unmodified unless `bwrite` comes next. -/
theorem Registers.between (hi : i ∈ s.reg p)
    (hlock : (s.cache.buf i).lock = some p) (hpc : s.cache.pc p = .idle) {call : Call}
    (htodo : s.todo p = call :: rest) (hcall : ∀ r, call ≠ .bwrite r) :
    v.touched i = false := by
  rcases h.clean p i hi hlock with ⟨b, hb⟩ | ht | ⟨r, rest', hr, -⟩
  · rw [hpc] at hb
    cases hb
  · exact ht
  · rw [htodo] at hr
    exact absurd (List.cons.inj hr).1 (hcall r)

/-- What is left to show for a call of `commit` concerns its own buffers. -/
theorem Registers.called {call : Call} (htodo : s.todo p = call :: rest)
    (hs : step dev s.cache e = some c) (he : e.proc = some p)
    (hown : ∀ i ∈ s.reg p ++ Sys.found p c, (c.buf i).lock = some p → Clean (s.called p c) (v.record
      s.cache e) p i) : Registers (s.called p c) (v.record s.cache e) := by
  refine ⟨?_, ?_, ?_⟩
  · intro q
    rcases eq_or_ne q p with rfl | hqp
    · have hw := h.written q
      rw [htodo] at hw
      simpa only [Sys.called, update_self, htodo, List.tail_cons] using hw.tail
    · simpa only [Sys.called, update_of_ne hqp] using h.written q
  · intro q hq
    rcases eq_or_ne q p with rfl | hqp
    · have := (h.idle q hq).1
      rw [htodo] at this
      cases this
    · simpa only [Sys.called, update_of_ne hqp] using h.idle q hq
  · intro q i hi hlock
    rcases eq_or_ne q p with rfl | hqp
    · simp only [Sys.called, update_self] at hi
      exact hown i hi hlock
    · have hproc : e.proc ≠ some q := by
        rw [he]
        simpa using hqp.symm
      have hl := (step_other (i := i) hs hproc).2 hlock
      have hreg : (s.called p c).reg q = s.reg q := update_of_ne hqp _ _
      rw [hreg] at hi
      exact (h.clean q i hi hl).other hs hproc hl rfl (update_of_ne hqp _ _) hreg

end

theorem found_of_idle (h : c.pc p = .idle) : Sys.found p c = [] := by
  simp [Sys.found, h]

theorem Registers.modify (h : Registers s v) {call : Call} {data : Block} {r : Nat}
    (htodo : s.todo p = call :: rest)
    (hcall : ∀ r, call ≠ .bwrite r) (hr : (s.reg p)[r]? = some i)
    (hrest : rest.head? = some (.bwrite r)) (hs : step dev s.cache (.modify p i data) = some c) :
    Registers (s.called p c) (v.record s.cache (.modify p i data)) := by
  refine h.called htodo hs rfl ?_
  cases step_cases hs with
  | modify ho =>
    have hfound := @found_of_idle N (s.cache.setBuf i { s.cache.buf i with data := data }) p ho.1
    rw [hfound, List.append_nil]
    intro j hj hlock
    rcases eq_or_ne j i with rfl | hji
    · obtain ⟨rest', rfl⟩ : ∃ rest', rest = .bwrite r :: rest' := by
        cases rest with
        | nil => simp at hrest
        | cons c' rest' => exact ⟨rest', by simpa using hrest⟩
      refine Or.inr (Or.inr ⟨r, rest', ?_, ?_⟩)
      · simp only [Sys.called, update_self, htodo, List.tail_cons]
      · simpa only [Sys.called, update_self, hfound, List.append_nil] using hr
    · refine Or.inr (Or.inl ?_)
      simp only [View.record, update_of_ne hji]
      exact h.between hj (lock_setBuf (by exact id) hlock) ho.1 htodo hcall

theorem Registers.bread (h : Registers s v) {b : Nat} {k : Fin NBUF}
    {x : Buf N Block} (htodo : s.todo p = .bread b :: rest) (hp : s.cache.pc p = .idle)
    (hx : x.lock = (s.cache.buf k).lock)
    (hs : step dev s.cache (.bread p b) = some ((s.cache.setBuf k x).goto p (.lock k b))) :
    Registers (s.called p ((s.cache.setBuf k x).goto p (.lock k b)))
      (v.record s.cache (.bread p b)) := by
  refine h.called htodo hs rfl ?_
  intro i hi hlock
  simp only [Sys.found, Cache.goto, update_self, List.mem_append,
    List.mem_singleton] at hi
  rcases hi with hi | rfl
  · have hl := lock_setBuf (by rw [hx]; exact id) hlock
    exact Or.inr (Or.inl (h.between hi hl hp htodo (by simp)))
  · exact Or.inl ⟨b, update_self _ _ _⟩

theorem Registers.next (h : Registers s v) {call : Call} (htodo : s.todo p = call :: rest)
    (he : s.callEvent p call = some e)
    (hs : step dev s.cache e = some c) :
    WritesBack v e ∧ Registers (s.called p c) (v.record s.cache e) := by
  have hwritten := h.written p
  rw [htodo] at hwritten
  cases call with
  | bread b =>
    obtain rfl : Event.bread p b = e := by simpa [Sys.callEvent] using he
    refine ⟨trivial, ?_⟩
    cases step_cases hs with
    | hit hp hl => exact h.bread htodo hp rfl hs
    | recycle hp hl hv => exact h.bread htodo hp rfl hs
  | copy dst src =>
    simp only [Sys.callEvent] at he
    split at he
    · next i j hi hj =>
      cases he
      exact ⟨trivial, h.modify htodo (by simp) hi hwritten.1 hs⟩
    · cases he
  | putHead r block =>
    obtain ⟨i, hi, rfl⟩ := Option.map_eq_some_iff.mp he
    exact ⟨trivial, h.modify htodo (by simp) hi hwritten.1 hs⟩
  | bwrite r =>
    obtain ⟨i, hi, rfl⟩ := Option.map_eq_some_iff.mp he
    refine ⟨trivial, h.called htodo hs rfl ?_⟩
    cases step_cases hs with
    | bwrite ho =>
      intro j hj hlock
      simp only [Sys.found, Cache.goto, update_self, List.append_nil] at hj
      refine Or.inr (Or.inl ?_)
      rcases eq_or_ne j i with rfl | hji
      · simp [View.record]
      · simp only [View.record, update_of_ne hji]
        rcases h.clean p j hj (lock_setBuf (by exact id) hlock) with ⟨b, hb⟩ | ht |
          ⟨r', rest', hr, hr'⟩
        · rw [ho.1] at hb
          cases hb
        · exact ht
        · rw [htodo] at hr
          obtain rfl : r = r' := by simpa using (List.cons.inj hr).1
          rw [hi] at hr'
          exact absurd (Option.some.inj hr').symm hji
  | brelse r =>
    obtain ⟨i, hi, rfl⟩ := Option.map_eq_some_iff.mp he
    cases step_cases hs with
    | brelse ho =>
      refine ⟨h.between (List.mem_of_getElem? hi) ho.2 ho.1 htodo (by simp),
        h.called htodo hs rfl ?_⟩
      intro j hj hlock
      simp only [Sys.found, Cache.goto, update_self, List.append_nil] at hj
      have hl := lock_setBuf (by intro hq; cases hq) hlock
      exact Or.inr (Or.inl (h.between hj hl ho.1 htodo (by simp)))

/-! ### Transparency -/

structure Inv (dev : Nat) (w : Watched N) : Prop where
  ok : Ok dev w.sys.cache w.view
  registers : Registers w.sys w.view

theorem init_inv (hdev : dev ≠ 0) (zero : Block) (disk : Nat → Block) :
    Inv dev (Watched.init zero disk : Watched N) := by
  refine ⟨binit_ok hdev zero disk, ⟨fun _ => trivial, fun _ _ => ⟨rfl, rfl⟩, ?_⟩⟩
  intro p i hi
  simp [Watched.init, boot] at hi

theorem sysStep_cache (h : sysStep dev s a = some s') :
    (∃ e, s.event a = some e ∧ step dev s.cache e = some s'.cache) ∨
      s.event a = none ∧ s'.cache = s.cache := by
  cases sysStep_cases h with
  | call he hs => exact Or.inl ⟨_, rfl, hs⟩
  | logWrite he hs hlog => exact Or.inl ⟨_, rfl, hs⟩
  | next htodo hcall hs => exact Or.inl ⟨_, by rw [Sys.event, htodo]; exact hcall, hs⟩
  | op hlog => exact Or.inr ⟨rfl, rfl⟩

theorem watchStep_inv {w w' : Watched N} (h : Inv dev w)
    (hc : ClientsWriteBack w a) (hw : watchStep dev w a = some w') : Inv dev w' := by
  obtain ⟨s', hsys, rfl⟩ := Option.map_eq_some_iff.mp hw
  obtain ⟨hok, hreg⟩ := h
  cases sysStep_cases hsys with
  | call he hs => exact ⟨step_ok hok (hc _ rfl) hs, hreg.call hok he hs⟩
  | logWrite he hs hlog => exact ⟨step_ok hok (by trivial) hs, hreg.logWrite he hs hlog⟩
  | next htodo hcall hs =>
    obtain ⟨hwrites, hreg'⟩ := hreg.next htodo hcall hs
    rw [show w.sys.event (.next _) = some _ by rw [Sys.event, htodo]; exact hcall]
    exact ⟨step_ok hok hwrites hs, hreg'⟩
  | op hlog => exact ⟨hok, hreg.op hlog⟩

/-- At most one buffer is for a block. -/
def OnePerBlock (dev : Nat) (c : Cache N Block) : Prop :=
  ∀ i j, (c.buf i).dev = dev → (c.buf j).dev = dev → (c.buf i).blockno = (c.buf j).blockno → i = j

structure Transparent (dev : Nat) (w w' : Watched N) (a : Action N) : Prop where
  /-- A `bread` of block `b` that returns. -/
  returns : ∀ p i b, a = .call (.go p) →
    (w.sys.cache.pc p = .test i b ∨ w.sys.cache.pc p = .wait i b) → w'.sys.cache.pc p = .idle →
    (w'.sys.cache.buf i).lock = some p ∧ (w'.sys.cache.buf i).dev = dev ∧
      (w'.sys.cache.buf i).blockno = b ∧ (w'.sys.cache.buf i).data = w.view.last b
  recycles : ∀ i, Recycled w.sys.cache w'.sys.cache i → (w.sys.cache.buf i).refcnt = 0 ∧
    ((w.sys.cache.buf i).dev = dev → w.view.owed (w.sys.cache.buf i).blockno = false)

theorem cache_transparent (hdev : dev ≠ 0) {zero : Block} {disk : Nat → Block}
    {as : List (Action N)} {w : Watched N}
    (halong : Along (watchStep dev) ClientsWriteBack (Watched.init zero disk) as)
    (hrun : run (watchStep dev) (Watched.init zero disk) as = some w) :
    OnePerBlock dev w.sys.cache ∧ ∀ a w', watchStep dev w a = some w' → Transparent dev w w' a := by
  have hinv : Inv dev w := run_invariant_along _ (fun _ _ _ h hc hs => watchStep_inv h hc hs)
    (init_inv hdev zero disk) halong hrun
  refine ⟨hinv.ok.named.unique, ?_⟩
  intro a w' hw
  obtain ⟨s', hsys, rfl⟩ := Option.map_eq_some_iff.mp hw
  refine ⟨?_, ?_⟩
  · rintro p i b rfl hp hidle
    obtain ⟨e, he, hs⟩ | ⟨he, -⟩ := sysStep_cache hsys
    · obtain rfl : Event.go p = e := by simpa [Sys.event] using he
      exact hinv.ok.returned hp hs hidle
    · cases he
  · intro i hr
    obtain ⟨e, he, hs⟩ | ⟨-, hs⟩ := sysStep_cache hsys
    · exact hinv.ok.recycled hs hr
    · simp [Recycled, hs] at hr

/-! ### A commit -/

def zeros : Block := fun _ => 0

/-- The rest of `bread` for a block that is not in the cache. -/
def fetched (p : Fin N) : List (Action N) :=
  [.call (.go p), .call (.go p), .call (.go p), .call .ideintr, .call (.go p)]

/-- The rest of `bread` for a block that is in the cache. -/
def found (p : Fin N) : List (Action N) := [.call (.go p), .call (.go p)]

/-- The rest of `bwrite`. -/
def written (p : Fin N) : List (Action N) := [.call (.go p), .call .ideintr, .call (.go p)]

local instance bioOne : NeZero 1 := ⟨by decide⟩

local instance bioNbuf : NeZero NBUF := ⟨by decide⟩

local instance bioMany : NeZero 32 := ⟨by decide⟩

/-- Process 0 modifies block 60 in an operation. -/
def logBlock [NeZero N] : List (Action N) :=
  [[.op (.beginOp 0), .call (.bread 0 60)], fetched 0, [.call (.modify 0 0 zeros),
    .op (.logCheck 0 60), .logWrite 0 0, .call (.brelse 0 0), .call (.go 0)]].flatten

/-- The rest of a part of `commit` when its buffers have been read. -/
def copied (releases : Nat) : List (Action 1) :=
  [[.next 0, .next 0], written 0,
    (List.replicate releases [.next 0, .call (.go 0)]).flatten].flatten

/-- Then it ends the operation and commits. -/
def logAndCommit : List (Action 1) :=
  [logBlock, [.op (.endOp 0), .next 0], fetched 0, [.next 0], found 0, copied 2,
    [.op (.commit 0), .op (.commit 0), .next 0], fetched 0, copied 1,
    [.op (.commit 0), .next 0], found 0, [.next 0], found 0, copied 2,
    [.op (.commit 0), .op (.commit 0), .next 0], found 0, copied 1,
    [.op (.commit 0), .op (.endCommit 0)]].flatten

instance (v : View Block) (e : Event N Block) : Decidable (WritesBack v e) :=
  match e with
  | .brelse _ i => inferInstanceAs (Decidable (v.touched i = false))
  | .bread _ _ | .go _ | .ideintr | .modify _ _ _ | .pin _ _ | .bwrite _ _ =>
    inferInstanceAs (Decidable True)

/-- A test for `ClientsWriteBack`. -/
def clientsWriteBackB (w : Watched N) : Action N → Bool
  | .call e => decide (WritesBack w.view e)
  | _ => true

theorem clientsWriteBack_of_test (w : Watched N) (a : Action N)
    (h : clientsWriteBackB w a = true) : ClientsWriteBack w a := by
  rintro e rfl
  exact of_decide_eq_true h

/-- The commit is complete, and no block is owed to the disk. -/
theorem logAndCommit_transparent : ∃ w : Watched 1,
    run (watchStep 1) (Watched.init zeros (fun _ => zeros)) logAndCommit = some w ∧
      w.sys.log.lh = [] ∧ w.view.owed 60 = false ∧ OnePerBlock 1 w.sys.cache ∧
      ∀ a w', watchStep 1 w a = some w' → Transparent 1 w w' a := by
  have hrun : (run (watchStep 1) (Watched.init zeros (fun _ => zeros)) logAndCommit).map
      (fun w => (w.sys.log.lh, w.view.owed 60)) = some ([], false) := by decide +kernel
  have halong : Along (watchStep 1) ClientsWriteBack (Watched.init zeros (fun _ => zeros))
      logAndCommit := along_of_alongB _ clientsWriteBack_of_test (by decide +kernel)
  obtain ⟨w, hw, hstate⟩ := Option.map_eq_some_iff.mp hrun
  simp only [Prod.mk.injEq] at hstate
  exact ⟨w, hw, hstate.1, hstate.2, cache_transparent (by decide) halong hw⟩

/-! ### A block that is written around the log -/

/-- Process 1 writes block 60 while the operation of process 0 is not over. Then 29 processes look
for other blocks. -/
def writeAround : List (Action 32) :=
  [logBlock, [.call (.bread 1 60)], found 1, [.call (.bwrite 1 0)], written 1,
    [.call (.brelse 1 0), .call (.go 1)],
    (List.finRange 29).map (fun k : Fin 29 =>
      .call (.bread ⟨k.val + 2, by omega⟩ (100 + k.val)))].flatten

/-- One more recycles the buffer of block 60, which is in the log and has not been committed. -/
theorem writeAround_recycled : ∃ w w' : Watched 32,
    Along (watchStep 1) ClientsWriteBack (Watched.init zeros (fun _ => zeros)) writeAround ∧
      run (watchStep 1) (Watched.init zeros (fun _ => zeros)) writeAround = some w ∧
      (w.sys.cache.buf 0).dev = 1 ∧ (w.sys.cache.buf 0).blockno = 60 ∧ 60 ∈ w.sys.log.lh ∧
      w.sys.log.outstanding = 1 ∧ w.sys.log.committing = false ∧
      watchStep 1 w (.call (.bread 31 200)) = some w' ∧
      Recycled w.sys.cache w'.sys.cache 0 := by
  have halong : Along (watchStep 1) ClientsWriteBack (Watched.init zeros (fun _ => zeros))
      writeAround := along_of_alongB _ clientsWriteBack_of_test (by decide +kernel)
  have hrun : (run (watchStep 1) (Watched.init zeros (fun _ => zeros)) writeAround).bind
      (fun w => (watchStep 1 w (.call (.bread 31 200))).map (fun w' =>
        ((w.sys.cache.buf 0).dev, (w.sys.cache.buf 0).blockno, w.sys.log.lh,
          w.sys.log.outstanding, w.sys.log.committing, (w'.sys.cache.buf 0).blockno))) =
      some (1, 60, [60], 1, false, 200) := by decide +kernel
  obtain ⟨w, hw, hnext⟩ := Option.bind_eq_some_iff.mp hrun
  obtain ⟨w', hw', hstate⟩ := Option.map_eq_some_iff.mp hnext
  simp only [Prod.mk.injEq] at hstate
  obtain ⟨hdev, hblockno, hlh, hout, hcom, hnew⟩ := hstate
  refine ⟨w, w', halong, hw, hdev, hblockno, by simp [hlh], hout, hcom, hw', ?_⟩
  simp [Recycled, hblockno, hnew]

end Xv6.Bio
