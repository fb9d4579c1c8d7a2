import Xv6.FileWrite

/-!
# Appending through a shared file

When the offset starts at the size of the file, every chunk is stored at the end: the lock of the
inode covers the offset as well. What the processes have appended when all their calls have
returned is an interleaving of the chunks of their buffers.
-/

namespace Xv6.Fs

open Function
open Relation (ReflTransGen)

/-! ### Files that grow -/

def File.append (f : File) (l : List UInt8) : File :=
  f.write f.size l.length (fun i => l.getD i 0)

theorem append_size (f : File) (l : List UInt8) : (f.append l).size = f.size + l.length := by
  simp only [File.append, File.write]
  split_ifs <;> omega

theorem append_nil (f : File) : f.append [] = f := by
  have hbytes : patch f.bytes f.size 0 (fun i => ([] : List UInt8).getD i 0) = f.bytes := by
    funext x
    rw [patch, if_neg (by omega)]
  simp only [File.append, File.write, List.length_nil, hbytes]
  rfl

theorem append_write (f : File) (l : List UInt8) (n : Nat) (src : Nat → UInt8) :
    (f.append l).write (f.size + l.length) n src = f.append (l ++ (List.range n).map src) := by
  have hsize : (if n = 0 then (f.append l).size else max (f.append l).size (f.size + l.length + n))
      = (f.append (l ++ (List.range n).map src)).size := by
    simp only [append_size, List.length_append, List.length_map, List.length_range]
    split_ifs <;> omega
  have hbytes : patch (f.append l).bytes (f.size + l.length) n src =
      (f.append (l ++ (List.range n).map src)).bytes := by
    funext x
    simp only [File.append, File.write, patch, List.length_append, List.length_map,
      List.length_range]
    by_cases hold : x < f.size + l.length
    · rw [if_neg (by omega)]
      by_cases hx : f.size ≤ x
      · rw [if_pos (by omega), if_pos (by omega), List.getD_append _ _ _ _ (by omega)]
      · rw [if_neg (by omega), if_neg (by omega)]
    · by_cases hnew : x < f.size + l.length + n
      · rw [if_pos (by omega), if_pos (by omega), List.getD_append_right _ _ _ _ (by omega),
          List.getD_eq_getElem _ _ (by simp; omega)]
        simp only [List.getElem_map, List.getElem_range]
        congr 1
        omega
      · rw [if_neg (by omega), if_neg (by omega), if_neg (by omega)]
  have hmeta : ((f.append l).write (f.size + l.length) n src) =
      { f.append l with
        size := (if n = 0 then (f.append l).size
          else max (f.append l).size (f.size + l.length + n))
        bytes := patch (f.append l).bytes (f.size + l.length) n src } := rfl
  rw [hmeta, hsize, hbytes]
  rfl

/-! ### The progress of a process -/

section Progress

variable {calls done : List (List UInt8)} {returned : List Int} {c : WriteCall} {n1 : Nat}

/-- The chunks of a call that have been stored, beyond those that `i` counts. -/
def WriteStage.stored : WriteStage → Nat
  | .advance _ _ | .unlock _ _ => 1
  | _ => 0

/-- What the stages rely on. -/
def StageOk (i n : Nat) : WriteStage → Prop
  | .test => True
  | .lock n1 | .write n1 => i < n ∧ n1 = min (n - i) chunkMax
  | .advance n1 r | .unlock n1 r => i < n ∧ n1 = min (n - i) chunkMax ∧ r = n1

/-- `j` chunks of the call are counted in `i`; `prev` are the earlier calls. -/
structure InCall (calls : List (List UInt8)) (returned : List Int) (done : List (List UInt8))
    (c : WriteCall) (prev : List (List UInt8)) (j : Nat) : Prop where
  calls : calls = prev ++ [c.bytes]
  returned : returned = prev.map (fun b => (b.length : Int))
  done : done = prev.flatMap (chunks chunkMax) ++
    (List.range (j + c.stage.stored)).map (chunk chunkMax c.bytes)
  i : c.i = min (j * chunkMax) c.n
  le : j ≤ (c.n + chunkMax - 1) / chunkMax
  stage : StageOk c.i c.n c.stage

def Progress (calls : List (List UInt8)) (returned : List Int) (done : List (List UInt8)) :
    Option WriteCall → Prop
  | none => done = calls.flatMap (chunks chunkMax) ∧
      returned = calls.map (fun b => (b.length : Int))
  | some c => ∃ prev j, InCall calls returned done c prev j

theorem bytes_length (c : WriteCall) : c.bytes.length = c.n := by
  simp [WriteCall.bytes]

theorem sum_length_eq (l : List (List UInt8)) : (l.map List.length).sum = l.flatten.length :=
  List.length_flatten.symm

theorem InCall.length {prev : List (List UInt8)} {j : Nat}
    (h : InCall calls returned done c prev j) :
    (done.map List.length).sum = prev.flatten.length + min ((j + c.stage.stored) * chunkMax) c.n ∧
      (calls.map List.length).sum = prev.flatten.length + c.n := by
  rw [sum_length_eq, sum_length_eq, h.done, h.calls, List.flatten_append, List.flatten_append,
    flatten_flatMap_chunks (by decide), flatten_chunk, List.length_append, List.length_append,
    List.length_take, List.flatten_singleton, bytes_length]
  exact ⟨rfl, rfl⟩

theorem Progress.le {o : Option WriteCall} (h : Progress calls returned done o) :
    (done.map List.length).sum ≤ (calls.map List.length).sum := by
  cases o with
  | none =>
    rw [sum_length_eq, sum_length_eq, h.1, flatten_flatMap_chunks (by decide)]
  | some c =>
    obtain ⟨prev, j, hc⟩ := h
    rw [hc.length.1, hc.length.2]
    omega

theorem Progress.room (h : Progress calls returned done (some c)) (hs : c.stage = .write n1) :
    (done.map List.length).sum + n1 ≤ (calls.map List.length).sum := by
  obtain ⟨prev, j, hc⟩ := h
  have hstage := hc.stage
  have hi := hc.i
  rw [hc.length.1, hc.length.2]
  rw [hs] at hstage ⊢
  obtain ⟨hlt, hn1⟩ := hstage
  simp only [WriteStage.stored, add_zero]
  omega

theorem Progress.enter (h : Progress calls returned done none) (addr : Nat → UInt8) (n : Nat) :
    Progress (calls ++ [(⟨addr, n, 0, .test⟩ : WriteCall).bytes]) returned done
      (some ⟨addr, n, 0, .test⟩) :=
  ⟨calls, 0, rfl, h.2, by simp [h.1, WriteStage.stored], by simp, Nat.zero_le _, True.intro⟩

namespace Progress

variable (h : Progress calls returned done (some c))
include h

/-- The call goes on to a stage with as many chunks stored. -/
theorem goto {st : WriteStage}
    (st' : WriteStage) (hs : c.stage = st) (hok : StageOk c.i c.n st → StageOk c.i c.n st')
    (hstored : st'.stored = st.stored := by rfl) :
    Progress calls returned done (some { c with stage := st' }) := by
  obtain ⟨prev, j, hc⟩ := h
  refine ⟨prev, j, hc.calls, hc.returned, ?_, hc.i, hc.le, hok (hs ▸ hc.stage)⟩
  rw [hstored, ← hs]
  exact hc.done

theorem wrote (hs : c.stage = .write n1) :
    Progress calls returned (done ++ [(List.range n1).map (fun j => c.addr (c.i + j))])
      (some { c with stage := .advance n1 n1 }) := by
  obtain ⟨prev, j, hc⟩ := h
  have hdone := hc.done
  have hstage := hc.stage
  have hi := hc.i
  rw [hs] at hdone hstage
  obtain ⟨hlt, hn1⟩ := hstage
  refine ⟨prev, j, hc.calls, hc.returned, ?_, hc.i, hc.le, hlt, hn1, rfl⟩
  have hchunk : (List.range n1).map (fun j => c.addr (c.i + j)) =
      chunk chunkMax c.bytes j := by
    have hij : c.i = j * chunkMax := by omega
    rw [chunk, WriteCall.bytes, ← List.map_drop, ← List.map_take, ← hij]
    refine List.ext_getElem ?_ ?_
    · simp only [List.length_map, List.length_range, List.length_take, List.length_drop]
      omega
    · intro m h₁ h₂
      simp
  rw [hdone, hchunk, List.append_assoc]
  simp only [WriteStage.stored, add_zero, List.range_succ, List.map_append, List.map_cons,
    List.map_nil]
  rfl

theorem again {r : Int}
    (hs : c.stage = .unlock n1 r) :
    r = n1 ∧ Progress calls returned done (some { c with i := c.i + n1, stage := .test }) := by
  obtain ⟨prev, j, hc⟩ := h
  have hdone := hc.done
  have hstage := hc.stage
  have hi := hc.i
  rw [hs] at hdone hstage
  obtain ⟨hlt, hn1, hr⟩ := hstage
  refine ⟨hr, prev, j + 1, hc.calls, hc.returned, hdone, ?_, ?_, True.intro⟩
  · simp only [Nat.succ_mul]
    omega
  · rw [Nat.le_div_iff_mul_le (by decide), Nat.succ_mul]
    simp only
    omega

theorem leave (hs : c.stage = .test)
    (hge : ¬ c.i < c.n) : c.i = c.n ∧ Progress calls (returned ++ [(c.n : Int)]) done none := by
  obtain ⟨prev, j, hc⟩ := h
  have hdone := hc.done
  have hi := hc.i
  rw [hs] at hdone
  refine ⟨by omega, ?_, ?_⟩
  · have hj : j = (c.n + chunkMax - 1) / chunkMax := by
      refine le_antisymm hc.le ?_
      have hpos : 0 < chunkMax := by decide
      have hlt : c.n + chunkMax - 1 < (j + 1) * chunkMax := by
        rw [Nat.succ_mul]
        omega
      exact Nat.le_of_lt_succ ((Nat.div_lt_iff_lt_mul (by decide)).mpr hlt)
    rw [hdone, hc.calls, List.flatMap_append, List.flatMap_singleton, chunks, bytes_length, ← hj]
    rfl
  · rw [hc.returned, hc.calls, List.map_append, List.map_singleton, bytes_length]

end Progress

end Progress

/-! ### The lock of a loaded inode -/

section Lock

variable {s : FsState} {ip : Nat}

def FsState.setLock (s : FsState) (ip : Nat) (b : Bool) : FsState :=
  s.putInode ip { s.icache ip with locked := b }

theorem setLock_icache (s : FsState) (ip : Nat) (b : Bool) :
    (s.setLock ip b).icache ip = { s.icache ip with locked := b } := update_self _ _ _

theorem Good.setLock (h : Good s) (hl : Loaded s ip) (b : Bool) : Good (s.setLock ip b) :=
  h.setEntry hl.lt hl.ref rfl rfl rfl

theorem Loaded.setLock (hl : Loaded s ip) (b : Bool) : Loaded (s.setLock ip b) ip := by
  refine ⟨hl.lt, ?_, ?_⟩
  · rw [setLock_icache]
    exact hl.ref
  · rw [setLock_icache]
    exact hl.valid

theorem missing_setLock (b : Bool) (S : Finset Nat) :
    missing (s.setLock ip b) ip S = missing s ip S := by
  simp only [missing, setLock_icache]
  rfl

theorem ilock_loaded (hl : Loaded s ip) :
    wp (ilock ip) s (fun _ s' => (s.icache ip).locked = false ∧ s' = s.setLock ip true)
      (fun e => e = .deadlock ip ∧ (s.icache ip).locked = true) := by
  have hr := hl.ref
  cases hlk : (s.icache ip).locked with
  | true =>
    simp only [ilock, acquiresleep, wp_bind, wp_getInode]
    rw [if_neg (by omega), wp_bind, wp_bind, wp_getInode, if_pos hlk, wp_sleepForever]
    exact ⟨rfl, trivial⟩
  | false =>
    refine wp_conseq (ilock_spec hr hlk) ?_ ?_
    · rintro _ s' ⟨rfl, -⟩
      refine ⟨rfl, ?_⟩
      rw [FsState.fetched, if_pos hl.valid, FsState.setLock]
      congr 1
      simp [hl.valid]
    · rintro e ⟨-, hv, -⟩
      simp [hl.valid] at hv

theorem iunlock_loaded {E : Fault → Prop} (hl : Loaded s ip) (hlk : (s.icache ip).locked = true) :
    wp (iunlock ip) s (fun _ s' => s' = s.setLock ip false) E := by
  have hr := hl.ref
  simp only [iunlock, releasesleep, wp_bind, wp_getInode, hlk, Bool.not_true, Bool.false_or,
    decide_eq_true_eq]
  rw [if_neg (by omega), wp_bind, wp_getInode, wp_setInode]
  rfl

end Lock

/-! ### The invariant -/

section Inside

variable {ι : Type} {k : Writers ι} {p : ι} {c : WriteCall}

theorem inside_of_call (hc : k.call p = some c) (h : c.stage.inside = true) : k.Inside p :=
  ⟨c, hc, h⟩

theorem not_inside (hc : k.call p = some c) (h : c.stage.inside = false) : ¬ k.Inside p := by
  rintro ⟨c', hc', hin⟩
  obtain rfl : c = c' := Option.some.inj (hc.symm.trans hc')
  simp [h] at hin

end Inside

variable {ι : Type} [DecidableEq ι] {k₀ k k' : Writers ι} {p q : ι} {c : WriteCall}

/-- The number of the inode that is written. -/
def Writers.inum (k : Writers ι) : Nat := (k.fs.icache k.file.ip).inum

def Writers.content (k : Writers ι) : File := files k.fs k.inum

/-- The bytes that have been stored, in order. -/
def Writers.appended (k : Writers ι) : List UInt8 := (k.log.map Prod.snd).flatten

/-- A process has stored a chunk and not yet advanced the offset. -/
def Writers.Behind (k : Writers ι) (n1 : Nat) : Prop :=
  ∃ p c r, k.call p = some c ∧ c.stage = .advance n1 r

structure Appending (k₀ k : Writers ι) : Prop where
  ip : k.file.ip = k₀.file.ip
  writable : k.file.writable = true
  type : k.file.type = .inode
  good : Good k.fs
  loaded : Loaded k.fs k.file.ip
  inum : k.inum = k₀.inum
  content : k.content = k₀.content.append k.appended
  progress : ∀ p, Progress (k.calls p) (k.returned p) (contribs p k.log) (k.call p)
  excl : ∀ p q, k.Inside p → k.Inside q → p = q
  lock : ∀ p, k.Inside p → (k.fs.icache k.file.ip).locked = true
  atEnd : (∀ n1, ¬ k.Behind n1) → k.file.off = k.content.size
  behind : ∀ n1, k.Behind n1 → k.file.off + n1 = k.content.size
  fault : k.fault = none ∨ k.fault = some outOfBlocks ∧ ∃ p, k.call p ≠ none

variable {x : Option WriteCall} {n1 : Nat} {r : Int} {fs : FsState}

theorem inside_other (hcall : k'.call = update k.call p x) (hq : q ≠ p) :
    k'.Inside q ↔ k.Inside q := by
  simp only [Writers.Inside, hcall, update_of_ne hq]

theorem inside_outside (hcall : k'.call = update k.call p x)
    (hx : ∀ c, x = some c → c.stage.inside = false) (h : k'.Inside q) : k.Inside q ∧ q ≠ p := by
  have hqp : q ≠ p := by
    rintro rfl
    obtain ⟨c, hc, hin⟩ := h
    rw [hcall, update_self] at hc
    simp [hx c hc] at hin
  exact ⟨(inside_other hcall hqp).mp h, hqp⟩

section

variable (h : Appending k₀ k)
include h

theorem Appending.at (hc : k.call p = some c) :
    Progress (k.calls p) (k.returned p) (contribs p k.log) (some c) :=
  hc ▸ h.progress p

theorem progress_update
    (hcall : k'.call = update k.call p x)
    (hp : Progress (k'.calls p) (k'.returned p) (contribs p k'.log) x)
    (hcalls : ∀ q, q ≠ p → k'.calls q = k.calls q := by exact fun _ _ => rfl)
    (hret : ∀ q, q ≠ p → k'.returned q = k.returned q := by exact fun _ _ => rfl)
    (hlog : ∀ q, q ≠ p → contribs q k'.log = contribs q k.log := by exact fun _ _ => rfl) (q : ι) :
    Progress (k'.calls q) (k'.returned q) (contribs q k'.log) (k'.call q) := by
  rcases eq_or_ne q p with rfl | hq
  · rw [hcall, update_self]
    exact hp
  · rw [hcall, update_of_ne hq, hcalls q hq, hret q hq, hlog q hq]
    exact h.progress q

theorem Appending.outside
    (hbefore : ¬ k.Inside p) (hcall : k'.call = update k.call p x)
    (hx : ∀ c, x = some c → c.stage.inside = false) (hfs : k'.fs = k.fs) (hfile : k'.file = k.file)
    (hlog : k'.log = k.log) (hfault : k'.fault = none)
    (hprogress : ∀ q, Progress (k'.calls q) (k'.returned q) (contribs q k'.log) (k'.call q)) :
    Appending k₀ k' := by
  have hinum : k'.inum = k.inum := by rw [Writers.inum, Writers.inum, hfs, hfile]
  have hcontent : k'.content = k.content := by rw [Writers.content, Writers.content, hfs, hinum]
  have hin := fun q => @inside_outside ι _ k k' p q x hcall hx
  have hbehind : ∀ n1, k'.Behind n1 ↔ k.Behind n1 := by
    intro n1
    constructor
    · rintro ⟨q, c, r, hc, hs⟩
      have hq : k'.Inside q := inside_of_call hc (by rw [hs]; rfl)
      refine ⟨q, c, r, ?_, hs⟩
      rwa [hcall, update_of_ne (hin q hq).2] at hc
    · rintro ⟨q, c, r, hc, hs⟩
      have hqp : q ≠ p := by
        rintro rfl
        exact hbefore (inside_of_call hc (by rw [hs]; rfl))
      exact ⟨q, c, r, by rw [hcall, update_of_ne hqp]; exact hc, hs⟩
  refine ⟨?_, ?_, ?_, ?_, ?_, ?_, ?_, hprogress, ?_, ?_, ?_, ?_, Or.inl hfault⟩
  · rw [hfile, h.ip]
  · rw [hfile, h.writable]
  · rw [hfile, h.type]
  · rw [hfs]
    exact h.good
  · rw [hfs, hfile]
    exact h.loaded
  · rw [hinum, h.inum]
  · rw [hcontent, h.content, Writers.appended, Writers.appended, hlog]
  · intro q r hq hr
    exact h.excl q r (hin q hq).1 (hin r hr).1
  · intro q hq
    rw [hfs, hfile]
    exact h.lock q (hin q hq).1
  · intro hnone
    rw [hfile, hcontent]
    exact h.atEnd (fun n1 hb => hnone n1 ((hbehind n1).mpr hb))
  · intro n1 hb
    rw [hfile, hcontent]
    exact h.behind n1 ((hbehind n1).mp hb)

theorem Appending.inside (c' : WriteCall)
    (halone : ∀ q, k.Inside q → q = p) (hcall : k'.call = update k.call p (some c'))
    (hip : k'.file.ip = k.file.ip) (hwr : k'.file.writable = k.file.writable)
    (hty : k'.file.type = k.file.type) (hgood : Good k'.fs) (hloaded : Loaded k'.fs k.file.ip)
    (hinum : k'.inum = k.inum) (hcontent : k'.content = k₀.content.append k'.appended)
    (hlock : c'.stage.inside = true → (k'.fs.icache k.file.ip).locked = true)
    (hbehind : ∀ n1 r, c'.stage = .advance n1 r → k'.file.off + n1 = k'.content.size)
    (hend : (∀ n1 r, c'.stage ≠ .advance n1 r) → k'.file.off = k'.content.size)
    (hfault : k'.fault = none)
    (hprogress : ∀ q, Progress (k'.calls q) (k'.returned q) (contribs q k'.log) (k'.call q)) :
    Appending k₀ k' := by
  have hself : k'.call p = some c' := by rw [hcall, update_self]
  have hp : ∀ q, k'.Inside q → q = p := by
    intro q hq
    by_contra hne
    exact hne (halone q ((inside_other hcall hne).mp hq))
  have hwho : ∀ {q : ι} {c : WriteCall} {n1 : Nat} {r : Int}, k'.call q = some c →
      c.stage = .advance n1 r → c = c' := by
    intro q c n1 r hc hs
    obtain rfl := hp q (inside_of_call hc (by rw [hs]; rfl))
    exact Option.some.inj (hc.symm.trans hself)
  refine ⟨hip.trans h.ip, hwr.trans h.writable, hty.trans h.type, hgood, ?_, hinum.trans h.inum,
    hcontent, hprogress, ?_, ?_, ?_, ?_, Or.inl hfault⟩
  · rw [hip]
    exact hloaded
  · intro q r hq hr
    rw [hp q hq, hp r hr]
  · intro q hq
    obtain ⟨c, hc, hin⟩ := hq
    obtain rfl := hp q ⟨c, hc, hin⟩
    obtain rfl : c = c' := Option.some.inj (hc.symm.trans hself)
    rw [hip]
    exact hlock hin
  · intro hnone
    exact hend (fun n1 r hs => hnone n1 ⟨p, c', r, hself, hs⟩)
  · rintro n1 ⟨q, c, r, hc, hs⟩
    obtain rfl := hwho hc hs
    exact hbehind n1 r hs

/-- No chunk is behind when the process under the lock is not. -/
theorem Appending.off_eq (halone : ∀ q, k.Inside q → q = p)
    (hp : ∀ c, k.call p = some c → ∀ n1 r, c.stage ≠ .advance n1 r) :
    k.file.off = k.content.size := by
  refine h.atEnd ?_
  rintro n1 ⟨q, c, r, hc, hs⟩
  obtain rfl := halone q (inside_of_call hc (by rw [hs]; rfl))
  exact hp c hc n1 r hs

theorem Appending.alone (hc : k.call p = some c)
    (hin : c.stage.inside = true) (q : ι) (hq : k.Inside q) : q = p :=
  h.excl q p hq (inside_of_call hc hin)

end

/-! ### The steps -/

namespace Appending

variable (h : Appending k₀ k)
include h

theorem filewrite {addr : Nat → UInt8} {n : Nat}
    (hrun : k.fault = none) (hp : k.call p = none) (hk : k.filewrite p addr n = some k') :
    Appending k₀ k' := by
  simp only [Writers.filewrite, h.writable, h.type, Bool.true_eq_false, if_false,
    Option.some.injEq] at hk
  subst hk
  have hbefore : ¬ k.Inside p := by
    rintro ⟨c, hc, -⟩
    simp [hp] at hc
  have hprogress := h.progress p
  rw [hp] at hprogress
  refine h.outside hbefore rfl ?_ rfl rfl rfl hrun ?_
  · intro c hc
    obtain rfl := Option.some.inj hc
    rfl
  · refine progress_update h rfl ?_ (fun q hq => update_of_ne hq _ _)
    have hcalls : update k.calls p (k.calls p ++ [(⟨addr, n, 0, .test⟩ : WriteCall).bytes]) p =
      k.calls p ++ [(⟨addr, n, 0, .test⟩ : WriteCall).bytes] := update_self _ _ _
    simp only [Writers.goto, hcalls]
    exact hprogress.enter addr n

theorem test (hrun : k.fault = none) (hc : k.call p = some c)
    (hs : c.stage = .test) (hk : k.nextStage p c .test = some k') : Appending k₀ k' := by
  have hbefore : ¬ k.Inside p := not_inside hc (by rw [hs]; rfl)
  have hprogress := h.at hc
  simp only [Writers.nextStage] at hk
  split_ifs at hk with hlt
  · cases hk
    refine h.outside hbefore rfl ?_ rfl rfl rfl hrun ?_
    · intro c' hc'
      obtain rfl := Option.some.inj hc'
      rfl
    · exact progress_update h rfl (hprogress.goto _ hs (fun _ => ⟨hlt, rfl⟩))
  · cases hk
    obtain ⟨hi, hdone⟩ := hprogress.leave hs hlt
    refine h.outside hbefore rfl (fun c' hc' => by cases hc') rfl rfl rfl hrun ?_
    refine progress_update h rfl ?_ (fun _ _ => rfl) (fun q hq => update_of_ne hq _ _)
    have hret : ∀ r, update k.returned p (k.returned p ++ [r]) p = k.returned p ++ [r] :=
      fun r => update_self _ _ _
    simp only [Writers.leave, Writers.finish, hret, if_pos hi]
    exact hdone

theorem lockStep (hrun : k.fault = none) (hc : k.call p = some c)
    (hs : c.stage = .lock n1) (hk : k.nextStage p c (.lock n1) = some k') : Appending k₀ k' := by
  have hprogress := h.at hc
  simp only [Writers.nextStage] at hk
  have hspec := ilock_loaded h.loaded
  split at hk
  · next fs hfs =>
    cases hk
    obtain ⟨hfree, rfl⟩ := wp_ok hspec hfs
    have hnobody : ∀ q, ¬ k.Inside q := by
      intro q hq
      simp [h.lock q hq] at hfree
    have hinum : ((k.fs.setLock k.file.ip true).icache k.file.ip).inum = k.inum := by
      rw [setLock_icache]
      rfl
    have hoff := h.off_eq (fun q hq => absurd hq (hnobody q)) (p := p) (by
      intro c' hc' m r hcon
      exact hnobody p (inside_of_call hc' (by rw [hcon]; rfl)))
    have hcontent : ({ k with fs := k.fs.setLock k.file.ip true }.goto p
        { c with stage := .write n1 }).content = k.content := congrArg (files k.fs) hinum
    refine h.inside { c with stage := .write n1 } (p := p)
      (fun q hq => absurd hq (hnobody q)) rfl rfl rfl rfl (h.good.setLock h.loaded true)
      (h.loaded.setLock true) hinum (hcontent.trans h.content) ?_ ?_ ?_ hrun ?_
    · intro _
      exact congrArg Inode.locked (setLock_icache k.fs k.file.ip true)
    · rintro m r ⟨⟩
    · intro _
      rw [hcontent]
      exact hoff
    · exact progress_update h rfl (hprogress.goto _ hs id)
  · cases hk
  · next e hne hfs => exact absurd (wp_error hspec hfs).1 (hne _)

theorem advanceStep (hrun : k.fault = none)
    (hc : k.call p = some c) (hs : c.stage = .advance n1 r)
    (hk : k.nextStage p c (.advance n1 r) = some k') : Appending k₀ k' := by
  have halone := h.alone hc (by rw [hs]; rfl)
  have hprogress := h.at hc
  have hsize := h.behind n1 ⟨p, c, r, hc, hs⟩
  have hmax : k.content.size ≤ MAXFILE * BSIZE := by
    have hle := h.good.size_le h.loaded
    have hfile := congrArg File.size (h.good.file_eq h.loaded)
    exact hfile.le.trans hle
  obtain ⟨-, -, hr⟩ : StageOk c.i c.n (.advance n1 r) := by
    obtain ⟨prev, j, hcall⟩ := hprogress
    rw [← hs]
    exact hcall.stage
  simp only [Writers.nextStage] at hk
  cases hk
  refine h.inside { c with stage := .unlock n1 r } (p := p) halone rfl rfl rfl rfl h.good
    h.loaded rfl h.content ?_ ?_ ?_ hrun ?_
  · intro _
    exact h.lock p (inside_of_call hc (by rw [hs]; rfl))
  · rintro m r' ⟨⟩
  · intro _
    change (if r > 0 then (k.file.off + r.toNat) % 2 ^ 32 else k.file.off) = k.content.size
    simp only [MAXFILE, NDIRECT, NINDIRECT, BSIZE] at hmax
    subst hr
    split_ifs with hpos
    · rw [Int.toNat_natCast, hsize]
      omega
    · omega
  · exact progress_update h rfl (hprogress.goto _ hs id)

theorem unlockStep (hrun : k.fault = none)
    (hc : k.call p = some c) (hs : c.stage = .unlock n1 r)
    (hk : k.nextStage p c (.unlock n1 r) = some k') : Appending k₀ k' := by
  have halone := h.alone hc (by rw [hs]; rfl)
  have hprogress := h.at hc
  obtain ⟨hr, hagain⟩ := hprogress.again hs
  have hoff : k.file.off = k.content.size := by
    refine h.off_eq halone ?_
    intro c' hc' m r hcon
    obtain rfl : c = c' := Option.some.inj (hc.symm.trans hc')
    simp [hs] at hcon
  have hlocked := h.lock p (inside_of_call hc (by rw [hs]; rfl))
  have hspec := @iunlock_loaded k.fs k.file.ip (fun _ => False) h.loaded hlocked
  simp only [Writers.nextStage] at hk
  split at hk
  · next fs hfs =>
    obtain rfl := wp_ok hspec hfs
    rw [if_neg (by omega), if_neg (by simp [hr])] at hk
    cases hk
    have hinum : ((k.fs.setLock k.file.ip false).icache k.file.ip).inum = k.inum := by
      rw [setLock_icache]
      rfl
    have hcontent : ({ k with fs := k.fs.setLock k.file.ip false }.goto p
        { c with i := c.i + n1, stage := .test }).content = k.content :=
      congrArg (files k.fs) hinum
    refine h.inside { c with i := c.i + n1, stage := .test } (p := p) halone rfl rfl rfl
      rfl (h.good.setLock h.loaded false) (h.loaded.setLock false) hinum
      (hcontent.trans h.content) ?_ ?_ ?_ hrun ?_
    · intro hin
      cases hin
    · rintro m r' ⟨⟩
    · intro _
      rw [hcontent]
      exact hoff
    · exact progress_update h rfl hagain
  · next e hfs => exact (wp_error hspec hfs).elim

end Appending

theorem Appending.other (h : Appending k₀ k) (he : Elsewhere k fs) :
    Appending k₀ { k with fs := fs } := by
  have hinum : ({ k with fs := fs } : Writers ι).inum = k.inum := he.inum
  have hcontent : ({ k with fs := fs } : Writers ι).content = k.content := by
    rw [Writers.content, hinum]
    exact he.file
  refine ⟨h.ip, h.writable, h.type, he.good, he.loaded, hinum.trans h.inum,
    hcontent.trans h.content, h.progress, h.excl, he.lock, ?_, ?_, h.fault⟩
  · intro hnone
    rw [hcontent]
    exact h.atEnd hnone
  · intro n1 hb
    rw [hcontent]
    exact h.behind n1 hb

/-- The file is open for writing, its offset is at its end, and no call has been made. -/
structure Writers.Opened (k : Writers ι) : Prop where
  writable : k.file.writable = true
  type : k.file.type = .inode
  good : Good k.fs
  loaded : Loaded k.fs k.file.ip
  isFile : k.content.type = T_FILE
  atEnd : k.file.off = k.content.size
  idle : k.call = fun _ => none
  running : k.fault = none
  noCalls : k.calls = fun _ => []
  noReturns : k.returned = fun _ => []
  noLog : k.log = []

theorem Writers.Opened.appending (h : k₀.Opened) : Appending k₀ k₀ := by
  have hidle : ∀ p, k₀.call p = none := fun p => congrFun h.idle p
  refine ⟨rfl, h.writable, h.type, h.good, h.loaded, rfl, ?_, ?_, ?_, ?_, fun _ => h.atEnd, ?_,
    Or.inl h.running⟩
  · rw [Writers.appended, h.noLog]
    exact (append_nil _).symm
  · intro p
    rw [hidle p, h.noLog, h.noCalls, h.noReturns]
    exact ⟨rfl, rfl⟩
  · rintro p q ⟨c, hc, -⟩
    simp [hidle p] at hc
  · rintro p ⟨c, hc, -⟩
    simp [hidle p] at hc
  · rintro n1 ⟨p, c, r, hc, -⟩
    simp [hidle p] at hc

variable [Fintype ι]

/-- The bytes that all calls ask for. -/
def Writers.total (k : Writers ι) : Nat := ∑ p, ((k.calls p).map List.length).sum

theorem appended_length (k : Writers ι) :
    k.appended.length = ∑ p, ((contribs p k.log).map List.length).sum := by
  rw [Writers.appended, ← sum_length_eq, sum_contribs]

theorem Appending.room (h : Appending k₀ k) (hc : k.call p = some c)
    (hs : c.stage = .write n1) : k.appended.length + n1 ≤ k.total := by
  have hp := h.progress p
  rw [hc] at hp
  have hroom := hp.room hs
  have hle : ∀ q ∈ Finset.univ.erase p, ((contribs q k.log).map List.length).sum ≤
      ((k.calls q).map List.length).sum := fun q _ => (h.progress q).le
  have hsum := Finset.sum_le_sum hle
  rw [appended_length, Writers.total, ← Finset.add_sum_erase _ _ (Finset.mem_univ p),
    ← Finset.add_sum_erase _ (fun q => ((k.calls q).map List.length).sum) (Finset.mem_univ p)]
  omega

theorem Appending.writeStep (h : Appending k₀ k) (hrun : k.fault = none)
    (htype : k₀.content.type = T_FILE) (hcap : k₀.content.size + k.total ≤ MAXFILE * BSIZE)
    (hc : k.call p = some c) (hs : c.stage = .write n1)
    (hk : k.nextStage p c (.write n1) = some k') : Appending k₀ k' := by
  have halone := h.alone hc (by rw [hs]; rfl)
  have hprogress := h.at hc
  have hroom := h.room hc hs
  have hsize : k.content.size = k₀.content.size + k.appended.length := by
    rw [h.content, append_size]
  have hoff : k.file.off = k.content.size := by
    refine h.off_eq halone ?_
    intro c' hc' m r hcon
    obtain rfl : c = c' := Option.some.inj (hc.symm.trans hc')
    simp [hs] at hcon
  have hfile := h.good.file_eq h.loaded
  have hdev : (k.fs.icache k.file.ip).din.type ≠ T_DEV := by
    have ht := congrArg File.type hfile
    have hkeep : (files k.fs (k.fs.icache k.file.ip).inum).type = T_FILE := by
      change k.content.type = T_FILE
      rw [h.content]
      exact htype
    rw [hkeep] at ht
    rw [← show T_FILE = (k.fs.icache k.file.ip).din.type from ht]
    decide
  have hdin : (k.fs.icache k.file.ip).din.size = k.content.size :=
    (congrArg File.size hfile).symm
  have hok : ¬ WriteFails (k.fs.icache k.file.ip).din.size k.file.off n1 := by
    rw [WriteFails, hdin, hoff, hsize]
    simp only [MAXFILE, NDIRECT, NINDIRECT, BSIZE] at hcap ⊢
    omega
  simp only [Writers.nextStage] at hk
  have hspec := @writei_spec k.fs k.file.ip k.file.off n1 (fun j => c.addr (c.i + j)) h.good
    h.loaded hdev
  split at hk
  · next r fs hfs =>
    rcases wp_ok hspec hfs with ⟨hbad, -⟩ | ⟨-, hr, hch⟩
    · exact absurd hbad hok
    subst hr
    cases hk
    have hlog : ∀ q, contribs q (k.log ++ Writers.stored p c n1 n1) =
        if q = p then contribs p k.log ++ [(List.range n1).map (fun j => c.addr (c.i + j))]
        else contribs q k.log := by
      intro q
      rw [Writers.stored, if_neg (by omega)]
      split_ifs with hq
      · rw [hq, contribs_snoc_self]
      · rw [contribs_snoc_of_ne hq]
    have hinum : (fs.icache k.file.ip).inum = k.inum := hch.inum
    have hcontent : files fs (fs.icache k.file.ip).inum =
        k₀.content.append (k.appended ++ (List.range n1).map (fun j => c.addr (c.i + j))) := by
      have hw := append_write k₀.content k.appended n1 (fun j => c.addr (c.i + j))
      rw [hinum, hch.files, Writers.inum, update_self, ← hw, ← hsize, ← hoff, ← h.content]
      rfl
    have happ : (k.log ++ Writers.stored p c n1 n1).map Prod.snd =
        k.log.map Prod.snd ++ [(List.range n1).map (fun j => c.addr (c.i + j))] := by
      rw [Writers.stored, if_neg (by omega), List.map_append]
      rfl
    refine h.inside { c with stage := .advance n1 n1 } (p := p) halone rfl rfl rfl rfl
      hch.good (hch.loaded h.loaded) hinum ?_ ?_ ?_ ?_ hrun ?_
    · refine hcontent.trans ?_
      congr 1
      simp only [Writers.appended, Writers.goto, happ, List.flatten_append,
        List.flatten_singleton]
    · intro _
      have hlocked := h.lock p (inside_of_call hc (by rw [hs]; rfl))
      have heq := congrArg Inode.locked hch.inode
      exact heq.trans hlocked
    · rintro m r hm
      obtain ⟨rfl, -⟩ : n1 = m ∧ _ := by simpa using hm
      have hsz := congrArg File.size hcontent
      rw [append_size, List.length_append, List.length_map, List.length_range] at hsz
      change k.file.off + n1 = (files fs (fs.icache k.file.ip).inum).size
      rw [hsz, hoff, hsize, add_assoc]
    · intro hcon
      exact absurd rfl (hcon n1 n1)
    · refine progress_update h rfl ?_ (fun _ _ => rfl) (fun _ _ => rfl)
        (fun q hq => (hlog q).trans (if_neg hq))
      have hdone := hprogress.wrote hs
      simp only [Writers.goto, hlog p, if_pos]
      exact hdone
  · next e hfs =>
    cases hk
    obtain ⟨rfl, -⟩ := wp_error hspec hfs
    exact { h with fault := Or.inr ⟨rfl, p, by simp [Writers.stop, hc]⟩ }

theorem total_mono (h : WriteStep k k') : k.total ≤ k'.total := by
  have hsame : ∀ {k' : Writers ι}, k'.calls = k.calls → k.total ≤ k'.total := by
    intro k' heq
    rw [Writers.total, Writers.total, heq]
  cases h with
  | @call _ p addr n hrun hp hk =>
    have hcalls : k'.calls = update k.calls p
        (k.calls p ++ [(⟨addr, n, 0, .test⟩ : WriteCall).bytes]) := by
      simp only [Writers.filewrite] at hk
      split_ifs at hk
      · cases hk
        rfl
      · split at hk
        · cases hk
        · cases hk
          rfl
        · cases hk
          rfl
    refine Finset.sum_le_sum (fun q _ => ?_)
    rw [hcalls]
    rcases eq_or_ne q p with rfl | hq
    · simp
    · rw [update_of_ne hq]
  | @next _ p hrun hk =>
    refine hsame ?_
    simp only [Writers.next] at hk
    split at hk
    · next c hc =>
      cases hs : c.stage <;> simp only [hs, Writers.nextStage] at hk <;>
        (repeat' split at hk) <;> cases hk <;> rfl
    · cases hk
  | other he => exact hsame rfl

theorem Appending.step (h : Appending k₀ k) (hstep : WriteStep k k')
    (htype : k₀.content.type = T_FILE) (hcap : k₀.content.size + k.total ≤ MAXFILE * BSIZE) :
    Appending k₀ k' := by
  cases hstep with
  | call hrun hp hk => exact h.filewrite hrun hp hk
  | @next _ p hrun hk =>
    simp only [Writers.next] at hk
    split at hk
    · next c hc =>
      cases hs : c.stage with
      | test => exact h.test hrun hc hs (hs ▸ hk)
      | lock n1 => exact h.lockStep hrun hc hs (hs ▸ hk)
      | write n1 => exact h.writeStep hrun htype hcap hc hs (hs ▸ hk)
      | advance n1 r => exact h.advanceStep hrun hc hs (hs ▸ hk)
      | unlock n1 r => exact h.unlockStep hrun hc hs (hs ▸ hk)
    · cases hk
  | other he => exact h.other he

/-! ### Runs -/

theorem run_appending (h₀ : k₀.Opened) (hrun : ReflTransGen WriteStep k₀ k)
    (hcap : k₀.content.size + k.total ≤ MAXFILE * BSIZE) : Appending k₀ k := by
  induction hrun with
  | refl => exact h₀.appending
  | tail _ hstep ih =>
    have hmono := total_mono hstep
    exact (ih (by omega)).step hstep h₀.isFile (by omega)

theorem shared_writes (h₀ : k₀.Opened) (hrun : ReflTransGen WriteStep k₀ k)
    (hdone : ∀ p, k.call p = none) (hcap : k₀.content.size + k.total ≤ MAXFILE * BSIZE) :
    k.fault = none ∧
    k.content = k₀.content.append k.appended ∧
    k.content.size = k₀.content.size + k.total ∧
    k.file.off = k₀.file.off + k.total ∧
    (∀ x ∈ k.log, x.2.length ≤ 1536) ∧
    ∀ p, contribs p k.log = (k.calls p).flatMap (chunks 1536) ∧
      k.returned p = (k.calls p).map (fun b => (b.length : Int)) := by
  have h := run_appending h₀ hrun hcap
  have hprogress : ∀ p, Progress (k.calls p) (k.returned p) (contribs p k.log) none := by
    intro p
    have hp := h.progress p
    rwa [hdone p] at hp
  have hlength : k.appended.length = k.total := by
    rw [appended_length, Writers.total]
    refine Finset.sum_congr rfl (fun p _ => ?_)
    rw [(hprogress p).1, sum_length_eq, sum_length_eq, flatten_flatMap_chunks (by decide)]
  have hsize : k.content.size = k₀.content.size + k.total := by
    rw [h.content, append_size, hlength]
  refine ⟨?_, h.content, hsize, ?_, ?_, fun p => ⟨(hprogress p).1, (hprogress p).2⟩⟩
  · rcases h.fault with hf | ⟨-, p, hp⟩
    · exact hf
    · exact absurd (hdone p) hp
  · rw [h₀.atEnd, ← hsize]
    refine h.atEnd ?_
    rintro n1 ⟨p, c, r, hc, -⟩
    simp [hdone p] at hc
  · intro x hx
    have hmem := mem_contribs hx
    rw [(hprogress x.1).1] at hmem
    obtain ⟨b, -, hb⟩ := List.mem_flatMap.mp hmem
    exact length_le_of_mem_chunks hb

/-- Two processes share the empty file of `tiny`. -/
def sharedTiny : Writers (Fin 2) where
  fs := tiny.setLock 0 false
  file := { type := .inode, ref := 2, writable := true }
  call _ := none
  fault := none
  calls _ := []
  returned _ := []
  log := []

theorem sharedTiny_opened : sharedTiny.Opened where
  writable := rfl
  type := rfl
  good := tiny_good.setLock tiny_loaded false
  loaded := tiny_loaded.setLock false
  isFile := congrArg File.type (tiny_good.file_eq tiny_loaded)
  atEnd := (congrArg File.size (tiny_good.file_eq tiny_loaded)).symm
  idle := rfl
  running := rfl
  noCalls := rfl
  noReturns := rfl
  noLog := rfl

/-- Process `e.1` calls `filewrite` for `e.2` bytes or, if that is 0, goes on. -/
def Writers.move (k : Writers (Fin 2)) (e : Fin 2 × Nat) : Option (Writers (Fin 2)) :=
  if k.fault ≠ none then none
  else if e.2 = 0 then k.next e.1
  else if (k.call e.1).isSome then none
  else k.filewrite e.1 (fun _ => 7) e.2

theorem Writers.move_step {k k' : Writers (Fin 2)} {e : Fin 2 × Nat} (h : k.move e = some k') :
    WriteStep k k' := by
  unfold Writers.move at h
  split_ifs at h with hfault hn hcall
  · exact .next (not_not.mp hfault) h
  · exact .call (not_not.mp hfault) (Option.not_isSome_iff_eq_none.mp hcall) h

/-- One of them writes three bytes. The other comes in between, waits for the lock and writes two. -/
theorem sharedTiny_appended : ∃ k, ReflTransGen WriteStep sharedTiny k ∧
    k.content.size = 5 ∧ k.file.off = 5 := by
  obtain ⟨k, hmoves, hend⟩ := Option.map_eq_some_iff.mp (by decide +kernel :
    (run Writers.move sharedTiny [(0, 3), (0, 0), (0, 0), (1, 2), (1, 0), (0, 0), (0, 0), (0, 0),
      (1, 0), (0, 0), (1, 0), (1, 0), (1, 0), (1, 0)]).map
        (fun k => ((k.call 0).isNone, (k.call 1).isNone, k.total)) = some (true, true, 5))
  simp only [Prod.mk.injEq, Option.isNone_iff_eq_none] at hend
  have hrun : ReflTransGen WriteStep sharedTiny k :=
    run_invariant _ (fun _ _ _ h hs => h.tail (Writers.move_step hs)) .refl hmoves
  have hempty : sharedTiny.content.size = 0 :=
    congrArg File.size (tiny_good.file_eq tiny_loaded)
  obtain ⟨-, -, hsize, hoff, -⟩ := shared_writes sharedTiny_opened hrun
    (Fin.forall_fin_two.mpr ⟨hend.1, hend.2.1⟩) (by rw [hempty, hend.2.2]; decide)
  refine ⟨k, hrun, ?_, ?_⟩
  · rw [hsize, hempty, hend.2.2]
  · rw [hoff, hend.2.2]
    rfl

end Xv6.Fs
