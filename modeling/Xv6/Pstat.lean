import Xv6.Bytes
import Xv6.ProcTurns

/-!
# `getpinfo` and `ps`

The process table together with the names of the processes, the snapshot that `fillpstat` takes of
them and the loop of `ps` over the snapshot. Names are C strings: what counts of the sixteen bytes
is what stands before the first NUL.
-/

namespace Xv6.Ptable

open Function

abbrev NAMESZ : Nat := 16

abbrev Label := Bytes NAMESZ

/-- `*s = v` -/
def put (b : Label) (k : Nat) (v : UInt8) : Label := b.write k (fun _ => v) 1

/-- The loop of `safestrcpy` at offset `k`, when `n` more bytes may be copied. -/
def safestrcpyFrom (t : Nat → UInt8) : Nat → Nat → Label → Label
  | 0, k, s => put s k 0
  | n + 1, k, s =>
    if t k = 0 then put (put s k 0) (k + 1) 0
    else safestrcpyFrom t n (k + 1) (put s k (t k))

def safestrcpy (s : Label) (t : Nat → UInt8) : Label := safestrcpyFrom t (NAMESZ - 1) 0 s

/-! ### Strings -/

theorem get_put (b : Label) {k i : Nat} (v : UInt8) (hi : i < NAMESZ) :
    (put b k v).get i = if i = k then v else b.get i := by
  split_ifs with h
  · exact Bytes.get_write_in b _ (by omega) (by omega) hi
  · exact Bytes.get_write_out b _ (by omega)

theorem safestrcpyFrom_before (t : Nat → UInt8) {n k i : Nat} (s : Label) (hi : i < k)
    (hk : k + n < NAMESZ) : (safestrcpyFrom t n k s).get i = s.get i := by
  induction n generalizing k s with
  | zero => rw [safestrcpyFrom, get_put _ _ (by omega), if_neg (by omega)]
  | succ n ih =>
    rw [safestrcpyFrom]
    split_ifs
    · rw [get_put _ _ (by omega), if_neg (by omega), get_put _ _ (by omega), if_neg (by omega)]
    · rw [ih _ (by omega) (by omega), get_put _ _ (by omega), if_neg (by omega)]

variable {f : Nat → UInt8} {m : Named}

theorem text_safestrcpyFrom (t : Nat → UInt8) {n k : Nat} (s : Label) (hk : k + n < NAMESZ) :
    text (safestrcpyFrom t n k s).get k (n + 1) = text t k n := by
  induction n generalizing k s with
  | zero =>
    have hend : (put s k 0).get k = 0 := by rw [get_put _ _ (by omega), if_pos rfl]
    exact text_nul hend 1
  | succ n ih =>
    rw [safestrcpyFrom]
    split_ifs with ht
    · have hend : (put (put s k 0) (k + 1) 0).get k = 0 := by
        rw [get_put _ _ (by omega), if_neg (by omega), get_put _ _ (by omega), if_pos rfl]
      rw [text_nul hend, text_nul ht]
    · have hhead : (safestrcpyFrom t n (k + 1) (put s k (t k))).get k = t k := by
        rw [safestrcpyFrom_before t _ (by omega) (by omega), get_put _ _ (by omega), if_pos rfl]
      rw [text_char (by rwa [hhead]), hhead, ih _ (by omega), text_char ht]

/-- A string of at most fifteen bytes. -/
def Terminated (f : Nat → UInt8) : Prop := ∃ j < NAMESZ, f j = 0

theorem text_succ {i n j : Nat} (hij : i ≤ j) (hj : j ≤ i + n) (h0 : f j = 0) :
    text f i (n + 1) = text f i n := by
  induction n generalizing i with
  | zero =>
    obtain rfl : j = i := by omega
    exact text_nul h0 1
  | succ n ih =>
    by_cases hi : f i = 0
    · rw [text_nul hi, text_nul hi]
    · have hne : j ≠ i := by
        rintro rfl
        exact hi h0
      rw [text_char hi, text_char hi, ih (by omega) (by omega)]

theorem text_safestrcpy {t : Nat → UInt8} (s : Label) (ht : Terminated t) :
    text (safestrcpy s t).get 0 NAMESZ = text t 0 NAMESZ := by
  obtain ⟨j, hj, h0⟩ := ht
  have hcopy := text_safestrcpyFrom t (n := NAMESZ - 1) (k := 0) s (by decide)
  have hlast := text_succ (i := 0) (n := NAMESZ - 1) (Nat.zero_le j) (by omega) h0
  exact hcopy.trans hlast.symm

theorem safestrcpyFrom_nul (t : Nat → UInt8) {n k : Nat} (s : Label) (hk : k + n < NAMESZ) :
    ∃ j, j ≤ k + n ∧ (safestrcpyFrom t n k s).get j = 0 := by
  induction n generalizing k s with
  | zero => exact ⟨k, by omega, by rw [safestrcpyFrom, get_put _ _ (by omega), if_pos rfl]⟩
  | succ n ih =>
    rw [safestrcpyFrom]
    split_ifs
    · refine ⟨k, by omega, ?_⟩
      rw [get_put _ _ (by omega), if_neg (by omega), get_put _ _ (by omega), if_pos rfl]
    · obtain ⟨j, hj, h0⟩ := ih (put s k (t k)) (k := k + 1) (by omega)
      exact ⟨j, by omega, h0⟩

theorem safestrcpy_terminated (s : Label) (t : Nat → UInt8) : Terminated (safestrcpy s t).get := by
  obtain ⟨j, hj, h0⟩ := safestrcpyFrom_nul t (n := NAMESZ - 1) (k := 0) s (by decide)
  have hpos : 0 < NAMESZ := by decide
  exact ⟨j, by omega, h0⟩

/-! ### Names of processes -/

structure Named where
  table : Table
  name : Slot → Label

inductive NamedCall
  | proc (e : Event)
  | exec (c : Nat) (path : List UInt8)
  deriving DecidableEq

def initcode : List UInt8 := [105, 110, 105, 116, 99, 111, 100, 101]

/-- `for(last=s=path; *s; s++) if(*s == '/') last = s+1;` -/
def lastElem (last : List UInt8) : List UInt8 → List UInt8
  | [] => last
  | ch :: s => lastElem (if ch = 47 then s else last) s

/-- The child that a round of `wait` reaps. -/
def zombieChild (p : Slot) (t : Table) : Option Slot :=
  slots.find? (fun i => (t.proc i).parent = some p ∧ (t.proc i).state = .zombie)

/-- The slot that `wait` frees in an event. -/
def reaped (t : Table) (e : Event) : Option Slot :=
  match e with
  | .wait c => (t.cpu c).bind (fun p => zombieChild p t)
  | .schedule c => (scheduler c t).1.bind (fun p =>
    if (t.proc p).thread = .waiting then zombieChild p (entered t e) else none)
  | _ => none

/-- What the operations of `proc.c` do to the names. -/
def namesAfter (m : Named) (e : Event) : Slot → Label :=
  match e, started m.table e, reaped m.table e with
  | .userinitDone, some i, _ => update m.name i (safestrcpy (m.name i) (cstr initcode))
  | .forkDone c, some np, _ =>
    match m.table.cpu c with
    | some curproc => update m.name np (safestrcpy (m.name np) (m.name curproc).get)
    | none => m.name
  | _, _, some i => update m.name i (put (m.name i) 0 0)
  | _, _, _ => m.name

def namedStep (m : Named) : NamedCall → Option Named
  | .proc e => (step m.table e).map (fun t => ⟨t, namesAfter m e⟩)
  | .exec c path =>
    match m.table.cpu c with
    | some p =>
      if (m.table.proc p).thread = .user then
        some { m with
          name := update m.name p (safestrcpy (m.name p) (cstr (lastElem path path))) }
      else none
    | none => none

def namedBoot : Named := ⟨boot, fun _ => Bytes.zero⟩

/-- Every name in the table is a string. -/
def NamesOk (name : Slot → Label) : Prop := ∀ i, Terminated (name i).get

theorem NamesOk.update {name : Slot → Label} (h : NamesOk name) {p : Slot} {b : Label}
    (hb : Terminated b.get) : NamesOk (update name p b) := by
  intro i
  rcases eq_or_ne i p with rfl | hi
  · rwa [Function.update_self]
  · rw [Function.update_of_ne hi]
    exact h i

theorem put_zero_terminated (b : Label) : Terminated (put b 0 0).get :=
  ⟨0, by decide, by rw [get_put _ _ (by decide), if_pos rfl]⟩

theorem namesAfter_ok (h : NamesOk m.name) (e : Event) : NamesOk (namesAfter m e) := by
  unfold namesAfter
  split
  · exact h.update (safestrcpy_terminated _ _)
  · split
    · exact h.update (safestrcpy_terminated _ _)
    · exact h
  · exact h.update (put_zero_terminated _)
  · exact h

theorem namedStep_ok {m m' : Named} {x : NamedCall} (h : NamesOk m.name)
    (hs : namedStep m x = some m') : NamesOk m'.name := by
  cases x with
  | proc e =>
    obtain ⟨t, -, rfl⟩ := Option.map_eq_some_iff.mp hs
    exact namesAfter_ok h e
  | exec c path =>
    simp only [namedStep] at hs
    split at hs
    · split_ifs at hs
      cases hs
      exact h.update (safestrcpy_terminated _ _)
    · cases hs

theorem namesOk_of_run {xs : List NamedCall} (h : run namedStep namedBoot xs = some m) :
    NamesOk m.name :=
  run_invariant namedStep (I := fun m => NamesOk m.name) (fun _ _ _ => namedStep_ok)
    (fun _ => ⟨0, by decide, Bytes.get_zero 0⟩) h

/-! ### The snapshot -/

/-- `pstat_t` -/
structure Pstat where
  inuse : Int
  tickets : Int
  pid : Int
  ticks : Int
  name : Label
  state : Char

/-- The letter of a state; `fillpstat` writes none for an UNUSED slot. -/
def letter : ProcState → Option Char
  | .embryo => some 'E'
  | .running => some 'R'
  | .runnable => some 'A'
  | .sleeping => some 'S'
  | .zombie => some 'Z'
  | .unused => none

def fillEntry (m : Named) (i : Slot) (old : Pstat) : Pstat where
  inuse := 1
  tickets := (m.table.proc i).tickets
  pid := (m.table.proc i).pid
  ticks := (m.table.proc i).ticks
  name := safestrcpy old.name (m.name i).get
  state := (letter (m.table.proc i).state).getD old.state

/-- `pstat` is what the buffer of the caller holds before. -/
def fillpstat (m : Named) (pstat : Slot → Pstat) : Slot → Pstat :=
  slots.foldl (fun pstat i => update pstat i (fillEntry m i (pstat i))) pstat

/-- A line that `ps` prints. -/
structure Row where
  pid : Int
  tickets : Int
  ticks : Int
  state : Char
  name : List UInt8
  deriving DecidableEq

def Pstat.row (x : Pstat) : Row := ⟨x.pid, x.tickets, x.ticks, x.state, text x.name.get 0 NAMESZ⟩

/-- The loop of `ps` over the entries of `is`: the lines with the indices of their entries, `none`
when the loop reads behind the last entry. -/
def psLoop (pstat : Slot → Pstat) : List Slot → Option (List (Slot × Row))
  | [] => none
  | i :: is =>
    if (pstat i).pid ≠ 0 then (psLoop pstat is).map (fun rows => (i, (pstat i).row) :: rows)
    else some []

def ps (m : Named) (pstat : Slot → Pstat) : Option (List (Slot × Row)) :=
  psLoop (fillpstat m pstat) slots

/-- The line that belongs to a process. -/
def Named.row (m : Named) (i : Slot) : Row where
  pid := (m.table.proc i).pid
  tickets := (m.table.proc i).tickets
  ticks := (m.table.proc i).ticks
  state := (letter (m.table.proc i).state).getD ' '
  name := text (m.name i).get 0 NAMESZ

def Used (m : Named) (i : Slot) : Prop := (m.table.proc i).state ≠ .unused

instance (m : Named) (i : Slot) : Decidable (Used m i) :=
  inferInstanceAs (Decidable ((m.table.proc i).state ≠ .unused))

theorem foldl_update {β : Type} (f : Slot → β → β) (is : List Slot) (hnd : is.Nodup)
    (g : Slot → β) (i : Slot) :
    is.foldl (fun g j => update g j (f j (g j))) g i = if i ∈ is then f i (g i) else g i := by
  induction is generalizing g with
  | nil => simp
  | cons j is ih =>
    obtain ⟨hj, hnd'⟩ := List.nodup_cons.mp hnd
    rw [List.foldl_cons, ih hnd']
    rcases eq_or_ne i j with rfl | hij
    · simp [hj]
    · simp [hij]

theorem fillpstat_apply (m : Named) (pstat : Slot → Pstat) (i : Slot) :
    fillpstat m pstat i = fillEntry m i (pstat i) := by
  have h := foldl_update (fillEntry m) slots (List.nodup_finRange NPROC) pstat i
  rwa [if_pos (mem_slots i)] at h

theorem fillEntry_row {i : Slot} (hn : Terminated (m.name i).get) (hi : Used m i)
    (old : Pstat) : (fillEntry m i old).row = m.row i := by
  have hletter : ∀ ch ch' : Char, (letter (m.table.proc i).state).getD ch =
      (letter (m.table.proc i).state).getD ch' := by
    intro ch ch'
    cases hs : (m.table.proc i).state with
    | unused => exact absurd hs hi
    | _ => rfl
  simp only [Pstat.row, Named.row, fillEntry, text_safestrcpy _ hn, hletter old.state ' ']

theorem psLoop_eq (pstat : Slot → Pstat) {a b : List Slot} {k : Slot}
    (ha : ∀ i ∈ a, (pstat i).pid ≠ 0) (hk : (pstat k).pid = 0) :
    psLoop pstat (a ++ k :: b) = some (a.map (fun i => (i, (pstat i).row))) := by
  induction a with
  | nil => simp [psLoop, hk]
  | cons i a ih =>
    have hi := ha i List.mem_cons_self
    rw [List.cons_append, psLoop, if_pos hi, ih (fun j hj => ha j (List.mem_cons_of_mem i hj))]
    rfl

theorem psLoop_split {pstat : Slot → Pstat} {is : List Slot} {rows : List (Slot × Row)}
    (h : psLoop pstat is = some rows) : ∃ a k b, is = a ++ k :: b ∧
      (∀ i ∈ a, (pstat i).pid ≠ 0) ∧ (pstat k).pid = 0 ∧
      rows = a.map (fun i => (i, (pstat i).row)) := by
  induction is generalizing rows with
  | nil => cases h
  | cons i is ih =>
    rw [psLoop] at h
    split_ifs at h with hi
    · obtain ⟨rows', hrows, rfl⟩ := Option.map_eq_some_iff.mp h
      obtain ⟨a, k, b, rfl, ha, hk, rfl⟩ := ih hrows
      refine ⟨i :: a, k, b, rfl, ?_, hk, rfl⟩
      intro j hj
      rcases List.mem_cons.mp hj with rfl | hj
      · exact hi
      · exact ha j hj
    · cases h
      exact ⟨[], i, is, rfl, by simp, not_not.mp hi, rfl⟩

theorem slots_split {a b : List Slot} {k : Slot} (h : slots = a ++ k :: b) (i : Slot) :
    i ∈ a ↔ i < k := by
  have hsorted : slots.Pairwise (· < ·) := List.pairwise_lt_finRange NPROC
  rw [h, List.pairwise_append] at hsorted
  obtain ⟨-, hb, hab⟩ := hsorted
  constructor
  · intro hi
    exact hab i hi k List.mem_cons_self
  · intro hi
    have hmem : i ∈ a ++ k :: b := h ▸ mem_slots i
    refine (List.mem_append.mp hmem).resolve_right ?_
    intro hkb
    rcases List.mem_cons.mp hkb with rfl | hib
    · exact lt_irrefl _ hi
    · exact lt_asymm hi ((List.pairwise_cons.mp hb).1 i hib)

/-- The lines of the processes in the table, in the order of their slots. -/
def liveRows (m : Named) : List (Slot × Row) :=
  (slots.filter (fun i => Used m i)).map (fun i => (i, m.row i))

/-- The slots in use come first and the slot behind them has pid 0. -/
def Packed (m : Named) : Prop :=
  ∃ k : Slot, (∀ i < k, Used m i ∧ (m.table.proc i).pid ≠ 0) ∧ (m.table.proc k).pid = 0 ∧
    ∀ i, k ≤ i → ¬ Used m i

theorem ps_of_packed (hn : NamesOk m.name) (pstat : Slot → Pstat) (h : Packed m) :
    ps m pstat = some (liveRows m) := by
  obtain ⟨k, hbefore, hk, hafter⟩ := h
  obtain ⟨a, b, hsplit⟩ := List.append_of_mem (mem_slots k)
  have ha := slots_split hsplit
  have hpid : ∀ i ∈ a, (fillpstat m pstat i).pid ≠ 0 := by
    intro i hi
    rw [fillpstat_apply]
    exact (hbefore i ((ha i).mp hi)).2
  have hkpid : (fillpstat m pstat k).pid = 0 := by
    rw [fillpstat_apply]
    exact hk
  have hused : slots.filter (fun i => Used m i) = a := by
    rw [hsplit, List.filter_append, List.filter_eq_self.mpr, List.filter_eq_nil_iff.mpr,
      List.append_nil]
    · intro i hi hu
      refine hafter i (not_lt.mp (fun hlt => ?_)) (of_decide_eq_true hu)
      have hnd : (a ++ k :: b).Nodup := hsplit ▸ List.nodup_finRange NPROC
      exact (List.nodup_append.mp hnd).2.2 i ((ha i).mpr hlt) i hi rfl
    · intro i hi
      exact decide_eq_true (hbefore i ((ha i).mp hi)).1
  rw [ps, hsplit, psLoop_eq _ hpid hkpid, liveRows, hused]
  congr 1
  refine List.map_congr_left ?_
  intro i hi
  rw [fillpstat_apply, fillEntry_row (hn i) (hbefore i ((ha i).mp hi)).1]

theorem packed_of_ps {pstat : Slot → Pstat} (h : ps m pstat = some (liveRows m)) : Packed m := by
  obtain ⟨a, k, b, hsplit, hpid, hk, hrows⟩ := psLoop_split h
  have ha := slots_split hsplit
  -- the indices of the lines are those of the slots in use
  have hused : slots.filter (fun i => Used m i) = a := by
    have hfst := congrArg (List.map Prod.fst) hrows
    simpa [liveRows, Function.comp_def] using hfst
  have hmem : ∀ i, Used m i ↔ i < k := by
    intro i
    rw [← ha i, ← hused]
    simp [mem_slots]
  simp only [fillpstat_apply, fillEntry] at hpid hk
  refine ⟨k, ?_, hk, ?_⟩
  · intro i hi
    exact ⟨(hmem i).mpr hi, hpid i ((ha i).mpr hi)⟩
  · intro i hi hu
    exact absurd ((hmem i).mp hu) (not_lt.mpr hi)

/-- The snapshot is right about every slot in use. Its field `inuse` marks exactly those only if
every slot is in use, and `ps` prints exactly those only if they come first in the table and the
slot behind them has pid 0. -/
theorem getpinfo_iff {xs : List NamedCall} {m : Named} (h : run namedStep namedBoot xs = some m)
    (pstat : Slot → Pstat) :
    (∀ i, (m.table.proc i).state ≠ .unused →
      (fillpstat m pstat i).pid = (m.table.proc i).pid ∧
      (fillpstat m pstat i).tickets = (m.table.proc i).tickets ∧
      (fillpstat m pstat i).ticks = (m.table.proc i).ticks ∧
      text (fillpstat m pstat i).name.get 0 NAMESZ = text (m.name i).get 0 NAMESZ ∧
      some (fillpstat m pstat i).state = letter (m.table.proc i).state) ∧
    ((∀ i, (fillpstat m pstat i).inuse = 1 ↔ (m.table.proc i).state ≠ .unused) ↔
      ∀ i, (m.table.proc i).state ≠ .unused) ∧
    (ps m pstat = some (liveRows m) ↔ Packed m) := by
  have hn := namesOk_of_run h
  refine ⟨?_, ?_, packed_of_ps, ps_of_packed hn pstat⟩
  · intro i hi
    rw [fillpstat_apply]
    refine ⟨rfl, rfl, rfl, text_safestrcpy _ (hn i), ?_⟩
    cases hs : (m.table.proc i).state with
    | unused => exact absurd hs hi
    | _ => simp [fillEntry, letter, hs]
  · constructor
    · intro hall i
      rw [← hall i, fillpstat_apply]
      rfl
    · intro hall i
      rw [fillpstat_apply]
      exact ⟨fun _ => hall i, fun _ => rfl⟩

instance (m : Named) : Decidable (Packed m) :=
  inferInstanceAs (Decidable (∃ k : Slot, (∀ i < k, Used m i ∧ (m.table.proc i).pid ≠ 0) ∧
    (m.table.proc k).pid = 0 ∧ ∀ i, k ≤ i → ¬ Used m i))

def blank : Slot → Pstat := fun _ => ⟨0, 0, 0, 0, Bytes.zero, ' '⟩

/-- Only init is there, under its new name. -/
def initRuns : List NamedCall :=
  [.proc .userinit, .proc .userinitDone, .proc (.schedule 0), .exec 0 [47, 105, 110, 105, 116]]

theorem initRuns_ps : ∃ m, run namedStep namedBoot initRuns = some m ∧
    ps m blank = some (liveRows m) ∧ text (m.name 0).get 0 NAMESZ = [105, 110, 105, 116] := by
  have h : (run namedStep namedBoot initRuns).isSome = true ∧
      (run namedStep namedBoot initRuns).map (fun m => decide (Packed m)) = some true ∧
      (run namedStep namedBoot initRuns).map (fun m => text (m.name 0).get 0 NAMESZ) =
        some [105, 110, 105, 116] := by decide +kernel
  obtain ⟨m, hm⟩ := Option.isSome_iff_exists.mp h.1
  rw [hm] at h
  have hpacked : Packed m := of_decide_eq_true (Option.some.inj h.2.1)
  exact ⟨m, hm, (getpinfo_iff hm blank).2.2.mpr hpacked, Option.some.inj h.2.2⟩

/-- Init has two children; the first one exits and is reaped. -/
def firstChildReaped : List NamedCall :=
  [.proc .userinit, .proc .userinitDone, .proc (.schedule 0), .proc (.fork 0), .proc (.forkDone 0),
    .proc (.fork 0), .proc (.forkDone 0), .proc (.wait 0), .proc (.schedule 0), .proc (.yield 0),
    .proc (.schedule 0), .proc (.exit 0), .proc (.schedule 0)]

/-- The freed slot counts as in use, and `ps` does not print the second child behind it. -/
theorem firstChildReaped_ps : ∃ m, run namedStep namedBoot firstChildReaped = some m ∧
    (m.table.proc 1).state = .unused ∧ (fillpstat m blank 1).inuse = 1 ∧
    (m.table.proc 2).state = .runnable ∧
    (ps m blank).map (List.map Prod.fst) = some [0] ∧ ps m blank ≠ some (liveRows m) := by
  have h : (run namedStep namedBoot firstChildReaped).isSome = true ∧
      (run namedStep namedBoot firstChildReaped).map (fun m =>
        ((m.table.proc 1).state, (fillpstat m blank 1).inuse, (m.table.proc 2).state)) =
        some (.unused, 1, .runnable) ∧
      (run namedStep namedBoot firstChildReaped).map (fun m =>
        ((ps m blank).map (List.map Prod.fst), (liveRows m).map Prod.fst)) =
        some (some [0], [0, 2]) := by decide +kernel
  obtain ⟨m, hm⟩ := Option.isSome_iff_exists.mp h.1
  rw [hm] at h
  have hslots := Option.some.inj h.2.1
  have hrows := Option.some.inj h.2.2
  simp only [Prod.mk.injEq] at hslots hrows
  obtain ⟨h₁, h₂, h₃⟩ := hslots
  obtain ⟨h₄, h₅⟩ := hrows
  refine ⟨m, hm, h₁, h₂, h₃, h₄, ?_⟩
  intro heq
  rw [heq, Option.map_some, h₅] at h₄
  cases h₄

end Xv6.Ptable
