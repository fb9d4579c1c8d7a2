import Mathlib
import Xv6.Congruential
import Xv6.WorkConservation

/-!
# Fairness of the lottery

The draws of `random` are a linear congruential sequence with full period modulo `2 ^ 31` and
modulo every smaller power of two. A pass dispatches the process whose interval of tickets holds
the draw modulo the total. While the RUNNABLE processes and their tickets stay the same, the
number of dispatches of a process over a full period is therefore its share of the draws.
-/

namespace Xv6.Ptable

open Finset

variable {t : Table} {c m n : Nat} {i : Slot}

/-! ### The draws -/

theorem wrap32_emod (x : Int) : wrap32 x % 2 ^ 31 = x % 2 ^ 31 := by
  have hdvd : (2 ^ 31 : Int) ∣ ((2 ^ 32 : Nat) : Int) := by norm_num
  rw [wrap32, ← Int.emod_emod_of_dvd _ hdvd, Int.bmod_emod, Int.emod_emod_of_dvd _ hdvd]

theorem random_eq (rseed : Int) : random rseed = affine 1103515245 12345 rseed % 2 ^ 31 := by
  rw [random, wrap32_emod, Int.add_emod, wrap32_emod, ← Int.add_emod, affine, mul_comm]

theorem random_iterate (rseed : Int) (n : Nat) :
    random^[n + 1] rseed = (affine 1103515245 12345)^[n + 1] rseed % 2 ^ 31 := by
  induction n with
  | zero => exact random_eq rseed
  | succ n ih =>
    have hstep : ∀ x : Int, affine 1103515245 12345 (x % 2 ^ 31) % 2 ^ 31 =
        affine 1103515245 12345 x % 2 ^ 31 := by
      intro x
      rw [affine, affine, Int.add_emod, Int.mul_emod, Int.emod_emod_of_dvd _ dvd_rfl,
        ← Int.mul_emod, ← Int.add_emod]
    have hsucc := Function.iterate_succ_apply' (affine 1103515245 12345) (n + 1) rseed
    rw [Function.iterate_succ_apply', ih, random_eq, hstep, hsucc]

/-! ### The winner -/

variable {is : List Slot}

theorem findWinner_mem {winner total : Int}
    (h : findWinner t winner total is = some i) : i ∈ is := by
  induction is generalizing total with
  | nil => simp [findWinner] at h
  | cons j is ih =>
    by_cases hj : Runnable t j
    · rw [findWinner_cons_runnable hj] at h
      split_ifs at h
      · exact Option.some.inj h ▸ List.mem_cons_self
      · exact List.mem_cons_of_mem j (ih h)
    · rw [findWinner_skip hj] at h
      exact List.mem_cons_of_mem j (ih h)

theorem ticketSum_nonneg (h : ∀ j ∈ is, Runnable t j → 0 ≤ (t.proc j).tickets) :
    0 ≤ ticketSum t is := by
  apply List.sum_nonneg
  intro x hx
  obtain ⟨j, hj, rfl⟩ := List.mem_map.mp hx
  obtain ⟨hmem, hrun⟩ := List.mem_filter.mp hj
  exact h j hmem (by simpa using hrun)

/-- The tickets of the processes that come before `i`. -/
def ticketsBefore (t : Table) (i : Slot) (is : List Slot) : Int :=
  ticketSum t (is.takeWhile (fun j => j ≠ i))

theorem ticketsBefore_cons_ne {j : Slot} (hj : j ≠ i) :
    ticketsBefore t i (j :: is) = ticketSum t [j] + ticketsBefore t i is := by
  rw [ticketsBefore, List.takeWhile_cons_of_pos (by simpa using hj), ticketsBefore]
  by_cases hr : Runnable t j
  · simp [ticketSum, hr]
  · simp [ticketSum, hr]

theorem ticketsBefore_cons_self : ticketsBefore t i (i :: is) = 0 := by
  simp [ticketsBefore, ticketSum]

theorem ticketsBefore_add_le (hnn : ∀ j ∈ is, Runnable t j → 0 ≤ (t.proc j).tickets) (hi : i ∈ is)
    (hrun : Runnable t i) : ticketsBefore t i is + (t.proc i).tickets ≤ ticketSum t is := by
  induction is with
  | nil => cases hi
  | cons j is ih =>
    have hnn' : ∀ l ∈ is, Runnable t l → 0 ≤ (t.proc l).tickets :=
      fun l hl => hnn l (List.mem_cons_of_mem j hl)
    by_cases hji : j = i
    · have := ticketSum_nonneg hnn'
      rw [hji, ticketsBefore_cons_self, ticketSum_cons_of_runnable is hrun]
      omega
    · have hle := ih hnn' ((List.mem_cons.mp hi).resolve_left (Ne.symm hji))
      have hcons : ticketSum t (j :: is) = ticketSum t [j] + ticketSum t is := by
        by_cases hr : Runnable t j
        · simp [ticketSum, hr]
        · simp [ticketSum, hr]
      rw [ticketsBefore_cons_ne hji, hcons]
      omega

/-- The winner is the process whose interval of tickets holds the winning ticket. -/
theorem findWinner_eq_some_iff {winner total : Int} (hnodup : is.Nodup)
    (hnn : ∀ j ∈ is, Runnable t j → 0 ≤ (t.proc j).tickets) (h0 : 0 ≤ total)
    (hfit : total + ticketSum t is < 2 ^ 31) (hw : total ≤ winner) (hi : i ∈ is)
    (hrun : Runnable t i) :
    findWinner t winner total is = some i ↔ total + ticketsBefore t i is ≤ winner ∧
      winner < total + ticketsBefore t i is + (t.proc i).tickets := by
  induction is generalizing total with
  | nil => cases hi
  | cons j is ih =>
    obtain ⟨hjmem, hnodup'⟩ := List.nodup_cons.mp hnodup
    have hnn' : ∀ l ∈ is, Runnable t l → 0 ≤ (t.proc l).tickets :=
      fun l hl => hnn l (List.mem_cons_of_mem j hl)
    have hrest := ticketSum_nonneg hnn'
    by_cases hj : Runnable t j
    · have htk := hnn j List.mem_cons_self hj
      rw [ticketSum_cons_of_runnable is hj] at hfit
      have hexact : wrap32 (total + (t.proc j).tickets) = total + (t.proc j).tickets :=
        wrap32_of_range (by omega) (by omega)
      rw [findWinner_cons_runnable hj, hexact]
      by_cases hji : j = i
      · subst hji
        rw [ticketsBefore_cons_self]
        split_ifs with hgt
        · simp only [true_iff]
          omega
        · constructor
          · intro h
            exact absurd (findWinner_mem h) hjmem
          · intro h
            omega
      · have hbefore : ticketsBefore t i (j :: is) =
            (t.proc j).tickets + ticketsBefore t i is := by
          simp [ticketsBefore_cons_ne hji, ticketSum, hj]
        have hbn : 0 ≤ ticketsBefore t i is := by
          apply ticketSum_nonneg
          intro l hl
          exact hnn' l ((List.takeWhile_sublist _).subset hl)
        have hi' : i ∈ is := (List.mem_cons.mp hi).resolve_left (Ne.symm hji)
        rw [hbefore]
        split_ifs with hgt
        · constructor
          · intro h
            exact absurd (Option.some.inj h) hji
          · intro h
            omega
        · rw [ih hnodup' hnn' (by omega) (by omega) (by omega) hi']
          omega
    · rw [ticketSum_cons_of_not is hj] at hfit
      have hji : j ≠ i := fun hc => hj (hc ▸ hrun)
      have hbefore : ticketsBefore t i (j :: is) = ticketsBefore t i is := by
        simp [ticketsBefore_cons_ne hji, ticketSum, hj]
      rw [findWinner_skip hj, hbefore]
      exact ih hnodup' hnn' h0 hfit hw ((List.mem_cons.mp hi).resolve_left (Ne.symm hji))

/-! ### One draw -/

theorem slots_nodup : slots.Nodup := List.nodup_finRange NPROC

theorem scheduler_fst (h : 0 < totalTickets t) : (scheduler c t).1 =
    findWinner t (Int.tmod (random t.rseed) (totalTickets t)) 0 slots := by
  simp only [scheduler, if_pos h]
  split
  · next hw => exact hw.symm
  · next hw => exact hw.symm

section Draw

variable (hpos : ∀ j, Runnable t j → 0 < (t.proc j).tickets) (hfit : ticketSum t slots < 2 ^ 31)
include hpos hfit

theorem totalTickets_exact : totalTickets t = ticketSum t slots := by
  have hnn : 0 ≤ ticketSum t slots := ticketSum_nonneg (fun j _ hj => (hpos j hj).le)
  rw [totalTickets_eq]
  exact wrap32_of_range (by omega) hfit

theorem findWinner_slots_iff {w : Int} (hw : 0 ≤ w) (hi : Runnable t i) :
    findWinner t w 0 slots = some i ↔
      ticketsBefore t i slots ≤ w ∧ w < ticketsBefore t i slots + (t.proc i).tickets := by
  have h := findWinner_eq_some_iff slots_nodup (fun j _ hj => (hpos j hj).le) le_rfl
    (by rwa [zero_add]) hw (mem_slots i) hi
  rwa [zero_add] at h

theorem selecting_draws (hi : Runnable t i) :
    {w ∈ Ico 0 (ticketSum t slots) | findWinner t w 0 slots = some i} =
      Ico (ticketsBefore t i slots) (ticketsBefore t i slots + (t.proc i).tickets) := by
  have hnn : ∀ j ∈ slots, Runnable t j → 0 ≤ (t.proc j).tickets := fun j _ hj => (hpos j hj).le
  have hle := ticketsBefore_add_le hnn (mem_slots i) hi
  have hbn : 0 ≤ ticketsBefore t i slots := ticketSum_nonneg (fun j _ hj => (hpos j hj).le)
  ext w
  rw [mem_filter, mem_Ico, mem_Ico]
  constructor
  · rintro ⟨⟨hw, _⟩, hwin⟩
    exact (findWinner_slots_iff hpos hfit hw hi).mp hwin
  · rintro ⟨hlo, hhi⟩
    have hw : 0 ≤ w := hbn.trans hlo
    exact ⟨⟨hw, by omega⟩, (findWinner_slots_iff hpos hfit hw hi).mpr ⟨hlo, hhi⟩⟩

end Draw

/-- Every draw below the total selects the one process whose tickets hold it, so a process is
selected by as many draws as it has tickets. A pass draws below the total. -/
theorem draw_proportional (t : Table) (hpos : ∀ j, Runnable t j → 0 < (t.proc j).tickets)
    (hfit : ticketSum t slots < 2 ^ 31) :
    (∀ w, 0 ≤ w → w < ticketSum t slots → ∃ i, findWinner t w 0 slots = some i ∧
      ∀ j, j = i ↔ Runnable t j ∧ ticketsBefore t j slots ≤ w ∧
        w < ticketsBefore t j slots + (t.proc j).tickets) ∧
    (∀ i, Runnable t i →
      (#{w ∈ Ico 0 (ticketSum t slots) | findWinner t w 0 slots = some i} : Int) =
        (t.proc i).tickets) ∧
    (∀ w i, findWinner t w 0 slots = some i → Runnable t i) ∧
    ∀ rseed, (0 ≤ random rseed ∧ random rseed < 2 ^ 31) ∧
      (0 < ticketSum t slots →
        (0 ≤ Int.tmod (random rseed) (ticketSum t slots) ∧
          Int.tmod (random rseed) (ticketSum t slots) < ticketSum t slots) ∧
        ∀ c, (scheduler c { t with rseed := rseed }).1 =
          findWinner t (Int.tmod (random rseed) (ticketSum t slots)) 0 slots) := by
  have htotal := totalTickets_exact hpos hfit
  refine ⟨?_, ?_, fun w i h => findWinner_runnable h, ?_⟩
  · intro w hw hlt
    have hsome : ∃ j ∈ slots, Runnable t j := by
      by_contra hnone
      have hf : slots.filter (fun j => Runnable t j) = [] := by
        rw [List.filter_eq_nil_iff]
        intro j hj hr
        exact hnone ⟨j, hj, by simpa using hr⟩
      have : ticketSum t slots = 0 := by simp [ticketSum, hf]
      omega
    obtain ⟨i, hi⟩ := findWinner_isSome (htotal.symm ▸ hlt : w < totalTickets t) hsome
    refine ⟨i, hi, fun j => ⟨?_, ?_⟩⟩
    · rintro rfl
      have hr := findWinner_runnable hi
      exact ⟨hr, (findWinner_slots_iff hpos hfit hw hr).mp hi⟩
    · rintro ⟨hr, hj⟩
      have hwin := (findWinner_slots_iff hpos hfit hw hr).mpr hj
      exact Option.some.inj (hwin.symm.trans hi)
  · intro i hi
    have htk := hpos i hi
    rw [selecting_draws hpos hfit hi, Int.card_Ico]
    omega
  · intro rseed
    have hrange := random_range rseed
    refine ⟨hrange, fun hT => ⟨⟨Int.tmod_nonneg _ hrange.1, Int.tmod_lt_of_pos _ hT⟩, ?_⟩⟩
    intro c
    have hsame : ∀ (is : List Slot) (w n : Int),
        findWinner { t with rseed := rseed } w n is = findWinner t w n is := by
      intro is w
      induction is with
      | nil => exact fun _ => rfl
      | cons j is ih => exact fun n => by simp only [findWinner, ih]
    have htot : totalTickets { t with rseed := rseed } = ticketSum t slots :=
      (totalTickets_exact (t := { t with rseed := rseed }) hpos hfit)
    rw [scheduler_fst (by omega), htot, hsame]

/-! ### Passes with a steady set of processes -/

@[simp] theorem waitScan_rseed (c : Nat) (p : Slot) (t : Table) :
    (waitScan c p t).2.rseed = t.rseed := by
  simp only [waitScan]
  split
  · rfl
  · split_ifs <;> rfl

@[simp] theorem dispatch_rseed (c : Nat) (p : Slot) (t : Table) :
    (dispatch c p t).rseed = t.rseed := by
  simp only [dispatch, resume]
  split
  · rfl
  · rfl
  · rfl
  · exact waitScan_rseed _ _ _

theorem scheduler_rseed (h : 0 < totalTickets t) : (scheduler c t).2.rseed = random t.rseed := by
  simp only [scheduler, if_pos h]
  split
  · exact dispatch_rseed _ _ _
  · rfl

/-- `tbl j` is the table at pass `j` of the scheduler of processor `c`. Every process that was
RUNNABLE at the first pass is so at every pass, with the tickets that it had, and no other process
is. Only the passes draw from `random`. -/
structure Steady (c : Nat) (tbl : Nat → Table) : Prop where
  runnable : ∀ j i, Runnable (tbl j) i ↔ Runnable (tbl 0) i
  tickets : ∀ j i, Runnable (tbl 0) i → ((tbl j).proc i).tickets = ((tbl 0).proc i).tickets
  rseed : ∀ j, (tbl (j + 1)).rseed = (scheduler c (tbl j)).2.rseed

/-- How often process `i` is dispatched in the `n` passes from pass `m` on. -/
def dispatches (c : Nat) (tbl : Nat → Table) (m n : Nat) (i : Slot) : Nat :=
  #{j ∈ range n | (scheduler c (tbl (m + j))).1 = some i}

namespace Steady

variable {tbl : Nat → Table} {T : Nat} (h : Steady c tbl)
include h

theorem ticketSum_eq (j : Nat) (is : List Slot) : ticketSum (tbl j) is = ticketSum (tbl 0) is := by
  induction is with
  | nil => rfl
  | cons i is ih =>
    by_cases hi : Runnable (tbl 0) i
    · rw [ticketSum_cons_of_runnable is hi, ticketSum_cons_of_runnable is ((h.runnable j i).mpr hi),
        ih, h.tickets j i hi]
    · rw [ticketSum_cons_of_not is hi, ticketSum_cons_of_not is (fun hc => hi ((h.runnable j i).mp hc)),
        ih]

variable (hT : ticketSum (tbl 0) slots = T) (h1 : 1 ≤ T) (h2 : T < 2 ^ 31)
include hT h1 h2

theorem totalTickets_eq (j : Nat) : totalTickets (tbl j) = T := by
  rw [Ptable.totalTickets_eq, h.ticketSum_eq, hT]
  exact wrap32_of_range (by omega) (by omega)

theorem draw_eq (j : Nat) : random (tbl j).rseed =
    (affine 1103515245 12345)^[j + 1] (tbl 0).rseed % 2 ^ 31 := by
  have hseed : (tbl j).rseed = random^[j] (tbl 0).rseed := by
    induction j with
    | zero => rfl
    | succ j ih =>
      have hpos : 0 < totalTickets (tbl j) := by
        rw [h.totalTickets_eq hT h1 h2]
        omega
      rw [h.rseed, scheduler_rseed hpos, ih, Function.iterate_succ_apply']
  rw [hseed, ← Function.iterate_succ_apply' random, random_iterate]

variable (hnn : ∀ i, Runnable (tbl 0) i → 0 ≤ ((tbl 0).proc i).tickets) (hi : Runnable (tbl 0) i)
include hnn hi

/-- Pass `j` dispatches `i` when its draw modulo the total is one of the tickets of `i`. -/
theorem dispatches_iff (j : Nat) : (scheduler c (tbl j)).1 = some i ↔
    (ticketsBefore (tbl 0) i slots).toNat ≤
        ((affine 1103515245 12345)^[j + 1] (tbl 0).rseed % 2 ^ 31).toNat % T ∧
      ((affine 1103515245 12345)^[j + 1] (tbl 0).rseed % 2 ^ 31).toNat % T <
        (ticketsBefore (tbl 0) i slots).toNat + ((tbl 0).proc i).tickets.toNat := by
  have htotal := h.totalTickets_eq hT h1 h2 j
  have hdraw := h.draw_eq hT h1 h2 j
  have hbn : 0 ≤ ticketsBefore (tbl 0) i slots := ticketSum_nonneg (fun l _ => hnn l)
  have htk := hnn i hi
  have hbefore : ticketsBefore (tbl j) i slots = ticketsBefore (tbl 0) i slots :=
    h.ticketSum_eq j _
  have hrand := (random_range (tbl j).rseed).1
  obtain ⟨r, hr⟩ := Int.eq_ofNat_of_zero_le hrand
  have hwin : Int.tmod (random (tbl j).rseed) (totalTickets (tbl j)) = ((r % T : Nat) : Int) := by
    rw [htotal, hr]
    rfl
  rw [← hdraw, hr, Int.toNat_natCast]
  rw [scheduler_fst (by omega), hwin, findWinner_eq_some_iff slots_nodup ?_ le_rfl ?_
    (Int.natCast_nonneg _) (mem_slots i) ((h.runnable j i).mpr hi), hbefore, h.tickets j i hi]
  · omega
  · intro l _ hl
    have hl' := (h.runnable j l).mp hl
    rw [h.tickets j l hl']
    exact hnn l hl'
  · rw [h.ticketSum_eq, hT]
    omega

end Steady

/-- Over a full period of `random` a process gets its share of the passes, up to rounding, and its
exact share over any `T` passes if the total `T` is a power of two. -/
theorem lottery_fair {tbl : Nat → Table} {T : Nat} (h : Steady c tbl)
    (hnn : ∀ i, Runnable (tbl 0) i → 0 ≤ ((tbl 0).proc i).tickets)
    (hT : ticketSum (tbl 0) slots = T) (h1 : 1 ≤ T) (h2 : T < 2 ^ 31)
    (hi : Runnable (tbl 0) i) (m : Nat) :
    ((tbl 0).proc i).tickets.toNat * (2 ^ 31 / T) ≤ dispatches c tbl m (2 ^ 31) i ∧
      dispatches c tbl m (2 ^ 31) i ≤
        ((tbl 0).proc i).tickets.toNat * ((2 ^ 31 + T - 1) / T) ∧
      ∀ k, T = 2 ^ k → dispatches c tbl m T i = ((tbl 0).proc i).tickets.toNat := by
  have hdisp := h.dispatches_iff hT h1 h2 hnn hi
  have hle := @ticketsBefore_add_le _ _ slots (fun j _ => hnn j) (mem_slots i) hi
  have hbn : 0 ≤ ticketsBefore (tbl 0) i slots := ticketSum_nonneg (fun l _ => hnn l)
  have htk := hnn i hi
  obtain ⟨lo, hlo⟩ : ∃ lo, (ticketsBefore (tbl 0) i slots).toNat = lo := ⟨_, rfl⟩
  obtain ⟨w, hw⟩ : ∃ w, ((tbl 0).proc i).tickets.toNat = w := ⟨_, rfl⟩
  have hfit : lo + w ≤ T := by omega
  rw [hlo, hw] at hdisp
  rw [hw]
  have ha : (4 : Int) ∣ 1103515245 - 1 := by norm_num
  have hc : Odd (12345 : Int) := by decide
  have hshift : ∀ j, m + j + 1 = m + 1 + j := fun j => by omega
  simp only [dispatches, hdisp, hshift]
  refine ⟨?_, ?_, ?_⟩
  · rw [card_iterate_filter ha hc (fun v => lo ≤ v % T ∧ v % T < lo + w)]
    exact (card_residues (2 ^ 31) h1 hfit).1
  · rw [card_iterate_filter ha hc (fun v => lo ≤ v % T ∧ v % T < lo + w)]
    exact (card_residues (2 ^ 31) h1 hfit).2
  · rintro k rfl
    have hk : k ≤ 31 := by
      by_contra hk
      have := Nat.pow_le_pow_right (n := 2) (by decide) (not_le.mp hk).le
      omega
    have hdvd : (2 ^ k : Int) ∣ 2 ^ 31 := pow_dvd_pow 2 hk
    have hred : ∀ x : Int, (x % 2 ^ 31).toNat % 2 ^ k = (x % 2 ^ k).toNat % 2 ^ k := by
      intro x
      have h₁ := Int.emod_nonneg x (show (2 ^ 31 : Int) ≠ 0 by decide)
      have h₂ := Int.emod_nonneg x (show (2 ^ k : Int) ≠ 0 by positivity)
      zify
      rw [Int.toNat_of_nonneg h₁, Int.toNat_of_nonneg h₂, Int.emod_emod_of_dvd _ hdvd,
        Int.emod_emod_of_dvd _ dvd_rfl]
    simp only [hred]
    rw [card_iterate_filter ha hc (fun v => lo ≤ v % 2 ^ k ∧ v % 2 ^ k < lo + w)]
    have hbounds := card_residues (2 ^ k) h1 hfit
    have hup : (2 ^ k + 2 ^ k - 1) / 2 ^ k = 1 := by
      rw [Nat.div_eq_iff h1]
      omega
    rw [Nat.div_self h1, hup, mul_one] at hbounds
    exact le_antisymm hbounds.2 hbounds.1

/-! ### Processes that yield -/

/-- One pass, after which the process that was dispatched yields. -/
def passYield (c : Nat) (t : Table) : Table :=
  match (scheduler c t).1 with
  | some p => yield c p (scheduler c t).2
  | none => (scheduler c t).2

theorem passYield_proc (hu : ∀ i, (t.proc i).thread = .user) (i : Slot) :
    (passYield c t).proc i = t.proc i ∨ Runnable t i ∧ (passYield c t).proc i =
      { t.proc i with state := .runnable, ticks := wrap32 ((t.proc i).ticks + 1) } := by
  by_cases hpos : 0 < totalTickets t
  · have hfst := scheduler_fst (c := c) hpos
    have hsnd : ∀ p, (scheduler c t).1 = some p →
        (scheduler c t).2 = dispatch c p { t with rseed := random t.rseed } := by
      intro p hp
      rw [hfst] at hp
      simp only [scheduler, if_pos hpos, hp]
    cases hp : (scheduler c t).1 with
    | none =>
      have hnone : (scheduler c t).2 = { t with rseed := random t.rseed } := by
        rw [hfst] at hp
        simp only [scheduler, if_pos hpos, hp]
      exact Or.inl (by simp only [passYield, hp, hnone])
    | some p =>
      have hrun : Runnable t p := findWinner_runnable (hfst.symm.trans hp)
      have hres : resume c p (({ t with rseed := random t.rseed }.setCpu c (some p)).set p
          { t.proc p with state := .running }) =
          ({ t with rseed := random t.rseed }.setCpu c (some p)).set p
            { t.proc p with state := .running } := by
        simp [resume, Table.set, hu p]
      simp only [passYield, hp, hsnd p hp, dispatch, hres]
      by_cases hip : i = p
      · subst hip
        exact Or.inr ⟨hrun, by simp [yield, sched, Table.set, Table.setCpu]⟩
      · exact Or.inl (by simp [yield, sched, Table.set, Table.setCpu, hip])
  · exact Or.inl (by simp only [passYield, scheduler, if_neg hpos])

theorem passYield_rseed : (passYield c t).rseed = (scheduler c t).2.rseed := by
  simp only [passYield]
  split <;> rfl

theorem passYield_steady (c : Nat) (hu : ∀ i, (t.proc i).thread = .user) :
    Steady c (fun j => (passYield c)^[j] t) := by
  have hkeep : ∀ j i, (((passYield c)^[j] t).proc i).thread = .user ∧
      (Runnable ((passYield c)^[j] t) i ↔ Runnable t i) ∧
      (((passYield c)^[j] t).proc i).tickets = (t.proc i).tickets := by
    intro j
    induction j with
    | zero => exact fun i => ⟨hu i, Iff.rfl, rfl⟩
    | succ j ih =>
      intro i
      obtain ⟨hi, hr, htk⟩ := ih i
      rw [Function.iterate_succ_apply', Runnable]
      rcases passYield_proc (c := c) (fun i => (ih i).1) i with hp | ⟨hrun, hp⟩
      · rw [hp]
        exact ⟨hi, hr, htk⟩
      · rw [hp]
        exact ⟨hi, ⟨fun _ => hr.mp hrun, fun _ => rfl⟩, htk⟩
  refine ⟨fun j i => (hkeep j i).2.1, fun j i _ => (hkeep j i).2.2, fun j => ?_⟩
  simp only [Function.iterate_succ_apply', passYield_rseed]

/-- Two RUNNABLE processes with 10 and 22 tickets. -/
def twoRunnable : Table :=
  { boot with proc := fun i =>
      if i = 0 then { state := .runnable, pid := 1, tickets := 10 }
      else if i = 1 then { state := .runnable, pid := 2, parent := some 0, tickets := 22 }
      else {} }

theorem twoRunnable_fair : Steady 0 (fun j => (passYield 0)^[j] twoRunnable) ∧
    ticketSum twoRunnable slots = 32 ∧
    dispatches 0 (fun j => (passYield 0)^[j] twoRunnable) 0 32 1 = 22 :=
  ⟨passYield_steady 0 (by decide), by decide,
    (lottery_fair (T := 32) (passYield_steady 0 (by decide)) (by decide) (by decide) (by decide)
      (by decide) (by decide) 0).2.2 5 rfl⟩

theorem twoRunnable_draws :
    (#{w ∈ Ico 0 (ticketSum twoRunnable slots) | findWinner twoRunnable w 0 slots = some 1} : Int)
      = 22 :=
  (draw_proportional twoRunnable (by decide) (by decide)).2.1 1 (by decide)

end Xv6.Ptable
