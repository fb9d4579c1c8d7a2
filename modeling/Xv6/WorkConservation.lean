import Xv6.Scheduler

/-!
# When a scheduler pass dispatches

The two loops of `scheduler` add the same tickets in the same order, so the second one passes the
winning ticket at the latest when it has reached the total of the first. Whether a pass dispatches
therefore depends only on the sign of the wrapped total, that is on the residue modulo `2 ^ 32` of
the exact sum of the tickets of the RUNNABLE processes.
-/

namespace Xv6.Ptable

/-- The tickets of the RUNNABLE processes of `is`, added up exactly. -/
def ticketSum (t : Table) (is : List Slot) : Int :=
  ((is.filter (fun i => Runnable t i)).map (fun i => (t.proc i).tickets)).sum

variable {t : Table} {i : Slot}

theorem ticketSum_cons_of_runnable (is : List Slot) (h : Runnable t i) :
    ticketSum t (i :: is) = (t.proc i).tickets + ticketSum t is := by
  simp [ticketSum, h]

theorem ticketSum_cons_of_not (is : List Slot) (h : ¬ Runnable t i) :
    ticketSum t (i :: is) = ticketSum t is := by
  simp [ticketSum, h]

theorem addTickets_eq (t : Table) (total : Int) (is : List Slot) :
    addTickets t (wrap32 total) is = wrap32 (total + ticketSum t is) := by
  induction is generalizing total with
  | nil => simp [addTickets, ticketSum]
  | cons i is ih =>
    by_cases h : Runnable t i
    · rw [addTickets_runnable h, wrap32_add_left, ih, ticketSum_cons_of_runnable is h, add_assoc]
    · rw [addTickets_skip h, ih, ticketSum_cons_of_not is h]

theorem totalTickets_eq (t : Table) : totalTickets t = wrap32 (ticketSum t slots) := by
  have h := addTickets_eq t 0 slots
  rwa [wrap32_zero, zero_add] at h

theorem findWinner_runnable {winner newTotal : Int} {is : List Slot}
    (h : findWinner t winner newTotal is = some i) : Runnable t i := by
  induction is generalizing newTotal with
  | nil => simp [findWinner] at h
  | cons j is ih =>
    by_cases hj : Runnable t j
    · rw [findWinner_cons_runnable hj] at h
      split_ifs at h
      · exact Option.some.inj h ▸ hj
      · exact ih h
    · rw [findWinner_skip hj] at h
      exact ih h

/-- The second loop finds a winner below the total that the first loop computes. -/
theorem findWinner_isSome {winner newTotal : Int} {is : List Slot}
    (hw : winner < addTickets t newTotal is) (hr : ∃ i ∈ is, Runnable t i) :
    ∃ i, findWinner t winner newTotal is = some i := by
  induction is generalizing newTotal with
  | nil => simp at hr
  | cons j is ih =>
    by_cases hj : Runnable t j
    · rw [addTickets_runnable hj] at hw
      rw [findWinner_cons_runnable hj]
      by_cases hgt : wrap32 (newTotal + (t.proc j).tickets) > winner
      · exact ⟨j, if_pos hgt⟩
      · rw [if_neg hgt]
        apply ih hw
        -- with no RUNNABLE process left the total would not move past the winner any more
        by_contra hnone
        have hf : is.filter (fun i => Runnable t i) = [] := by
          rw [List.filter_eq_nil_iff]
          intro i hi hri
          exact hnone ⟨i, hi, by simpa using hri⟩
        have hsum : ticketSum t is = 0 := by simp [ticketSum, hf]
        rw [addTickets_eq, hsum, add_zero] at hw
        exact hgt hw
    · rw [addTickets_skip hj] at hw
      rw [findWinner_skip hj]
      obtain ⟨i, hi, hri⟩ := hr
      rcases List.mem_cons.mp hi with rfl | hi
      · exact absurd hri hj
      · exact ih hw ⟨i, hi, hri⟩

def DispatchesRunnable (c : Nat) (t : Table) : Prop :=
  ∃ i, (scheduler c t).1 = some i ∧ Runnable t i

/-- The exact sum of the tickets of the RUNNABLE processes is positive as a 32-bit `int`. -/
def TicketSumFits (t : Table) : Prop :=
  0 < ticketSum t slots % 2 ^ 32 ∧ ticketSum t slots % 2 ^ 32 < 2 ^ 31

theorem scheduler_dispatches_iff (c : Nat) (t : Table) (hr : ∃ i, Runnable t i) :
    DispatchesRunnable c t ↔ TicketSumFits t := by
  unfold DispatchesRunnable TicketSumFits
  rw [← wrap32_pos_iff, ← totalTickets_eq]
  constructor
  · rintro ⟨i, hi, _⟩
    by_contra h
    rw [scheduler, if_neg h] at hi
    simp at hi
  · intro h
    have hlt : Int.tmod (random t.rseed) (totalTickets t) < totalTickets t :=
      Int.tmod_lt_of_pos _ h
    obtain ⟨j, hj⟩ := hr
    obtain ⟨i, hi⟩ := findWinner_isSome hlt ⟨j, mem_slots j, hj⟩
    refine ⟨i, ?_, findWinner_runnable hi⟩
    rw [scheduler, if_pos h]
    simp only [hi]

/-- `P` holds at every scheduler pass of the run `es` that finds a RUNNABLE process. -/
def EachPass (P : Nat → Table → Prop) (es : List Event) : Prop :=
  ∀ pre c post t, es = pre ++ .schedule c :: post → run step boot pre = some t →
    t.cpu c = none → (∃ i, Runnable t i) → P c t

/-- A run is work conserving exactly when at each of its passes the tickets of the RUNNABLE
processes have a sum that is positive as an `int`. -/
theorem eachPass_dispatches_iff (es : List Event) :
    EachPass DispatchesRunnable es ↔ EachPass (fun _ t => TicketSumFits t) es := by
  constructor
  · intro h pre c post t he hr hc hi
    exact (scheduler_dispatches_iff c t hi).mp (h pre c post t he hr hc hi)
  · intro h pre c post t he hr hc hi
    exact (scheduler_dispatches_iff c t hi).mpr (h pre c post t he hr hc hi)

/-- Init takes the largest ticket count, forks and yields. -/
def overflowRun : List Event :=
  [.userinit, .userinitDone, .schedule 0, .settickets 0 2147483647, .fork 0, .forkDone 0, .yield 0]

theorem overflowRun_idles : ¬ EachPass DispatchesRunnable (overflowRun ++ [.schedule 0]) := by
  intro h
  have hidle : ∃ t, run step boot overflowRun = some t ∧ t.cpu 0 = none ∧
      Runnable t 0 ∧ (scheduler 0 t).1 = none :=
    ⟨_, rfl, by decide, by decide, by decide⟩
  obtain ⟨t, ht, hc, hr, hn⟩ := hidle
  obtain ⟨i, hi, _⟩ := h overflowRun 0 [] t rfl ht hc ⟨0, hr⟩
  rw [hn] at hi
  cases hi

end Xv6.Ptable
