import Xv6.CopyLoop
import Xv6.MachineInt

/-!
# `memmove` of the kernel and of the user library

A memory is a function from addresses to bytes. The kernel copies downwards when the destination starts
inside the source; the user library always copies upwards, and takes the length for an `int`.
-/

namespace Xv6

open Function

variable {mem : Nat → UInt8} {dst src n : Nat}

namespace Kernel

/-- `memmove` of `string.c`. The sum of a pointer and a length is a 32-bit address. -/
def memmove (mem : Nat → UInt8) (dst src n : Nat) : Nat → UInt8 :=
  if src < dst ∧ (src + n) % 2 ^ 32 > dst then copyDown n mem (dst + n) (src + n)
  else copyUp n mem dst src

theorem memmove_copied (hdst : dst + n ≤ 2 ^ 32) :
    Copied mem (memmove mem dst src n) dst src n := by
  rw [memmove]
  split
  · next h => exact copyDown_copied (Nat.le_of_lt h.1)
  · next h =>
    refine copyUp_copied ?_
    by_contra hc
    exact h ⟨by omega, by omega⟩

end Kernel

namespace Ulib

/-- `memmove` of `ulib.c`. -/
def memmove (mem : Nat → UInt8) (dst src : Nat) (n : Int) : Nat → UInt8 :=
  copyUp n.toNat mem dst src

/-- The length is positive as an `int`, and the source repeats itself as far as it is overwritten
before it is read; or the destination holds the source already. -/
def MoveOk (mem : Nat → UInt8) (dst src n : Nat) : Prop :=
  n < 2 ^ 31 ∧ (src < dst → ∀ i, i + (dst - src) < n → mem (src + i) = mem (src + (i + (dst - src)))) ∨
  2 ^ 31 ≤ n ∧ ∀ i < n, mem (dst + i) = mem (src + i)

theorem toNat_wrap32_of_lt (h : n < 2 ^ 31) : (wrap32 n).toNat = n := by
  rw [wrap32_of_range (by omega) (by omega)]
  exact Int.toNat_natCast n

theorem toNat_wrap32_of_ge (h : 2 ^ 31 ≤ n) (hn : n ≤ 2 ^ 32) : (wrap32 n).toNat = 0 := by
  have hpos := wrap32_pos_iff n
  omega

theorem memmove_copied_iff (hn : n ≤ 2 ^ 32) :
    Copied mem (memmove mem dst src (wrap32 n)) dst src n ↔ MoveOk mem dst src n := by
  rw [memmove, MoveOk]
  by_cases h : n < 2 ^ 31
  · rw [toNat_wrap32_of_lt h, copyUp_copied_iff]
    constructor
    · exact fun hc => .inl ⟨h, hc⟩
    · rintro (⟨-, hc⟩ | ⟨hge, -⟩)
      · exact hc
      · omega
  · have hge : 2 ^ 31 ≤ n := Nat.le_of_not_lt h
    rw [toNat_wrap32_of_ge hge hn, copyUp]
    constructor
    · exact fun hc => .inr ⟨hge, hc.range⟩
    · rintro (⟨hlt, -⟩ | ⟨-, hc⟩)
      · exact absurd hlt h
      · exact ⟨hc, fun _ _ => rfl⟩

end Ulib

/-- The kernel's `memmove` copies as if through a temporary. That of the user library does, and agrees
with the kernel's, in the cases of `MoveOk` only. -/
theorem memmove_agree_iff (mem : Nat → UInt8) (hdst : dst + n ≤ 2 ^ 32) (hsrc : src + n ≤ 2 ^ 32) :
    Copied mem (Kernel.memmove mem dst src n) dst src n ∧
      ((Copied mem (Ulib.memmove mem dst src (wrap32 n)) dst src n ∧
        Ulib.memmove mem dst src (wrap32 n) = Kernel.memmove mem dst src n) ↔
        Ulib.MoveOk mem dst src n) := by
  have hkernel : Copied mem (Kernel.memmove mem dst src n) dst src n := Kernel.memmove_copied hdst
  refine ⟨hkernel, ?_⟩
  rw [← Ulib.memmove_copied_iff (Nat.le_trans (Nat.le_add_left n src) hsrc)]
  constructor
  · exact fun h => h.1
  · exact fun h => ⟨h, h.unique hkernel⟩

/-- Two bytes moved down by one. -/
theorem memmove_agree_down :
    (0 + 2 ≤ 2 ^ 32 ∧ 1 + 2 ≤ 2 ^ 32) ∧
      Ulib.memmove UInt8.ofNat 0 1 (wrap32 2) = Kernel.memmove UInt8.ofNat 0 1 2 := by
  refine ⟨by decide, ((memmove_agree_iff UInt8.ofNat (by decide) (by decide)).2.mpr ?_).2⟩
  exact .inl ⟨by decide, fun h => absurd h (by decide)⟩

/-- The user library moves two bytes up by one, and the first of them ends up in both places. -/
theorem ulib_memmove_smears :
    Ulib.memmove UInt8.ofNat 1 0 (wrap32 2) 2 = 0 ∧ Kernel.memmove UInt8.ofNat 1 0 2 2 = 1 ∧
      ¬ Copied UInt8.ofNat (Ulib.memmove UInt8.ofNat 1 0 (wrap32 2)) 1 0 2 := by
  refine ⟨by decide, by decide, ?_⟩
  intro h
  exact absurd (h.range 1 (by decide)) (by decide)

end Xv6
