import Xv6.FsInode
import Xv6.Ownership

/-!
# The free map

What `balloc` and `bfree` do to the bits of the free map: `balloc` takes the first free block, or
panics when there is none, and `bfree` of a used block clears its bit.
-/

namespace Xv6.Fs

open Function

open Prog

/-- The bit of block `b` in the free map. -/
def bitUsed (sb : Superblock) (disk : Nat → Block) (b : Nat) : Bool :=
  !isFree (disk (BBLOCK b sb)) (b % BPB)

theorem bitMask_ne_zero (i : Nat) : bitMask i ≠ 0 := by
  have h : ∀ a : Fin 8, (1 : UInt8) <<< UInt8.ofNat a.val ≠ 0 := by decide
  exact h ⟨i % 8, Nat.mod_lt _ (by decide)⟩

variable {i j : Nat}

theorem bitMask_and (h : i % 8 ≠ j % 8) : bitMask i &&& bitMask j = 0 := by
  have hall : ∀ a b : Fin 8, a ≠ b →
      (1 : UInt8) <<< UInt8.ofNat a.val &&& (1 : UInt8) <<< UInt8.ofNat b.val = 0 := by decide
  exact hall ⟨i % 8, Nat.mod_lt _ (by decide)⟩ ⟨j % 8, Nat.mod_lt _ (by decide)⟩
    (by simpa using h)

theorem not_bitMask_and (h : i % 8 ≠ j % 8) : ~~~ bitMask i &&& bitMask j = bitMask j := by
  have hall : ∀ a b : Fin 8, a ≠ b →
      ~~~ ((1 : UInt8) <<< UInt8.ofNat a.val) &&& (1 : UInt8) <<< UInt8.ofNat b.val =
        (1 : UInt8) <<< UInt8.ofNat b.val := by decide
  exact hall ⟨i % 8, Nat.mod_lt _ (by decide)⟩ ⟨j % 8, Nat.mod_lt _ (by decide)⟩
    (by simpa using h)

theorem or_and_distrib (x a b : UInt8) : (x ||| a) &&& b = (x &&& b) ||| (a &&& b) := by
  apply UInt8.toBitVec_inj.mp
  simp only [UInt8.toBitVec_and, UInt8.toBitVec_or]
  ext i
  simp [Bool.and_or_distrib_right]

theorem or_and_self (x a : UInt8) : (x ||| a) &&& a = a := by
  apply UInt8.toBitVec_inj.mp
  simp only [UInt8.toBitVec_and, UInt8.toBitVec_or]
  ext i
  simpa using Or.inr

theorem get_writeByte (data : Block) (v : UInt8) (hj : j < BSIZE) :
    (data.write i (fun _ => v) 1).get j = if j = i then v else data.get j := by
  split_ifs with h
  · rw [Bytes.get_write_in _ _ (by omega) (by omega) hj]
  · rw [Bytes.get_write_out _ _ (by omega)]

theorem isFree_setBit (data : Block) (hj : j < BPB) :
    isFree (setBit data i) j = if j = i then false else isFree data j := by
  have hj8 : j / 8 < BSIZE := by
    simp only [BPB, BSIZE] at hj ⊢
    omega
  rw [isFree, setBit, get_writeByte _ _ hj8]
  by_cases hij : j = i
  · subst hij
    simp [or_and_self, bitMask_ne_zero]
  · rw [if_neg hij]
    by_cases hbyte : j / 8 = i / 8
    · have hbit : i % 8 ≠ j % 8 := by omega
      rw [if_pos hbyte, or_and_distrib, bitMask_and hbit, UInt8.or_zero, isFree, hbyte]
    · rw [if_neg hbyte, isFree]

theorem isFree_bitsBelow (used : Nat) {j : Nat} (hj : j < BPB) :
    isFree (bitsBelow used) j = decide (used ≤ j) := by
  induction used with
  | zero => simp [bitsBelow, isFree]
  | succ used ih =>
    rw [bitsBelow, List.range_succ, List.foldl_append, List.foldl_cons, List.foldl_nil,
      isFree_setBit _ hj]
    split_ifs with h
    · simp [h]
    · rw [← bitsBelow, ih]
      exact decide_eq_decide.mpr (by omega)

theorem isFree_clearBit (data : Block) (hj : j < BPB) :
    isFree (clearBit data i) j = if j = i then true else isFree data j := by
  have hj8 : j / 8 < BSIZE := by
    simp only [BPB, BSIZE] at hj ⊢
    omega
  rw [isFree, clearBit, get_writeByte _ _ hj8]
  by_cases hij : j = i
  · subst hij
    simp [UInt8.and_assoc]
  · rw [if_neg hij]
    by_cases hbyte : j / 8 = i / 8
    · have hbit : i % 8 ≠ j % 8 := by omega
      rw [if_pos hbyte, UInt8.and_assoc, not_bitMask_and hbit, isFree, hbyte]
    · rw [if_neg hbyte, isFree]

variable {sb : Superblock} {disk : Nat → Block}

theorem BBLOCK_inj {b c : Nat} : BBLOCK c sb = BBLOCK b sb ↔ c / BPB = b / BPB := by
  simp [BBLOCK]

theorem mod_BPB_lt (b : Nat) : b % BPB < BPB := Nat.mod_lt _ (by decide)

theorem div_BPB (m : Nat) {i : Nat} (hi : i < BPB) : (BPB * m + i) / BPB = BPB * m / BPB := by
  simp only [BPB, BSIZE] at hi ⊢
  omega

theorem mod_BPB (m : Nat) {i : Nat} (hi : i < BPB) : (BPB * m + i) % BPB = i := by
  simp only [BPB, BSIZE] at hi ⊢
  omega

theorem eq_of_div_mod {b c : Nat} (h₁ : c / BPB = b / BPB) (h₂ : c % BPB = b % BPB) : c = b := by
  rw [← Nat.div_add_mod c BPB, h₁, h₂, Nat.div_add_mod]

theorem bitUsed_update {f : Block → Nat → Block} {v : Bool} (b : Nat)
    (hf : ∀ data {i j}, j < BPB → isFree (f data i) j = if j = i then !v else isFree data j) :
    bitUsed sb (Function.update disk (BBLOCK b sb) (f (disk (BBLOCK b sb)) (b % BPB))) =
      Function.update (bitUsed sb disk) b v := by
  funext c
  by_cases hblk : c / BPB = b / BPB
  · rw [bitUsed, BBLOCK_inj.mpr hblk, update_self, hf _ (mod_BPB_lt c)]
    by_cases hc : c = b
    · rw [hc, if_pos rfl, update_self, Bool.not_not]
    · rw [if_neg (fun h => hc (eq_of_div_mod hblk h)), update_of_ne hc, bitUsed,
        BBLOCK_inj.mpr hblk]
  · rw [bitUsed, update_of_ne (fun h => hblk (BBLOCK_inj.mp h)),
      update_of_ne (fun h => hblk (by rw [h])), bitUsed]

/-- The state after `balloc` has taken block `b`. -/
def allocBlock (s : FsState) (b : Nat) : FsState :=
  (s.put (BBLOCK b s.sb) (setBit (s.disk (BBLOCK b s.sb)) (b % BPB))).put b Bytes.zero

/-- The state after `bfree` of block `b`. -/
def freeBlock (s : FsState) (b : Nat) : FsState :=
  s.put (BBLOCK b s.sb) (clearBit (s.disk (BBLOCK b s.sb)) (b % BPB))

def outOfBlocks : Fault := .panic "balloc: out of blocks"

theorem ballocFrom_spec {s : FsState} {fuel m : Nat} (hfuel : s.sb.size / BPB < fuel + m)
    (hlow : ∀ c < BPB * m, c < s.sb.size → bitUsed s.sb s.disk c = true) :
    wp (ballocFrom fuel (BPB * m)) s
      (fun b s' => b < s.sb.size ∧ bitUsed s.sb s.disk b = false ∧
        (∀ c < b, bitUsed s.sb s.disk c = true) ∧ s' = allocBlock s b)
      (fun e => e = outOfBlocks ∧ ∀ c < s.sb.size, bitUsed s.sb s.disk c = true) := by
  induction fuel generalizing m with
  | zero =>
    refine ⟨rfl, fun c hc => hlow c ?_ hc⟩
    have := Nat.div_add_mod s.sb.size BPB
    have := mod_BPB_lt s.sb.size
    have : BPB * (s.sb.size / BPB + 1) ≤ BPB * m := Nat.mul_le_mul_left _ (by omega)
    rw [Nat.mul_add] at this
    omega
  | succ fuel ih =>
    simp only [ballocFrom, wp_bind, wp_getSb]
    have hbit : ∀ i < BPB, bitUsed s.sb s.disk (BPB * m + i) =
        !isFree (s.disk (BBLOCK (BPB * m) s.sb)) i := by
      intro i hi
      rw [bitUsed, BBLOCK_inj.mpr (div_BPB m hi), mod_BPB m hi]
    by_cases hsize : BPB * m < s.sb.size
    · rw [if_pos hsize]
      simp only [wp_bind, wp_bread]
      cases hfind : (List.range (min BPB (s.sb.size - BPB * m))).find?
          (isFree (s.disk (BBLOCK (BPB * m) s.sb))) with
      | some i =>
        obtain ⟨hfree, hi, hbefore⟩ := List.find?_range_eq_some.mp hfind
        have hlt := List.mem_range.mp hi
        have hi' : i < BPB := by omega
        refine ⟨by omega, ?_, ?_, ?_⟩
        · rw [hbit i hi', hfree]
          rfl
        · intro c hc
          by_cases hcm : c < BPB * m
          · exact hlow c hcm (by omega)
          · have hci := hbefore (c - BPB * m) (by omega)
            have hce : BPB * m + (c - BPB * m) = c := by omega
            rw [← hce, hbit _ (by omega)]
            exact hci
        · simp only [allocBlock, BBLOCK_inj.mpr (div_BPB m hi'), mod_BPB m hi']
      | none =>
        have hnext : BPB * m + BPB = BPB * (m + 1) := by rw [Nat.mul_add, Nat.mul_one]
        rw [List.find?_eq_none] at hfind
        simp only [hnext]
        apply ih (by omega)
        intro c hc hcs
        by_cases hcm : c < BPB * m
        · exact hlow c hcm hcs
        · have hfree := hfind (c - BPB * m) (List.mem_range.mpr (by omega))
          have hce : BPB * m + (c - BPB * m) = c := by omega
          rw [← hce, hbit _ (by omega)]
          simpa using hfree
    · rw [if_neg hsize]
      exact ⟨rfl, fun c hc => hlow c (by omega) hc⟩

theorem balloc_spec (s : FsState) :
    wp balloc s
      (fun b s' => b < s.sb.size ∧ bitUsed s.sb s.disk b = false ∧
        (∀ c < b, bitUsed s.sb s.disk c = true) ∧ s' = allocBlock s b)
      (fun e => e = outOfBlocks ∧ ∀ c < s.sb.size, bitUsed s.sb s.disk c = true) := by
  simp only [balloc, wp_bind, wp_getSb]
  exact ballocFrom_spec (m := 0) (by omega) (fun c hc => by omega)

/-- `bfree` of a used block does not panic. -/
theorem bfree_spec {s : FsState} {b : Nat} {E : Fault → Prop} (hsb : readsb (s.disk 1) = s.sb)
    (hb : bitUsed s.sb s.disk b = true) : wp (bfree b) s (fun _ s' => s' = freeBlock s b) E := by
  have hsame : { s with sb := readsb (s.disk 1) } = s := by rw [hsb]
  have hused : isFree (s.disk (BBLOCK b s.sb)) (b % BPB) = false := by simpa [bitUsed] using hb
  simp only [bfree, wp_bind, wp_bread, wp_modify, wp_getSb, hsame]
  simp [hsb, hused, freeBlock]

end Xv6.Fs
