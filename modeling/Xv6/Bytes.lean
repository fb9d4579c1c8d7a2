import Mathlib.Tactic.Ring
import Mathlib.Tactic.SplitIfs

/-!
# Byte buffers, little-endian words and C strings

`Bytes n` is a buffer of `n` bytes, read at any position with `get` (zero past the end). `write`
copies bytes into a range, `word` reads a little-endian unsigned word of `k` bytes and `setWord`
stores one. The lemmas say what a read sees after a write to the same range or to a disjoint one.
A C string is the list of its bytes; `cstr` is how it stands in memory, and `text` reads it there.
-/

namespace Xv6

def Bytes (n : Nat) := Fin n → UInt8

/-- The little-endian number spelled by the `k` bytes of `f` from `off` on. -/
def leWord (f : Nat → UInt8) : Nat → Nat → Nat
  | _, 0 => 0
  | off, k + 1 => (f off).toNat + 256 * leWord f (off + 1) k

/-- Byte `i` of the little-endian representation of `v`. -/
def leByte (v i : Nat) : UInt8 := UInt8.ofNat (v / 256 ^ i)

/-- The byte of a character. -/
abbrev ch (c : Char) : UInt8 := UInt8.ofNat c.toNat

abbrev newline : UInt8 := 10

/-- The bytes of a C string, NUL from its end on. -/
def cstr (s : List UInt8) (i : Nat) : UInt8 := s.getD i 0

/-- The string at `f + i`, read up to its NUL and for at most `n` bytes. -/
def text (f : Nat → UInt8) : Nat → Nat → List UInt8
  | _, 0 => []
  | i, n + 1 => if f i = 0 then [] else f i :: text f (i + 1) n

theorem text_nul {f : Nat → UInt8} {i : Nat} (h : f i = 0) (n : Nat) : text f i n = [] := by
  cases n with
  | zero => rfl
  | succ n => exact if_pos h

theorem text_char {f : Nat → UInt8} {i : Nat} (h : f i ≠ 0) (n : Nat) :
    text f i (n + 1) = f i :: text f (i + 1) n :=
  if_neg h

theorem leWord_congr {f g : Nat → UInt8} {off k : Nat}
    (h : ∀ i, off ≤ i → i < off + k → f i = g i) : leWord f off k = leWord g off k := by
  induction k generalizing off with
  | zero => rfl
  | succ k ih =>
    simp only [leWord]
    rw [h off le_rfl (by omega), ih (fun i h₁ h₂ => h i (by omega) (by omega))]

theorem leWord_lt (f : Nat → UInt8) (off k : Nat) : leWord f off k < 256 ^ k := by
  induction k generalizing off with
  | zero => simp [leWord]
  | succ k ih =>
    have hb := (f off).toNat_lt
    have hr := ih (off + 1)
    simp only [leWord, pow_succ]
    omega

theorem leWord_leByte {f : Nat → UInt8} {off k v : Nat}
    (h : ∀ i < k, f (off + i) = leByte v i) : leWord f off k = v % 256 ^ k := by
  induction k generalizing off v with
  | zero => simp [leWord, Nat.mod_one]
  | succ k ih =>
    have htail : ∀ i < k, f (off + 1 + i) = leByte (v / 256) i := by
      intro i hi
      have := h (i + 1) (by omega)
      rw [show off + 1 + i = off + (i + 1) by ring, this]
      simp only [leByte, pow_succ', Nat.div_div_eq_div_mul]
    have hhead : (f off).toNat = v % 256 := by
      have := h 0 (by omega)
      simp only [Nat.add_zero] at this
      simp [this, leByte]
    rw [leWord, ih htail, hhead, pow_succ', Nat.mod_mul]

namespace Bytes

variable {n : Nat}

def get (b : Bytes n) (i : Nat) : UInt8 := if h : i < n then b ⟨i, h⟩ else 0

def ofFn (f : Nat → UInt8) : Bytes n := fun i => f i

def zero : Bytes n := ofFn (fun _ => 0)

/-- `memmove` of `m` bytes of `src` to offset `off`. -/
def write (b : Bytes n) (off : Nat) (src : Nat → UInt8) (m : Nat) : Bytes n :=
  ofFn (fun i => if off ≤ i ∧ i < off + m then src (i - off) else b.get i)

def word (b : Bytes n) (off k : Nat) : Nat := leWord b.get off k

def setWord (b : Bytes n) (off k v : Nat) : Bytes n := b.write off (leByte v) k

theorem get_ofFn (f : Nat → UInt8) {i : Nat} (h : i < n) : (ofFn f : Bytes n).get i = f i := by
  simp [get, ofFn, h]

theorem get_of_le (b : Bytes n) {i : Nat} (h : n ≤ i) : b.get i = 0 := by
  simp [get, Nat.not_lt.mpr h]

@[simp] theorem get_zero (i : Nat) : (zero : Bytes n).get i = 0 := by
  by_cases h : i < n
  · exact get_ofFn _ h
  · exact get_of_le _ (Nat.not_lt.mp h)

theorem ext_get {a b : Bytes n} (h : ∀ i < n, a.get i = b.get i) : a = b := by
  funext i
  have hi := h i i.isLt
  simpa [get] using hi

theorem get_write_in (b : Bytes n) {off m i : Nat} (src : Nat → UInt8) (h₁ : off ≤ i)
    (h₂ : i < off + m) (hi : i < n) : (b.write off src m).get i = src (i - off) := by
  rw [write, get_ofFn _ hi, if_pos ⟨h₁, h₂⟩]

theorem get_write_out (b : Bytes n) {off m i : Nat} (src : Nat → UInt8)
    (h : i < off ∨ off + m ≤ i) : (b.write off src m).get i = b.get i := by
  by_cases hi : i < n
  · rw [write, get_ofFn _ hi, if_neg (by omega)]
  · rw [get_of_le _ (by omega), get_of_le _ (by omega)]

theorem word_congr {a b : Bytes n} {off k : Nat}
    (h : ∀ i, off ≤ i → i < off + k → a.get i = b.get i) : a.word off k = b.word off k :=
  leWord_congr h

theorem word_lt (b : Bytes n) (off k : Nat) : b.word off k < 256 ^ k := leWord_lt _ _ _

theorem word_zero (off k : Nat) : (zero : Bytes n).word off k = 0 := by
  induction k generalizing off with
  | zero => rfl
  | succ k ih =>
    have h := ih (off + 1)
    simp only [word] at h
    simp [word, leWord, h]

theorem word_write_out (b : Bytes n) {off m off' k : Nat} (src : Nat → UInt8)
    (h : off' + k ≤ off ∨ off + m ≤ off') : (b.write off src m).word off' k = b.word off' k :=
  word_congr (fun i h₁ h₂ => get_write_out b src (by omega))

theorem word_write_in (b : Bytes n) {off m i k v : Nat} (src : Nat → UInt8) (hn : off + m ≤ n)
    (hi : i + k ≤ m) (h : ∀ j < k, src (i + j) = leByte v j) :
    (b.write off src m).word (off + i) k = v % 256 ^ k := by
  apply leWord_leByte
  intro j hj
  rw [get_write_in b _ (by omega) (by omega) (by omega), ← h j hj]
  congr 1
  omega

theorem word_setWord_same (b : Bytes n) {off k : Nat} (v : Nat) (h : off + k ≤ n) :
    (b.setWord off k v).word off k = v % 256 ^ k :=
  word_write_in b (leByte v) h (Nat.le_of_eq (Nat.zero_add k)) (fun j _ => by rw [Nat.zero_add])

theorem word_setWord_out (b : Bytes n) {off k off' k' : Nat} (v : Nat)
    (h : off' + k' ≤ off ∨ off + k ≤ off') : (b.setWord off k v).word off' k' = b.word off' k' :=
  word_write_out b _ h

attribute [irreducible] word

end Bytes

end Xv6
