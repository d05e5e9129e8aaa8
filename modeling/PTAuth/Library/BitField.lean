import Mathlib.Data.Nat.Bitwise
import Mathlib.Algebra.Order.Ring.Nat

/-!
# Bit fields of fixed-width words

A word of width `w` is split at bit `n` into the low field `x &&& lowMask w n` and the rest. The
lemmas read masks, shifts and the or of two disjoint fields as remainder, quotient and sum of the
unsigned values, so that a proof about packed words continues in linear arithmetic. Exclusive or
stays opaque; it is only bounded and cancelled.
-/

set_option autoImplicit false

namespace PTAuth.Library.BitField

variable {w : Nat}

/-- The word whose low `n` bits are set. -/
def lowMask (w n : Nat) : BitVec w := BitVec.ofNat w (2 ^ n - 1)

theorem lowMask_lt {n : Nat} (hn : n ≤ w) : 2 ^ n - 1 < 2 ^ w := by
  have hle : 2 ^ n ≤ 2 ^ w := Nat.pow_le_pow_right (by omega) hn
  have hpos : 0 < 2 ^ n := Nat.two_pow_pos n
  omega

/-- Masking with the low bits is the remainder. -/
theorem toNat_and_lowMask {n : Nat} (hn : n ≤ w) (x : BitVec w) :
    (x &&& lowMask w n).toNat = x.toNat % 2 ^ n := by
  rw [BitVec.toNat_and, lowMask, BitVec.toNat_ofNat, Nat.mod_eq_of_lt (lowMask_lt hn),
    Nat.and_two_pow_sub_one_eq_mod]

/-- A word below `2 ^ n` is its own low field. -/
theorem and_lowMask_of_lt {n : Nat} (hn : n ≤ w) {x : BitVec w} (hx : x.toNat < 2 ^ n) :
    x &&& lowMask w n = x := by
  apply BitVec.eq_of_toNat_eq
  rw [toNat_and_lowMask hn, Nat.mod_eq_of_lt hx]

/-- Bit `i` of the complement of the low mask. -/
theorem getLsbD_not_lowMask {n : Nat} (i : Nat) :
    (~~~ lowMask w n).getLsbD i = (decide (i < w) && decide (n ≤ i)) := by
  rw [BitVec.getLsbD_not, lowMask, BitVec.getLsbD_ofNat, Nat.testBit_two_pow_sub_one]
  by_cases hi : i < w
  · by_cases hni : n ≤ i
    · have : ¬ i < n := by omega
      simp [hi, hni, this]
    · have : i < n := by omega
      simp [hi, hni, this]
  · simp [hi]

/-- Clearing the low field does not change what a shift past it sees. -/
theorem and_not_lowMask_ushiftRight {n m : Nat} (hm : n ≤ m) (x : BitVec w) :
    (x &&& ~~~ lowMask w n) >>> m = x >>> m := by
  ext i hi
  rw [BitVec.getElem_ushiftRight, BitVec.getElem_ushiftRight, BitVec.getLsbD_and,
    getLsbD_not_lowMask]
  by_cases hmi : m + i < w
  · have : n ≤ m + i := by omega
    simp [hmi, this]
  · simp [BitVec.getLsbD_of_ge x (m + i) (by omega)]

/-- The high field is zero exactly when the word is below `2 ^ n`. -/
theorem and_not_lowMask_eq_zero_iff {n : Nat} (x : BitVec w) :
    x &&& ~~~ lowMask w n = 0 ↔ x.toNat < 2 ^ n := by
  constructor
  · intro h
    have hshift : x >>> n = 0 := by
      rw [← and_not_lowMask_ushiftRight (Nat.le_refl n) x, h]
      simp
    have hdiv : x.toNat / 2 ^ n = 0 := by
      have := congrArg BitVec.toNat hshift
      simpa [Nat.shiftRight_eq_div_pow] using this
    have hmod := Nat.mod_add_div x.toNat (2 ^ n)
    have hlt := Nat.mod_lt x.toNat (Nat.two_pow_pos n)
    rw [hdiv] at hmod
    omega
  · intro h
    apply BitVec.eq_of_getLsbD_eq
    intro i hi
    rw [BitVec.getLsbD_and, getLsbD_not_lowMask]
    by_cases hni : n ≤ i
    · have hbit : x.getLsbD i = false :=
        Nat.testBit_lt_two_pow (Nat.lt_of_lt_of_le h (Nat.pow_le_pow_right (by omega) hni))
      simp [hbit]
    · simp [hni]

/-- Or-ing a field above bit `m` into a word below `2 ^ m` adds it. -/
theorem toNat_or_shiftLeft {m k : Nat} (hm : m + k ≤ w) {x t : BitVec w}
    (hx : x.toNat < 2 ^ m) (ht : t.toNat < 2 ^ k) :
    (x ||| (t <<< m)).toNat = x.toNat + t.toNat * 2 ^ m := by
  have hlt : t.toNat * 2 ^ m < 2 ^ w := by
    calc t.toNat * 2 ^ m < 2 ^ k * 2 ^ m := Nat.mul_lt_mul_of_pos_right ht (Nat.two_pow_pos m)
      _ = 2 ^ (m + k) := by rw [← pow_add, Nat.add_comm]
      _ ≤ 2 ^ w := Nat.pow_le_pow_right (by omega) hm
  rw [BitVec.toNat_or, BitVec.toNat_shiftLeft, Nat.shiftLeft_eq, Nat.mod_eq_of_lt hlt,
    Nat.or_comm, Nat.mul_comm, ← Nat.two_pow_add_eq_or_of_lt hx, Nat.add_comm]

/-- The exclusive or of two remainders fits the same field. -/
theorem xor_mod_lt (a b n : Nat) : (a % 2 ^ n) ^^^ (b % 2 ^ n) < 2 ^ n :=
  Nat.xor_lt_two_pow (Nat.mod_lt _ (Nat.two_pow_pos n)) (Nat.mod_lt _ (Nat.two_pow_pos n))

/-- Exclusive or with a fixed left argument is injective. -/
theorem xor_left_cancel {a b c : Nat} (h : a ^^^ b = a ^^^ c) : b = c :=
  Nat.xor_right_injective h

end PTAuth.Library.BitField
