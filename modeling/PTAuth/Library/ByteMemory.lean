import Mathlib.Data.Nat.Basic
import Mathlib.Tactic.Ring

/-!
# Byte memories with little-endian numbers

Memory maps addresses of a fixed width to bytes. `readLE` reads a number of `n` bytes, `writeLE`
stores one. A read depends only on the bytes it covers, a write changes only the bytes it covers,
and reading back what was written returns it reduced to the width.
-/

set_option autoImplicit false

namespace PTAuth.Library.ByteMemory

variable {w : Nat}

/-- Memory as a map from addresses to bytes. -/
abbrev ByteMem (w : Nat) := BitVec w → BitVec 8

/-- The number stored in the `n` bytes from `a` on, low byte first. -/
def readLE (m : ByteMem w) : BitVec w → Nat → Nat
  | _, 0 => 0
  | a, n + 1 => (m a).toNat + 256 * readLE m (a + 1) n

/-- Memory after the `n` low bytes of `v` are stored from `a` on. -/
def writeLE (m : ByteMem w) (a : BitVec w) (v n : Nat) : ByteMem w := fun x =>
  if (x - a).toNat < n then BitVec.ofNat 8 (v / 256 ^ (x - a).toNat) else m x

theorem readLE_lt (m : ByteMem w) (a : BitVec w) (n : Nat) : readLE m a n < 256 ^ n := by
  induction n generalizing a with
  | zero => simp [readLE]
  | succ n ih =>
      have hbyte := (m a).isLt
      have htail := ih (a + 1)
      rw [readLE, Nat.pow_succ]
      omega

/-- The low byte of a number is the byte at its address. -/
theorem readLE_mod (m : ByteMem w) (a : BitVec w) (n : Nat) :
    readLE m a (n + 1) % 256 = (m a).toNat := by
  have hbyte := (m a).isLt
  rw [readLE]
  omega

/-- Stepping to the next address and then `i` further is stepping `i + 1` further. -/
theorem add_one_add_ofNat (a : BitVec w) (i : Nat) :
    a + BitVec.ofNat w (i + 1) = a + 1 + BitVec.ofNat w i := by
  rw [BitVec.ofNat_add, BitVec.add_assoc]
  exact congrArg (a + ·) (BitVec.add_comm _ _)

/-- A read depends only on the bytes it covers. -/
theorem readLE_congr {m m' : ByteMem w} {a : BitVec w} {n : Nat}
    (h : ∀ i < n, m (a + BitVec.ofNat w i) = m' (a + BitVec.ofNat w i)) :
    readLE m a n = readLE m' a n := by
  induction n generalizing a with
  | zero => rfl
  | succ n ih =>
      have hhead : m a = m' a := by simpa using h 0 (by omega)
      have htail : readLE m (a + 1) n = readLE m' (a + 1) n := by
        apply ih
        intro i hi
        have hstep := h (i + 1) (by omega)
        rwa [add_one_add_ofNat] at hstep
      rw [readLE, readLE, hhead, htail]

/-- A write changes only the bytes it covers. -/
theorem writeLE_of_outside {m : ByteMem w} {a x : BitVec w} {v n : Nat}
    (h : n ≤ (x - a).toNat) : writeLE m a v n x = m x :=
  if_neg (by omega)

theorem writeLE_at {m : ByteMem w} {a : BitVec w} {v n i : Nat} (hi : i < n) (hn : n ≤ 2 ^ w) :
    writeLE m a v n (a + BitVec.ofNat w i) = BitVec.ofNat 8 (v / 256 ^ i) := by
  have hsub : (a + BitVec.ofNat w i - a).toNat = i := by
    rw [BitVec.add_comm, BitVec.add_sub_cancel, BitVec.toNat_ofNat, Nat.mod_eq_of_lt (by omega)]
  rw [writeLE, hsub, if_pos hi]

/-- A memory that holds the bytes of `v` reads as `v`, reduced to the width. -/
theorem readLE_of_bytes {m : ByteMem w} {a : BitVec w} {v n : Nat}
    (h : ∀ i < n, m (a + BitVec.ofNat w i) = BitVec.ofNat 8 (v / 256 ^ i)) :
    readLE m a n = v % 256 ^ n := by
  induction n generalizing a v with
  | zero => simp [readLE, Nat.mod_one]
  | succ n ih =>
      have hhead : m a = BitVec.ofNat 8 v := by simpa using h 0 (by omega)
      have htail : readLE m (a + 1) n = v / 256 % 256 ^ n := by
        apply ih
        intro i hi
        have hstep := h (i + 1) (by omega)
        rwa [add_one_add_ofNat, Nat.pow_succ, Nat.mul_comm, ← Nat.div_div_eq_div_mul] at hstep
      have hpow : 256 ^ (n + 1) = 256 * 256 ^ n := by rw [Nat.pow_succ, Nat.mul_comm]
      rw [readLE, hhead, htail, BitVec.toNat_ofNat, hpow, Nat.mod_mul]

/-- Reading back a stored number. -/
theorem readLE_writeLE (m : ByteMem w) (a : BitVec w) (v : Nat) {n : Nat} (hn : n ≤ 2 ^ w) :
    readLE (writeLE m a v n) a n = v % 256 ^ n :=
  readLE_of_bytes fun _ hi => writeLE_at hi hn

end PTAuth.Library.ByteMemory
