import PTAuth.Library.BitField

/-!
# Software pointer authentication (`config.h`, `pacinst.c`)

The compile-time switches of `config.h` that the software build reads, and the three functions of
`pacinst.c` built with `PACENABLED` 0. The signature is the exclusive or of the low bits of address
and id, stored above bit `SHIFT`. `__autia` reports failure by the null pointer. The `type`
character only selects a debug message, which `DEBUG` 0 removes, and is left out.

`autia_eq` is the only fact about the bit operations that later modules use: authentication is the
comparison of the bits above `SHIFT` with the tag recomputed from address and id.
-/

set_option autoImplicit false

namespace PTAuth.Runtime

open PTAuth.Library.BitField

/-- A machine word: a pointer value, an address, or an `unsigned long`. -/
abbrev Word := BitVec 64

/-- The switches of `config.h` that change the behaviour of the software build. -/
structure Config where
  topByteIgnore : Bool
  enableLog : Bool
  bkThreasholdEnabled : Bool
  deriving DecidableEq, Repr

/-- `config.h` as it stands in the repository. -/
def Config.shipped : Config where
  topByteIgnore := true
  enableLog := true
  bkThreasholdEnabled := true

/-- `SHIFT`. -/
def Config.shift (cfg : Config) : Nat := if cfg.topByteIgnore then 56 else 48

/-- `MASKHIGHBIT`: the sixteen bits above the address. -/
def maskHighBit : Word := 0xFFFF000000000000#64

/-- `MASKLOWBIT`: the 48 address bits. -/
def maskLowBit : Word := 0x0000FFFFFFFFFFFF#64

/-- `MASK7BITS`: eight bits with Top-Byte Ignore, seven without. -/
def Config.mask7Bits (cfg : Config) : Word := if cfg.topByteIgnore then 0xFF#64 else 0x7F#64

/-- `__xpac`: strip everything above the address. -/
def xpac (ptr : Word) : Word := ptr &&& maskLowBit

/-- `__pacia`: sign `ptr` with `id`. -/
def pacia (cfg : Config) (ptr id : Word) : Word :=
  let ptrbits7 := ptr &&& cfg.mask7Bits
  let idbits7 := id &&& cfg.mask7Bits
  let signature := ptrbits7 ^^^ idbits7
  let signature := signature <<< cfg.shift
  ptr ||| signature

/-- `__autia`: the stripped pointer if `ptr` carries the signature of its address under `id`, and
null otherwise. -/
def autia (cfg : Config) (ptr id : Word) : Word :=
  let signature := ptr &&& ~~~ maskLowBit
  let signature := signature >>> cfg.shift
  let xpacedPtr := xpac ptr
  let ptrWithSign := pacia cfg xpacedPtr id
  let signatureptrWithSign := ptrWithSign &&& ~~~ maskLowBit
  let shiftedSignature := signatureptrWithSign >>> cfg.shift
  if shiftedSignature = signature then xpacedPtr else 0

/-! ## Stripping -/

theorem maskLowBit_eq : maskLowBit = lowMask 64 48 := rfl

theorem not_maskHighBit : ~~~ maskHighBit = maskLowBit := by decide

theorem xpac_toNat (ptr : Word) : (xpac ptr).toNat = ptr.toNat % 2 ^ 48 := by
  rw [xpac, maskLowBit_eq, toNat_and_lowMask (by omega)]

theorem xpac_lt (ptr : Word) : (xpac ptr).toNat < 2 ^ 48 := by
  rw [xpac_toNat]
  exact Nat.mod_lt _ (by omega)

/-- An address is its own stripped form. -/
theorem xpac_of_lt {p : Word} (hp : p.toNat < 2 ^ 48) : xpac p = p := by
  rw [xpac, maskLowBit_eq, and_lowMask_of_lt (by omega) hp]

/-- The `signature` gate of the checks: some bit above bit 47 is set. -/
theorem signature_eq_zero_iff (ptr : Word) : ptr &&& ~~~ maskLowBit = 0 ↔ ptr.toNat < 2 ^ 48 := by
  rw [maskLowBit_eq]
  exact and_not_lowMask_eq_zero_iff ptr

/-! ## Signing and authenticating -/

/-- The number of signature bits. -/
def Config.tagWidth (cfg : Config) : Nat := if cfg.topByteIgnore then 8 else 7

theorem Config.mask7Bits_eq (cfg : Config) : cfg.mask7Bits = lowMask 64 cfg.tagWidth := by
  cases h : cfg.topByteIgnore <;> simp [Config.mask7Bits, Config.tagWidth, h] <;> decide

theorem Config.tagWidth_le (cfg : Config) : cfg.tagWidth ≤ 8 := by
  cases h : cfg.topByteIgnore <;> simp [Config.tagWidth, h]

theorem Config.shift_bounds (cfg : Config) :
    48 ≤ cfg.shift ∧ cfg.shift + cfg.tagWidth ≤ 64 := by
  cases h : cfg.topByteIgnore <;> simp [Config.shift, Config.tagWidth, h]

/-- The tag of address `a` under `id`, as a number. -/
def Config.tag (cfg : Config) (a id : Nat) : Nat :=
  (a % 2 ^ cfg.tagWidth) ^^^ (id % 2 ^ cfg.tagWidth)

theorem Config.tag_lt (cfg : Config) (a id : Nat) : cfg.tag a id < 2 ^ cfg.tagWidth :=
  xor_mod_lt a id cfg.tagWidth

/-- Two ids give one address the same tag exactly when they agree on the tag bits. -/
theorem Config.tag_inj_iff (cfg : Config) (a id id' : Nat) :
    cfg.tag a id = cfg.tag a id' ↔ id % 2 ^ cfg.tagWidth = id' % 2 ^ cfg.tagWidth := by
  constructor
  · exact fun h => xor_left_cancel h
  · intro h
    rw [Config.tag, Config.tag, h]

/-- The signature `__pacia` computes, before it is shifted. -/
theorem signature_toNat (cfg : Config) (ptr id : Word) :
    ((ptr &&& cfg.mask7Bits) ^^^ (id &&& cfg.mask7Bits)).toNat = cfg.tag ptr.toNat id.toNat := by
  have hw : cfg.tagWidth ≤ 64 := by have := cfg.tagWidth_le; omega
  rw [BitVec.toNat_xor, cfg.mask7Bits_eq, toNat_and_lowMask hw, toNat_and_lowMask hw, Config.tag]

/-- Signing an address puts the tag above bit `SHIFT` and keeps the address below. -/
theorem pacia_toNat (cfg : Config) {p : Word} (hp : p.toNat < 2 ^ 48) (id : Word) :
    (pacia cfg p id).toNat = p.toNat + cfg.tag p.toNat id.toNat * 2 ^ cfg.shift := by
  have hshift := cfg.shift_bounds
  have hp' : p.toNat < 2 ^ cfg.shift :=
    Nat.lt_of_lt_of_le hp (Nat.pow_le_pow_right (by omega) hshift.1)
  have htag : ((p &&& cfg.mask7Bits) ^^^ (id &&& cfg.mask7Bits)).toNat < 2 ^ cfg.tagWidth := by
    rw [signature_toNat]
    exact cfg.tag_lt _ _
  rw [pacia, toNat_or_shiftLeft hshift.2 hp' htag, signature_toNat]

/-- The bits above `SHIFT` are the tag of the address under `id`. -/
def Authentic (cfg : Config) (ptr id : Word) : Prop :=
  ptr.toNat / 2 ^ cfg.shift = cfg.tag ptr.toNat id.toNat

instance (cfg : Config) (ptr id : Word) : Decidable (Authentic cfg ptr id) :=
  inferInstanceAs (Decidable (_ = _))

theorem Config.tag_xpac (cfg : Config) (ptr : Word) (id : Nat) :
    cfg.tag (xpac ptr).toNat id = cfg.tag ptr.toNat id := by
  have hdvd : 2 ^ cfg.tagWidth ∣ 2 ^ 48 := pow_dvd_pow 2 (by have := cfg.tagWidth_le; omega)
  rw [Config.tag, Config.tag, xpac_toNat, Nat.mod_mod_of_dvd _ hdvd]

/-- **What `__autia` decides.** -/
theorem autia_eq (cfg : Config) (ptr id : Word) :
    autia cfg ptr id = if Authentic cfg ptr id then xpac ptr else 0 := by
  have hshift := cfg.shift_bounds
  have hpos : 0 < 2 ^ cfg.shift := Nat.two_pow_pos _
  have hx : (xpac ptr).toNat < 2 ^ cfg.shift :=
    Nat.lt_of_lt_of_le (xpac_lt ptr) (Nat.pow_le_pow_right (by omega) hshift.1)
  have hcond : (pacia cfg (xpac ptr) id &&& ~~~ maskLowBit) >>> cfg.shift
        = (ptr &&& ~~~ maskLowBit) >>> cfg.shift ↔ Authentic cfg ptr id := by
    rw [maskLowBit_eq, and_not_lowMask_ushiftRight hshift.1, and_not_lowMask_ushiftRight hshift.1,
      ← BitVec.toNat_inj, BitVec.toNat_ushiftRight, BitVec.toNat_ushiftRight,
      Nat.shiftRight_eq_div_pow, Nat.shiftRight_eq_div_pow, pacia_toNat cfg (xpac_lt ptr),
      Nat.add_mul_div_right _ _ hpos, Nat.div_eq_of_lt hx, Nat.zero_add, cfg.tag_xpac, Authentic]
    exact eq_comm
  simp only [autia, hcond]

theorem autia_of_authentic {cfg : Config} {ptr id : Word} (h : Authentic cfg ptr id) :
    autia cfg ptr id = xpac ptr := by
  rw [autia_eq, if_pos h]

/-- At a non-zero address, `__autia` is non-null exactly on authentic pointers. -/
theorem autia_ne_zero_iff (cfg : Config) {ptr : Word} (hx : xpac ptr ≠ 0) (id : Word) :
    autia cfg ptr id ≠ 0 ↔ Authentic cfg ptr id := by
  rw [autia_eq]
  by_cases h : Authentic cfg ptr id
  · simpa [h] using hx
  · simp [h]

/-- At a non-zero address, `__autia` returns the stripped pointer exactly on authentic ones. -/
theorem autia_eq_xpac_iff (cfg : Config) {ptr : Word} (hx : xpac ptr ≠ 0) (id : Word) :
    autia cfg ptr id = xpac ptr ↔ Authentic cfg ptr id := by
  rw [autia_eq]
  by_cases h : Authentic cfg ptr id
  · simp [h]
  · simpa [h] using Ne.symm hx

end PTAuth.Runtime
