import PTAuth.Runtime.Search
import PTAuth.Library.ByteMemory

/-!
# The allocation functions (`ptauth-rtlib.c`)

`initMD`, `__ptauth_malloc`, `__ptauth_calloc`, `__ptauth_realloc` and `__ptauth_free` over byte
memory. The underlying allocator is a parameter: it is given the request and the memory, and answers
with a pointer and the memory it leaves. `time(0)` and the two results of `rand` are inputs of
`initMD`. A store through the null pointer faults.

`__ptauth_free` tests its violation flag on bits above bit 47, but `__autia` signals failure by
null, which has none: the violation exit is dead code (`ptauthFree_of_ne_zero`), and a failed
authentication still writes the tombstone and calls `free` (`free_all_or_nothing_iff`).
-/

set_option autoImplicit false

namespace PTAuth.Runtime

open PTAuth.Library.ByteMemory

/-- Byte memory of the process. -/
abbrev Mem := ByteMem 64

/-- The `unsigned long` at `a`. -/
def readWord (m : Mem) (a : Word) : Word := BitVec.ofNat 64 (readLE m a 8)

/-- Memory after an `unsigned long` is stored at `a`. -/
def writeWord (m : Mem) (a v : Word) : Mem := writeLE m a v.toNat 8

/-- What the library calls in one run of `initMD` return: `time(0)`, then `rand()` twice. -/
structure Draw where
  time : Word
  rand1 : BitVec 31
  rand2 : BitVec 31
  deriving DecidableEq, Repr

/-- The id `initMD` computes from its two random numbers. -/
def drawId (d : Draw) : Word :=
  let num : Word := d.rand1.setWidth 64
  let num := (num <<< 32) ||| d.rand2.setWidth 64
  (num % (999999999 - 100000000)) + 100000000

/-- `initMD`: store the id in the header. -/
def initMD (d : Draw) (metaPtr : Word) (m : Mem) : Option Mem :=
  if metaPtr = 0 then none else some (writeWord m metaPtr (drawId d))

/-- How an allocation function ends. -/
inductive AllocOutcome where
  | exited (code : Nat)
  | faulted
  | returned (ptr : Word) (mem : Mem)

/-- What the underlying allocator answers. -/
structure Answer where
  ptr : Word
  mem : Mem

/-- The common tail of the three allocation functions: initialise the header, read the id back and
sign the address behind it. -/
def initAndSign (cfg : Config) (d : Draw) (ans : Answer) : AllocOutcome :=
  match initMD d ans.ptr ans.mem with
  | none => .faulted
  | some m =>
      let id := readWord m ans.ptr
      let retPtr := ans.ptr + 8
      .returned (pacia cfg retPtr id) m

/-- `__ptauth_malloc`; `tbi` is the result of `checkTBI`. -/
def ptauthMalloc (cfg : Config) (tbi : Bool) (malloc : Word → Mem → Answer) (d : Draw)
    (size : Word) (m : Mem) : AllocOutcome :=
  if !tbi then .exited 1
  else
    let allocSize := size + 8
    initAndSign cfg d (malloc allocSize m)

/-- `__ptauth_calloc`. -/
def ptauthCalloc (cfg : Config) (tbi : Bool) (calloc : Word → Word → Mem → Answer) (d : Draw)
    (item sizeBlock : Word) (m : Mem) : AllocOutcome :=
  if !tbi then .exited 1
  else initAndSign cfg d (calloc item (sizeBlock + 8) m)

/-- `__ptauth_realloc`. A block that did not move keeps its pointer. -/
def ptauthRealloc (cfg : Config) (tbi : Bool) (realloc : Word → Word → Mem → Answer) (d : Draw)
    (ptr size : Word) (m : Mem) : AllocOutcome :=
  if !tbi then .exited 1
  else
    let placeholderptr := ptr
    let ptr := ptr &&& ~~~ maskHighBit
    let ans := realloc (ptr - 8) size m
    if ptr - 8 ≠ ans.ptr then initAndSign cfg d ans
    else .returned placeholderptr ans.mem

/-- How `__ptauth_free` ends: nothing to do, the violation exit, or a call of the underlying `free`
with the given argument, over the given memory. -/
inductive FreeOutcome where
  | ignored
  | violation
  | freed (arg : Word) (mem : Mem)

/-- `__ptauth_free`. -/
def ptauthFree (cfg : Config) (m : Mem) (ptr : Word) : FreeOutcome :=
  if ptr = 0 then .ignored
  else
    let metaPtr := (ptr - 8) &&& ~~~ maskHighBit
    let id := readWord m metaPtr
    let ptr := autia cfg ptr id
    let ptrViolation := ptr &&& ~~~ maskLowBit
    if ptrViolation ≠ 0 then .violation
    else .freed (ptr - 8) (writeWord m metaPtr 2)

/-! ## Words in memory -/

theorem readWord_writeWord (m : Mem) (a v : Word) : readWord (writeWord m a v) a = v := by
  apply BitVec.eq_of_toNat_eq
  have hv := v.isLt
  rw [readWord, writeWord, readLE_writeLE m a v.toNat (by decide), BitVec.toNat_ofNat]
  omega

/-- A word depends only on its eight bytes. -/
theorem readWord_congr {m m' : Mem} {a : Word}
    (h : ∀ i < 8, m (a + BitVec.ofNat 64 i) = m' (a + BitVec.ofNat 64 i)) :
    readWord m a = readWord m' a := by
  rw [readWord, readWord, readLE_congr h]

/-- The low byte of a word is the byte at its address. -/
theorem readWord_mod (m : Mem) (a : Word) : (readWord m a).toNat % 256 = (m a).toNat := by
  have hlt := readLE_lt m a 8
  have hmod : readLE m a 8 % 256 = (m a).toNat := readLE_mod m a 7
  rw [readWord, BitVec.toNat_ofNat]
  omega

/-- Bytes outside the eight written ones are kept. -/
theorem writeWord_of_outside {m : Mem} {a x v : Word} (h : 8 ≤ (x - a).toNat) :
    writeWord m a v x = m x :=
  writeLE_of_outside h

/-! ## Ids -/

theorem drawId_eq (d : Draw) :
    (drawId d).toNat = (d.rand1.toNat * 2 ^ 32 + d.rand2.toNat) % 899999999 + 100000000 := by
  have h1 := d.rand1.isLt
  have h2 := d.rand2.isLt
  have hor : ((d.rand1.setWidth 64 <<< 32) ||| d.rand2.setWidth 64 : Word).toNat
      = d.rand1.toNat * 2 ^ 32 + d.rand2.toNat := by
    have hr2 : (d.rand2.setWidth 64 : Word).toNat = d.rand2.toNat := by
      rw [BitVec.toNat_setWidth]
      omega
    have hr1 : (d.rand1.setWidth 64 : Word).toNat = d.rand1.toNat := by
      rw [BitVec.toNat_setWidth]
      omega
    rw [BitVec.or_comm, PTAuth.Library.BitField.toNat_or_shiftLeft (m := 32) (k := 31) (by omega)
      (by omega) (by omega), hr1, hr2]
    omega
  rw [drawId, BitVec.toNat_add, BitVec.toNat_umod, hor]
  simp only [BitVec.reduceToNat, BitVec.reduceSub]
  omega

/-- Ids are at least 100000000, so never zero and never the tombstone. -/
theorem drawId_ne_zero (d : Draw) : drawId d ≠ 0 := by
  intro h
  have := congrArg BitVec.toNat h
  rw [drawId_eq] at this
  simp at this

/-! ## Allocation -/

theorem initAndSign_of_ne_zero (cfg : Config) (d : Draw) {ans : Answer} (h : ans.ptr ≠ 0) :
    initAndSign cfg d ans =
      .returned (pacia cfg (ans.ptr + 8) (drawId d)) (writeWord ans.mem ans.ptr (drawId d)) := by
  simp only [initAndSign, initMD, if_neg h, readWord_writeWord]

/-! ## Freeing -/

/-- `__autia` never sets a bit above bit 47, so the violation exit is never taken. -/
theorem autia_signature (cfg : Config) (ptr id : Word) :
    autia cfg ptr id &&& ~~~ maskLowBit = 0 := by
  rw [signature_eq_zero_iff, autia_eq]
  split
  · exact xpac_lt ptr
  · decide

/-- **`__ptauth_free` always frees.** -/
theorem ptauthFree_of_ne_zero (cfg : Config) (m : Mem) {ptr : Word} (h : ptr ≠ 0) :
    ptauthFree cfg m ptr =
      .freed (autia cfg ptr (readWord m (headerBelow ptr)) - 8)
        (writeWord m (headerBelow ptr) 2) := by
  rw [ptauthFree, if_neg h]
  exact if_neg (not_not.2 (autia_signature cfg ptr _))

/-- Freeing is all or nothing: a failed authentication takes the violation exit, and a successful
one frees exactly the stripped `ptr - 8`. -/
def FreeAllOrNothing (cfg : Config) (m : Mem) (ptr : Word) : Prop :=
  (autia cfg ptr (readWord m (headerBelow ptr)) = 0 → ptauthFree cfg m ptr = .violation) ∧
    (autia cfg ptr (readWord m (headerBelow ptr)) ≠ 0 →
      ∃ m', ptauthFree cfg m ptr = .freed (headerBelow ptr) m')

/-- **When freeing is all or nothing.** Exactly when `ptr` authenticates against the word below it
and its address leaves room for a header: every pointer that fails to authenticate is freed all the
same. -/
theorem free_all_or_nothing_iff (cfg : Config) (m : Mem) {ptr : Word} (hptr : ptr ≠ 0) :
    FreeAllOrNothing cfg m ptr ↔
      Authentic cfg ptr (readWord m (headerBelow ptr)) ∧ 8 ≤ (xpac ptr).toNat := by
  rw [FreeAllOrNothing, ptauthFree_of_ne_zero cfg m hptr]
  constructor
  · rintro ⟨hfail, hok⟩
    by_cases hzero : autia cfg ptr (readWord m (headerBelow ptr)) = 0
    · exact absurd (hfail hzero) (by simp)
    · have hauth : Authentic cfg ptr (readWord m (headerBelow ptr)) := by
        by_contra hna
        rw [autia_eq, if_neg hna] at hzero
        exact hzero rfl
      refine ⟨hauth, ?_⟩
      obtain ⟨m', hm'⟩ := hok hzero
      have harg : autia cfg ptr (readWord m (headerBelow ptr)) - 8 = headerBelow ptr :=
        (FreeOutcome.freed.inj hm').1
      rw [autia_of_authentic hauth] at harg
      -- below 8 the subtraction leaves the address range, the mask of the header does not
      have hlt : (xpac ptr - 8).toNat < 2 ^ 48 := by
        rw [harg, headerBelow, not_maskHighBit]
        exact xpac_lt _
      rw [BitVec.toNat_sub] at hlt
      simp only [BitVec.reduceToNat] at hlt
      have := xpac_lt ptr
      omega
  · rintro ⟨hauth, hx⟩
    rw [autia_of_authentic hauth, ← headerBelow_add hx]
    have hne : headerBelow ptr + 8 ≠ 0 := by
      rw [headerBelow_add hx]
      rintro h0
      rw [h0] at hx
      exact absurd hx (by decide)
    refine ⟨fun h0 => absurd h0 hne, fun _ => ⟨writeWord m (headerBelow ptr) 2, ?_⟩⟩
    rw [BitVec.add_sub_cancel]

/-- The base pointer of an object whose header at `0x1000` holds the id `0x5F` is freed right. -/
theorem free_all_or_nothing_page :
    FreeAllOrNothing Config.shipped (writeWord (fun _ => 0) 0x1000 0x5F) 0x5700000000001008 :=
  (free_all_or_nothing_iff Config.shipped (writeWord (fun _ => 0) 0x1000 0x5F) (by decide)).2
    ⟨by decide, by decide⟩

/-- A pointer with a wrong tag is freed: the tombstone is written and `free` is called on
`null - 8`. -/
theorem free_not_all_or_nothing :
    autia Config.shipped 0x5500000000001000 (readWord (fun _ => 0) (headerBelow 0x5500000000001000))
        = 0 ∧
      ptauthFree Config.shipped (fun _ => 0) 0x5500000000001000
        = .freed 0xFFFFFFFFFFFFFFF8 (writeWord (fun _ => 0) 0xFF8 2) ∧
      ¬ FreeAllOrNothing Config.shipped (fun _ => 0) 0x5500000000001000 := by
  have hzero : autia Config.shipped 0x5500000000001000
      (readWord (fun _ => 0) (headerBelow 0x5500000000001000)) = 0 := by decide
  have hrun : ptauthFree Config.shipped (fun _ => 0) 0x5500000000001000
      = .freed 0xFFFFFFFFFFFFFFF8 (writeWord (fun _ => 0) 0xFF8 2) := rfl
  refine ⟨hzero, hrun, fun h => ?_⟩
  have hviol := h.1 hzero
  rw [hrun] at hviol
  exact absurd hviol (by simp)

end PTAuth.Runtime
