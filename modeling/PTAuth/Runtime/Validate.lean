import PTAuth.Runtime.PacInst
import PTAuth.Library.Scan
import Mathlib.Data.Int.Order.Basic

/-!
# Pointer validation (`ptauth-rtlib.c`, built with `RETURN` 0)

`backward_search`, `validatePointer` and the four checks inserted by the pass. Memory is the map
from addresses to the `unsigned long` read there; none of these functions writes it. The loop of
`backward_search` does not stop on every input, so it takes fuel, and `none` means that the fuel ran
out. Each run records the header addresses whose id was examined, in order, and the one that
authenticated, so that properties of the search itself can be stated.

`searchLoop_eq_scan` replaces the loop with its stride by a scan of the aligned candidates.
-/

set_option autoImplicit false

namespace PTAuth.Runtime

open PTAuth.Library.Scan

/-- How a check ends: it returns a pointer to its caller, or calls `abort`. -/
inductive Outcome where
  | returned (ptr : Word)
  | aborted
  deriving DecidableEq, Repr

/-- Change the returned pointer. -/
def Outcome.map (f : Word → Word) : Outcome → Outcome
  | .returned q => .returned (f q)
  | .aborted => .aborted

/-- The header addresses a search examined, in order, and the one that authenticated. -/
structure Search where
  examined : List Word
  hit : Option Word
  deriving DecidableEq, Repr

/-- Put one more examined address in front. -/
def Search.look (a : Word) (s : Search) : Search := { s with examined := a :: s.examined }

/-- `threshold`: 1024, or `LONG_MAX` without `BKTHREASHOLDENABLED`. -/
def Config.threshold (cfg : Config) : Nat := if cfg.bkThreasholdEnabled then 1024 else 2 ^ 63 - 1

/-- The loop of `backward_search` from index `i`. The comparison `i < threshold` converts `i` to
`unsigned long`; the remainder is the signed one; `continue` still increments `i`. -/
def searchLoop (cfg : Config) (mem : Word → Word) (ptr : Word) : Nat → Int → Option Search
  | 0, _ => none
  | fuel + 1, i =>
      if (BitVec.ofInt 64 i).toNat < cfg.threshold then
        let rest := ((xpac ptr).toInt - i).tmod 16
        if rest ≠ 0 then
          searchLoop cfg mem ptr fuel (i + (rest - 1) + 1)
        else
          let tempPtr := ptr - BitVec.ofInt 64 i + 8
          let metaPtr := xpac ptr - BitVec.ofInt 64 i
          let id := mem metaPtr
          let p := autia cfg tempPtr id
          if id ≠ 0 ∧ p ≠ 0 then
            some { examined := [metaPtr], hit := some metaPtr }
          else
            (searchLoop cfg mem ptr fuel (i + 1)).map (Search.look metaPtr)
      else
        some { examined := [], hit := none }

/-- `backward_search`. Past the threshold, `ENABLELOG` selects the debug message over `abort`. -/
def backwardSearch (cfg : Config) (mem : Word → Word) (fuel : Nat) (ptr : Word) :
    Option (Search × Outcome) :=
  (searchLoop cfg mem ptr fuel 1).map fun s =>
    match s.hit with
    | some _ => (s, .returned (xpac ptr))
    | none => (s, if cfg.enableLog then .returned ptr else .aborted)

/-- A run of `validatePointer`. -/
structure Validation where
  examined : List Word
  hit : Option Word
  outcome : Outcome
  deriving DecidableEq, Repr

/-- `validatePointer`: the direct test on the header right below `ptr`, then the search. -/
def validatePointer (cfg : Config) (mem : Word → Word) (fuel : Nat) (ptr : Word) :
    Option Validation :=
  if ptr = 0 then
    some { examined := [], hit := none, outcome := .returned ptr }
  else
    let metaPtr := (ptr - 8) &&& ~~~ maskHighBit
    let xpacedPtr := xpac ptr
    let id := mem metaPtr
    if id ≠ 0 ∧ autia cfg ptr id = xpacedPtr then
      some { examined := [metaPtr], hit := some metaPtr,
             outcome := .returned (if cfg.topByteIgnore then ptr else xpacedPtr) }
    else
      (backwardSearch cfg mem fuel ptr).map fun r =>
        { examined := metaPtr :: r.1.examined, hit := r.1.hit,
          outcome := r.2.map fun q => if cfg.topByteIgnore then ptr else q }

/-- A run of an inserted check: the pointer it handed to `validatePointer`, if it did, and how it
ended. -/
structure CheckRun where
  validated : Option Word
  outcome : Outcome
  deriving DecidableEq, Repr

/-- The common body of the checks: only a pointer with a non-zero `signature` is validated, and
`result` selects what is returned afterwards. -/
def signatureGate (cfg : Config) (mem : Word → Word) (fuel : Nat) (result : Word → Word)
    (ptr : Word) : Option CheckRun :=
  let signature := ptr &&& ~~~ maskLowBit
  if signature ≠ 0 then
    (validatePointer cfg mem fuel ptr).map fun v =>
      { validated := some ptr, outcome := v.outcome.map result }
  else
    some { validated := none, outcome := .returned ptr }

/-- `__GEPCheck`. -/
def gepCheck (cfg : Config) (mem : Word → Word) (fuel : Nat) (ptr : Word) : Option CheckRun :=
  signatureGate cfg mem fuel (fun q => if cfg.topByteIgnore then ptr else q) ptr

/-- `__nestedGEPCheck`. -/
def nestedGEPCheck (cfg : Config) (mem : Word → Word) (fuel : Nat) (ptr : Word) :
    Option CheckRun :=
  signatureGate cfg mem fuel (fun q => if cfg.topByteIgnore then ptr else q) ptr

/-- `__loadCheck`; `BACKTRACER` and `CRASH` are not defined. -/
def loadCheck (cfg : Config) (mem : Word → Word) (fuel : Nat) (ptr : Word) : Option CheckRun :=
  signatureGate cfg mem fuel (fun q => if cfg.topByteIgnore then ptr else q) ptr

/-- `__storeCheck` returns what `validatePointer` returned. -/
def storeCheck (cfg : Config) (mem : Word → Word) (fuel : Nat) (ptr : Word) : Option CheckRun :=
  signatureGate cfg mem fuel (fun q => q) ptr

/-- `__noCheck`. -/
def noCheck (cfg : Config) (ptr : Word) : Word := if cfg.topByteIgnore then ptr else xpac ptr

/-! ## The candidates of the search -/

/-- The id at `a` is non-zero and gives the object at `a + 8` the tag that `ptr` carries. -/
def Accepts (cfg : Config) (mem : Word → Word) (ptr a : Word) : Prop :=
  mem a ≠ 0 ∧ ptr.toNat / 2 ^ cfg.shift = cfg.tag (a + 8).toNat (mem a).toNat

instance (cfg : Config) (mem : Word → Word) (ptr a : Word) : Decidable (Accepts cfg mem ptr a) :=
  inferInstanceAs (Decidable (_ ∧ _))

/-- The 16-aligned addresses among `x - i, ..., x - (i + n - 1)`, descending. -/
def candidates (x i n : Nat) : List Word := (downward 16 x i n).map (BitVec.ofNat 64)

/-- A scan of candidates, as a search. -/
def scanSearch (cfg : Config) (mem : Word → Word) (ptr : Word) (l : List Word) : Search where
  examined := (scan (fun a => decide (Accepts cfg mem ptr a)) l).1
  hit := (scan (fun a => decide (Accepts cfg mem ptr a)) l).2

theorem scanSearch_cons_pos {cfg : Config} {mem : Word → Word} {ptr a : Word}
    (h : Accepts cfg mem ptr a) (l : List Word) :
    scanSearch cfg mem ptr (a :: l) = { examined := [a], hit := some a } := by
  rw [scanSearch, scan_cons_of_pos (by simpa using h)]

theorem scanSearch_cons_neg {cfg : Config} {mem : Word → Word} {ptr a : Word}
    (h : ¬ Accepts cfg mem ptr a) (l : List Word) :
    scanSearch cfg mem ptr (a :: l) = (scanSearch cfg mem ptr l).look a := by
  rw [scanSearch, scan_cons_of_neg (by simpa using h)]
  rfl

/-- Two pointers with the same bits above the address have the same bits above `SHIFT`. -/
theorem div_shift_congr (cfg : Config) {p q : Nat} (h : p / 2 ^ 48 = q / 2 ^ 48) :
    p / 2 ^ cfg.shift = q / 2 ^ cfg.shift := by
  obtain ⟨k, hk⟩ : ∃ k, cfg.shift = 48 + k := ⟨cfg.shift - 48, by have := cfg.shift_bounds; omega⟩
  rw [hk, Nat.pow_add, ← Nat.div_div_eq_div_mul, ← Nat.div_div_eq_div_mul, h]

/-- Moving a tagged pointer to another address keeps its tag: authentication at `q`, which has the
high bits of `ptr` and the address `a`, compares the tag of `ptr` with the one `a` should have. -/
theorem authentic_of_retarget {cfg : Config} {ptr q a id : Word}
    (hhigh : q.toNat / 2 ^ 48 = ptr.toNat / 2 ^ 48) (hlow : q.toNat % 2 ^ 48 = a.toNat) :
    Authentic cfg q id ↔ ptr.toNat / 2 ^ cfg.shift = cfg.tag a.toNat id.toNat := by
  have hx : (xpac q).toNat = a.toNat := by rw [xpac_toNat, hlow]
  rw [Authentic, ← cfg.tag_xpac, hx, div_shift_congr cfg hhigh]

/-- The test of the search on the candidate `x - i`. -/
theorem search_test_iff_of_le (cfg : Config) (mem : Word → Word) {ptr : Word} {i : Nat}
    (hi : i ≤ (xpac ptr).toNat) (hdvd : 16 ∣ (xpac ptr).toNat - i) :
    (mem (BitVec.ofNat 64 ((xpac ptr).toNat - i)) ≠ 0 ∧
        autia cfg (ptr - BitVec.ofNat 64 i + 8)
          (mem (BitVec.ofNat 64 ((xpac ptr).toNat - i))) ≠ 0) ↔
      Accepts cfg mem ptr (BitVec.ofNat 64 ((xpac ptr).toNat - i)) := by
  have hxlt := xpac_lt ptr
  have hmod : (xpac ptr).toNat = ptr.toNat % 2 ^ 48 := xpac_toNat ptr
  have hptr := ptr.isLt
  generalize (xpac ptr).toNat = x at *
  have ha : (BitVec.ofNat 64 (x - i) + 8).toNat = x - i + 8 := by
    rw [BitVec.toNat_add, BitVec.toNat_ofNat]
    simp only [BitVec.reduceToNat]
    omega
  have hq : (ptr - BitVec.ofNat 64 i + 8).toNat = ptr.toNat - x + (x - i + 8) := by
    rw [BitVec.toNat_add, BitVec.toNat_sub, BitVec.toNat_ofNat]
    simp only [BitVec.reduceToNat]
    omega
  have hlow : (ptr - BitVec.ofNat 64 i + 8).toNat % 2 ^ 48
      = (BitVec.ofNat 64 (x - i) + 8).toNat := by
    rw [hq, ha]
    omega
  have hhigh : (ptr - BitVec.ofNat 64 i + 8).toNat / 2 ^ 48 = ptr.toNat / 2 ^ 48 := by
    rw [hq]
    omega
  have hne : xpac (ptr - BitVec.ofNat 64 i + 8) ≠ 0 := by
    intro h0
    have := congrArg BitVec.toNat h0
    rw [xpac_toNat, hlow, ha] at this
    simp at this
  rw [autia_ne_zero_iff cfg hne, authentic_of_retarget hhigh hlow, Accepts]

theorem search_test_iff (cfg : Config) (mem : Word → Word) {ptr : Word} {i : Nat}
    (hi : i ≤ 1024) (hx : 1024 ≤ (xpac ptr).toNat) (hdvd : 16 ∣ (xpac ptr).toNat - i) :
    (mem (BitVec.ofNat 64 ((xpac ptr).toNat - i)) ≠ 0 ∧
        autia cfg (ptr - BitVec.ofNat 64 i + 8)
          (mem (BitVec.ofNat 64 ((xpac ptr).toNat - i))) ≠ 0) ↔
      Accepts cfg mem ptr (BitVec.ofNat 64 ((xpac ptr).toNat - i)) :=
  search_test_iff_of_le cfg mem (hi.trans hx) hdvd

/-- **The loop is a scan.** From `i` on, the loop with its stride examines exactly the aligned
addresses that the plain loop would, in the same order, up to the first that authenticates. The
induction is on the fuel: the index grows in every iteration. -/
theorem searchLoop_eq_scan {cfg : Config} (hthr : cfg.bkThreasholdEnabled = true)
    (mem : Word → Word) {ptr : Word} (hx : 1024 ≤ (xpac ptr).toNat) :
    ∀ (fuel i : Nat), 1024 - i + 1 ≤ fuel → i ≤ 1040 →
      searchLoop cfg mem ptr fuel (i : Int)
        = some (scanSearch cfg mem ptr (candidates (xpac ptr).toNat i (1024 - i))) := by
  intro fuel
  induction fuel with
  | zero => intro i hfuel _; omega
  | succ fuel ih =>
      intro i hfuel hi
      have hthr' : cfg.threshold = 1024 := by simp [Config.threshold, hthr]
      have hcast : (BitVec.ofInt 64 (i : Int)) = BitVec.ofNat 64 i := by simp
      have hval : (BitVec.ofNat 64 i).toNat = i := by
        rw [BitVec.toNat_ofNat]
        omega
      have hxlt := xpac_lt ptr
      have hint : (xpac ptr).toInt = ((xpac ptr).toNat : Int) :=
        BitVec.toInt_eq_toNat_of_lt (by omega)
      rw [searchLoop, hcast, hval, hthr', hint]
      by_cases hlt : i < 1024
      · rw [if_pos hlt]
        have hsub : (((xpac ptr).toNat : Int) - (i : Int)) = (((xpac ptr).toNat - i : Nat) : Int) := by
          omega
        have hrest : (((xpac ptr).toNat : Int) - (i : Int)).tmod 16
            = ((((xpac ptr).toNat - i) % 16 : Nat) : Int) := by
          rw [hsub]
          rfl
        by_cases hdvd : 16 ∣ (xpac ptr).toNat - i
        · -- an aligned candidate: one element of the list is consumed
          have hzero : ((xpac ptr).toNat - i) % 16 = 0 := Nat.mod_eq_zero_of_dvd hdvd
          have hmeta : xpac ptr - BitVec.ofNat 64 i
              = BitVec.ofNat 64 ((xpac ptr).toNat - i) := by
            apply BitVec.eq_of_toNat_eq
            rw [BitVec.toNat_sub, hval, BitVec.toNat_ofNat]
            omega
          have hlist : candidates (xpac ptr).toNat i (1024 - i)
              = BitVec.ofNat 64 ((xpac ptr).toNat - i) ::
                candidates (xpac ptr).toNat (i + 1) (1024 - (i + 1)) := by
            have hn : 1024 - i = 1024 - (i + 1) + 1 := by omega
            rw [candidates, hn, downward_succ_of_dvd hdvd]
            rfl
          have hnext := ih (i + 1) (by omega) (by omega)
          rw [Nat.cast_add, Nat.cast_one] at hnext
          simp only [hrest, hzero, Nat.cast_zero, ne_eq, not_true_eq_false, if_false, hmeta, hlist]
          have htest := search_test_iff cfg mem (by omega : i ≤ 1024) hx hdvd
          by_cases hacc : Accepts cfg mem ptr (BitVec.ofNat 64 ((xpac ptr).toNat - i))
          · rw [if_pos (htest.2 hacc), scanSearch_cons_pos hacc]
          · rw [if_neg (fun h => hacc (htest.1 h)), scanSearch_cons_neg hacc, hnext]
            rfl
        · -- an unaligned index: the stride moves to the next aligned one
          have hpos : 0 < ((xpac ptr).toNat - i) % 16 := by
            rcases Nat.eq_zero_or_pos (((xpac ptr).toNat - i) % 16) with h | h
            · exact absurd (Nat.dvd_of_mod_eq_zero h) hdvd
            · exact h
          have hr16 : ((xpac ptr).toNat - i) % 16 < 16 := Nat.mod_lt _ (by omega)
          generalize hr : ((xpac ptr).toNat - i) % 16 = r at *
          have hne : ((r : Nat) : Int) ≠ 0 := by omega
          have hidx : (i : Int) + ((r : Int) - 1) + 1 = ((i + r : Nat) : Int) := by
            push_cast
            ring
          have hlist : candidates (xpac ptr).toNat i (1024 - i)
              = candidates (xpac ptr).toNat (i + r) (1024 - (i + r)) := by
            rw [candidates, candidates]
            by_cases hle : r ≤ 1024 - i
            · rw [downward_skip r hr hle (by omega)]
              congr 2
              omega
            · rw [downward_eq_nil (1024 - i) (by omega) (by omega)]
              have : 1024 - (i + r) = 0 := by omega
              rw [this, downward_zero]
          rw [hrest, if_pos hne, hidx, ih (i + r) (by omega) (by omega), hlist]
      · rw [if_neg hlt]
        have : 1024 - i = 0 := by omega
        rw [this]
        rfl

end PTAuth.Runtime
