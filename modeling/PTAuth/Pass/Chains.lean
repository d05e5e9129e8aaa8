import Mathlib.Data.Fintype.Card
import Mathlib.Data.Fintype.Fin
import PTAuth.Pass.PassUtils

/-!
# Chains of casts

`stripPointerCasts` goes from a value to the operand of the cast that it is, again and again; `Strips`
relates the value to every instruction on the way. The function is given its size as fuel, and a
chain that comes to an end is no longer (`Strips.stripPointerCasts_of_end`). So where it ends, at a
load or at a call that returns none of its arguments, is what `Strips` relates.
-/

set_option autoImplicit false

namespace PTAuth.Pass

/-! ## Casts -/

/-- Instruction `y` returns its operand `k` to `stripPointerCasts`. -/
def Func.Carries (F : Func) (y k : Nat) : Prop :=
  match (F.instr y).op with
  | .bitcast => k = 0
  | .gep => allZeroIndices (F.instr y).operands = true ∧ k = 0
  | .call _ returned => returned = some k
  | _ => False

theorem Func.Carries.not_phi {F : Func} {y k : Nat} (h : F.Carries y k) :
    (F.instr y).op.isPhi = false := by
  cases hop : (F.instr y).op with
  | phi incoming =>
      rw [Func.Carries, hop] at h
      exact h.elim
  | _ => rfl

theorem Func.castStep_eq_some {F : Func} {v w : Value} (h : F.castStep v = some w) :
    ∃ y k, v.ref = .inst y ∧ F.Carries y k ∧ F.operand y k = some w := by
  rw [Func.castStep] at h
  split at h
  · rename_i y hy
    refine ⟨y, ?_⟩
    split at h
    · rename_i hop
      exact ⟨0, hy, by rw [Func.Carries, hop], h⟩
    · rename_i hop
      split at h
      · rename_i hzero
        exact ⟨0, hy, by rw [Func.Carries, hop]; exact ⟨hzero, rfl⟩, h⟩
      · exact absurd h (by simp)
    · rename_i returned hop
      obtain ⟨k, hk, hw⟩ := Option.bind_eq_some_iff.1 h
      exact ⟨k, hy, by rw [Func.Carries, hop]; exact hk, hw⟩
    · exact absurd h (by simp)
  · exact absurd h (by simp)

/-- `Strips F v y` says that `stripPointerCasts` of `v` passes the instruction `y`. -/
inductive Strips (F : Func) : Value → Nat → Prop where
  | self {v : Value} {y : Nat} : v.ref = .inst y → Strips F v y
  | cast {v w : Value} {z k y : Nat} :
      v.ref = .inst z → F.Carries z k → F.operand z k = some w → Strips F w y → Strips F v y

theorem Func.strips_of_stripPointerCasts {F : Func} {y : Nat} :
    ∀ (fuel : Nat) (v : Value), (F.stripPointerCasts fuel v).ref = .inst y → Strips F v y := by
  intro fuel
  induction fuel with
  | zero => exact fun v h => .self h
  | succ fuel ih =>
      intro v h
      rw [Func.stripPointerCasts] at h
      split at h
      · exact .self h
      · rename_i w hstep
        obtain ⟨z, k, hz, hcarries, hw⟩ := Func.castStep_eq_some hstep
        exact .cast hz hcarries hw (ih w h)

/-! ## The end of a chain -/

section Chains

variable {F : Func} {v w : Value} {l y z k : Nat}

theorem Func.castStep_of_carries (hv : v.ref = .inst z) (hc : F.Carries z k)
    (hw : F.operand z k = some w) : F.castStep v = some w := by
  rw [Func.castStep, hv]
  rw [Func.Carries] at hc
  cases hop : (F.instr z).op with
  | bitcast =>
      simp only [hop] at hc ⊢
      rw [← hc]
      exact hw
  | gep =>
      simp only [hop] at hc ⊢
      rw [if_pos hc.1, ← hc.2]
      exact hw
  | call callee returned =>
      simp only [hop] at hc ⊢
      rw [hc]
      exact hw
  | _ =>
      simp only [hop] at hc

theorem Func.castStep_congr (h : v.ref = w.ref) : F.castStep v = F.castStep w := by
  rw [Func.castStep, Func.castStep, h]

/-- A load is the end of a chain. -/
theorem Func.castStep_of_load (hv : v.ref = .inst l) (hl : (F.instr l).op = .load) :
    F.castStep v = none := by
  simp only [Func.castStep, hv, hl]

theorem Func.stripPointerCasts_of_end (h : F.castStep v = none) (n : Nat) :
    F.stripPointerCasts n v = v := by
  cases n with
  | zero => rfl
  | succ n => rw [Func.stripPointerCasts, h]

theorem Func.stripPointerCasts_add (m n : Nat) :
    ∀ v, F.stripPointerCasts (m + n) v = F.stripPointerCasts n (F.stripPointerCasts m v) := by
  induction m with
  | zero =>
      intro v
      rw [Nat.zero_add]
      rfl
  | succ m ih =>
      intro v
      rw [Nat.succ_add, Func.stripPointerCasts, Func.stripPointerCasts]
      cases h : F.castStep v with
      | none => exact (F.stripPointerCasts_of_end h n).symm
      | some w => exact ih w

theorem Func.stripPointerCasts_congr (h : v.ref = w.ref) (n : Nat) :
    (F.stripPointerCasts n v).ref = (F.stripPointerCasts n w).ref := by
  cases n with
  | zero => exact h
  | succ n =>
      rw [Func.stripPointerCasts, Func.stripPointerCasts, Func.castStep_congr h]
      cases F.castStep w with
      | none => exact h
      | some u => rfl

/-- With enough fuel, the chain is followed to its end. -/
theorem Strips.exists_fuel (h : Strips F v y) : ∃ n, (F.stripPointerCasts n v).ref = .inst y := by
  induction h with
  | self hv => exact ⟨0, hv⟩
  | cast hv hc hw _ ih =>
      obtain ⟨n, hn⟩ := ih
      refine ⟨n + 1, ?_⟩
      rw [Func.stripPointerCasts, Func.castStep_of_carries hv hc hw]
      exact hn

/-- On the way to an instruction there are instructions of the function only. -/
theorem Func.Linked.strip_lt (hF : F.Linked) (hl : l < F.next) :
    ∀ (n : Nat) (v : Value), (F.stripPointerCasts n v).ref = .inst l →
      ∃ z, v.ref = .inst z ∧ z < F.next := by
  intro n
  cases n with
  | zero => exact fun v hv => ⟨l, hv, hl⟩
  | succ n =>
      intro v hv
      rw [Func.stripPointerCasts] at hv
      cases hstep : F.castStep v with
      | none =>
          rw [hstep] at hv
          exact ⟨l, hv, hl⟩
      | some w =>
          obtain ⟨z, k, hz, -, hw⟩ := Func.castStep_eq_some hstep
          exact ⟨z, hz, hF.lt_of_operand hw⟩

/-- **The size of the function is enough fuel** for a chain that comes to an end. -/
theorem Strips.stripPointerCasts_of_end (hF : F.Linked) (h : Strips F v l) (hl : l < F.next)
    (hend : ∀ w : Value, w.ref = .inst l → F.castStep w = none) :
    (F.stripPointerCasts F.next v).ref = .inst l := by
  classical
  have hex := h.exists_fuel
  have hn := Nat.find_spec hex
  generalize hfind : Nat.find hex = n at hn
  have hmin : ∀ m < n, (F.stripPointerCasts m v).ref ≠ .inst l := by
    intro m hm
    rw [← hfind] at hm
    exact Nat.find_min hex hm
  -- the chain up to the first occurrence of `l`
  have hchain : ∀ i : Fin (n + 1), ∃ z : Fin F.next,
      (F.stripPointerCasts i v).ref = .inst z := by
    intro i
    have hrest : (F.stripPointerCasts (n - i) (F.stripPointerCasts i v)).ref = .inst l := by
      rw [← F.stripPointerCasts_add, Nat.add_sub_cancel' (Nat.le_of_lt_succ i.2)]
      exact hn
    obtain ⟨z, hz, hlt⟩ := hF.strip_lt hl (n - i) _ hrest
    exact ⟨⟨z, hlt⟩, hz⟩
  choose e he using hchain
  -- an instruction that occurs twice would bring `l` forward
  have hne : ∀ i j : Fin (n + 1), i < j → e i ≠ e j := by
    intro i j hij heq
    have hij' : (i : Nat) < j := hij
    have hj : (j : Nat) ≤ n := Nat.le_of_lt_succ j.2
    have hsame : (F.stripPointerCasts i v).ref = (F.stripPointerCasts j v).ref := by
      rw [he i, he j, heq]
    apply hmin (i + (n - j)) (by omega)
    rw [F.stripPointerCasts_add, Func.stripPointerCasts_congr hsame, ← F.stripPointerCasts_add,
      Nat.add_sub_cancel' hj]
    exact hn
  have hinj : Function.Injective e := by
    intro i j heq
    rcases Nat.lt_trichotomy i j with hlt | heq' | hlt
    · exact absurd heq (hne i j hlt)
    · exact Fin.ext heq'
    · exact absurd heq.symm (hne j i hlt)
  have hcard := Fintype.card_le_of_injective e hinj
  rw [Fintype.card_fin, Fintype.card_fin] at hcard
  rw [← Nat.add_sub_cancel' (Nat.le_of_succ_le hcard), F.stripPointerCasts_add,
    F.stripPointerCasts_of_end (hend _ hn)]
  exact hn

theorem Strips.stripPointerCasts (hF : F.Linked) (h : Strips F v l)
    (hl : (F.instr l).op = .load) : (F.stripPointerCasts F.next v).ref = .inst l :=
  h.stripPointerCasts_of_end hF (hF.lt_of_load hl) fun _ hw => Func.castStep_of_load hw hl

end Chains

/-! ## Own checks -/

/-- `StripsCasts F v y` says that `v` is the instruction `y` behind bitcasts and GEPs with zero indices
only. -/
inductive StripsCasts (F : Func) : Value → Nat → Prop where
  | self {v : Value} {y : Nat} : v.ref = .inst y → StripsCasts F v y
  | cast {v w : Value} {z k y : Nat} :
      v.ref = .inst z → (F.instr z).op.isCall = false → F.Carries z k → F.operand z k = some w →
        StripsCasts F w y → StripsCasts F v y

theorem StripsCasts.strips {F : Func} {v : Value} {y : Nat} (h : StripsCasts F v y) : Strips F v y := by
  induction h with
  | self hv => exact .self hv
  | cast hv _ hc hw _ ih => exact .cast hv hc hw ih

/-- A load is the end of a chain. -/
theorem StripsCasts.eq_of_load {F : Func} {v : Value} {l y : Nat} (h : StripsCasts F v y)
    (hv : v.ref = .inst l) (hl : (F.instr l).op = .load) : y = l := by
  cases h with
  | self hvy => exact Ref.inst.inj (hvy.symm.trans hv)
  | cast hvz _ hc _ _ =>
      obtain rfl := Ref.inst.inj (hvz.symm.trans hv)
      rw [Func.Carries, hl] at hc
      exact hc.elim

/-- `y` is a call of `__nestedGEPCheck`. -/
def Func.CallsNestedCheck (F : Func) (y : Nat) (returned : Option Nat) : Prop :=
  ∃ callee, (F.instr y).op = .call (some callee) returned ∧ callee.name = "__nestedGEPCheck"

/-- What `isNestedGEPCheck` finds is behind casts and calls that return an argument. -/
theorem exists_strips_of_isNestedGEPCheck {F : Func} {v : Value} (h : isNestedGEPCheck F v = true) :
    ∃ y returned, Strips F v y ∧ F.CallsNestedCheck y returned := by
  rw [isNestedGEPCheck] at h
  split at h
  · rename_i y hy
    split at h
    · rename_i callee returned hop
      exact ⟨y, returned, Func.strips_of_stripPointerCasts _ v hy, callee, hop, beq_iff_eq.1 h⟩
    · exact absurd h (by decide)
  · exact absurd h (by decide)

/-- It finds what is at the end of a chain. -/
theorem Strips.isNestedGEPCheck {F : Func} {v : Value} {y : Nat} (hF : F.Linked)
    (h : Strips F v y) (hy : F.CallsNestedCheck y none) : isNestedGEPCheck F v = true := by
  obtain ⟨callee, hop, hname⟩ := hy
  have hend : ∀ w : Value, w.ref = .inst y → F.castStep w = none := by
    intro w hw
    simp only [Func.castStep, hw, hop, Option.bind_none]
  rw [PTAuth.Pass.isNestedGEPCheck,
    h.stripPointerCasts_of_end hF (hF.lt_of_op (by simp [hop])) hend]
  simp only [hop, hname, beq_self_eq_true]

end PTAuth.Pass
