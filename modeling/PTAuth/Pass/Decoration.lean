import PTAuth.Pass.PassUtils

/-!
# What rewriting does to a function

`Decorated F₀ pre F` says that `F` is `F₀` with inserted instructions: `pre x` lists the
instructions inserted in front of `x`, in layout order, each of them a bitcast or a runtime call
whose operand is a copy of an operand of `x`. Operands of the instructions of `F₀` are copies of
their original operands, with the original type. A copy is the operand itself or an inserted
instruction over a copy; it is marked as stripped when `__xpac` is among them, which happens at
pointer arguments of the functions in `xpacedList` only, and at every operand of a call that was
replaced.

Every `wrapOperand` keeps a function decorated (`Decorated.wrap`).
-/

set_option autoImplicit false

namespace PTAuth.Pass

/-- The functions the pass calls. -/
def runtimeFunctions : List String :=
  ["__loadCheck", "__GEPCheck", "__nestedGEPCheck", "__noCheck", "__xpac"]

/-- A call of a runtime function. -/
def runtimeCall (f : String) : Op := .call (some ⟨f, true⟩) none

/-- The value carries `v₀` through instructions of `pre`; the flag says whether it is stripped. -/
inductive Copy (F : Func) (pre : List Nat) (v₀ : Value) : Value → Bool → Prop where
  | self : Copy F pre v₀ v₀ false
  | fold {v : Value} {b : Bool} (ty : Ty) :
      v.ref.isConstant = true → Copy F pre v₀ v b → Copy F pre v₀ ⟨.bitCastExpr v.ref, ty⟩ b
  | cast {z : Nat} {v : Value} {b : Bool} (ty : Ty) :
      z ∈ pre → F.instr z = ⟨.bitcast, [v], ty, ""⟩ → Copy F pre v₀ v b →
        Copy F pre v₀ ⟨.inst z, ty⟩ b
  | call {z : Nat} {v : Value} {b : Bool} {f : String} :
      f ∈ runtimeFunctions → z ∈ pre → F.instr z = ⟨runtimeCall f, [v], voidPtrTy, ""⟩ →
        Copy F pre v₀ v b → Copy F pre v₀ ⟨.inst z, voidPtrTy⟩ (b || f == "__xpac")

/-- Copies survive further insertions. -/
theorem Copy.mono {F G : Func} {pre pre' : List Nat} {v₀ v : Value} {b : Bool}
    (h : Copy F pre v₀ v b) (hpre : pre ⊆ pre') (hinstr : ∀ z ∈ pre, G.instr z = F.instr z) :
    Copy G pre' v₀ v b := by
  induction h with
  | self => exact .self
  | fold ty hc _ ih => exact .fold ty hc ih
  | cast ty hz hi _ ih => exact .cast ty (hpre hz) ((hinstr _ hz).trans hi) ih
  | call hf hz hi _ ih => exact .call hf (hpre hz) ((hinstr _ hz).trans hi) ih

theorem Copy.has {F : Func} {pre : List Nat} {v₀ v : Value} {b : Bool} (h : Copy F pre v₀ v b)
    (h₀ : F.Has v₀) (hpre : ∀ z ∈ pre, z < F.next) : F.Has v := by
  cases h with
  | self => exact h₀
  | fold ty hc _ => exact fun y hy => absurd hy (by simp)
  | cast ty hz hi _ =>
      intro y hy
      obtain rfl := Ref.inst.inj hy
      exact ⟨hpre _ hz, by rw [hi]⟩
  | call hf hz hi _ =>
      intro y hy
      obtain rfl := Ref.inst.inj hy
      exact ⟨hpre _ hz, by rw [hi]⟩

/-- `z` is an inserted instruction over the value `v`. -/
def Inserted (F : Func) (z : Nat) (v : Value) : Prop :=
  (∃ ty, F.instr z = ⟨.bitcast, [v], ty, ""⟩) ∨
    ∃ f ∈ runtimeFunctions, F.instr z = ⟨runtimeCall f, [v], voidPtrTy, ""⟩

/-- The argument is one that is stripped when it leaves the module: a pointer, but no constant and no
GEP directly over an alloca. -/
def Func.stripsArgument (F : Func) (v : Value) : Bool :=
  pointerArgument v && !v.ref.isConstant && !((F.dynCast (· == .gep) v).bind F.slotOf).isSome

theorem Func.stripsArgument_iff {F : Func} {v : Value} :
    F.stripsArgument v = true ↔ pointerArgument v = true ∧ v.ref.isConstant = false ∧
      (F.dynCast (· == .gep) v).bind F.slotOf = none := by
  simp only [Func.stripsArgument, Bool.and_eq_true, Bool.not_eq_true', Option.isSome_eq_false_iff,
    Option.isNone_iff_eq_none, and_assoc]

theorem Func.isPointerTy_of_stripsArgument {F : Func} {v : Value} (h : F.stripsArgument v = true) :
    v.ty.isPointerTy = true := by
  have hptr := (Func.stripsArgument_iff.1 h).1
  simp only [pointerArgument, Bool.and_eq_true] at hptr
  exact hptr.1

/-- `x` is a call whose pointer argument `v` the pass strips. -/
def XpacSite (tbi : Bool) (F : Func) (x : Nat) (v : Value) : Prop :=
  F.stripsArgument v = true ∧ ∃ callee returned, (F.instr x).op = .call (some callee) returned ∧
    callee.isDeclaration = true ∧ callee.name ∉ localAvoidList ∧
      (tbi = true → callee.name ∈ xpacedList)

/-- `F` is `F₀` with the instructions `pre x` inserted in front of every `x`. -/
structure Decorated (tbi : Bool) (F₀ : Func) (pre : Nat → List Nat) (F : Func) : Prop where
  base : F₀.Linked
  linked : F.Linked
  name : F.name = F₀.name
  next_le : F₀.next ≤ F.next
  layout : F.layout = F₀.layout.map fun block => block.flatMap fun x => pre x ++ [x]
  pre_range : ∀ x, ∀ z ∈ pre x, F₀.next ≤ z ∧ z < F.next
  pre_cover : ∀ z, F₀.next ≤ z → z < F.next → ∃ x, z ∈ pre x
  pre_disjoint : ∀ x y z, z ∈ pre x → z ∈ pre y → x = y
  pre_sorted : ∀ x, (pre x).Pairwise (· < ·)
  pre_copy : ∀ x, ∀ z ∈ pre x, ∃ k v₀ v b, F₀.operand x k = some v₀ ∧ Copy F (pre x) v₀ v b ∧
    Inserted F z v
  pre_operand_lt : ∀ x, ∀ z ∈ pre x, ∀ k v y, F.operand z k = some v → v.ref = .inst y → y < z
  op : ∀ x < F₀.next, (F.instr x).op = (F₀.instr x).op
  ty : ∀ x < F₀.next, (F.instr x).ty = (F₀.instr x).ty
  instrName : ∀ x < F₀.next, (F.instr x).name = (F₀.instr x).name
  operands_length : ∀ x < F₀.next, (F.instr x).operands.length = (F₀.instr x).operands.length
  operand : ∀ x < F₀.next, ∀ k v, F.operand x k = some v → ∃ v₀ b, F₀.operand x k = some v₀ ∧
    v.ty = v₀.ty ∧ Copy F (pre x) v₀ v b ∧ (b = true → XpacSite tbi F₀ x v₀) ∧
    ((F₀.instr x).op.isCall = true → v = v₀ ∨ b = true)
  stackBase : ∀ g a, (F₀.instr g).op = .gep → F₀.slotOf g = some a →
    F.operand g 0 = F₀.operand g 0

namespace Decorated

variable {tbi : Bool} {F₀ F : Func} {pre : Nat → List Nat}

/-- A function decorates itself. -/
theorem refl (h : F₀.Linked) : Decorated tbi F₀ (fun _ => []) F₀ where
  base := h
  linked := h
  name := rfl
  next_le := Nat.le_refl _
  layout := by simp
  pre_range := fun _ _ hz => absurd hz List.not_mem_nil
  pre_cover := fun z hz hz' => absurd hz (Nat.not_le.2 hz')
  pre_disjoint := fun _ _ _ hz => absurd hz List.not_mem_nil
  pre_sorted := fun _ => List.Pairwise.nil
  pre_copy := fun _ _ hz => absurd hz List.not_mem_nil
  pre_operand_lt := fun _ _ hz => absurd hz List.not_mem_nil
  op := fun _ _ => rfl
  ty := fun _ _ => rfl
  instrName := fun _ _ => rfl
  operands_length := fun _ _ => rfl
  operand := fun _ _ _ v hv =>
    ⟨v, false, hv, rfl, .self, fun h => absurd h (by decide), fun _ => Or.inl rfl⟩
  stackBase := fun _ _ _ _ => rfl

/-- Inserted instructions are bitcasts and runtime calls. -/
theorem pre_op (h : Decorated tbi F₀ pre F) {x z : Nat} (hz : z ∈ pre x) :
    (F.instr z).op = .bitcast ∨ ∃ f ∈ runtimeFunctions, (F.instr z).op = runtimeCall f := by
  obtain ⟨-, -, v, -, -, -, ⟨ty, hi⟩ | ⟨f, hf, hi⟩⟩ := h.pre_copy x z hz
  · rw [hi]
    exact Or.inl rfl
  · rw [hi]
    exact Or.inr ⟨f, hf, rfl⟩

/-- Control leaves no block at an inserted instruction. -/
theorem pre_stays (h : Decorated tbi F₀ pre F) {x z : Nat} (hz : z ∈ pre x) :
    (∀ targets, (F.instr z).op ≠ .br targets) ∧ (F.instr z).op ≠ .ret := by
  rcases h.pre_op hz with hop | ⟨f, -, hop⟩
  · simp [hop]
  · simp [hop, runtimeCall]

/-- Loads, GEPs and the like are instructions of the original function. -/
theorem lt_of_op (h : Decorated tbi F₀ pre F) {x : Nat} (hcast : (F.instr x).op ≠ .bitcast)
    (hcall : ∀ f, (F.instr x).op ≠ runtimeCall f) (hunused : (F.instr x).op ≠ .other "") :
    x < F₀.next := by
  rcases Nat.lt_or_ge x F₀.next with hlt | hge
  · exact hlt
  · obtain ⟨y, hy⟩ := h.pre_cover x hge (h.linked.lt_of_op hunused)
    rcases h.pre_op hy with hop | ⟨f, -, hop⟩
    · exact absurd hop hcast
    · exact absurd hop (hcall f)

theorem lt_of_load (h : Decorated tbi F₀ pre F) {x : Nat} (hx : (F.instr x).op = .load) :
    x < F₀.next :=
  h.lt_of_op (by simp [hx]) (by simp [hx, runtimeCall]) (by simp [hx])

theorem lt_of_gep (h : Decorated tbi F₀ pre F) {x : Nat} (hx : (F.instr x).op = .gep) :
    x < F₀.next :=
  h.lt_of_op (by simp [hx]) (by simp [hx, runtimeCall]) (by simp [hx])

/-- The host of an inserted instruction is not itself inserted. -/
theorem not_mem_pre (h : Decorated tbi F₀ pre F) {x y : Nat} (hx : x < F₀.next) : x ∉ pre y :=
  fun hmem => Nat.not_le.2 hx (h.pre_range y x hmem).1

theorem copy_has (h : Decorated tbi F₀ pre F) {x k : Nat} {v₀ v : Value} {b : Bool}
    (h₀ : F₀.operand x k = some v₀) (hv : Copy F (pre x) v₀ v b) : F.Has v := by
  refine hv.has (fun y hy => ?_) fun z hz => (h.pre_range x z hz).2
  have hlt := h.base.operand_lt x k v₀ y h₀ hy
  refine ⟨Nat.lt_of_lt_of_le hlt h.next_le, ?_⟩
  rw [h.ty y hlt]
  exact h.base.operand_ty x k v₀ y h₀ hy

/-! ### One insertion -/

/-- `pre` with the new instruction `n` in front of `x`. -/
def push (pre : Nat → List Nat) (x n : Nat) : Nat → List Nat :=
  Function.update pre x (pre x ++ [n])

theorem mem_push {pre : Nat → List Nat} {x n y z : Nat} :
    z ∈ push pre x n y ↔ z ∈ pre y ∨ (y = x ∧ z = n) := by
  by_cases hy : y = x
  · subst hy
    simp [push]
  · simp [push, hy]

theorem subset_push (pre : Nat → List Nat) (x n y : Nat) : pre y ⊆ push pre x n y :=
  fun _ hz => mem_push.2 (Or.inl hz)

/-- Inserting in front of an original instruction keeps the layout decorated. -/
theorem insertBefore_flatMap {pre : Nat → List Nat} {x : Nat} (n : Nat) (hx : ∀ y, x ∉ pre y)
    (block : List Nat) :
    insertBefore x n (block.flatMap fun y => pre y ++ [y]) =
      block.flatMap fun y => push pre x n y ++ [y] := by
  have hskip : ∀ l : List Nat, x ∉ l → (l.flatMap fun y => if y = x then [n, y] else [y]) = l := by
    intro l
    induction l with
    | nil => exact fun _ => rfl
    | cons y l ih =>
        intro hl
        have hy : y ≠ x := fun h => hl (by simp [h])
        have hl' : x ∉ l := fun h => hl (List.mem_cons_of_mem y h)
        rw [List.flatMap_cons, ih hl', if_neg hy]
        rfl
  -- `x` is no inserted instruction, so it is found at its own place only
  rw [insertBefore, List.flatMap_assoc]
  congr 1
  funext y
  rw [List.flatMap_append, hskip _ (hx y)]
  by_cases hy : y = x
  · subst hy
    simp [push]
  · simp [push, hy]

/-- Creating an instruction in front of `x` on a copy of one of its operands. -/
theorem create (h : Decorated tbi F₀ pre F) {x k : Nat} {v₀ v : Value} {b : Bool} {op : Op}
    {ty : Ty} (hx : x < F₀.next) (h₀ : F₀.operand x k = some v₀) (hv : Copy F (pre x) v₀ v b)
    (hop : op = .bitcast ∨ ∃ f ∈ runtimeFunctions, op = runtimeCall f ∧ ty = voidPtrTy) :
    Decorated tbi F₀ (push pre x F.next) (F.create x op v ty) := by
  have hle := h.next_le
  have hhas := h.copy_has h₀ hv
  have hkeep : ∀ y, ∀ z ∈ pre y, (F.create x op v ty).instr z = F.instr z := fun y z hz =>
    F.create_instr_of_ne x op v ty (Nat.ne_of_lt (h.pre_range y z hz).2)
  have horig : ∀ y < F₀.next, (F.create x op v ty).instr y = F.instr y := fun y hy =>
    F.create_instr_of_ne x op v ty (by omega)
  have hmono : ∀ {y : Nat} {w₀ w : Value} {c : Bool}, Copy F (pre y) w₀ w c →
      Copy (F.create x op v ty) (push pre x F.next y) w₀ w c := fun {y _ _ _} hw =>
    hw.mono (subset_push pre x F.next y) (hkeep y)
  refine { base := h.base, linked := h.linked.create x op ty hhas, name := h.name,
           next_le := Nat.le_succ_of_le hle, layout := ?layout, pre_range := ?range,
           pre_cover := ?cover, pre_disjoint := ?disjoint, pre_sorted := ?sorted, pre_copy := ?copy,
           pre_operand_lt := ?older, op := fun y hy => ?op, ty := fun y hy => ?ty,
           instrName := fun y hy => ?name, operands_length := fun y hy => ?length,
           operand := fun y hy j w hw => ?operand, stackBase := fun g a hop hslot => ?stack }
  case layout =>
    show F.layout.map (insertBefore x F.next) = _
    rw [h.layout, List.map_map]
    apply List.map_congr_left
    intro block _
    exact insertBefore_flatMap F.next (fun y => h.not_mem_pre hx) block
  case range =>
    intro y z hz
    rcases mem_push.1 hz with hz | ⟨-, rfl⟩
    · obtain ⟨hlo, hhi⟩ := h.pre_range y z hz
      exact ⟨hlo, Nat.lt_succ_of_lt hhi⟩
    · exact ⟨hle, Nat.lt_succ_self _⟩
  case cover =>
    intro z hlo hhi
    rcases Nat.lt_or_ge z F.next with hlt | hge
    · obtain ⟨y, hy⟩ := h.pre_cover z hlo hlt
      exact ⟨y, mem_push.2 (Or.inl hy)⟩
    · exact ⟨x, mem_push.2 (Or.inr ⟨rfl, Nat.le_antisymm (Nat.le_of_lt_succ hhi) hge⟩)⟩
  case disjoint =>
    -- the new number is in no `pre y` yet
    intro y y' z hz hz'
    rcases mem_push.1 hz with hz | ⟨rfl, rfl⟩
    · rcases mem_push.1 hz' with hz' | ⟨-, rfl⟩
      · exact h.pre_disjoint y y' z hz hz'
      · exact absurd (h.pre_range y _ hz).2 (Nat.lt_irrefl _)
    · rcases mem_push.1 hz' with hz' | ⟨rfl, -⟩
      · exact absurd (h.pre_range y' _ hz').2 (Nat.lt_irrefl _)
      · rfl
  case sorted =>
    intro y
    by_cases hy : y = x
    · subst hy
      rw [push, Function.update_self, List.pairwise_append]
      refine ⟨h.pre_sorted y, List.pairwise_singleton _ _, fun z hz w hw => ?_⟩
      rw [List.mem_singleton.1 hw]
      exact (h.pre_range y z hz).2
    · rw [push, Function.update_of_ne hy]
      exact h.pre_sorted y
  case copy =>
    intro y z hz
    rcases mem_push.1 hz with hz | ⟨rfl, rfl⟩
    · obtain ⟨j, w₀, w, c, hw₀, hw, hi⟩ := h.pre_copy y z hz
      refine ⟨j, w₀, w, c, hw₀, hmono hw, ?_⟩
      rw [Inserted, hkeep y z hz]
      exact hi
    · refine ⟨k, v₀, v, b, h₀, hmono hv, ?_⟩
      rw [Inserted, F.create_instr_self]
      rcases hop with rfl | ⟨f, hf, rfl, rfl⟩
      · exact Or.inl ⟨ty, rfl⟩
      · exact Or.inr ⟨f, hf, rfl⟩
  case older =>
    intro y z hz j w u hw hu
    rcases mem_push.1 hz with hz | ⟨rfl, rfl⟩
    · rw [F.create_operand_of_ne x op v ty (Nat.ne_of_lt (h.pre_range y z hz).2)] at hw
      exact h.pre_operand_lt y z hz j w u hw hu
    · rw [Func.operand, F.create_instr_self] at hw
      cases j with
      | zero =>
          obtain rfl := Option.some.inj hw
          exact (hhas u hu).1
      | succ j => simp at hw
  case op => rw [horig y hy, h.op y hy]
  case ty => rw [horig y hy, h.ty y hy]
  case name => rw [horig y hy, h.instrName y hy]
  case length => rw [horig y hy, h.operands_length y hy]
  case operand =>
    rw [Func.operand, horig y hy] at hw
    obtain ⟨w₀, c, hw₀, hty, hcopy, hc⟩ := h.operand y hy j w hw
    exact ⟨w₀, c, hw₀, hty, hmono hcopy, hc⟩
  case stack =>
    rw [Func.operand, horig g (h.base.lt_of_op (by simp [hop]))]
    exact h.stackBase g a hop hslot

/-- Replacing an operand by a copy of it, but not the base of a GEP over an alloca. -/
theorem setOperand (h : Decorated tbi F₀ pre F) {x k : Nat} {v₀ v : Value} {b : Bool}
    (hx : x < F₀.next) (h₀ : F₀.operand x k = some v₀) (hv : Copy F (pre x) v₀ v b)
    (hty : v.ty = v₀.ty) (hb : b = true → XpacSite tbi F₀ x v₀)
    (hcall : (F₀.instr x).op.isCall = true → b = true)
    (hgep : (F₀.instr x).op = .gep → F₀.slotOf x = none) :
    Decorated tbi F₀ pre (F.setOperand x k v) := by
  have hkeep : ∀ y, ∀ z ∈ pre y, (F.setOperand x k v).instr z = F.instr z := by
    intro y z hz
    refine F.setOperand_instr_of_ne ?_ k v
    rintro rfl
    exact h.not_mem_pre hx hz
  have hmono : ∀ {y : Nat} {w₀ w : Value} {c : Bool}, Copy F (pre y) w₀ w c →
      Copy (F.setOperand x k v) (pre y) w₀ w c := fun {y _ _ _} hw =>
    hw.mono (List.Subset.refl _) (hkeep y)
  obtain ⟨old, hold⟩ : ∃ old, F.operand x k = some old := by
    have hlen := h.operands_length x hx
    obtain ⟨hlt, -⟩ := List.getElem?_eq_some_iff.1 h₀
    exact ⟨_, List.getElem?_eq_getElem (hlen ▸ hlt)⟩
  have hsame : ∀ y, ((F.setOperand x k v).instr y).op = (F.instr y).op ∧
      ((F.setOperand x k v).instr y).ty = (F.instr y).ty ∧
      ((F.setOperand x k v).instr y).name = (F.instr y).name ∧
      ((F.setOperand x k v).instr y).operands.length = (F.instr y).operands.length := by
    intro y
    by_cases hy : y = x
    · subst hy
      rw [F.setOperand_instr_self]
      exact ⟨rfl, rfl, rfl, List.length_set⟩
    · rw [F.setOperand_instr_of_ne hy]
      exact ⟨rfl, rfl, rfl, rfl⟩
  refine { base := h.base, linked := h.linked.setOperand hold (h.copy_has h₀ hv), name := h.name,
           next_le := h.next_le, layout := h.layout, pre_range := h.pre_range,
           pre_cover := h.pre_cover, pre_disjoint := h.pre_disjoint, pre_sorted := h.pre_sorted,
           pre_copy := ?copy, pre_operand_lt := ?older, op := fun y hy => (hsame y).1.trans (h.op y hy),
           ty := fun y hy => (hsame y).2.1.trans (h.ty y hy),
           instrName := fun y hy => (hsame y).2.2.1.trans (h.instrName y hy),
           operands_length := fun y hy => (hsame y).2.2.2.trans (h.operands_length y hy),
           operand := fun y hy j w hw => ?operand, stackBase := fun g a hop hslot => ?stack }
  case copy =>
    intro y z hz
    obtain ⟨j, w₀, w, c, hw₀, hw, hi⟩ := h.pre_copy y z hz
    refine ⟨j, w₀, w, c, hw₀, hmono hw, ?_⟩
    rw [Inserted, hkeep y z hz]
    exact hi
  case older =>
    intro y z hz j w u hw hu
    rw [Func.operand, hkeep y z hz] at hw
    exact h.pre_operand_lt y z hz j w u hw hu
  case operand =>
    -- at the operand that is replaced it is the new copy, elsewhere the old one
    rw [F.setOperand_operand] at hw
    split at hw
    · rename_i heq
      obtain ⟨rfl, rfl⟩ := heq
      rw [hold] at hw
      obtain rfl := Option.some.inj hw
      exact ⟨v₀, b, h₀, hty, hmono hv, hb, fun h => Or.inr (hcall h)⟩
    · obtain ⟨w₀, c, hw₀, hwty, hcopy, hc⟩ := h.operand y hy j w hw
      exact ⟨w₀, c, hw₀, hwty, hmono hcopy, hc⟩
  case stack =>
    have hne : g ≠ x := by
      rintro rfl
      rw [hgep hop] at hslot
      cases hslot
    rw [Func.operand, F.setOperand_instr_of_ne hne]
    exact h.stackBase g a hop hslot

/-! ### One rewrite -/

end Decorated

/-- From `F` to `G`, instructions were inserted in front of `x` only: bitcasts and calls of `f`. -/
structure Extends (f : String) (x : Nat) (pre : Nat → List Nat) (F : Func)
    (pre' : Nat → List Nat) (G : Func) : Prop where
  other : ∀ y, y ≠ x → pre' y = pre y
  old : ∀ y, ∀ z ∈ pre y, G.instr z = F.instr z
  subset : ∀ y, pre y ⊆ pre' y
  new : ∀ z ∈ pre' x, z ∈ pre x ∨ (G.instr z).op = .bitcast ∨ (G.instr z).op = runtimeCall f

theorem Extends.refl (f : String) (x : Nat) (pre : Nat → List Nat) (F : Func) :
    Extends f x pre F pre F where
  other := fun _ _ => rfl
  old := fun _ _ _ => rfl
  subset := fun _ => List.Subset.refl _
  new := fun _ hz => Or.inl hz

theorem Extends.trans {f : String} {x : Nat} {pre pre' pre'' : Nat → List Nat} {F G H : Func}
    (h : Extends f x pre F pre' G) (h' : Extends f x pre' G pre'' H) :
    Extends f x pre F pre'' H where
  other := fun y hy => (h'.other y hy).trans (h.other y hy)
  old := fun y z hz => (h'.old y z (h.subset y hz)).trans (h.old y z hz)
  subset := fun y => List.Subset.trans (h.subset y) (h'.subset y)
  new := by
    intro z hz
    rcases h'.new z hz with hz | hop
    · rcases h.new z hz with hz' | hop
      · exact Or.inl hz'
      · rw [h'.old x z hz]
        exact Or.inr hop
    · exact Or.inr hop

namespace Decorated

variable {tbi : Bool} {F₀ F : Func} {pre : Nat → List Nat}

/-- Creating an instruction extends the function. -/
theorem extends_create (h : Decorated tbi F₀ pre F) (x : Nat) {op : Op} {f : String} (v : Value)
    (ty : Ty) (hop : op = .bitcast ∨ op = runtimeCall f) :
    Extends f x pre F (push pre x F.next) (F.create x op v ty) where
  other := fun y hy => Function.update_of_ne hy _ _
  old := fun y z hz => F.create_instr_of_ne x op v ty (Nat.ne_of_lt (h.pre_range y z hz).2)
  subset := subset_push pre x F.next
  new := by
    intro z hz
    rcases mem_push.1 hz with hz | ⟨-, rfl⟩
    · exact Or.inl hz
    · rw [F.create_instr_self]
      exact Or.inr hop

/-- A bitcast of a copy is a copy. -/
theorem createBitCast (h : Decorated tbi F₀ pre F) {x k : Nat} {v₀ v : Value} {b : Bool}
    (hx : x < F₀.next) (h₀ : F₀.operand x k = some v₀) (hv : Copy F (pre x) v₀ v b) (ty : Ty)
    (f : String) :
    ∃ pre', Decorated tbi F₀ pre' (F.createBitCast x v ty).1 ∧
      Extends f x pre F pre' (F.createBitCast x v ty).1 ∧
      Copy (F.createBitCast x v ty).1 (pre' x) v₀ (F.createBitCast x v ty).2 b ∧
      (F.createBitCast x v ty).2.ty = ty := by
  rw [Func.createBitCast]
  split
  · rename_i hty
    exact ⟨pre, h, Extends.refl f x pre F, hv, hty⟩
  · split
    · rename_i hconst
      exact ⟨pre, h, Extends.refl f x pre F, .fold ty hconst hv, rfl⟩
    · have hext := h.extends_create x v ty (f := f) (Or.inl rfl : Op.bitcast = .bitcast ∨ _)
      refine ⟨_, h.create hx h₀ hv (Or.inl rfl), hext, ?_, rfl⟩
      refine .cast ty (mem_push.2 (Or.inr ⟨rfl, rfl⟩)) (F.create_instr_self x .bitcast v ty) ?_
      exact hv.mono (hext.subset x) (hext.old x)

/-- A call of a runtime function on a copy is a copy. -/
theorem createCall (h : Decorated tbi F₀ pre F) {x k : Nat} {v₀ v : Value} {b : Bool}
    (hx : x < F₀.next) (h₀ : F₀.operand x k = some v₀) (hv : Copy F (pre x) v₀ v b) {f : String}
    (hf : f ∈ runtimeFunctions) :
    ∃ pre', Decorated tbi F₀ pre' (F.createCall x f v).1 ∧
      Extends f x pre F pre' (F.createCall x f v).1 ∧
      Copy (F.createCall x f v).1 (pre' x) v₀ (F.createCall x f v).2 (b || f == "__xpac") := by
  have hext := h.extends_create x v voidPtrTy (Or.inr rfl : runtimeCall f = .bitcast ∨ _)
  refine ⟨_, h.create hx h₀ hv (Or.inr ⟨f, hf, rfl, rfl⟩), hext, ?_⟩
  refine .call hf (mem_push.2 (Or.inr ⟨rfl, rfl⟩)) (F.create_instr_self x _ v voidPtrTy) ?_
  exact hv.mono (hext.subset x) (hext.old x)

/-- **A rewrite keeps a function decorated.** -/
theorem wrap (h : Decorated tbi F₀ pre F) {x : Nat} (hx : x < F₀.next) (k : Nat) {f : String}
    (hf : f ∈ runtimeFunctions)
    (hxpac : ∀ v, f = "__xpac" → F₀.operand x k = some v → XpacSite tbi F₀ x v)
    (hcall : (F₀.instr x).op.isCall = true → f = "__xpac")
    (hgep : (F₀.instr x).op = .gep → F₀.slotOf x = none) :
    ∃ pre', Decorated tbi F₀ pre' (F.wrapOperand f x k) ∧
      Extends f x pre F pre' (F.wrapOperand f x k) := by
  rw [Func.wrapOperand]
  cases hop : F.operand x k with
  | none => exact ⟨pre, h, Extends.refl f x pre F⟩
  | some v =>
      obtain ⟨v₀, b, h₀, hty, hcopy, hb, -⟩ := h.operand x hx k v hop
      -- cast, call, cast back: each is created on a copy of the operand, and is one
      obtain ⟨pre₁, h₁, hext₁, hcopy₁, -⟩ := h.createBitCast hx h₀ hcopy voidPtrTy f
      obtain ⟨pre₂, h₂, hext₂, hcopy₂⟩ := h₁.createCall hx h₀ hcopy₁ hf
      obtain ⟨pre₃, h₃, hext₃, hcopy₃, hty₃⟩ := h₂.createBitCast hx h₀ hcopy₂ v.ty f
      have hsite : (b || f == "__xpac") = true → XpacSite tbi F₀ x v₀ := by
        intro hor
        cases b with
        | true => exact hb rfl
        | false => exact hxpac v₀ (by simpa using hor) h₀
      -- arguments of calls are wrapped by `__xpac` only
      have hstrip : (F₀.instr x).op.isCall = true → (b || f == "__xpac") = true := fun h => by
        simp [hcall h]
      refine ⟨pre₃, h₃.setOperand hx h₀ hcopy₃ (hty₃.trans hty) hsite hstrip hgep, ?_⟩
      have hext := (hext₁.trans hext₂).trans hext₃
      refine ⟨hext.other, fun y z hz => ?_, hext.subset, fun z hz => ?_⟩
      · rw [Func.setOperand_instr_of_ne]
        · exact hext.old y z hz
        · rintro rfl
          exact h.not_mem_pre hx hz
      · rw [Func.setOperand_instr_of_ne]
        · exact hext.new z hz
        · rintro rfl
          exact h₃.not_mem_pre hx hz

end Decorated

end PTAuth.Pass
