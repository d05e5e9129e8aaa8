import Mathlib.Data.List.Nodup
import Mathlib.Logic.Function.Basic

/-!
# The intermediate representation the pass rewrites

Functions are blocks of numbered instructions. `Func.layout` is the list of blocks in layout order,
each a list of instruction numbers, `Func.instr` holds the instructions, and `Func.users` the use
list of every instruction, most recent use first: `addToList` of the use list pushes at the head and
`user_back` reads it. Everything the pass reads of a value is embedded: its kind, its type, the name
of an instruction, argument or global. Types print as `Type::print` does.

The builder calls of the pass are `createBitCast`, `createCall` and `setOperand`, all in front of a
given instruction; `wrapOperand` is the sequence that every rewrite of the pass consists of.
-/

set_option autoImplicit false

namespace PTAuth.Pass

/-! ## Types and values -/

/-- Types, up to what the pass inspects: pointers, and the text of the rest. -/
inductive Ty where
  | int (bits : Nat)
  | named (name : String)
  | ptr (pointee : Ty)
  | array (size : Nat) (elem : Ty)
  | other (text : String)
  deriving DecidableEq, Repr

/-- `getString`: the printed type. -/
def Ty.print : Ty → String
  | .int bits => "i" ++ toString bits
  | .named name => "%" ++ name
  | .ptr pointee => pointee.print ++ "*"
  | .array size elem => "[" ++ toString size ++ " x " ++ elem.print ++ "]"
  | .other text => text

/-- `isPointerTy`. -/
def Ty.isPointerTy : Ty → Bool
  | .ptr _ => true
  | _ => false

/-- `VoidPtrTy`. -/
def voidPtrTy : Ty := .ptr (.int 8)

/-- The kinds of values an operand can be. -/
inductive Ref where
  | inst (id : Nat)
  | argument (name : String)
  | globalVariable (name : String)
  | function (name : String)
  | constantInt (n : Int)
  | constant (text : String)
  | bitCastExpr (base : Ref)
  deriving DecidableEq, Repr

/-- `isa<Constant>`. -/
def Ref.isConstant : Ref → Bool
  | .inst _ => false
  | .argument _ => false
  | _ => true

/-- `isa<GlobalVariable>`. -/
def Ref.isGlobalVariable : Ref → Bool
  | .globalVariable _ => true
  | _ => false

/-- An operand: a value with its type. -/
structure Value where
  ref : Ref
  ty : Ty
  deriving DecidableEq, Repr

/-! ## Instructions and functions -/

/-- A statically known callee. -/
structure Callee where
  name : String
  isDeclaration : Bool
  deriving DecidableEq, Repr

/-- Instruction kinds. `returned` is the argument of a call that carries the attribute of this name;
an indirect call has no callee and its function value as last operand. The operands of a phi come
from the blocks `incoming`. -/
inductive Op where
  | alloca (allocated : Ty)
  | load
  | store
  | gep
  | bitcast
  | call (callee : Option Callee) (returned : Option Nat)
  | ret
  | br (targets : List Nat)
  | phi (incoming : List Nat)
  | other (name : String)
  deriving DecidableEq, Repr

def Op.isAlloca : Op → Bool
  | .alloca _ => true
  | _ => false

def Op.isCall : Op → Bool
  | .call _ _ => true
  | _ => false

/-- `isa<PHINode>`. -/
def Op.isPhi : Op → Bool
  | .phi _ => true
  | _ => false

/-- An instruction with its operands and result type. -/
structure Instr where
  op : Op
  operands : List Value
  ty : Ty
  name : String
  deriving DecidableEq, Repr

/-- A function body. Numbers from `next` on are unused. -/
structure Func where
  name : String
  layout : List (List Nat)
  instr : Nat → Instr
  users : Nat → List (Nat × Nat)
  next : Nat

/-- All instructions in layout order. -/
def Func.ids (F : Func) : List Nat := F.layout.flatten

/-- `getOperand`. -/
def Func.operand (F : Func) (x : Nat) (k : Nat) : Option Value := (F.instr x).operands[k]?

/-- `getName`. -/
def Func.nameOf (F : Func) (v : Value) : String :=
  match v.ref with
  | .inst y => (F.instr y).name
  | .argument name => name
  | .globalVariable name => name
  | .function name => name
  | _ => ""

/-- `dyn_cast` to an instruction class. -/
def Func.dynCast (F : Func) (is : Op → Bool) (v : Value) : Option Nat :=
  match v.ref with
  | .inst y => if is (F.instr y).op then some y else none
  | _ => none

/-- The alloca that is operand 0 of `x`. -/
def Func.slotOf (F : Func) (x : Nat) : Option Nat := (F.operand x 0).bind (F.dynCast Op.isAlloca)

/-! ## Control flow -/

/-- `F.Path p rest` says that control may have passed the instructions `p`, in this order, and stands
in front of `rest`, what is left of a block. -/
inductive Func.Path (F : Func) : List Nat → List Nat → Prop where
  | entry {B : List Nat} : F.layout[0]? = some B → F.Path [] B
  | next {p B : List Nat} {x : Nat} : F.Path p (x :: B) → F.Path (p ++ [x]) B
  | jump {p B C targets : List Nat} {x b : Nat} :
      F.Path p (x :: B) → (F.instr x).op = .br targets → b ∈ targets → F.layout[b]? = some C →
        F.Path (p ++ [x]) C

theorem Func.mem_ids {F : Func} {b x : Nat} {B : List Nat} (hB : F.layout[b]? = some B)
    (hx : x ∈ B) : x ∈ F.ids :=
  List.mem_flatten.2 ⟨B, List.mem_of_getElem? hB, hx⟩

/-- Control stands in front of instructions of the function. -/
theorem Func.Path.mem {F : Func} {p B : List Nat} (h : F.Path p B) : ∀ x ∈ B, x ∈ F.ids := by
  induction h with
  | entry hB => exact fun _ hx => F.mem_ids hB hx
  | next _ ih => exact fun x hx => ih x (List.mem_cons_of_mem _ hx)
  | jump _ _ _ hC _ => exact fun _ hx => F.mem_ids hC hx

/-! ## Casts -/

/-- `hasAllZeroIndices` of the operands of a GEP. -/
def allZeroIndices (operands : List Value) : Bool :=
  operands.tail.all fun v => v.ref == .constantInt 0

/-- One step of `stripPointerCasts`: through a bitcast, a GEP with zero indices only, or a call that
returns one of its arguments. -/
def Func.castStep (F : Func) (v : Value) : Option Value :=
  match v.ref with
  | .inst y =>
      match (F.instr y).op with
      | .bitcast => F.operand y 0
      | .gep => if allZeroIndices (F.instr y).operands then F.operand y 0 else none
      | .call _ returned => returned.bind (F.operand y)
      | _ => none
  | _ => none

/-- `stripPointerCasts`; a chain of casts is no longer than the function. -/
def Func.stripPointerCasts (F : Func) : Nat → Value → Value
  | 0, v => v
  | fuel + 1, v =>
      match F.castStep v with
      | none => v
      | some w => F.stripPointerCasts fuel w

/-! ## The builder -/

/-- Push a use on the use list of its value. -/
def addUse (users : Nat → List (Nat × Nat)) (v : Value) (u : Nat × Nat) : Nat → List (Nat × Nat) :=
  match v.ref with
  | .inst y => Function.update users y (u :: users y)
  | _ => users

/-- Take a use off the use list of its value. -/
def dropUse (users : Nat → List (Nat × Nat)) (v : Value) (u : Nat × Nat) : Nat → List (Nat × Nat) :=
  match v.ref with
  | .inst y => Function.update users y ((users y).erase u)
  | _ => users

/-- Insert `n` in front of `x`. -/
def insertBefore (x n : Nat) (block : List Nat) : List Nat :=
  block.flatMap fun y => if y = x then [n, y] else [y]

/-- Create an instruction with one operand in front of `x`. -/
def Func.create (F : Func) (x : Nat) (op : Op) (v : Value) (ty : Ty) : Func where
  name := F.name
  layout := F.layout.map (insertBefore x F.next)
  instr := Function.update F.instr F.next ⟨op, [v], ty, ""⟩
  users := addUse (Function.update F.users F.next []) v (F.next, 0)
  next := F.next + 1

/-- `CreateBitCast`: nothing for a value of the type, a constant expression for a constant. -/
def Func.createBitCast (F : Func) (x : Nat) (v : Value) (ty : Ty) : Func × Value :=
  if v.ty = ty then (F, v)
  else if v.ref.isConstant then (F, ⟨.bitCastExpr v.ref, ty⟩)
  else (F.create x .bitcast v ty, ⟨.inst F.next, ty⟩)

/-- `CreateCall` of a runtime function of the pass. -/
def Func.createCall (F : Func) (x : Nat) (f : String) (v : Value) : Func × Value :=
  (F.create x (.call (some ⟨f, true⟩) none) v voidPtrTy, ⟨.inst F.next, voidPtrTy⟩)

/-- `setOperand`. -/
def Func.setOperand (F : Func) (x : Nat) (k : Nat) (v : Value) : Func where
  name := F.name
  layout := F.layout
  instr := Function.update F.instr x
    { F.instr x with operands := (F.instr x).operands.set k v }
  users :=
    match F.operand x k with
    | some old => addUse (dropUse F.users old (x, k)) v (x, k)
    | none => F.users
  next := F.next

/-- Replace operand `k` of `x`, in front of `x`, by the result of the runtime function `f` on it,
cast to `i8*` and back. -/
def Func.wrapOperand (F : Func) (f : String) (x : Nat) (k : Nat) : Func :=
  match F.operand x k with
  | none => F
  | some v =>
      let (F, arg) := F.createBitCast x v voidPtrTy
      let (F, result) := F.createCall x f arg
      let (F, back) := F.createBitCast x result v.ty
      F.setOperand x k back

/-- The number that `wrapOperand` gives to the call. -/
def Func.wrapId (F : Func) (x : Nat) (k : Nat) : Nat :=
  match F.operand x k with
  | none => F.next
  | some v => (F.createBitCast x v voidPtrTy).1.next

/-! ## Well-formed functions -/

/-- The content of an unused number. -/
def Instr.unused : Instr where
  op := .other ""
  operands := []
  ty := .other ""
  name := ""

/-- Operands are instructions of the function with their types, and use lists list uses. -/
structure Func.Linked (F : Func) : Prop where
  unused : ∀ x, F.next ≤ x → F.instr x = Instr.unused
  operand_lt : ∀ x k v y, F.operand x k = some v → v.ref = .inst y → y < F.next
  operand_ty : ∀ x k v y, F.operand x k = some v → v.ref = .inst y → v.ty = (F.instr y).ty
  users_operand : ∀ x k y, (x, k) ∈ F.users y → ∃ v, F.operand x k = some v ∧ v.ref = .inst y
  users_nodup : ∀ y, (F.users y).Nodup

/-- What the pass may assume about a function: it is linked, every instruction is laid out once, so
are its operands, use lists are complete, the base of a GEP is a pointer and its indices are none. Operands of
bitcasts have smaller numbers: a numbering in which definitions come before uses. -/
structure Func.WellFormed (F : Func) : Prop extends F.Linked where
  ids_nodup : F.ids.Nodup
  ids_lt : ∀ x ∈ F.ids, x < F.next
  operand_mem : ∀ x ∈ F.ids, ∀ k v y, F.operand x k = some v → v.ref = .inst y → y ∈ F.ids
  operand_users : ∀ x k v y, F.operand x k = some v → v.ref = .inst y → (x, k) ∈ F.users y
  cast_lt : ∀ x k v y, (F.instr x).op = .bitcast → F.operand x k = some v → v.ref = .inst y →
    y < x
  gep_base : ∀ x v, (F.instr x).op = .gep → F.operand x 0 = some v → v.ty.isPointerTy = true
  gep_index : ∀ x k v, (F.instr x).op = .gep → F.operand x (k + 1) = some v →
    v.ty.isPointerTy = false

/-- All of this but the order of the numbers. -/
structure Func.WellLinked (F : Func) : Prop extends F.Linked where
  ids_nodup : F.ids.Nodup
  ids_lt : ∀ x ∈ F.ids, x < F.next
  operand_mem : ∀ x ∈ F.ids, ∀ k v y, F.operand x k = some v → v.ref = .inst y → y ∈ F.ids
  operand_users : ∀ x k v y, F.operand x k = some v → v.ref = .inst y → (x, k) ∈ F.users y
  gep_base : ∀ x v, (F.instr x).op = .gep → F.operand x 0 = some v → v.ty.isPointerTy = true
  gep_index : ∀ x k v, (F.instr x).op = .gep → F.operand x (k + 1) = some v →
    v.ty.isPointerTy = false

theorem Func.WellFormed.wellLinked {F : Func} (h : F.WellFormed) : F.WellLinked :=
  { h with }

instance {F : Func} : Coe F.WellFormed F.WellLinked := ⟨Func.WellFormed.wellLinked⟩

/-! ### Functions from their instructions -/

/-- The uses of `y` by the instruction `i` with number `x`. -/
def Instr.uses (i : Instr) (x y : Nat) : List (Nat × Nat) :=
  ((List.range i.operands.length).filter fun k => i.operands[k]?.map Value.ref == some (.inst y)).map
    (x, ·)

/-- The function with instructions numbered by their position, created in this order. -/
def Func.ofInstrs (name : String) (layout : List (List Nat)) (instrs : List Instr) : Func where
  name := name
  layout := layout
  instr := fun x => instrs.getD x Instr.unused
  users := fun y =>
    ((List.range instrs.length).flatMap fun x => (instrs.getD x Instr.unused).uses x y).reverse
  next := instrs.length

/-- Operand `k` of `x` satisfies what `Func.WellFormed` asks of it. -/
def Func.fits (F : Func) (x k : Nat) (v : Value) : Bool :=
  (match v.ref with
    | .inst y =>
        decide (y < F.next) && v.ty == (F.instr y).ty &&
          ((F.instr x).op != .bitcast || decide (y < x)) &&
          (decide (x ∉ F.ids) || decide (y ∈ F.ids))
    | _ => true) &&
  ((F.instr x).op != .gep || v.ty.isPointerTy == decide (k = 0))

theorem Func.lt_of_operand_ofInstrs {name : String} {layout : List (List Nat)}
    {instrs : List Instr} {x k : Nat} {v : Value}
    (hv : (Func.ofInstrs name layout instrs).operand x k = some v) : x < instrs.length := by
  rcases Nat.lt_or_ge x instrs.length with hlt | hge
  · exact hlt
  · have hunused : (Func.ofInstrs name layout instrs).instr x = Instr.unused := by
      simp [Func.ofInstrs, hge]
    rw [Func.operand, hunused] at hv
    exact absurd hv (by simp [Instr.unused])

theorem Func.mem_users_ofInstrs {name : String} {layout : List (List Nat)} {instrs : List Instr}
    {x k y : Nat} :
    (x, k) ∈ (Func.ofInstrs name layout instrs).users y ↔
      ∃ v, (Func.ofInstrs name layout instrs).operand x k = some v ∧ v.ref = .inst y := by
  rw [show (x, k) ∈ (Func.ofInstrs name layout instrs).users y ↔ _ from List.mem_reverse,
    List.mem_flatMap]
  constructor
  · rintro ⟨z, -, hz⟩
    obtain ⟨j, hj, he⟩ := List.mem_map.1 hz
    obtain ⟨rfl, rfl⟩ := Prod.mk.inj he
    obtain ⟨-, href⟩ := List.mem_filter.1 hj
    rw [beq_iff_eq, Option.map_eq_some_iff] at href
    exact href
  · rintro ⟨v, hv, hvy⟩
    have hx := Func.lt_of_operand_ofInstrs hv
    refine ⟨x, List.mem_range.2 hx, List.mem_map.2 ⟨k, List.mem_filter.2 ⟨?_, ?_⟩, rfl⟩⟩
    · exact List.mem_range.2 (List.getElem?_eq_some_iff.1 hv).1
    · rw [beq_iff_eq, Option.map_eq_some_iff]
      exact ⟨v, hv, hvy⟩

theorem Func.nodup_users_ofInstrs {name : String} {layout : List (List Nat)} {instrs : List Instr}
    (y : Nat) : ((Func.ofInstrs name layout instrs).users y).Nodup := by
  show (List.reverse _).Nodup
  rw [List.nodup_reverse, List.nodup_flatMap]
  refine ⟨fun x _ => ?_, ?_⟩
  · refine List.Nodup.map (fun j k h => (Prod.mk.inj h).2) (List.Nodup.filter _ List.nodup_range)
  · apply (List.nodup_range (n := instrs.length)).imp
    intro x z hne u hu hu'
    obtain ⟨j, -, rfl⟩ := List.mem_map.1 hu
    obtain ⟨k, -, he⟩ := List.mem_map.1 hu'
    exact hne (Prod.mk.inj he).1.symm

/-- Well-formedness of a function from its instructions is a finite check. -/
theorem Func.wellFormed_ofInstrs {name : String} {layout : List (List Nat)} {instrs : List Instr}
    (hnd : layout.flatten.Nodup) (hlt : ∀ x ∈ layout.flatten, x < instrs.length)
    (hfits : ∀ x < instrs.length, ∀ k < (instrs.getD x Instr.unused).operands.length,
      ((Func.ofInstrs name layout instrs).operand x k).all
        ((Func.ofInstrs name layout instrs).fits x k) = true) :
    (Func.ofInstrs name layout instrs).WellFormed := by
  have hall : ∀ x k v, (Func.ofInstrs name layout instrs).operand x k = some v →
      (Func.ofInstrs name layout instrs).fits x k v = true := by
    intro x k v hv
    have hk := hfits x (Func.lt_of_operand_ofInstrs hv) k (List.getElem?_eq_some_iff.1 hv).1
    rw [hv] at hk
    exact hk
  generalize hF : Func.ofInstrs name layout instrs = F at hall
  have hnext : F.next = instrs.length := by rw [← hF]; rfl
  have hids : F.ids = layout.flatten := by rw [← hF]; rfl
  have hinst : ∀ x k v y, F.operand x k = some v → v.ref = .inst y →
      y < F.next ∧ v.ty = (F.instr y).ty ∧ ((F.instr x).op = .bitcast → y < x) ∧
        (x ∈ F.ids → y ∈ F.ids) := by
    intro x k v y hv hy
    have h := hall x k v hv
    simp only [Func.fits, hy, Bool.and_eq_true, Bool.or_eq_true, decide_eq_true_eq, beq_iff_eq,
      bne_iff_ne] at h
    obtain ⟨⟨⟨⟨hylt, hty⟩, hcast⟩, hmem⟩, -⟩ := h
    refine ⟨hylt, hty, fun hop => ?_, fun hx => ?_⟩
    · exact hcast.resolve_left fun h => h hop
    · exact hmem.resolve_left fun h => h hx
  have hgep : ∀ x k v, (F.instr x).op = .gep → F.operand x k = some v →
      v.ty.isPointerTy = decide (k = 0) := by
    intro x k v hop hv
    have h := hall x k v hv
    simp only [Func.fits, Bool.and_eq_true, Bool.or_eq_true, beq_iff_eq, bne_iff_ne] at h
    exact h.2.resolve_left fun h => h hop
  refine
    { unused := fun x hx => ?_
      operand_lt := fun x k v y hv hy => (hinst x k v y hv hy).1
      operand_ty := fun x k v y hv hy => (hinst x k v y hv hy).2.1
      users_operand := fun x k y h => ?_
      users_nodup := fun y => ?_
      ids_nodup := by rw [hids]; exact hnd
      ids_lt := fun x hx => ?_
      operand_mem := fun x hx k v y hv hy => (hinst x k v y hv hy).2.2.2 hx
      operand_users := fun x k v y hv hy => ?_
      cast_lt := fun x k v y hop hv hy => (hinst x k v y hv hy).2.2.1 hop
      gep_base := fun x v hop hv => by rw [hgep x 0 v hop hv]; rfl
      gep_index := fun x k v hop hv => by rw [hgep x (k + 1) v hop hv]; rfl }
  · rw [hnext] at hx
    rw [← hF]
    simp [Func.ofInstrs, hx]
  · rw [← hF] at h ⊢
    exact Func.mem_users_ofInstrs.1 h
  · rw [← hF]
    exact Func.nodup_users_ofInstrs y
  · rw [hids] at hx
    rw [hnext]
    exact hlt x hx
  · rw [← hF] at hv ⊢
    exact Func.mem_users_ofInstrs.2 ⟨v, hv, hy⟩

/-! ### Instructions and slots of operands -/

theorem Func.dynCast_eq_some {F : Func} {is : Op → Bool} {v : Value} {y : Nat} :
    F.dynCast is v = some y ↔ v.ref = .inst y ∧ is (F.instr y).op = true := by
  rw [Func.dynCast]
  cases hv : v.ref with
  | inst z =>
      by_cases hz : is (F.instr z).op = true
      · simp only [hz, if_true, Option.some.injEq, Ref.inst.injEq]
        constructor
        · rintro rfl
          exact ⟨rfl, hz⟩
        · exact fun h => h.1
      · simp only [hz, Ref.inst.injEq]
        constructor
        · exact fun h => absurd h (by simp)
        · rintro ⟨rfl, h⟩
          exact absurd h hz
  | _ => simp

theorem Func.slotOf_eq_some {F : Func} {x a : Nat} :
    F.slotOf x = some a ↔
      ∃ v, F.operand x 0 = some v ∧ v.ref = .inst a ∧ (F.instr a).op.isAlloca = true := by
  rw [Func.slotOf, Option.bind_eq_some_iff]
  simp only [Func.dynCast_eq_some]

/-- The address of an access to a slot is an alloca, and no other operation. -/
theorem Func.dynCast_of_slotOf {F : Func} {x a : Nat} (ha : F.slotOf x = some a) {op : Op}
    (hop : op.isAlloca = false) : (F.operand x 0).bind (F.dynCast (· == op)) = none := by
  obtain ⟨v, hv, hva, halloca⟩ := Func.slotOf_eq_some.1 ha
  rw [hv, Option.bind_some, Func.dynCast, hva]
  apply if_neg
  intro heq
  rw [beq_iff_eq] at heq
  rw [heq, hop] at halloca
  exact absurd halloca (by decide)

/-! ## Frame lemmas of the builder -/

theorem Func.create_instr_of_ne (F : Func) (x : Nat) (op : Op) (v : Value) (ty : Ty) {y : Nat}
    (h : y ≠ F.next) : (F.create x op v ty).instr y = F.instr y :=
  Function.update_of_ne h _ _

theorem Func.create_instr_self (F : Func) (x : Nat) (op : Op) (v : Value) (ty : Ty) :
    (F.create x op v ty).instr F.next = ⟨op, [v], ty, ""⟩ :=
  Function.update_self _ _ _

theorem Func.create_operand_of_ne (F : Func) (x : Nat) (op : Op) (v : Value) (ty : Ty) {y : Nat}
    (h : y ≠ F.next) (k : Nat) : (F.create x op v ty).operand y k = F.operand y k := by
  rw [Func.operand, F.create_instr_of_ne x op v ty h, Func.operand]

theorem Func.setOperand_instr_of_ne (F : Func) {x y : Nat} (h : y ≠ x) (k : Nat) (v : Value) :
    (F.setOperand x k v).instr y = F.instr y :=
  Function.update_of_ne h _ _

theorem Func.setOperand_instr_self (F : Func) (x : Nat) (k : Nat) (v : Value) :
    (F.setOperand x k v).instr x = { F.instr x with operands := (F.instr x).operands.set k v } :=
  Function.update_self _ _ _

theorem Func.setOperand_operand (F : Func) (x : Nat) (k : Nat) (v : Value) (y : Nat) (j : Nat) :
    (F.setOperand x k v).operand y j =
      if y = x ∧ j = k then (F.operand x k).map fun _ => v else F.operand y j := by
  by_cases hy : y = x
  · subst hy
    rw [Func.operand, F.setOperand_instr_self, List.getElem?_set]
    by_cases hj : j = k
    · subst hj
      rcases Nat.lt_or_ge j (F.instr y).operands.length with hlt | hge
      · simp [Func.operand, hlt]
      · simp [Func.operand, Nat.not_lt.2 hge]
    · rw [if_neg (fun h => hj h.symm), if_neg (fun h => hj h.2)]
      rfl
  · rw [if_neg (fun h => hy h.1), Func.operand, F.setOperand_instr_of_ne hy]
    rfl

/-! ## Use lists -/

theorem mem_addUse {users : Nat → List (Nat × Nat)} {v : Value} {u w : Nat × Nat} {y : Nat} :
    w ∈ addUse users v u y ↔ (v.ref = .inst y ∧ w = u) ∨ w ∈ users y := by
  cases hv : v.ref with
  | inst z =>
      by_cases hz : y = z
      · subst hz
        simp [addUse, hv]
      · have hne : z ≠ y := fun h => hz h.symm
        simp [addUse, hv, hz, hne]
  | _ => simp [addUse, hv]

theorem mem_dropUse {users : Nat → List (Nat × Nat)} {v : Value} {u w : Nat × Nat} {y : Nat}
    (hnd : (users y).Nodup) :
    w ∈ dropUse users v u y ↔ w ∈ users y ∧ ¬ (v.ref = .inst y ∧ w = u) := by
  cases hv : v.ref with
  | inst z =>
      by_cases hz : y = z
      · subst hz
        simp [dropUse, hv, hnd.mem_erase_iff, and_comm]
      · have hne : z ≠ y := fun h => hz h.symm
        simp [dropUse, hv, hz, hne]
  | _ => simp [dropUse, hv]

theorem nodup_addUse {users : Nat → List (Nat × Nat)} {v : Value} {u : Nat × Nat} {y : Nat}
    (hnd : (users y).Nodup) (hu : v.ref = .inst y → u ∉ users y) :
    (addUse users v u y).Nodup := by
  cases hv : v.ref with
  | inst z =>
      by_cases hz : y = z
      · subst hz
        simpa [addUse, hv] using ⟨hu hv, hnd⟩
      · simpa [addUse, hv, hz] using hnd
  | _ => simpa [addUse, hv] using hnd

theorem nodup_dropUse {users : Nat → List (Nat × Nat)} {v : Value} {u : Nat × Nat} {y : Nat}
    (hnd : (users y).Nodup) : (dropUse users v u y).Nodup := by
  cases hv : v.ref with
  | inst z =>
      by_cases hz : y = z
      · subst hz
        simpa [dropUse, hv] using hnd.erase u
      · simpa [dropUse, hv, hz] using hnd
  | _ => simpa [dropUse, hv] using hnd

/-! ## The builder keeps functions linked -/

/-- The value is, if it is an instruction, one of the function with its type. -/
def Func.Has (F : Func) (v : Value) : Prop :=
  ∀ y, v.ref = .inst y → y < F.next ∧ v.ty = (F.instr y).ty

theorem Func.Linked.has {F : Func} (h : F.Linked) {x : Nat} {k : Nat} {v : Value}
    (hv : F.operand x k = some v) : F.Has v :=
  fun y hy => ⟨h.operand_lt x k v y hv hy, h.operand_ty x k v y hv hy⟩

/-- Unused numbers have no operands. -/
theorem Func.Linked.lt_of_operand {F : Func} (h : F.Linked) {x k : Nat} {v : Value}
    (hv : F.operand x k = some v) : x < F.next := by
  by_contra hge
  rw [Func.operand, h.unused x (Nat.not_lt.1 hge)] at hv
  cases hv

theorem Func.Linked.lt_of_op {F : Func} (h : F.Linked) {x : Nat} (hx : (F.instr x).op ≠ .other "") :
    x < F.next := by
  rcases Nat.lt_or_ge x F.next with hlt | hge
  · exact hlt
  · rw [h.unused x hge] at hx
    exact absurd rfl hx

theorem Func.Linked.lt_of_load {F : Func} (h : F.Linked) {x : Nat} (hx : (F.instr x).op = .load) :
    x < F.next :=
  h.lt_of_op (by simp [hx])

theorem Func.Linked.lt_of_gep {F : Func} (h : F.Linked) {x : Nat} (hx : (F.instr x).op = .gep) :
    x < F.next :=
  h.lt_of_op (by simp [hx])

theorem Func.Linked.lt_of_call {F : Func} (h : F.Linked) {x : Nat} {callee : Option Callee}
    {returned : Option Nat} (hx : (F.instr x).op = .call callee returned) : x < F.next :=
  h.lt_of_op (by simp [hx])

theorem Func.Has.create {F : Func} {w : Value} (h : F.Has w) (x : Nat) (op : Op) (v : Value)
    (ty : Ty) : (F.create x op v ty).Has w := by
  intro y hy
  obtain ⟨hlt, hty⟩ := h y hy
  refine ⟨Nat.lt_succ_of_lt hlt, ?_⟩
  rw [F.create_instr_of_ne x op v ty (Nat.ne_of_lt hlt)]
  exact hty

theorem Func.Linked.create {F : Func} (h : F.Linked) (x : Nat) (op : Op) {v : Value} (ty : Ty)
    (hv : F.Has v) : (F.create x op v ty).Linked := by
  have hold : ∀ y k w, (F.create x op v ty).operand y k = some w →
      (y = F.next ∧ k = 0 ∧ w = v) ∨ (y < F.next ∧ F.operand y k = some w) := by
    intro y k w hw
    by_cases hy : y = F.next
    · subst hy
      rw [Func.operand, F.create_instr_self] at hw
      cases k with
      | zero => exact Or.inl ⟨rfl, rfl, (Option.some.inj hw).symm⟩
      | succ k => simp at hw
    · rw [F.create_operand_of_ne x op v ty hy] at hw
      exact Or.inr ⟨h.lt_of_operand hw, hw⟩
  have hhas : ∀ y k w, (F.create x op v ty).operand y k = some w → (F.create x op v ty).Has w := by
    intro y k w hw
    rcases hold y k w hw with ⟨-, -, rfl⟩ | ⟨-, hw⟩
    · exact hv.create x op w ty
    · exact (h.has hw).create x op v ty
  have hfresh : ∀ y, (F.next, 0) ∉ F.users y := by
    intro y hy
    obtain ⟨w, hw, -⟩ := h.users_operand _ _ _ hy
    exact Nat.lt_irrefl _ (h.lt_of_operand hw)
  have husers : ∀ y u, u ∈ Function.update F.users F.next [] y → u ∈ F.users y := by
    intro y u hu
    by_cases hy : y = F.next
    · subst hy
      simp at hu
    · simpa [hy] using hu
  refine ⟨fun y hy => ?_, fun y k w z hw hz => (hhas y k w hw z hz).1,
    fun y k w z hw hz => (hhas y k w hw z hz).2, fun y k z hu => ?_, fun y => ?_⟩
  · have hle : F.next + 1 ≤ y := hy
    rw [F.create_instr_of_ne x op v ty (by omega)]
    exact h.unused y (by omega)
  · rcases mem_addUse.1 hu with ⟨hz, he⟩ | hu
    · obtain ⟨rfl, rfl⟩ := Prod.mk.inj he
      refine ⟨v, ?_, hz⟩
      rw [Func.operand, F.create_instr_self]
      rfl
    · obtain ⟨w, hw, hz⟩ := h.users_operand _ _ _ (husers _ _ hu)
      refine ⟨w, ?_, hz⟩
      have hy : y ≠ F.next := Nat.ne_of_lt (h.lt_of_operand hw)
      rw [F.create_operand_of_ne x op v ty hy]
      exact hw
  · refine nodup_addUse ?_ fun _ hu => hfresh y (husers _ _ hu)
    by_cases hy : y = F.next
    · subst hy
      simp
    · simpa [hy] using h.users_nodup y

theorem Func.Linked.setOperand {F : Func} (h : F.Linked) {x : Nat} {k : Nat} {v old : Value}
    (hold : F.operand x k = some old) (hv : F.Has v) : (F.setOperand x k v).Linked := by
  have hty : ∀ y, ((F.setOperand x k v).instr y).ty = (F.instr y).ty := by
    intro y
    by_cases hy : y = x
    · rw [hy, F.setOperand_instr_self]
    · rw [F.setOperand_instr_of_ne hy]
  have hcase : ∀ y j w, (F.setOperand x k v).operand y j = some w → F.Has w := by
    intro y j w hw
    rw [F.setOperand_operand] at hw
    split at hw
    · rw [hold] at hw
      obtain rfl := Option.some.inj hw
      exact hv
    · exact h.has hw
  have husers : ∀ y u, u ∈ (F.setOperand x k v).users y ↔
      (v.ref = .inst y ∧ u = (x, k)) ∨ (u ∈ F.users y ∧ ¬ (old.ref = .inst y ∧ u = (x, k))) := by
    intro y u
    simp only [Func.setOperand, hold]
    rw [mem_addUse, mem_dropUse (h.users_nodup y)]
  refine ⟨fun y hy => ?_, fun y j w z hw hz => (hcase y j w hw z hz).1, fun y j w z hw hz => ?_,
    fun y j z hu => ?_, fun y => ?_⟩
  · have hne : y ≠ x := Nat.ne_of_gt (Nat.lt_of_lt_of_le (h.lt_of_operand hold) hy)
    rw [F.setOperand_instr_of_ne hne]
    exact h.unused y hy
  · rw [hty]
    exact (hcase y j w hw z hz).2
  · rw [F.setOperand_operand]
    rcases (husers z (y, j)).1 hu with ⟨hz, he⟩ | ⟨hu, hne⟩
    · obtain ⟨rfl, rfl⟩ := Prod.mk.inj he
      rw [if_pos ⟨rfl, rfl⟩, hold]
      exact ⟨v, rfl, hz⟩
    · obtain ⟨w, hw, hz⟩ := h.users_operand _ _ _ hu
      rw [if_neg]
      · exact ⟨w, hw, hz⟩
      · rintro ⟨rfl, rfl⟩
        rw [hold] at hw
        obtain rfl := Option.some.inj hw
        exact hne ⟨hz, rfl⟩
  · simp only [Func.setOperand, hold]
    apply nodup_addUse (nodup_dropUse (h.users_nodup y))
    intro _ hu
    obtain ⟨hu, hne⟩ := (mem_dropUse (h.users_nodup y)).1 hu
    obtain ⟨w, hw, hz⟩ := h.users_operand _ _ _ hu
    rw [hold] at hw
    obtain rfl := Option.some.inj hw
    exact hne ⟨hz, rfl⟩

/-! ## Frame of a rewrite -/

/-- From `F` to `G` instructions were added that use no instruction of `F` but `v`. -/
structure Grows (v : Value) (F G : Func) : Prop where
  name : G.name = F.name
  next_le : F.next ≤ G.next
  instr : ∀ y < F.next, G.instr y = F.instr y
  users : ∀ y < F.next, v.ref ≠ .inst y → G.users y = F.users y

theorem Grows.refl (v : Value) (F : Func) : Grows v F F where
  name := rfl
  next_le := Nat.le_refl _
  instr := fun _ _ => rfl
  users := fun _ _ _ => rfl

theorem Grows.trans {v w : Value} {F G H : Func} (h : Grows v F G) (h' : Grows w G H)
    (hw : ∀ y < F.next, w.ref = .inst y → v.ref = .inst y) : Grows v F H where
  name := h'.name.trans h.name
  next_le := Nat.le_trans h.next_le h'.next_le
  instr := fun y hy =>
    (h'.instr y (Nat.lt_of_lt_of_le hy h.next_le)).trans (h.instr y hy)
  users := fun y hy hv =>
    (h'.users y (Nat.lt_of_lt_of_le hy h.next_le) fun hwy => hv (hw y hy hwy)).trans
      (h.users y hy hv)

theorem addUse_of_ne {users : Nat → List (Nat × Nat)} {v : Value} {u : Nat × Nat} {y : Nat}
    (h : v.ref ≠ .inst y) : addUse users v u y = users y := by
  cases hv : v.ref with
  | inst z =>
      have hne : y ≠ z := fun he => h (by rw [hv, he])
      simp [addUse, hv, hne]
  | _ => simp [addUse, hv]

theorem dropUse_of_ne {users : Nat → List (Nat × Nat)} {v : Value} {u : Nat × Nat} {y : Nat}
    (h : v.ref ≠ .inst y) : dropUse users v u y = users y := by
  cases hv : v.ref with
  | inst z =>
      have hne : y ≠ z := fun he => h (by rw [hv, he])
      simp [dropUse, hv, hne]
  | _ => simp [dropUse, hv]

theorem grows_create (F : Func) (x : Nat) (op : Op) (v : Value) (ty : Ty) :
    Grows v F (F.create x op v ty) where
  name := rfl
  next_le := Nat.le_succ _
  instr := fun y hy => F.create_instr_of_ne x op v ty (Nat.ne_of_lt hy)
  users := fun y hy hv => by
    show addUse (Function.update F.users F.next []) v (F.next, 0) y = F.users y
    rw [addUse_of_ne hv, Function.update_of_ne (Nat.ne_of_lt hy)]

/-- A value that, as an instruction, is `v` or new. -/
def Value.FreshOr (F : Func) (v w : Value) : Prop := ∀ y < F.next, w.ref = .inst y → v.ref = .inst y

theorem grows_createBitCast (F : Func) (x : Nat) (v : Value) (ty : Ty) :
    Grows v F (F.createBitCast x v ty).1 ∧ v.FreshOr F (F.createBitCast x v ty).2 := by
  rw [Func.createBitCast]
  split
  · exact ⟨Grows.refl v F, fun _ _ h => h⟩
  · split
    · exact ⟨Grows.refl v F, fun _ _ h => absurd h (by simp)⟩
    · refine ⟨grows_create F x .bitcast v ty, fun y hy h => ?_⟩
      exact absurd (Ref.inst.inj h) (Nat.ne_of_gt hy)

/-- `CastsTo F v y` says that `v` is the instruction `y` behind bitcasts. -/
inductive CastsTo (F : Func) : Value → Nat → Prop where
  | self {v : Value} {y : Nat} : v.ref = .inst y → CastsTo F v y
  | cast {v w : Value} {z y : Nat} :
      v.ref = .inst z → (F.instr z).op = .bitcast → F.operand z 0 = some w → CastsTo F w y →
        CastsTo F v y

theorem CastsTo.mono {F G : Func} {v : Value} {y : Nat} (h : CastsTo F v y)
    (hG : ∀ z, (F.instr z).op = .bitcast → G.instr z = F.instr z) : CastsTo G v y := by
  induction h with
  | self hv => exact .self hv
  | cast hv hop hw _ ih =>
      refine .cast hv ?_ ?_ ih
      · rw [hG _ hop]
        exact hop
      · rw [Func.operand, hG _ hop]
        exact hw

/-- `v` is, behind bitcasts, the call `z` of the runtime function `f` on the instruction `y` behind
bitcasts. -/
def Func.CheckCall (F : Func) (f : String) (v : Value) (z y : Nat) : Prop :=
  CastsTo F v z ∧ (F.instr z).op = .call (some ⟨f, true⟩) none ∧
    ∃ w, F.operand z 0 = some w ∧ CastsTo F w y

/-- `v` is, behind bitcasts, a call of the runtime function `f` on the instruction `y` behind
bitcasts. -/
def Func.CheckOf (F : Func) (f : String) (v : Value) (y : Nat) : Prop := ∃ z, F.CheckCall f v z y

/-- A load is no call behind bitcasts. -/
theorem not_checkOf_self {F : Func} {f : String} {v : Value} {y : Nat} (hv : v.ref = .inst y)
    (hy : (F.instr y).op = .load) : ¬ F.CheckOf f v y := by
  rintro ⟨z, hcasts, hop, -⟩
  cases hcasts with
  | self hz =>
      obtain rfl := Ref.inst.inj (hv.symm.trans hz)
      rw [hy] at hop
      exact absurd hop (by simp)
  | cast hz hcast _ _ =>
      obtain rfl := Ref.inst.inj (hv.symm.trans hz)
      rw [hy] at hcast
      exact absurd hcast (by simp)

/-- The effect of `wrapOperand` outside the new instructions, and the new operand. -/
structure Wrapped (f : String) (x k : Nat) (v : Value) (F G : Func) : Prop where
  name : G.name = F.name
  next_lt : F.next < G.next
  instr : ∀ y < F.next, y ≠ x → G.instr y = F.instr y
  op : (G.instr x).op = (F.instr x).op
  ty : (G.instr x).ty = (F.instr x).ty
  operand : ∀ j, j ≠ k → G.operand x j = F.operand x j
  users : ∀ y < F.next, v.ref ≠ .inst y → G.users y = F.users y
  new : ∃ z w, G.operand x k = some w ∧ w.ref = .inst z ∧ F.next ≤ z ∧
    ((G.instr z).op = .bitcast ∨ (G.instr z).op = .call (some ⟨f, true⟩) none)
  check : ∀ y, v.ref = .inst y → ∀ w, G.operand x k = some w →
    ∃ z, F.next ≤ z ∧ G.CheckCall f w z y

/-- A rewrite changes one operand. -/
theorem Wrapped.operand_eq {f : String} {x k y j : Nat} {v : Value} {F G : Func}
    (h : Wrapped f x k v F G) (hy : y < F.next) (hne : ¬ (y = x ∧ j = k)) :
    G.operand y j = F.operand y j := by
  by_cases hyx : y = x
  · subst hyx
    exact h.operand j fun hj => hne ⟨rfl, hj⟩
  · rw [Func.operand, h.instr y hy hyx]
    rfl

theorem createBitCast_cases (F : Func) (x : Nat) {v : Value} {y : Nat} (ty : Ty)
    (hv : v.ref = .inst y) :
    F.createBitCast x v ty = (F, v) ∨
      F.createBitCast x v ty = (F.create x .bitcast v ty, ⟨.inst F.next, ty⟩) := by
  rw [Func.createBitCast]
  split
  · exact Or.inl rfl
  · rw [if_neg]
    · exact Or.inr rfl
    · simp [hv, Ref.isConstant]

/-- In every function that keeps the result of `createBitCast`, it is `v` behind bitcasts. -/
theorem castsTo_createBitCast {F G : Func} {x y : Nat} {v : Value} (ty : Ty) (hv : v.ref = .inst y)
    (hG : ∀ z, F.next ≤ z → z < (F.createBitCast x v ty).1.next →
      G.instr z = (F.createBitCast x v ty).1.instr z) :
    CastsTo G (F.createBitCast x v ty).2 y := by
  rcases createBitCast_cases F x ty hv with h | h
  · rw [h]
    exact .self hv
  · rw [h] at hG ⊢
    have hn : G.instr F.next = ⟨.bitcast, [v], ty, ""⟩ :=
      (hG F.next (Nat.le_refl _) (Nat.lt_succ_self _)).trans
        (F.create_instr_self x .bitcast v ty)
    refine .cast (w := v) rfl ?_ ?_ (.self hv)
    · rw [hn]
    · rw [Func.operand, hn]
      rfl

theorem Wrapped.op_eq {f : String} {x k : Nat} {v : Value} {F G : Func} (h : Wrapped f x k v F G)
    {y : Nat} (hy : y < F.next) : (G.instr y).op = (F.instr y).op := by
  by_cases hyx : y = x
  · rw [hyx]
    exact h.op
  · rw [h.instr y hy hyx]

/-- A rewrite changes no other instruction's slot. -/
theorem Wrapped.slotOf_eq {f : String} {x k : Nat} {v : Value} {F G : Func}
    (h : Wrapped f x k v F G) (hlinked : F.Linked) {l : Nat} (hl : l < F.next) (hne : l ≠ x) :
    G.slotOf l = F.slotOf l := by
  rw [Func.slotOf, Func.slotOf, Func.operand, h.instr l hl hne]
  show (F.operand l 0).bind _ = (F.operand l 0).bind _
  cases hp : F.operand l 0 with
  | none => rfl
  | some p =>
      rw [Option.bind_some, Option.bind_some, Func.dynCast, Func.dynCast]
      cases hy : p.ref with
      | inst y => simp only [h.op_eq (hlinked.operand_lt l 0 p y hp hy)]
      | _ => rfl

/-- **What a rewrite does.** -/
theorem Func.wrapped_wrapOperand (F : Func) (f : String) {x k : Nat} {v : Value}
    (hx : x < F.next) (hv : F.operand x k = some v) : Wrapped f x k v F (F.wrapOperand f x k) := by
  obtain ⟨hg₁, harg⟩ := grows_createBitCast F x v voidPtrTy
  generalize hc₁ : F.createBitCast x v voidPtrTy = c₁ at hg₁ harg
  have hg₂ := grows_create c₁.1 x (.call (some ⟨f, true⟩) none) c₁.2 voidPtrTy
  generalize hF₂ : c₁.1.create x (.call (some ⟨f, true⟩) none) c₁.2 voidPtrTy = F₂ at hg₂
  have hn₂ : F₂.next = c₁.1.next + 1 := by rw [← hF₂]; rfl
  have hcall : F₂.instr c₁.1.next = ⟨.call (some ⟨f, true⟩) none, [c₁.2], voidPtrTy, ""⟩ := by
    rw [← hF₂]
    exact c₁.1.create_instr_self x _ c₁.2 voidPtrTy
  obtain ⟨hg₃, hback⟩ := grows_createBitCast F₂ x ⟨.inst c₁.1.next, voidPtrTy⟩ v.ty
  have hcases := createBitCast_cases F₂ x (v := ⟨.inst c₁.1.next, voidPtrTy⟩) v.ty rfl
  have hcasts := fun G hG => castsTo_createBitCast (F := F₂) (G := G) (x := x)
    (v := ⟨.inst c₁.1.next, voidPtrTy⟩) v.ty rfl hG
  generalize hc₃ : F₂.createBitCast x ⟨.inst c₁.1.next, voidPtrTy⟩ v.ty = c₃
    at hg₃ hback hcases hcasts
  have hle₁ := hg₁.next_le
  have hle₃ := hg₃.next_le
  have hg : Grows v F c₃.1 := by
    apply (hg₁.trans hg₂ harg).trans hg₃
    intro y hy h
    have := Ref.inst.inj h
    omega
  have hG : F.wrapOperand f x k = c₃.1.setOperand x k c₃.2 := by
    simp only [Func.wrapOperand, hv, Func.createCall, hc₁, hF₂, hc₃]
  have hold : c₃.1.operand x k = some v := by
    rw [Func.operand, hg.instr x hx]
    exact hv
  -- the new operand is the call or the bitcast behind it
  have hnew : ∃ z, c₃.2.ref = .inst z ∧ F.next ≤ z ∧ z < c₃.1.next ∧
      ((c₃.1.instr z).op = .bitcast ∨ (c₃.1.instr z).op = .call (some ⟨f, true⟩) none) := by
    rcases hcases with h | h
    · refine ⟨c₁.1.next, ?_, hle₁, ?_, Or.inr ?_⟩
      · rw [h]
      · rw [h]
        show c₁.1.next < F₂.next
        omega
      · rw [h]
        show (F₂.instr c₁.1.next).op = _
        rw [hcall]
    · refine ⟨F₂.next, ?_, by omega, ?_, Or.inl ?_⟩
      · rw [h]
      · rw [h]
        exact Nat.lt_succ_self _
      · rw [h]
        show ((F₂.create x .bitcast ⟨.inst c₁.1.next, voidPtrTy⟩ v.ty).instr F₂.next).op = _
        rw [F₂.create_instr_self]
  obtain ⟨z, hz, hzlo, hzhi, hzop⟩ := hnew
  have hkeep : ∀ y, F.next ≤ y → (c₃.1.setOperand x k c₃.2).instr y = c₃.1.instr y := fun y hy =>
    c₃.1.setOperand_instr_of_ne (by omega) k c₃.2
  have hself : (c₃.1.setOperand x k c₃.2).operand x k = some c₃.2 := by
    rw [c₃.1.setOperand_operand, if_pos ⟨rfl, rfl⟩, hold]
    rfl
  rw [hG]
  refine ⟨hg.name, Nat.lt_of_le_of_lt hzlo hzhi, fun y hy hne => ?_, ?_, ?_, fun j hj => ?_,
    fun y hy hvy => ?_, ⟨z, c₃.2, hself, hz, hzlo, ?_⟩, fun y hvy w hw => ?_⟩
  · rw [c₃.1.setOperand_instr_of_ne hne, hg.instr y hy]
  · rw [c₃.1.setOperand_instr_self, hg.instr x hx]
  · rw [c₃.1.setOperand_instr_self, hg.instr x hx]
  · rw [c₃.1.setOperand_operand, if_neg (fun h => hj h.2), Func.operand, hg.instr x hx]
    rfl
  · have hne : c₃.2.ref ≠ .inst y := by
      rw [hz]
      intro h
      have := Ref.inst.inj h
      omega
    simp only [Func.setOperand, hold]
    rw [addUse_of_ne hne, dropUse_of_ne hvy, hg.users y hy hvy]
  · rw [hkeep z hzlo]
    exact hzop
  · rw [hself] at hw
    obtain rfl := Option.some.inj hw
    have hcallG : (c₃.1.setOperand x k c₃.2).instr c₁.1.next
        = ⟨.call (some ⟨f, true⟩) none, [c₁.2], voidPtrTy, ""⟩ := by
      rw [hkeep _ hle₁, hg₃.instr _ (by omega), hcall]
    refine ⟨c₁.1.next, hle₁, hcasts _ fun u hlo _ => hkeep u (by omega), ?_, c₁.2, ?_, ?_⟩
    · rw [hcallG]
    · rw [Func.operand, hcallG]
      rfl
    · rw [← hc₁]
      apply castsTo_createBitCast voidPtrTy hvy
      intro u hlo hhi
      rw [hc₁] at hhi ⊢
      rw [hkeep u hlo, hg₃.instr u (by omega), hg₂.instr u hhi]

end PTAuth.Pass
