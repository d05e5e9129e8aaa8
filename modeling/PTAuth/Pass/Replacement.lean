import Mathlib.Data.Set.Function
import PTAuth.Pass.PassUtils

/-!
# The replacement phase of `runOnModule`

`replaceFuncionWith` creates a function under the new name and, as long as the old one has a use, takes the
user at the head of its use list for a call, puts a call of the new function with the same arguments
in front of it, lets the uses of the old call use the new one and erases the old call. Creating the
call adds uses of its arguments, also of the old function if it is one of them.

So the loop ends exactly if the function is never an argument (`replaceUses_ends`,
`replaceUses_never_ends`); then every call of it has become one of the new function, and nothing
else has changed but the numbers of these calls (`Retargets`).

The symbol table keeps names unique: the name that a new function gets is `setName` of the names in
use and the name asked for.
-/

set_option autoImplicit false

namespace PTAuth.Pass

/-! ## Replacing a call -/

/-- The value with instructions renumbered. -/
def Value.rename (σ : Nat → Nat) (v : Value) : Value :=
  match v.ref with
  | .inst y => ⟨.inst (σ y), v.ty⟩
  | _ => v

/-- The instruction with its operands renumbered. -/
def Instr.rename (σ : Nat → Nat) (i : Instr) : Instr :=
  { i with operands := i.operands.map (Value.rename σ) }

/-- `arg_begin` to `arg_end`; an indirect call has its function value behind the arguments. -/
def Instr.args (i : Instr) : List Value :=
  match i.op with
  | .call none _ => i.operands.dropLast
  | _ => i.operands

/-- `CallInst::Create` in front of `x`. -/
def Func.createCallOf (F : Func) (x : Nat) (callee : Callee) (returned : Option Nat)
    (args : List Value) (ty : Ty) : Func where
  name := F.name
  layout := F.layout.map (insertBefore x F.next)
  instr := Function.update F.instr F.next ⟨.call (some callee) returned, args, ty, ""⟩
  users := args.zipIdx.foldl (fun users p => addUse users p.1 (F.next, p.2))
    (Function.update F.users F.next [])
  next := F.next + 1

/-- `replaceAllUsesWith`: the uses move one by one from the head of one list to the head of the
other. -/
def Func.replaceAllUsesWith (F : Func) (x y : Nat) : Func where
  name := F.name
  layout := F.layout
  instr := fun z => (F.instr z).rename (Function.update id x y)
  users := Function.update (Function.update F.users y ((F.users x).reverse ++ F.users y)) x []
  next := F.next

/-- `erase`. -/
def Func.erase (F : Func) (x : Nat) : Func where
  name := F.name
  layout := F.layout.map (List.filter (· != x))
  instr := Function.update F.instr x Instr.unused
  users := (F.instr x).operands.zipIdx.foldl (fun users p => dropUse users p.1 (x, p.2)) F.users
  next := F.next

/-- The body of the loop of `replaceFuncionWith`, for the user `x`. -/
def Func.replaceCall (F : Func) (x : Nat) (callee : Callee) (returned : Option Nat) (ty : Ty) : Func :=
  ((F.createCallOf x callee returned (F.instr x).args ty).replaceAllUsesWith x F.next).erase x

/-! ## Modules -/

/-- A use of a function: as operand `index` of the instruction `inst` of the function `user`, or as
its callee. -/
structure FunctionUse where
  user : String
  inst : Nat
  index : Option Nat
  deriving DecidableEq, Repr

/-- Functions in module order, global variables, the bodies of the functions, what their types and
attributes say of their results, and their use lists, most recent use first. -/
structure Module where
  functions : List String
  globalVariables : List String
  body : String → Func
  returnTy : String → Ty
  returned : String → Option Nat
  uses : String → List FunctionUse

/-- The symbol table. -/
def Module.names (M : Module) : List String := M.functions ++ M.globalVariables

/-- The uses of `g` by a call of `callee`. -/
def callUses (user : String) (n : Nat) (callee : String) (args : List Value) (g : String) :
    List FunctionUse :=
  ((args.zipIdx.filter fun p => p.1.ref == .function g).map fun p =>
    ⟨user, n, some p.2⟩).reverse ++ if g = callee then [⟨user, n, none⟩] else []

/-- The body of the loop of `replaceFuncionWith`, for the user of the use `u`. -/
def Module.replaceUser (M : Module) (custom : String) (u : FunctionUse) : Module :=
  let F := M.body u.user
  { M with
    body := Function.update M.body u.user
      (F.replaceCall u.inst ⟨custom, true⟩ (M.returned custom) (M.returnTy custom))
    uses := fun g => callUses u.user F.next custom (F.instr u.inst).args g ++
      (M.uses g).filter fun w => !(w.user == u.user && w.inst == u.inst) }

/-- The loop of `replaceFuncionWith`. There is no result where a user is no call. -/
def replaceUses (func custom : String) : Nat → Module → Option Module
  | 0, _ => none
  | fuel + 1, M =>
      -- `use_begin`; the operand number of the use is not looked at
      match M.uses func with
      | [] => some M
      | u :: _ =>
          if ((M.body u.user).instr u.inst).op.isCall then
            replaceUses func custom fuel (M.replaceUser custom u)
          else none

/-- The new function, in front of `func`, with its type and attributes. -/
def Module.create (M : Module) (func custom : String) : Module where
  functions := M.functions.flatMap fun g => if g = func then [custom, g] else [g]
  globalVariables := M.globalVariables
  body := Function.update M.body custom ⟨custom, [], fun _ => Instr.unused, fun _ => [], 0⟩
  returnTy := Function.update M.returnTy custom (M.returnTy func)
  returned := Function.update M.returned custom (M.returned func)
  uses := Function.update M.uses custom []

/-- `replaceFuncionWith`. -/
def replaceFuncionWith (setName : List String → String → String) (fuel : Nat) (M : Module)
    (func replace : String) : Option Module :=
  replaceUses func (setName M.names replace) fuel (M.create func (setName M.names replace))

/-- The functions that are replaced. -/
def replacements : List (String × String) :=
  [("malloc", "__ptauth_malloc"), ("calloc", "__ptauth_calloc"), ("realloc", "__ptauth_realloc"),
    ("free", "__ptauth_free")]

/-- The body of the first loop of `runOnModule`. -/
def replaceFunction (setName : List String → String → String) (fuel : Nat) (M : Module)
    (func : String) : Option Module :=
  match replacements.lookup func with
  | none => some M
  | some replace => replaceFuncionWith setName fuel M func replace

/-- The first loop of `runOnModule`; functions that it inserts are behind its iterator. -/
def replacementPhase (setName : List String → String → String) (fuel : Nat) (M : Module) :
    Option Module :=
  M.functions.foldlM (replaceFunction setName fuel) M

/-! ## The effect on a body -/

theorem Value.rename_function {σ : Nat → Nat} {v : Value} {g : String} :
    (v.rename σ).ref = .function g ↔ v.ref = .function g := by
  rw [Value.rename]
  split
  · rename_i hv
    rw [hv]
    simp
  · rfl

theorem Value.rename_rename (σ τ : Nat → Nat) (v : Value) :
    (v.rename σ).rename τ = v.rename (τ ∘ σ) := by
  cases h : v.ref with
  | inst y => simp [Value.rename, h]
  | _ => simp [Value.rename, h]

theorem Value.rename_id (v : Value) : v.rename id = v := by
  cases h : v.ref with
  | inst y =>
      simp only [Value.rename, h, id_eq]
      rw [← h]
  | _ => simp [Value.rename, h]

theorem Instr.rename_id (i : Instr) : i.rename id = i := by
  have hid : Value.rename id = id := funext Value.rename_id
  rw [Instr.rename, hid, List.map_id]

section Body

variable {F : Func} {x : Nat} {callee : Callee} {returned : Option Nat} {ty : Ty}

/-- The renumbering of a replaced call. -/
def renumber (x n : Nat) : Nat → Nat := Function.update id x n

@[simp] theorem renumber_self (x n : Nat) : renumber x n x = n := Function.update_self _ _ _

theorem renumber_of_ne {x n y : Nat} (h : y ≠ x) : renumber x n y = y := Function.update_of_ne h _ _

theorem Func.replaceCall_layout (hx : x < F.next) :
    (F.replaceCall x callee returned ty).layout = F.layout.map (List.map (renumber x F.next)) := by
  -- the new call is put in front of the old one, which goes
  have hblock : ∀ block : List Nat, (insertBefore x F.next block).filter (· != x) =
      block.map (renumber x F.next) := by
    intro block
    rw [insertBefore]
    induction block with
    | nil => rfl
    | cons y block ih =>
        rw [List.flatMap_cons, List.filter_append, List.map_cons, ih]
        by_cases hy : y = x
        · subst hy
          simp [Nat.ne_of_gt hx]
        · rw [renumber_of_ne hy]
          simp [hy]
  show ((F.layout.map (insertBefore x F.next)).map (List.filter (· != x))) = _
  rw [List.map_map]
  exact List.map_congr_left fun block _ => hblock block

theorem Func.replaceCall_ids (hx : x < F.next) :
    (F.replaceCall x callee returned ty).ids = F.ids.map (renumber x F.next) := by
  rw [Func.ids, F.replaceCall_layout hx, Func.ids, List.map_flatten]

/-- The replaced call. -/
theorem Func.replaceCall_new (hx : x < F.next) :
    (F.replaceCall x callee returned ty).instr F.next =
      Instr.rename (renumber x F.next) ⟨.call (some callee) returned, (F.instr x).args, ty, ""⟩ := by
  simp only [Func.replaceCall, Func.erase, Func.replaceAllUsesWith, Func.createCallOf]
  rw [Function.update_of_ne (Nat.ne_of_gt hx), Function.update_self]
  rfl

/-- The other instructions. -/
theorem Func.replaceCall_other {y : Nat} (hy : y < F.next) (hyx : y ≠ x) :
    (F.replaceCall x callee returned ty).instr y = (F.instr y).rename (renumber x F.next) := by
  simp only [Func.replaceCall, Func.erase, Func.replaceAllUsesWith, Func.createCallOf]
  rw [Function.update_of_ne hyx, Function.update_of_ne (Nat.ne_of_lt hy)]
  rfl

end Body

/-! ## Uses -/

/-- `i` uses the function `g` as its operand `index`, or as its callee. -/
def Instr.UsesAt (i : Instr) (g : String) : Option Nat → Prop
  | none => ∃ callee returned, i.op = .call (some callee) returned ∧ callee.name = g
  | some k => ∃ v, i.operands[k]? = some v ∧ v.ref = .function g

/-- `u` is a use of `g` in the module. -/
structure Module.IsUse (M : Module) (g : String) (u : FunctionUse) : Prop where
  user : u.user ∈ M.functions
  mem : u.inst ∈ (M.body u.user).ids
  usesAt : ((M.body u.user).instr u.inst).UsesAt g u.index

/-- What a module is: names are unique, use lists list the uses, calls have the type of their
callee, and the function value of an indirect call is no function. -/
structure Module.Consistent (M : Module) : Prop where
  names : M.functions.Nodup
  ids_lt : ∀ G ∈ M.functions, ∀ x ∈ (M.body G).ids, x < (M.body G).next
  declared : ∀ g u, M.IsUse g u → g ∈ M.functions
  typed : ∀ G ∈ M.functions, ∀ x ∈ (M.body G).ids, ∀ callee returned,
    ((M.body G).instr x).op = .call (some callee) returned →
      ((M.body G).instr x).ty = M.returnTy callee.name
  indirect : ∀ G ∈ M.functions, ∀ x ∈ (M.body G).ids, ∀ returned v g,
    ((M.body G).instr x).op = .call none returned →
      ((M.body G).instr x).operands.getLast? = some v → v.ref ≠ .function g
  uses_iff : ∀ g u, u ∈ M.uses g ↔ M.IsUse g u
  uses_nodup : ∀ g, (M.uses g).Nodup

theorem Instr.usesAt_rename {i : Instr} {σ : Nat → Nat} {g : String} {index : Option Nat} :
    (i.rename σ).UsesAt g index ↔ i.UsesAt g index := by
  cases index with
  | none => rfl
  | some k =>
      simp only [Instr.UsesAt, Instr.rename, List.getElem?_map, Option.map_eq_some_iff]
      constructor
      · rintro ⟨v, ⟨w, hw, rfl⟩, hv⟩
        exact ⟨w, hw, Value.rename_function.1 hv⟩
      · rintro ⟨w, hw, hg⟩
        exact ⟨w.rename σ, ⟨w, hw, rfl⟩, Value.rename_function.2 hg⟩

theorem mem_callUses {user custom g : String} {n : Nat} {args : List Value} {w : FunctionUse} :
    w ∈ callUses user n custom args g ↔ w.user = user ∧ w.inst = n ∧
      Instr.UsesAt ⟨.call (some ⟨custom, true⟩) none, args, voidPtrTy, ""⟩ g w.index := by
  obtain ⟨u, m, index⟩ := w
  rw [callUses, List.mem_append, List.mem_reverse, List.mem_map]
  cases index with
  -- the callee comes from the second list, operands from the first
  | none =>
      simp only [Instr.UsesAt, Op.call.injEq, Option.some.injEq]
      constructor
      · rintro (⟨p, -, hp⟩ | hmem)
        · exact absurd hp (by simp)
        · split at hmem
          · rename_i hg
            simp only [List.mem_singleton, FunctionUse.mk.injEq] at hmem
            exact ⟨hmem.1, hmem.2.1, _, none, ⟨rfl, rfl⟩, hg.symm⟩
          · exact absurd hmem List.not_mem_nil
      · rintro ⟨rfl, rfl, callee, returned, ⟨rfl, -⟩, rfl⟩
        exact Or.inr (by simp)
  | some k =>
      simp only [Instr.UsesAt]
      constructor
      · rintro (⟨p, hp, he⟩ | hmem)
        · obtain ⟨hmem, href⟩ := List.mem_filter.1 hp
          simp only [FunctionUse.mk.injEq, Option.some.injEq] at he
          obtain ⟨rfl, rfl, rfl⟩ := he
          exact ⟨rfl, rfl, p.1, (List.mk_mem_zipIdx_iff_getElem?).1 hmem, beq_iff_eq.1 href⟩
        · split at hmem
          · simp at hmem
          · exact absurd hmem List.not_mem_nil
      · rintro ⟨rfl, rfl, v, hv, href⟩
        refine Or.inl ⟨(v, k), List.mem_filter.2 ⟨?_, beq_iff_eq.2 href⟩, rfl⟩
        exact List.mk_mem_zipIdx_iff_getElem?.2 hv

theorem nodup_callUses (user custom g : String) (n : Nat) (args : List Value) :
    (callUses user n custom args g).Nodup := by
  have hidx : ((args.zipIdx.filter fun p => p.1.ref == .function g).map Prod.snd).Nodup := by
    apply List.Nodup.sublist (List.filter_sublist.map Prod.snd)
    rw [List.zipIdx_map_snd]
    exact List.nodup_range'
  have hargs : ((args.zipIdx.filter fun p => p.1.ref == .function g).map fun p =>
      (⟨user, n, some p.2⟩ : FunctionUse)).Nodup := by
    have hinj : Function.Injective fun k => (⟨user, n, some k⟩ : FunctionUse) := by
      intro j k h
      simpa using h
    have hnodup := hidx.map hinj
    rwa [List.map_map] at hnodup
  rw [callUses]
  refine List.Nodup.append (List.nodup_reverse.2 hargs) ?_ ?_
  · split
    · exact List.nodup_singleton _
    · exact List.nodup_nil
  · intro w hw hcallee
    obtain ⟨p, -, rfl⟩ := List.mem_map.1 (List.mem_reverse.1 hw)
    split at hcallee
    · exact absurd (List.mem_singleton.1 hcallee) (by simp)
    · exact absurd hcallee List.not_mem_nil

/-! ## One round of the loop -/

theorem Instr.operand_of_args {i : Instr} {k : Nat} {v : Value} (h : i.args[k]? = some v) :
    i.operands[k]? = some v := by
  rw [Instr.args] at h
  split at h
  · rw [List.dropLast_eq_take, List.getElem?_take] at h
    split at h
    · exact h
    · exact absurd h (by simp)
  · exact h

/-- A function that is an operand is an argument. -/
theorem Instr.args_of_operand {i : Instr} {k : Nat} {v : Value} {g : String}
    (hindirect : ∀ returned w, i.op = .call none returned → i.operands.getLast? = some w →
      w.ref ≠ .function g)
    (h : i.operands[k]? = some v) (hv : v.ref = .function g) : i.args[k]? = some v := by
  rw [Instr.args]
  split
  · rename_i returned hop
    rw [List.dropLast_eq_take, List.getElem?_take, if_pos, h]
    obtain ⟨hlt, hget⟩ := List.getElem?_eq_some_iff.1 h
    -- the last operand of an indirect call is its function value
    by_contra hlast
    refine hindirect returned v hop ?_ hv
    rw [List.getLast?_eq_getElem?, ← h]
    congr 1
    omega
  · exact h

/-- Callees are no operands. -/
theorem Instr.usesAt_call {callee : Callee} {r s : Option Nat} {args : List Value} {ty ty' : Ty}
    {name name' g : String} {index : Option Nat} :
    Instr.UsesAt ⟨.call (some callee) r, args, ty, name⟩ g index ↔
      Instr.UsesAt ⟨.call (some callee) s, args, ty', name'⟩ g index := by
  cases index with
  | none => simp [Instr.UsesAt]
  | some k => rfl

section Round

variable {M : Module} {custom : String} {u : FunctionUse}

theorem Func.mem_ids_replaceCall {F : Func} {x : Nat} {callee : Callee} {returned : Option Nat}
    {ty : Ty} (hlt : ∀ y ∈ F.ids, y < F.next) (hx : x ∈ F.ids) {z : Nat} :
    z ∈ (F.replaceCall x callee returned ty).ids ↔ z = F.next ∨ z ∈ F.ids ∧ z ≠ x := by
  rw [F.replaceCall_ids (hlt x hx), List.mem_map]
  constructor
  · rintro ⟨y, hy, rfl⟩
    by_cases hyx : y = x
    · subst hyx
      exact Or.inl (renumber_self _ _)
    · rw [renumber_of_ne hyx]
      exact Or.inr ⟨hy, hyx⟩
  · rintro (rfl | ⟨hz, hzx⟩)
    · exact ⟨x, hx, renumber_self _ _⟩
    · exact ⟨z, hz, renumber_of_ne hzx⟩

theorem Module.body_replaceUser_self :
    (M.replaceUser custom u).body u.user = (M.body u.user).replaceCall u.inst ⟨custom, true⟩
      (M.returned custom) (M.returnTy custom) :=
  Function.update_self _ _ _

theorem Module.body_replaceUser_of_ne {G : String} (h : G ≠ u.user) :
    (M.replaceUser custom u).body G = M.body G :=
  Function.update_of_ne h _ _

/-- The uses after a round: those of the new call and those of all calls but the old one. -/
theorem Module.Consistent.isUse_replaceUser (hM : M.Consistent) (huser : u.user ∈ M.functions)
    (hinst : u.inst ∈ (M.body u.user).ids) {g : String} {w : FunctionUse} :
    (M.replaceUser custom u).IsUse g w ↔
      (w.user = u.user ∧ w.inst = (M.body u.user).next ∧
        Instr.UsesAt ⟨.call (some ⟨custom, true⟩) none, ((M.body u.user).instr u.inst).args,
          voidPtrTy, ""⟩ g w.index) ∨
      M.IsUse g w ∧ ¬ (w.user = u.user ∧ w.inst = u.inst) := by
  have hlt := hM.ids_lt u.user huser
  have hx := hlt u.inst hinst
  obtain ⟨G, z, index⟩ := w
  by_cases hG : G = u.user
  -- in the rewritten body an instruction is the new call or an old one that was renumbered
  · subst hG
    constructor
    · rintro ⟨hmem, hz, huses⟩
      simp only [Module.body_replaceUser_self] at hz huses
      rw [Func.mem_ids_replaceCall hlt hinst] at hz
      rcases hz with rfl | ⟨hz, hzx⟩
      · rw [Func.replaceCall_new hx, Instr.usesAt_rename] at huses
        exact Or.inl ⟨rfl, rfl, Instr.usesAt_call.1 huses⟩
      · rw [Func.replaceCall_other (hlt z hz) hzx, Instr.usesAt_rename] at huses
        exact Or.inr ⟨⟨hmem, hz, huses⟩, fun h => hzx h.2⟩
    · rintro (⟨-, rfl, huses⟩ | ⟨⟨hmem, hz, huses⟩, hne⟩)
      · refine ⟨huser, ?_, ?_⟩
        · simp only [Module.body_replaceUser_self]
          exact (Func.mem_ids_replaceCall hlt hinst).2 (Or.inl rfl)
        · simp only [Module.body_replaceUser_self]
          rw [Func.replaceCall_new hx, Instr.usesAt_rename]
          exact Instr.usesAt_call.1 huses
      · have hzx : z ≠ u.inst := fun h => hne ⟨rfl, h⟩
        refine ⟨huser, ?_, ?_⟩
        · simp only [Module.body_replaceUser_self]
          exact (Func.mem_ids_replaceCall hlt hinst).2 (Or.inr ⟨hz, hzx⟩)
        · simp only [Module.body_replaceUser_self]
          rw [Func.replaceCall_other (hlt z hz) hzx, Instr.usesAt_rename]
          exact huses
  · constructor
    · rintro ⟨hmem, hz, huses⟩
      simp only [Module.body_replaceUser_of_ne hG] at hz huses
      exact Or.inr ⟨⟨hmem, hz, huses⟩, fun h => hG h.1⟩
    · rintro (⟨h, -, -⟩ | ⟨⟨hmem, hz, huses⟩, -⟩)
      · exact absurd h hG
      · refine ⟨hmem, ?_, ?_⟩
        · simpa only [Module.body_replaceUser_of_ne hG] using hz
        · simpa only [Module.body_replaceUser_of_ne hG] using huses

theorem Module.mem_uses_replaceUser {g : String} {w : FunctionUse} :
    w ∈ (M.replaceUser custom u).uses g ↔
      (w.user = u.user ∧ w.inst = (M.body u.user).next ∧
        Instr.UsesAt ⟨.call (some ⟨custom, true⟩) none, ((M.body u.user).instr u.inst).args,
          voidPtrTy, ""⟩ g w.index) ∨
      w ∈ M.uses g ∧ ¬ (w.user = u.user ∧ w.inst = u.inst) := by
  show w ∈ _ ++ _ ↔ _
  rw [List.mem_append, mem_callUses, List.mem_filter]
  simp [imp_iff_not_or]

/-- A round keeps a module consistent. -/
theorem Module.Consistent.replaceUser (hM : M.Consistent) (hcustom : custom ∈ M.functions)
    (huser : u.user ∈ M.functions) (hinst : u.inst ∈ (M.body u.user).ids) :
    (M.replaceUser custom u).Consistent := by
  have hlt := hM.ids_lt u.user huser
  have hx := hlt u.inst hinst
  -- every instruction is the new call or an old one, up to renumbering
  have hinstr : ∀ G ∈ M.functions, ∀ z ∈ ((M.replaceUser custom u).body G).ids,
      (∃ σ, ((M.replaceUser custom u).body G).instr z = Instr.rename σ
        ⟨.call (some ⟨custom, true⟩) (M.returned custom), ((M.body u.user).instr u.inst).args,
          M.returnTy custom, ""⟩) ∨
      (z ∈ (M.body G).ids ∧
        ∃ σ, ((M.replaceUser custom u).body G).instr z = ((M.body G).instr z).rename σ) := by
    intro G hG z hz
    by_cases hGu : G = u.user
    · subst hGu
      rw [Module.body_replaceUser_self] at hz ⊢
      rcases (Func.mem_ids_replaceCall hlt hinst).1 hz with rfl | ⟨hz, hzx⟩
      · exact Or.inl ⟨_, Func.replaceCall_new hx⟩
      · exact Or.inr ⟨hz, _, Func.replaceCall_other (hlt z hz) hzx⟩
    · rw [Module.body_replaceUser_of_ne hGu] at hz ⊢
      exact Or.inr ⟨hz, id, (Instr.rename_id _).symm⟩
  refine { names := hM.names, ids_lt := ?lt, declared := ?declared, typed := ?typed,
           indirect := ?indirect, uses_iff := ?uses, uses_nodup := ?nodup }
  case lt =>
    intro G hG z hz
    by_cases hGu : G = u.user
    · subst hGu
      rw [Module.body_replaceUser_self] at hz ⊢
      rcases (Func.mem_ids_replaceCall hlt hinst).1 hz with rfl | ⟨hz, -⟩
      · exact Nat.lt_succ_self _
      · exact Nat.lt_succ_of_lt (hlt z hz)
    · rw [Module.body_replaceUser_of_ne hGu] at hz ⊢
      exact hM.ids_lt G hG z hz
  case declared =>
    intro g w hw
    rcases (hM.isUse_replaceUser huser hinst).1 hw with ⟨-, -, huses⟩ | ⟨hw, -⟩
    · cases hindex : w.index with
      | none =>
          rw [hindex] at huses
          obtain ⟨callee, returned, hop, rfl⟩ := huses
          cases hop
          exact hcustom
      | some k =>
          rw [hindex] at huses
          obtain ⟨v, hv, href⟩ := huses
          exact hM.declared g ⟨u.user, u.inst, some k⟩
            ⟨huser, hinst, v, Instr.operand_of_args hv, href⟩
    · exact hM.declared g w hw
  case typed =>
    intro G hG z hz callee returned hop
    rcases hinstr G hG z hz with ⟨σ, hi⟩ | ⟨hz, σ, hi⟩
    · rw [hi] at hop ⊢
      cases hop
      rfl
    · rw [hi] at hop ⊢
      exact hM.typed G hG z hz callee returned hop
  case indirect =>
    intro G hG z hz returned v g hop hlast
    rcases hinstr G hG z hz with ⟨σ, hi⟩ | ⟨hz, σ, hi⟩
    · rw [hi] at hop
      cases hop
    · rw [hi] at hop hlast
      simp only [Instr.rename, List.getLast?_map, Option.map_eq_some_iff] at hlast
      obtain ⟨w, hw, rfl⟩ := hlast
      exact fun hg => hM.indirect G hG z hz returned w g hop hw (Value.rename_function.1 hg)
  case uses =>
    intro g w
    rw [Module.mem_uses_replaceUser, hM.isUse_replaceUser huser hinst, hM.uses_iff]
  case nodup =>
    -- the number of the new call is unused, so its uses are not among the old ones
    intro g
    apply List.Nodup.append (nodup_callUses _ _ _ _ _) ((hM.uses_nodup g).filter _)
    intro w hnew hold
    have hw := (hM.uses_iff g w).1 (List.mem_filter.1 hold).1
    obtain ⟨hwu, hwn, -⟩ := mem_callUses.1 hnew
    have hmem := hw.mem
    rw [hwu, hwn] at hmem
    exact absurd (hlt _ hmem) (Nat.lt_irrefl _)

end Round

/-! ## Calls of other functions -/

/-- `j` is `i` with operands renumbered by `σ`, or a call of `n` instead of `f`, where `T f n`. -/
def Instr.RetargetedTo (T : String → String → Prop) (σ : Nat → Nat) (i j : Instr) : Prop :=
  j = i.rename σ ∨ ∃ callee returned n returned', i.op = .call (some callee) returned ∧
    T callee.name n ∧ j.op = .call (some ⟨n, true⟩) returned' ∧
      j.operands = (i.rename σ).operands ∧ j.ty = i.ty

/-- `M'` is `M` with numbers changed by `σ`, new functions that have no body, and calls retargeted
by `T`. -/
structure Module.Retargets (T : String → String → Prop) (σ : String → Nat → Nat) (M M' : Module) :
    Prop where
  functions : M.functions.Sublist M'.functions
  layout : ∀ G ∈ M.functions, (M'.body G).layout = (M.body G).layout.map (List.map (σ G))
  injOn : ∀ G ∈ M.functions, Set.InjOn (σ G) {x | x ∈ (M.body G).ids}
  instr : ∀ G ∈ M.functions, ∀ x ∈ (M.body G).ids,
    Instr.RetargetedTo T (σ G) ((M.body G).instr x) ((M'.body G).instr (σ G x))
  added : ∀ G ∈ M'.functions, G ∉ M.functions → (M'.body G).layout = []

namespace Instr

variable {T T' : String → String → Prop} {σ τ : Nat → Nat} {i j k : Instr}

theorem RetargetedTo.mono (h : i.RetargetedTo T σ j) (hT : ∀ f n, T f n → T' f n) :
    i.RetargetedTo T' σ j := by
  rcases h with rfl | ⟨callee, returned, n, returned', hop, hn, hj⟩
  · exact Or.inl rfl
  · exact Or.inr ⟨callee, returned, n, returned', hop, hT _ _ hn, hj⟩

theorem RetargetedTo.operands (h : i.RetargetedTo T σ j) : j.operands = (i.rename σ).operands := by
  rcases h with rfl | ⟨_, _, _, _, _, _, _, hj, _⟩
  · rfl
  · exact hj

theorem RetargetedTo.ty (h : i.RetargetedTo T σ j) : j.ty = i.ty := by
  rcases h with rfl | ⟨_, _, _, _, _, _, _, _, hj⟩
  · rfl
  · exact hj

theorem rename_rename (i : Instr) (σ τ : Nat → Nat) : (i.rename σ).rename τ = i.rename (τ ∘ σ) := by
  have hcomp : Value.rename τ ∘ Value.rename σ = Value.rename (τ ∘ σ) :=
    funext (Value.rename_rename σ τ)
  simp only [rename, List.map_map, hcomp]

/-- Retargeting twice, where no new callee is retargeted again. -/
theorem RetargetedTo.trans (h : i.RetargetedTo T σ j) (h' : j.RetargetedTo T τ k)
    (hnew : ∀ f n m, T f n → ¬ T n m) : i.RetargetedTo T (τ ∘ σ) k := by
  rcases h with rfl | ⟨callee, returned, n, returned', hop, hn, hj, hjops, hjty⟩
  · rcases h' with rfl | ⟨callee, returned, n, returned', hop, hn, hk, hkops, hkty⟩
    · exact Or.inl (rename_rename i σ τ)
    · refine Or.inr ⟨callee, returned, n, returned', hop, hn, hk, ?_, hkty⟩
      rw [hkops, rename_rename]
  · rcases h' with rfl | ⟨callee', _, m, _, hop', hm, _⟩
    · refine Or.inr ⟨callee, returned, n, returned', hop, hn, hj, ?_, hjty⟩
      rw [← rename_rename i σ τ]
      simp only [rename, hjops]
    · rw [hj] at hop'
      cases hop'
      exact absurd hm (hnew _ _ _ hn)

/-- An argument stays an argument, and a callee that is not retargeted a callee. -/
theorem RetargetedTo.usesAt_iff (h : i.RetargetedTo T σ j) {g : String}
    (hold : ∀ n, ¬ T g n) (hnew : ∀ f, ¬ T f g) {index : Option Nat} :
    j.UsesAt g index ↔ i.UsesAt g index := by
  cases index with
  | none =>
      rcases h with rfl | ⟨callee, returned, n, returned', hop, hn, hj, -⟩
      · exact usesAt_rename
      · constructor
        · rintro ⟨callee', _, hop', rfl⟩
          rw [hj] at hop'
          cases hop'
          exact absurd hn (hnew _)
        · rintro ⟨callee', _, hop', rfl⟩
          rw [hop] at hop'
          cases hop'
          exact absurd hn (hold _)
  | some k =>
      rw [← usesAt_rename (i := i) (σ := σ)]
      simp only [UsesAt, h.operands]

end Instr

namespace Module.Retargets

variable {T T' : String → String → Prop} {σ τ : String → Nat → Nat} {M M' M'' : Module}

theorem mono (h : Retargets T σ M M') (hT : ∀ f n, T f n → T' f n) : Retargets T' σ M M' :=
  ⟨h.functions, h.layout, h.injOn, fun G hG x hx => (h.instr G hG x hx).mono hT, h.added⟩

theorem ids (h : Retargets T σ M M') {G : String} (hG : G ∈ M.functions) :
    (M'.body G).ids = (M.body G).ids.map (σ G) := by
  rw [Func.ids, h.layout G hG, Func.ids, List.map_flatten]

theorem refl (T : String → String → Prop) (M : Module) : Retargets T (fun _ => id) M M where
  functions := List.Sublist.refl _
  layout := by
    intro G _
    rw [List.map_id_fun, List.map_id_fun]
    rfl
  injOn := fun _ _ => Function.injective_id.injOn
  instr := fun G _ x _ => Or.inl (Instr.rename_id _).symm
  added := fun G hG hG' => absurd hG hG'

theorem trans (h : Retargets T σ M M') (h' : Retargets T τ M' M'')
    (hnew : ∀ f n m, T f n → ¬ T n m) : Retargets T (fun G => τ G ∘ σ G) M M'' where
  functions := h.functions.trans h'.functions
  layout := by
    intro G hG
    rw [h'.layout G (h.functions.subset hG), h.layout G hG, List.map_map]
    apply List.map_congr_left
    intro block _
    exact List.map_map
  injOn := by
    intro G hG
    apply (h'.injOn G (h.functions.subset hG)).comp (h.injOn G hG)
    intro x hx
    show σ G x ∈ (M'.body G).ids
    rw [h.ids hG]
    exact List.mem_map_of_mem hx
  instr := by
    intro G hG x hx
    have hx' : σ G x ∈ (M'.body G).ids := by
      rw [h.ids hG]
      exact List.mem_map_of_mem hx
    exact (h.instr G hG x hx).trans (h'.instr G (h.functions.subset hG) (σ G x) hx') hnew
  added := by
    intro G hG hold
    by_cases hmid : G ∈ M'.functions
    · rw [h'.layout G hmid, h.added G hmid hold]
      rfl
    · exact h'.added G hG hmid

/-- Uses come from uses, of a function that is neither retargeted nor a new callee. -/
theorem isUse_iff (h : Retargets T σ M M') {g : String} (hold : ∀ n, ¬ T g n) (hnew : ∀ f, ¬ T f g)
    {w : FunctionUse} :
    M'.IsUse g w ↔ ∃ x, M.IsUse g ⟨w.user, x, w.index⟩ ∧ w.inst = σ w.user x := by
  constructor
  · rintro ⟨huser, hmem, huses⟩
    by_cases hG : w.user ∈ M.functions
    · rw [h.ids hG, List.mem_map] at hmem
      obtain ⟨x, hx, hxw⟩ := hmem
      refine ⟨x, ⟨hG, hx, ?_⟩, hxw.symm⟩
      rw [← hxw] at huses
      exact ((h.instr _ hG x hx).usesAt_iff hold hnew).1 huses
    · rw [Func.ids, h.added _ huser hG] at hmem
      exact absurd hmem List.not_mem_nil
  · rintro ⟨x, ⟨huser, hmem, huses⟩, hw⟩
    refine ⟨h.functions.subset huser, ?_, ?_⟩
    · rw [hw, h.ids huser]
      exact List.mem_map_of_mem hmem
    · rw [hw]
      exact ((h.instr _ huser x hmem).usesAt_iff hold hnew).2 huses

end Module.Retargets

/-! ## The loop -/

/-- The one callee that the loop changes. -/
def Only (func custom f n : String) : Prop := f = func ∧ n = custom

theorem Only.not_again {func custom : String} (hne : custom ≠ func) (f n m : String)
    (h : Only func custom f n) : ¬ Only func custom n m :=
  fun h' => hne (h.2.symm.trans h'.1)

section Loop

variable {M M' : Module} {func custom : String} {u : FunctionUse}

theorem Module.Consistent.isUse (hM : M.Consistent) {g : String} (hu : u ∈ M.uses g) : M.IsUse g u :=
  (hM.uses_iff g u).1 hu

/-- A round retargets the call. -/
theorem Module.Consistent.retargets_replaceUser (hM : M.Consistent) (hu : u ∈ M.uses func)
    (hindex : u.index = none) (hty : M.returnTy custom = M.returnTy func) :
    Module.Retargets (Only func custom)
      (Function.update (fun _ => id) u.user (renumber u.inst (M.body u.user).next)) M
      (M.replaceUser custom u) := by
  have hlt := hM.ids_lt u.user (hM.isUse hu).user
  have hx := hlt u.inst (hM.isUse hu).mem
  have huses := (hM.isUse hu).usesAt
  rw [hindex] at huses
  obtain ⟨callee, returned, hop, hcallee⟩ := huses
  constructor
  · exact List.Sublist.refl _
  · intro G hG
    by_cases hGu : G = u.user
    · subst hGu
      rw [Module.body_replaceUser_self, Function.update_self]
      exact Func.replaceCall_layout hx
    · rw [Module.body_replaceUser_of_ne hGu, Function.update_of_ne hGu, List.map_id_fun,
        List.map_id_fun]
      rfl
  -- only the call is renumbered, to a number that is unused
  · intro G hG
    by_cases hGu : G = u.user
    · subst hGu
      rw [Function.update_self]
      intro y hy z hz hyz
      have hy' := hlt y hy
      have hz' := hlt z hz
      by_cases hyx : y = u.inst
      · by_cases hzx : z = u.inst
        · rw [hyx, hzx]
        · rw [hyx, renumber_self, renumber_of_ne hzx] at hyz
          omega
      · by_cases hzx : z = u.inst
        · rw [hzx, renumber_self, renumber_of_ne hyx] at hyz
          omega
        · rwa [renumber_of_ne hyx, renumber_of_ne hzx] at hyz
    · rw [Function.update_of_ne hGu]
      exact Function.injective_id.injOn
  · intro G hG y hy
    by_cases hGu : G = u.user
    · subst hGu
      rw [Module.body_replaceUser_self, Function.update_self]
      by_cases hyx : y = u.inst
      · subst hyx
        rw [renumber_self, Func.replaceCall_new hx]
        refine Or.inr ⟨callee, returned, custom, M.returned custom, hop, ⟨hcallee, rfl⟩, rfl, ?_, ?_⟩
        · rw [Instr.args, hop]
          rfl
        · show M.returnTy custom = _
          rw [hM.typed u.user (hM.isUse hu).user u.inst hy callee returned hop, hcallee, hty]
      · rw [renumber_of_ne hyx, Func.replaceCall_other (hlt y hy) hyx]
        exact Or.inl rfl
    · rw [Module.body_replaceUser_of_ne hGu, Function.update_of_ne hGu]
      exact Or.inl (Instr.rename_id _).symm
  · exact fun G hG hold => absurd hG hold

/-- An argument stays in use: the new call has it too. -/
theorem Module.Consistent.argument_replaceUser (hM : M.Consistent) (custom : String)
    (u : FunctionUse) {v : FunctionUse} {k : Nat} (hv : v ∈ M.uses func) (hk : v.index = some k) :
    ∃ w ∈ (M.replaceUser custom u).uses func, w.index = some k := by
  by_cases hsame : v.user = u.user ∧ v.inst = u.inst
  · refine ⟨⟨u.user, (M.body u.user).next, some k⟩, ?_, rfl⟩
    refine Module.mem_uses_replaceUser.2 (Or.inl ⟨rfl, rfl, ?_⟩)
    have huses := (hM.isUse hv).usesAt
    rw [hk] at huses
    obtain ⟨a, ha, href⟩ := huses
    rw [← hsame.1, ← hsame.2]
    refine ⟨a, Instr.args_of_operand ?_ ha href, href⟩
    intro returned w hop hw
    exact hM.indirect v.user (hM.isUse hv).user v.inst (hM.isUse hv).mem returned w func hop hw
  · exact ⟨v, Module.mem_uses_replaceUser.2 (Or.inr ⟨hv, hsame⟩), hk⟩

/-- Calls of the function get fewer, and it does not become an argument. -/
theorem Module.Consistent.uses_replaceUser (hM : M.Consistent) (hne : custom ≠ func)
    (hu : u ∈ M.uses func) (hcalls : ∀ w ∈ M.uses func, w.index = none) :
    (M.replaceUser custom u).uses func =
      (M.uses func).filter fun w => !(w.user == u.user && w.inst == u.inst) := by
  -- the new call has another callee, and arguments that the old one had
  have hnew : callUses u.user (M.body u.user).next custom ((M.body u.user).instr u.inst).args
      func = [] := by
    apply List.eq_nil_iff_forall_not_mem.2
    intro w hw
    obtain ⟨-, -, huses⟩ := mem_callUses.1 hw
    cases hindex : w.index with
    | none =>
        rw [hindex] at huses
        obtain ⟨callee, returned, hop, hcallee⟩ := huses
        cases hop
        exact hne hcallee
    | some k =>
        rw [hindex] at huses
        obtain ⟨a, ha, href⟩ := huses
        have hmem : (⟨u.user, u.inst, some k⟩ : FunctionUse) ∈ M.uses func :=
          (hM.uses_iff func _).2 ⟨(hM.isUse hu).user, (hM.isUse hu).mem, a,
            Instr.operand_of_args ha, href⟩
        exact absurd (hcalls _ hmem) (by simp)
  show callUses _ _ _ _ _ ++ _ = _
  rw [hnew, List.nil_append]

/-- What the loop leaves. -/
structure Module.Emptied (func custom : String) (M M' : Module) : Prop where
  consistent : M'.Consistent
  functions : M'.functions = M.functions
  globalVariables : M'.globalVariables = M.globalVariables
  retargets : ∃ σ, Module.Retargets (Only func custom) σ M M'
  unused : M'.uses func = []

/-- If the function is never an argument, the loop ends after as many rounds as there are uses. -/
theorem Module.Consistent.replaceUses_ends (hM : M.Consistent) (hcustom : custom ∈ M.functions)
    (hne : custom ≠ func) (hty : M.returnTy custom = M.returnTy func)
    (hcalls : ∀ u ∈ M.uses func, u.index = none) :
    ∃ M', Module.Emptied func custom M M' ∧
      ∀ fuel, (M.uses func).length < fuel → replaceUses func custom fuel M = some M' := by
  -- the measure is the number of uses; a round takes away those of the call it replaces
  induction hn : (M.uses func).length using Nat.strong_induction_on generalizing M with
  | _ n ih =>
      cases huses : M.uses func with
      | nil =>
          refine ⟨M, ⟨hM, rfl, rfl, ⟨_, Module.Retargets.refl _ M⟩, huses⟩, ?_⟩
          intro fuel hfuel
          obtain ⟨fuel, rfl⟩ := Nat.exists_eq_succ_of_ne_zero (Nat.ne_of_gt (Nat.zero_lt_of_lt hfuel))
          rw [replaceUses, huses]
      | cons u us =>
          have hu : u ∈ M.uses func := by
            rw [huses]
            exact List.mem_cons_self
          have hindex := hcalls u hu
          have hnext := hM.uses_replaceUser hne hu hcalls
          have hless : ((M.replaceUser custom u).uses func).length < n := by
            rw [hnext, ← hn]
            refine List.length_filter_lt_length_iff_exists.2 ⟨u, hu, by simp⟩
          have hcalls' : ∀ w ∈ (M.replaceUser custom u).uses func, w.index = none := by
            rw [hnext]
            exact fun w hw => hcalls w (List.mem_filter.1 hw).1
          obtain ⟨M', hM', hend⟩ := ih _ hless
            (hM.replaceUser hcustom (hM.isUse hu).user (hM.isUse hu).mem) hcustom hty hcalls' rfl
          obtain ⟨σ, hσ⟩ := hM'.retargets
          refine ⟨M', ⟨hM'.consistent, hM'.functions, hM'.globalVariables, ⟨_,
            (hM.retargets_replaceUser hu hindex hty).trans hσ (Only.not_again hne)⟩,
            hM'.unused⟩, ?_⟩
          intro fuel hfuel
          obtain ⟨fuel, rfl⟩ := Nat.exists_eq_succ_of_ne_zero (Nat.ne_of_gt (Nat.zero_lt_of_lt hfuel))
          have hcall : ((M.body u.user).instr u.inst).op.isCall = true := by
            have hat := (hM.isUse hu).usesAt
            rw [hindex] at hat
            obtain ⟨callee, returned, hop, -⟩ := hat
            rw [hop]
            rfl
          rw [replaceUses, huses]
          simp only [hcall, if_true]
          exact hend fuel (by omega)

/-- If the function is an argument, the loop does not end. -/
theorem Module.Consistent.replaceUses_never_ends (hM : M.Consistent) (hcustom : custom ∈ M.functions)
    {k : Nat} (hu : u ∈ M.uses func) (hk : u.index = some k) (fuel : Nat) :
    replaceUses func custom fuel M = none := by
  -- the induction is on the fuel; that some use is an argument is kept by every round
  induction fuel generalizing M u with
  | zero => rfl
  | succ fuel ih =>
      rw [replaceUses]
      split
      · rename_i hnil
        rw [hnil] at hu
        exact absurd hu List.not_mem_nil
      · rename_i w ws hcons
        have hw : w ∈ M.uses func := by
          rw [hcons]
          exact List.mem_cons_self
        split
        · obtain ⟨v, hv, hvk⟩ := hM.argument_replaceUser custom w hu hk
          exact ih (hM.replaceUser hcustom (hM.isUse hw).user (hM.isUse hw).mem) hcustom hv hvk
        · rfl

end Loop

end PTAuth.Pass
