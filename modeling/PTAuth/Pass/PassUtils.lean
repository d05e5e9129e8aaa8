import PTAuth.Pass.IR
import Mathlib.Algebra.Group.Nat.Defs

/-!
# The handlers of the pass (`passutils.cpp`) and its walk (`ptauthpass.cpp`)

`visit` dispatches one instruction to its handler, and `walkBlock` is the loop over the instructions
of a block: after a handler has run, the cursor moves to the next instruction of the block as it is
then, so it also reaches instructions inserted ahead of it. The loop takes fuel.

Every rewrite is one `wrapOperand`, recorded with the instruction whose handler made it. The
use counts, stored values and slot names that `pointerProperties` also records are never read and
left out, as is the code behind the early returns of `instrumentStore` and `instrumentGEP`.
-/

set_option autoImplicit false

namespace PTAuth.Pass

/-! ## Avoid lists -/

def functionsAvoidList : List String :=
  ["__loadCheck", "__GEPCheck", "strlen", "__nestedGEPCheck", "sqrt", "exit", "llvm.dbg.declare",
    "fgets", "strstr", "strcpy", "atol", "__isoc99_sscanf", "strncmp", "strncpy", "fprintf",
    "fopen", "fclose", "fgetc", "__isoc99_fscanf", "printf", "atoi", "fwrite", "fread",
    "llvm.memcpy.p0i8.p0i8.i64", "memcpy", "strcmp", "llvm.memset.p0i8.i64", "sprintf", "strcat",
    "llvm.va_start", "llvm.va_end"]

def globalVarsAvoidList : List String := ["perm"]

def typesAvoidList : List String :=
  ["syntaxelement", "pix_pos", "ImageParameters", "SGFTree_t", "Hash_data", "storable_picture"]

def xpacedList : List String := ["read"]

def localAvoidList : List String :=
  ["llvm.dbg.declare", "fprintf", "__ptauth_free", "__ptauth_malloc", "__ptauth_realloc",
    "__ptauth_calloc", "fopen", "__xPAC", "initMD", "__validatePointer", "__loadCheck",
    "__GEPCheck", "__nestedGEPCheck"]

/-! ## Texts of types -/

/-- `npos`, the result of `find` when there is no occurrence. -/
def npos : Nat := 2 ^ 64 - 1

/-- Position of the first occurrence of `pat`, counted from `i`. -/
def findFrom (pat : List Char) : Nat → List Char → Nat
  | i, [] => if pat = [] then i else npos
  | i, c :: s => if pat.isPrefixOf (c :: s) then i else findFrom pat (i + 1) s

/-- `find`. -/
def find (s pat : String) : Nat := findFrom pat.toList 0 s.toList

/-- `substr`; positions are machine words. -/
def substr (s : String) (pos len : Nat) : String :=
  String.ofList ((s.toList.drop (pos % 2 ^ 64)).take (len % 2 ^ 64))

/-- The type is a `FILE` type for the pass. -/
def isFile (ty : Ty) : Bool := find ty.print "_IO_FILE" != npos

/-- The text that `instrumentLoad` looks up in `typesAvoidList`: between the first dot and the first
star of a type with `struct` in it. -/
def structType (ty : Ty) : String :=
  let str := ty.print
  if find str "struct" ≠ npos then
    substr str (find str "." + 1) (find str "*" + 2 ^ 64 - find str "." + 2 ^ 64 - 1)
  else ""

/-! ## The state of the pass -/

/-- `pointerProperties`: a store of a pointer to the alloca `operand1` of the function `fn`. -/
structure PointerProperties where
  fn : String
  operand1 : Nat
  isPassedToFunctionBefore : Bool
  isCheckedBefore : Bool
  deriving DecidableEq, Repr

/-- `GEPProperties`. -/
structure GEPProperties where
  type : Ty
  isCheckedBefore : Bool
  deriving DecidableEq, Repr

/-- The global variables of the pass that its handlers read or write. -/
structure PassState where
  pointers : List PointerProperties
  geps : List GEPProperties
  internalCall : Bool
  flagFreeCalled : Bool

/-- A rewrite: the instruction whose handler made it, the runtime function, the instruction and
operand that were wrapped, and the number of the inserted call. -/
structure Insertion where
  site : Nat
  check : String
  target : Nat
  index : Nat
  call : Nat
  deriving DecidableEq, Repr

/-- The function under rewriting, the state of the pass, and the rewrites so far. -/
structure State where
  func : Func
  pass : PassState
  inserted : List Insertion

/-- The handler of `site` wraps operand `k` of `x`. -/
def State.wrap (s : State) (site : Nat) (check : String) (x : Nat) (k : Nat) : State where
  func := s.func.wrapOperand check x k
  pass := s.pass
  inserted := s.inserted ++ [⟨site, check, x, k, s.func.wrapId x k⟩]

/-- The entry is one of slot `a` of the function under rewriting. -/
def State.isEntry (s : State) (a : Nat) (p : PointerProperties) : Bool :=
  p.fn == s.func.name && p.operand1 == a

/-- Change the first element with a property. -/
def updateFirst {α : Type} (p : α → Bool) (f : α → α) : List α → List α
  | [] => []
  | a :: l => if p a then f a :: l else a :: updateFirst p f l

/-! ## Stores, returns -/

/-- `instrumentStore`. -/
def instrumentStore (s : State) (x : Nat) : State :=
  match s.func.operand x 0, (s.func.operand x 1).bind (s.func.dynCast Op.isAlloca) with
  | some v, some a =>
      -- every store adds an entry, also to a slot that has one already
      if v.ty.isPointerTy && !isFile v.ty then
        { s with pass.pointers := s.pass.pointers ++ [⟨s.func.name, a, false, false⟩] }
      else s
  | _, _ => s

/-- `instrumentReturn`. -/
def instrumentReturn (s : State) : State :=
  -- `GEPS` is not cleared
  { s with pass.flagFreeCalled := false, pass.pointers := [] }

/-! ## Loads -/

/-- The part of `instrumentLoad` for a load through a loaded pointer: one check for every entry of
its slot. -/
def loadThroughLoad (s : State) (x : Nat) : State :=
  match (s.func.operand x 0).bind (s.func.dynCast (· == .load)) with
  | none => s
  | some y =>
      match s.func.slotOf y with
      | none => s
      | some a =>
          -- the loop has no `break`: a slot with several entries gets one wrap on the other
          s.pass.pointers.foldl
            (fun s p =>
              if s.isEntry a p then
                s.wrap x (if p.isPassedToFunctionBefore then "__loadCheck" else "__noCheck") x 0
              else s) s

/-- The entry is one of slot `a` that was passed to a function. -/
def State.isArmed (s : State) (a : Nat) (p : PointerProperties) : Bool :=
  s.isEntry a p && p.isPassedToFunctionBefore

/-- The check of a GEP on a loaded slot, at the first armed entry of the slot. -/
def checkGEP (s : State) (x g : Nat) : State :=
  match s.func.slotOf x with
  | none => s
  | some a =>
      -- the loop breaks behind the first armed entry
      if s.pass.pointers.any (s.isArmed a) then
        { s.wrap x "__GEPCheck" g 0 with
          pass.pointers :=
            updateFirst (s.isArmed a)
              (fun p => { p with isPassedToFunctionBefore := false, isCheckedBefore := true })
              s.pass.pointers }
      else s

/-- The value is, behind casts, a call of `__nestedGEPCheck`. -/
def isNestedGEPCheck (F : Func) (v : Value) : Bool :=
  match (F.stripPointerCasts F.next v).ref with
  | .inst y =>
      match (F.instr y).op with
      | .call (some f) _ => f.name == "__nestedGEPCheck"
      | _ => false
  | _ => false

/-- The check of a GEP on a pointer loaded through another GEP. -/
def checkNestedGEP (s : State) (x g : Nat) : State :=
  match (s.func.operand x 0).bind (s.func.dynCast (· == .gep)) with
  | none => s
  | some g2 =>
      match s.func.operand g2 0 with
      | none => s
      | some base =>
          if s.func.nameOf base ∉ globalVarsAvoidList ∧ !isNestedGEPCheck s.func base then
            -- a check is inserted only while `GEPS` is empty; after that types are only recorded
            if s.pass.geps = [] then
              { s.wrap x "__nestedGEPCheck" g 0 with pass.geps := [⟨base.ty, true⟩] }
            else if s.pass.geps.any fun p => p.type == base.ty then s
            else { s with pass.geps := s.pass.geps ++ [⟨base.ty, true⟩] }
          else s

/-- The part of `instrumentLoad` for a load that a GEP uses: `user_back` is the head of the use
list. -/
def loadForGEP (s : State) (x : Nat) : State :=
  match (s.func.users x).head?, s.func.operand x 0 with
  | some (g, _), some p =>
      if (s.func.instr g).op = .gep ∧ !p.ref.isGlobalVariable then
        checkNestedGEP (checkGEP s x g) x g
      else s
  | _, _ => s

/-- The load passes the filters of `instrumentLoad`. -/
def loadSelected (F : Func) (x : Nat) (p : Value) : Bool :=
  (F.instr x).ty.isPointerTy && !isFile p.ty &&
    decide (F.nameOf p ∉ globalVarsAvoidList) && decide (structType p.ty ∉ typesAvoidList)

/-- `instrumentLoad`. -/
def instrumentLoad (s : State) (x : Nat) : State :=
  match s.func.operand x 0 with
  | none => s
  | some p => if loadSelected s.func x p then loadForGEP (loadThroughLoad s x) x else s

/-! ## Calls -/

/-- The argument is a pointer that the pass looks at. -/
def pointerArgument (v : Value) : Bool := v.ty.isPointerTy && !isFile v.ty

theorem pointerArgument_intPtr (ref : Ref) : pointerArgument ⟨ref, .ptr (.int 32)⟩ = true := by
  have hfile : isFile (.ptr (.int 32)) = false := by decide +kernel
  rw [pointerArgument, hfile]
  rfl

/-- One argument in the part of `instrumentCalls` for external functions. `tbi` is
`TOPBYTEIGNORE`. -/
def xpacArgument (tbi : Bool) (name : String) (x : Nat) (s : State) (i : Nat) : State :=
  match s.func.operand x i with
  | none => s
  | some v =>
      -- the two `continue`s: constants, and GEPs directly over an alloca
      if pointerArgument v && !v.ref.isConstant &&
          !((s.func.dynCast (· == .gep) v).bind s.func.slotOf).isSome &&
          (!tbi || decide (name ∈ xpacedList)) then
        s.wrap x "__xpac" x i
      else s

/-- Mark the first entry of a slot as passed to a function. -/
def markPassed (s : State) (a : Nat) (f : PointerProperties → PointerProperties) : State :=
  { s with pass.pointers := updateFirst (s.isEntry a) f s.pass.pointers }

/-- The entry is one of slot `a` that was checked. -/
def State.isChecked (s : State) (a : Nat) (p : PointerProperties) : Bool :=
  s.isEntry a p && p.isCheckedBefore

/-- A call argument that is, behind casts, a load of a slot. -/
def passLoad (x : Nat) (s : State) (v : Value) : State :=
  match s.func.dynCast (· == .load) (s.func.stripPointerCasts s.func.next v) with
  | none => s
  | some l =>
      match s.func.slotOf l with
      | none => s
      | some a =>
          if s.pass.pointers.any (s.isChecked a) then s
          else
            -- operand 0 of the load is wrapped, the address of the slot
            markPassed (s.wrap x "__loadCheck" l 0) a fun p =>
              { p with isPassedToFunctionBefore := true, isCheckedBefore := false }

/-- A call argument that is a bitcast of a load through a load of a slot. -/
def passNestedLoad (x : Nat) (s : State) (v : Value) : State :=
  match (((s.func.dynCast (· == .bitcast) v).bind (s.func.operand · 0)).bind
      (s.func.dynCast (· == .load))).bind (s.func.operand · 0) with
  | none => s
  | some w =>
      match s.func.dynCast (· == .load) w with
      | none => s
      | some l =>
          match s.func.slotOf l with
          | none => s
          | some a =>
              -- here no entry is asked whether the slot was checked, and `isCheckedBefore` stays
              markPassed (s.wrap x "__loadCheck" l 0) a fun p =>
                { p with isPassedToFunctionBefore := true }

/-- One argument in the second part of `instrumentCalls`. The bitcast is looked up again after the
first rewrite. -/
def passArgument (x : Nat) (s : State) (i : Nat) : State :=
  match s.func.operand x i with
  | none => s
  | some v =>
      if pointerArgument v then
        passNestedLoad x (passLoad x { s with pass.internalCall := true, pass.geps := [] } v) v
      else s

/-- The first part of `instrumentCalls`, for `__ptauth_free` and for external functions. -/
def externalArguments (tbi : Bool) (s : State) (x : Nat) (callee : Callee) : State :=
  let numParams := (s.func.instr x).operands.length
  let s := if callee.name = "__ptauth_free" then { s with pass.flagFreeCalled := true } else s
  if callee.isDeclaration ∧ callee.name ∉ localAvoidList then
    (List.range numParams).foldl (xpacArgument tbi callee.name x) s
  else s

/-- `instrumentCalls`. -/
def instrumentCalls (tbi : Bool) (s : State) (x : Nat) (callee : Callee) : State :=
  let numParams := (s.func.instr x).operands.length
  if callee.name ∉ functionsAvoidList then
    (List.range numParams).foldl (passArgument x) (externalArguments tbi s x callee)
  else externalArguments tbi s x callee

/-! ## The walk -/

/-- The dispatch of `runOnModule`. `instrumentAlloc` and `instrumentGEP` change nothing. -/
def visit (tbi : Bool) (s : State) (x : Nat) : State :=
  match (s.func.instr x).op with
  | .ret => instrumentReturn s
  | .store => instrumentStore s x
  | .load => instrumentLoad s x
  | .call (some callee) _ => instrumentCalls tbi s x callee
  | _ => s

/-- The instruction behind `x` in its block. -/
def nextNode (x : Nat) : List Nat → Option Nat
  | [] => none
  | y :: l => if y = x then l.head? else nextNode x l

/-- The loop over block `b` from a cursor on. -/
def walkBlock (tbi : Bool) (b : Nat) : Nat → Option Nat → State → Option State
  | 0, _, _ => none
  | _ + 1, none, s => some s
  | fuel + 1, some x, s =>
      -- the iterator moves on in the block as the handler left it
      let s := visit tbi s x
      walkBlock tbi b fuel (nextNode x (s.func.layout.getD b [])) s

/-- The loop over the blocks. -/
def walk (tbi : Bool) (fuel : Nat) (s : State) : Option State :=
  (List.range s.func.layout.length).foldlM
    (fun s b => walkBlock tbi b fuel (s.func.layout.getD b []).head? s) s

end PTAuth.Pass
