import PTAuth.Library.Simulation
import PTAuth.Pass.Decoration
import PTAuth.Runtime.Alloc
import PTAuth.Runtime.Search

/-!
# Executions of functions with runtime calls

A frame is what is left of the current block, the registers, the memory, and the edge by which control
got into the block. A phi takes the operand for that edge, with its value on the edge, so that the
phis of a block do not see each other's results. Every value is a word; what the pass does not look
into is a `Hardware`: the values of constants and arguments, loads and stores of a type, GEPs and
other computations, the choice of a branch. Allocas and calls take their results from the
environment: their events record them, and a call may change the memory. Calls of the runtime
functions of the pass are silent. They run the checks of the runtime on the memory as it is, and a
step is made only if the check returns; the frame keeps what the last run of every such call handed
to `validatePointer`.

Results of instructions that have none are never read.
-/

set_option autoImplicit false

namespace PTAuth.Pass

open PTAuth.Library PTAuth.Runtime

/-! ## Runtime calls -/

/-- The checks among the functions that the pass calls. -/
def runtimeChecks : List (String × Check) :=
  [("__loadCheck", .load), ("__GEPCheck", .gep), ("__nestedGEPCheck", .nestedGEP)]

/-- `RuntimeCall cfg m f w q v` says that `f` called with `w` returns `q`, and that it has handed `v`
to `validatePointer`. -/
inductive RuntimeCall (cfg : Config) (m : Mem) : String → Word → Word → Option Word → Prop where
  | check {f : String} {c : Check} {fuel : Nat} {w q : Word} {r : CheckRun} :
      (f, c) ∈ runtimeChecks → c.run cfg (readWord m) fuel w = some r → r.outcome = .returned q →
        RuntimeCall cfg m f w q r.validated
  | noCheck {w : Word} : RuntimeCall cfg m "__noCheck" w (Runtime.noCheck cfg w) none
  | xpac {w : Word} : RuntimeCall cfg m "__xpac" w (Runtime.xpac w) none

/-- **Runtime calls are the identity** in the Top-Byte Ignore build, but for `__xpac`. -/
theorem RuntimeCall.returned {cfg : Config} (htbi : cfg.topByteIgnore = true) {m : Mem} {f : String}
    {w q : Word} {v : Option Word} (h : RuntimeCall cfg m f w q v) :
    q = if f == "__xpac" then Runtime.xpac w else w := by
  cases h with
  | @check f c _ _ _ _ hf hrun ho =>
      have hne : (f == "__xpac") = false := by
        have hall : ∀ p ∈ runtimeChecks, (p.1 == "__xpac") = false := by decide
        exact hall _ hf
      rw [hne]
      exact c.run_returned htbi hrun ho
  | noCheck => exact if_pos htbi
  | xpac => rfl

/-- Whatever the build, they return a pointer without bits above bit 47 without validating it. -/
theorem RuntimeCall.of_untagged {cfg : Config} {m : Mem} {f : String} {w q : Word} {v : Option Word}
    (h : RuntimeCall cfg m f w q v) (hw : w.toNat < 2 ^ 48) : q = w ∧ v = none := by
  cases h with
  | check hf hrun ho =>
      rw [Check.run_of_untagged _ cfg _ _ ((signature_eq_zero_iff w).2 hw)] at hrun
      obtain rfl := Option.some.inj hrun
      exact ⟨(Outcome.returned.inj ho).symm, rfl⟩
  | noCheck =>
      rw [Runtime.noCheck, xpac_of_lt hw, ite_self]
      exact ⟨rfl, rfl⟩
  | xpac => exact ⟨xpac_of_lt hw, rfl⟩

theorem RuntimeCall.mem_runtimeFunctions {cfg : Config} {m : Mem} {f : String} {w q : Word}
    {v : Option Word} (h : RuntimeCall cfg m f w q v) : f ∈ runtimeFunctions := by
  cases h with
  | check hf _ _ =>
      have hall : ∀ p ∈ runtimeChecks, p.1 ∈ runtimeFunctions := by decide
      exact hall _ hf
  | noCheck => decide
  | xpac => decide

/-- The operation is a call of a runtime function. -/
def Op.IsRuntimeCall (op : Op) : Prop := ∃ f ∈ runtimeFunctions, op = runtimeCall f

/-- The operation is a call of a check. -/
def Op.IsCheck (op : Op) : Prop := ∃ p ∈ runtimeChecks, op = runtimeCall p.1

theorem runtimeCall_inj {f g : String} (h : runtimeCall f = runtimeCall g) : f = g := by
  simpa [runtimeCall] using h

/-! ## Instructions -/

/-- What the pass does not look into. -/
structure Hardware where
  constant : Ref → Option Word
  load : Ty → Mem → Word → Option Word
  store : Ty → Mem → Word → Word → Option Mem
  compute : Op → Ty → List (Ty × Word) → Option Word
  branch : List Nat → List (Ty × Word) → Option Nat

/-- The value of a constant; a bitcast expression has that of its base. -/
def Hardware.evalConstant (T : Hardware) : Ref → Option Word
  | .bitCastExpr base => T.evalConstant base
  | r => T.constant r

/-- The value of an operand. -/
def Hardware.eval (T : Hardware) (regs : Nat → Option Word) : Ref → Option Word
  | .inst y => regs y
  | r => T.evalConstant r

/-- Casts of constants keep the value. -/
theorem Hardware.eval_fold (T : Hardware) (regs : Nat → Option Word) {r : Ref}
    (hr : r.isConstant = true) : T.eval regs (.bitCastExpr r) = T.eval regs r := by
  cases r with
  | inst y => exact absurd hr (by simp [Ref.isConstant])
  | _ => rfl

/-- Operands depend on the registers they name. -/
theorem Hardware.eval_congr (T : Hardware) {regs regs' : Nat → Option Word} {r : Ref}
    (h : ∀ y, r = .inst y → regs y = regs' y) : T.eval regs r = T.eval regs' r := by
  cases r with
  | inst y => exact h y rfl
  | _ => rfl

/-- The operand `v` has the type and the value `p`. -/
def Hardware.Evaluates (T : Hardware) (regs : Nat → Option Word) (v : Value) (p : Ty × Word) : Prop :=
  v.ty = p.1 ∧ T.eval regs v.ref = some p.2

theorem Hardware.Evaluates.congr {T : Hardware} {regs regs' : Nat → Option Word} {v : Value}
    {p : Ty × Word} (h : T.Evaluates regs v p) (hregs : ∀ y, v.ref = .inst y → regs' y = regs y) :
    T.Evaluates regs' v p := by
  refine ⟨h.1, ?_⟩
  rw [← h.2]
  exact T.eval_congr hregs

/-- What an execution shows. -/
inductive Event where
  | alloca (address : Word)
  | call (callee : Option Callee) (args : List (Ty × Word)) (before : Mem) (value : Word) (after : Mem)
  | ret (values : List (Ty × Word))

/-- `Exec T ty args m op l w m'` says that an instruction of type `ty` with the operands `args`,
executed in the memory `m`, has the result `w` and leaves the memory `m'`. -/
inductive Exec (T : Hardware) (ty : Ty) (args : List (Ty × Word)) (m : Mem) :
    Op → Option Event → Word → Mem → Prop where
  | alloca {allocated : Ty} (a : Word) : Exec T ty args m (.alloca allocated) (some (.alloca a)) a m
  | load {p : Ty × Word} {w : Word} :
      args = [p] → T.load ty m p.2 = some w → Exec T ty args m .load none w m
  | store {v p : Ty × Word} {m' : Mem} :
      args = [v, p] → T.store v.1 m p.2 v.2 = some m' → Exec T ty args m .store none 0 m'
  | bitcast {v : Ty × Word} : args = [v] → Exec T ty args m .bitcast none v.2 m
  | compute {op : Op} {w : Word} :
      op = .gep ∨ (∃ name, op = .other name) → T.compute op ty args = some w →
        Exec T ty args m op none w m
  | call {callee : Option Callee} {returned : Option Nat} (w : Word) (m' : Mem) :
      ¬ (Op.call callee returned).IsRuntimeCall →
        Exec T ty args m (.call callee returned) (some (.call callee args m w m')) w m'

/-! ## Steps and runs -/

/-- The block that control comes from, and the registers at its end. -/
structure Edge where
  source : Nat
  regs : Nat → Option Word

/-- A point of an execution: what is left of the block `index`, which control has entered by `edge`. -/
structure Frame where
  block : List Nat
  regs : Nat → Option Word
  mem : Mem
  handed : Nat → Option (Option Word)
  index : Nat
  edge : Option Edge

/-- One instruction. -/
inductive Step (T : Hardware) (cfg : Config) (F : Func) (c : Frame) : Option Event → Frame → Prop where
  | exec {x : Nat} {B : List Nat} {args : List (Ty × Word)} {l : Option Event} {w : Word} {m : Mem} :
      c.block = x :: B → List.Forall₂ (T.Evaluates c.regs) (F.instr x).operands args →
        Exec T (F.instr x).ty args c.mem (F.instr x).op l w m →
          Step T cfg F c l { c with block := B, regs := Function.update c.regs x (some w), mem := m }
  | runtime {x : Nat} {B : List Nat} {p : Ty × Word} {f : String} {q : Word} {v : Option Word} :
      c.block = x :: B → List.Forall₂ (T.Evaluates c.regs) (F.instr x).operands [p] →
        (F.instr x).op = runtimeCall f → RuntimeCall cfg c.mem f p.2 q v →
          Step T cfg F c none { c with
            block := B
            regs := Function.update c.regs x (some q)
            handed := Function.update c.handed x (some v) }
  | phi {x k : Nat} {B incoming : List Nat} {e : Edge} {v : Value} {p : Ty × Word} :
      c.block = x :: B → (F.instr x).op = .phi incoming → c.edge = some e →
        incoming[k]? = some e.source → F.operand x k = some v → T.Evaluates e.regs v p →
          Step T cfg F c none { c with block := B, regs := Function.update c.regs x (some p.2) }
  | jump {x b : Nat} {B C targets : List Nat} {args : List (Ty × Word)} :
      c.block = x :: B → List.Forall₂ (T.Evaluates c.regs) (F.instr x).operands args →
        (F.instr x).op = .br targets → T.branch targets args = some b → b ∈ targets →
          F.layout[b]? = some C → Step T cfg F c none { c with
            block := C
            index := b
            edge := some ⟨c.index, c.regs⟩ }
  | ret {x : Nat} {B : List Nat} {args : List (Ty × Word)} :
      c.block = x :: B → List.Forall₂ (T.Evaluates c.regs) (F.instr x).operands args →
        (F.instr x).op = .ret → Step T cfg F c (some (.ret args)) { c with block := [] }

/-- The executions of a function that start in the memory `m`. -/
def Func.system (F : Func) (T : Hardware) (cfg : Config) (m : Mem) : System Frame Event where
  start c := ∃ B, F.layout[0]? = some B ∧ c = ⟨B, fun _ => none, m, fun _ => none, 0, none⟩
  step := Step T cfg F

/-- What a step at `x` does to the registers: unless `x` is a phi, its operands have values; at most
the register of `x` is set, and no register or handed pointer is lost. -/
structure Sets (T : Hardware) (F : Func) (c : Frame) (l : Option Event) (c' : Frame) (x : Nat) :
    Prop where
  args : (F.instr x).op.isPhi = false →
    ∃ args, List.Forall₂ (T.Evaluates c.regs) (F.instr x).operands args
  regs : ∀ u, u ≠ x → c'.regs u = c.regs u
  handed : ∀ u, u ≠ x → c'.handed u = c.handed u
  value : c'.regs x = c.regs x ∨ ∃ w, c'.regs x = some w ∧
    ((F.instr x).op = .load → (F.instr x).operands.length = 1) ∧
    ((F.instr x).op.isAlloca = true → l = some (.alloca w))
  validated : c'.handed x = c.handed x ∨ (F.instr x).op.IsRuntimeCall ∧ c'.handed x ≠ none

theorem Step.sets {T : Hardware} {cfg : Config} {F : Func} {c c' : Frame} {l : Option Event}
    (h : Step T cfg F c l c') {x : Nat} {B : List Nat} (hblock : c.block = x :: B) :
    Sets T F c l c' x := by
  cases h with
  | @exec _ _ args _ w _ hx hargs hexec =>
      rw [hblock] at hx
      cases hx
      refine ⟨fun _ => ⟨args, hargs⟩, fun u hu => Function.update_of_ne hu _ _, fun _ _ => rfl,
        Or.inr ⟨w, Function.update_self _ _ _, ?_, ?_⟩, Or.inl rfl⟩
      · intro hload
        rw [hload] at hexec
        cases hexec with
        | load hp _ => rw [hargs.length_eq, hp]; rfl
        | compute hop _ =>
            rcases hop with hop | ⟨name, hop⟩
            · exact absurd hop (by simp)
            · exact absurd hop (by simp)
      · intro halloca
        generalize (F.instr x).op = op at hexec halloca
        cases hexec with
        | alloca => rfl
        | compute hop _ => rcases hop with rfl | ⟨name, rfl⟩ <;> exact absurd halloca (by simp [Op.isAlloca])
        | _ => exact absurd halloca (by simp [Op.isAlloca])
  | @runtime _ _ p f q validated hx hargs hop hrun =>
      rw [hblock] at hx
      cases hx
      refine ⟨fun _ => ⟨[p], hargs⟩, fun u hu => Function.update_of_ne hu _ _,
        fun u hu => Function.update_of_ne hu _ _, Or.inr ⟨q, Function.update_self _ _ _, ?_, ?_⟩,
        Or.inr ⟨⟨f, hrun.mem_runtimeFunctions, hop⟩, ?_⟩⟩
      · intro _
        exact hargs.length_eq
      · intro halloca
        rw [hop] at halloca
        exact absurd halloca (by simp [runtimeCall, Op.isAlloca])
      · show Function.update c.handed x _ x ≠ none
        rw [Function.update_self]
        simp
  | @phi _ _ _ _ _ _ p hx hop _ _ _ _ =>
      rw [hblock] at hx
      cases hx
      refine ⟨fun hphi => ?_, fun u hu => Function.update_of_ne hu _ _, fun _ _ => rfl,
        Or.inr ⟨p.2, Function.update_self _ _ _, fun hload => ?_, fun halloca => ?_⟩, Or.inl rfl⟩
      · rw [hop] at hphi
        exact absurd hphi (by simp [Op.isPhi])
      · exact absurd (hop.symm.trans hload) (by simp)
      · rw [hop] at halloca
        exact absurd halloca (by simp [Op.isAlloca])
  | @jump _ _ _ _ _ args hx hargs _ _ _ _ =>
      rw [hblock] at hx
      cases hx
      exact ⟨fun _ => ⟨args, hargs⟩, fun _ _ => rfl, fun _ _ => rfl, Or.inl rfl, Or.inl rfl⟩
  | @ret _ _ args hx hargs _ =>
      rw [hblock] at hx
      cases hx
      exact ⟨fun _ => ⟨args, hargs⟩, fun _ _ => rfl, fun _ _ => rfl, Or.inl rfl, Or.inl rfl⟩

theorem Step.block_eq {T : Hardware} {cfg : Config} {F : Func} {c c' : Frame} {l : Option Event}
    (h : Step T cfg F c l c') : ∃ x B, c.block = x :: B := by
  cases h with
  | exec hx => exact ⟨_, _, hx⟩
  | runtime hx => exact ⟨_, _, hx⟩
  | phi hx => exact ⟨_, _, hx⟩
  | jump hx => exact ⟨_, _, hx⟩
  | ret hx => exact ⟨_, _, hx⟩

/-- Only branches leave the block. -/
theorem Step.same_block {T : Hardware} {cfg : Config} {F : Func} {c c' : Frame} {l : Option Event}
    (h : Step T cfg F c l c') {x : Nat} {B : List Nat} (hblock : c.block = x :: B)
    (hbr : ∀ targets, (F.instr x).op ≠ .br targets) : c'.index = c.index ∧ c'.edge = c.edge := by
  cases h with
  | jump hx _ hop _ _ _ =>
      rw [hblock] at hx
      cases hx
      exact absurd hop (hbr _)
  | _ => exact ⟨rfl, rfl⟩

/-- Registers stay defined. -/
theorem Sets.defined {T : Hardware} {F : Func} {c c' : Frame} {l : Option Event} {x : Nat}
    (h : Sets T F c l c' x) {u : Nat} (hu : c.regs u ≠ none) : c'.regs u ≠ none := by
  by_cases hux : u = x
  · subst hux
    rcases h.value with hsame | ⟨w, hw, -⟩
    · rwa [hsame]
    · rw [hw]
      simp
  · rwa [h.regs u hux]

/-- So do the pointers that were handed on. -/
theorem Sets.stays_handed {T : Hardware} {F : Func} {c c' : Frame} {l : Option Event} {x : Nat}
    (h : Sets T F c l c' x) {u : Nat} (hu : c.handed u ≠ none) : c'.handed u ≠ none := by
  by_cases hux : u = x
  · subst hux
    rcases h.validated with hsame | ⟨-, hnew⟩
    · rwa [hsame]
    · exact hnew
  · rwa [h.handed u hux]

/-! ## Dominance -/

/-- Control reaches no instruction before its operands, but for phis. -/
def Func.Dominated (F : Func) : Prop :=
  ∀ p x B, F.Path p (x :: B) → (F.instr x).op.isPhi = false →
    ∀ k v y, F.operand x k = some v → v.ref = .inst y → y ∈ p

/-- Where an operation may jump. -/
def Op.targets : Op → List Nat
  | .br targets => targets
  | _ => []

/-- The value, if it is an instruction, is one of `p`. -/
def Value.isAmong (p : List Nat) (v : Value) : Bool :=
  match v.ref with
  | .inst y => decide (y ∈ p)
  | _ => true

/-- `avail b` has been passed whenever control enters the block `b`. -/
def Func.Available (F : Func) (avail : Nat → List Nat) : Prop :=
  avail 0 = [] ∧ ∀ a < F.layout.length, ∀ i < (F.layout.getD a []).length,
    ∀ b ∈ (F.instr ((F.layout.getD a []).getD i 0)).op.targets, ∀ y ∈ avail b,
      y ∈ avail a ++ (F.layout.getD a []).take (i + 1)

instance (F : Func) (avail : Nat → List Nat) : Decidable (F.Available avail) :=
  inferInstanceAs (Decidable (_ ∧ _))

section Available

variable {F : Func} {avail : Nat → List Nat}

/-- Control stands in a block, and has passed what is available and what the block has in front. -/
theorem Func.Available.passed (h : F.Available avail) {p C : List Nat} (hpath : F.Path p C) :
    ∃ a i, a < F.layout.length ∧ C = (F.layout.getD a []).drop i ∧
      ∀ y ∈ avail a ++ (F.layout.getD a []).take i, y ∈ p := by
  have hget : ∀ {b : Nat} {B : List Nat}, F.layout[b]? = some B →
      b < F.layout.length ∧ F.layout.getD b [] = B := by
    intro b B hB
    refine ⟨(List.getElem?_eq_some_iff.1 hB).1, ?_⟩
    rw [List.getD_eq_getElem?_getD, hB, Option.getD_some]
  have hcons : ∀ {B C : List Nat} {x i : Nat}, x :: C = B.drop i →
      i < B.length ∧ B.getD i 0 = x ∧ C = B.drop (i + 1) ∧ B.take (i + 1) = B.take i ++ [x] := by
    intro B C x i hB
    have hx : B[i]? = some x := by rw [← List.head?_drop, ← hB, List.head?_cons]
    refine ⟨(List.getElem?_eq_some_iff.1 hx).1, ?_, ?_, ?_⟩
    · rw [List.getD_eq_getElem?_getD, hx, Option.getD_some]
    · rw [← List.tail_drop, ← hB, List.tail_cons]
    · rw [List.take_add_one, hx, Option.toList_some]
  induction hpath with
  | entry hB =>
      obtain ⟨hlt, hblock⟩ := hget hB
      refine ⟨0, 0, hlt, by rw [hblock, List.drop_zero], fun y hy => ?_⟩
      rw [h.1, List.take_zero, List.append_nil] at hy
      exact absurd hy List.not_mem_nil
  | @next p C x _ ih =>
      obtain ⟨a, i, ha, hC, hp⟩ := ih
      obtain ⟨-, -, hdrop, htake⟩ := hcons hC
      refine ⟨a, i + 1, ha, hdrop, fun y hy => ?_⟩
      rw [htake, ← List.append_assoc] at hy
      exact (List.mem_append.1 hy).elim (fun hy => List.mem_append_left _ (hp y hy))
        (List.mem_append_right _)
  | @jump p C D targets x b _ hop hb hD ih =>
      obtain ⟨a, i, ha, hC, hp⟩ := ih
      obtain ⟨hi, hx, -, htake⟩ := hcons hC
      obtain ⟨hlt, hblock⟩ := hget hD
      refine ⟨b, 0, hlt, by rw [hblock, List.drop_zero], fun y hy => ?_⟩
      rw [List.take_zero, List.append_nil] at hy
      -- the edge brings what the block had passed up to the branch
      have hmem := h.2 a ha i hi b (by rw [hx, hop]; exact hb) y hy
      rw [htake, ← List.append_assoc] at hmem
      exact (List.mem_append.1 hmem).elim (fun hy => List.mem_append_left _ (hp y hy))
        (List.mem_append_right _)

/-- In front of `x` control has passed what is available there. -/
theorem Func.Available.mem (h : F.Available avail) {p B : List Nat} {x y : Nat}
    (hpath : F.Path p (x :: B))
    (hy : ∀ a < F.layout.length, ∀ i < (F.layout.getD a []).length,
      (F.layout.getD a []).getD i 0 = x → y ∈ avail a ++ (F.layout.getD a []).take i) :
    y ∈ p := by
  obtain ⟨a, i, ha, hB, hp⟩ := h.passed hpath
  have hx : (F.layout.getD a [])[i]? = some x := by
    rw [← List.head?_drop, ← hB, List.head?_cons]
  apply hp y (hy a ha i (List.getElem?_eq_some_iff.1 hx).1 _)
  rw [List.getD_eq_getElem?_getD, hx, Option.getD_some]

/-- If the operands of every instruction are available in front of it, they dominate it. -/
theorem Func.Available.dominated (h : F.Available avail)
    (huses : ∀ a < F.layout.length, ∀ i < (F.layout.getD a []).length,
      (F.instr ((F.layout.getD a []).getD i 0)).op.isPhi = false →
        ∀ v ∈ (F.instr ((F.layout.getD a []).getD i 0)).operands,
          v.isAmong (avail a ++ (F.layout.getD a []).take i) = true) : F.Dominated := by
  intro p x B hpath hphi k v y hv hy
  apply h.mem hpath
  rintro a ha i hi rfl
  have hmem := huses a ha i hi hphi v (List.mem_of_getElem? hv)
  rw [Value.isAmong, hy] at hmem
  exact of_decide_eq_true hmem

end Available

/-! ## A machine of words -/

/-- Loads and stores of eight bytes that ignore the top bits of addresses, and indices of four bytes. -/
def wordHardware : Hardware where
  constant := fun r =>
    match r with
    | .constantInt n => some (BitVec.ofInt 64 n)
    | .argument _ => some 0xAB00000000001008#64
    | _ => some 0
  load := fun _ m p => some (readWord m (Runtime.xpac p))
  store := fun _ m p w => some (writeWord m (Runtime.xpac p) w)
  compute := fun _ _ args =>
    match args with
    | [p, i] => some (p.2 + 4 * i.2)
    | _ => some 0
  branch := fun targets _ => targets.head?

end PTAuth.Pass
