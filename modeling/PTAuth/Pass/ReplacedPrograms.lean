import PTAuth.Pass.Program
import PTAuth.Pass.ReplacementPhase

/-!
# Replacing the allocator preserves programs

The replacement phase changes the callees of calls and, with them, the numbers of these calls.
Numbers do not matter to executions: where registers and blocks correspond up to the renumbering
(`Renames`), a replaced function makes the steps of the original one and no others
(`Renumbered.step`, `Renumbered.step_inv`), with the events of the original but for the names of the
allocation functions. Programs follow function by function, so the program with the replaced
allocator has exactly the executions of the original one (`replaced_program_same`).
-/

set_option autoImplicit false

namespace PTAuth.Pass

open PTAuth.Library PTAuth.Runtime

/-! ## Replaced operations -/

/-- The function that is called instead. -/
def Callee.replace (callee : Callee) : Callee :=
  match replacements.lookup callee.name with
  | some r => ⟨r, true⟩
  | none => callee

/-- The event with the function that is called instead. -/
def Event.replace : Event → Event
  | .call callee args m w m' => .call (callee.map Callee.replace) args m w m'
  | e => e

/-- The operation is a call of the function that is called instead, or the same. -/
def Op.Replaced (op op' : Op) : Prop :=
  (∃ callee returned returned', op = .call (some callee) returned ∧
      (replacements.lookup callee.name).isSome = true ∧
      op' = .call (some callee.replace) returned') ∨
    op' = op ∧ ∀ callee returned, op = .call (some callee) returned → callee.replace = callee

theorem Callee.replace_of_lookup {callee : Callee} {r : String}
    (h : replacements.lookup callee.name = some r) : callee.replace = ⟨r, true⟩ := by
  rw [Callee.replace, h]

theorem Callee.replace_of_none {callee : Callee} (h : replacements.lookup callee.name = none) :
    callee.replace = callee := by
  rw [Callee.replace, h]

theorem Instr.ReplacedBy.op {σ : Nat → Nat} {i j : Instr} (h : Instr.ReplacedBy σ i j) :
    Op.Replaced i.op j.op := by
  by_cases hcalled : ∃ callee returned, i.op = .call (some callee) returned ∧
      (replacements.lookup callee.name).isSome = true
  · obtain ⟨callee, returned, hop, hsome⟩ := hcalled
    obtain ⟨r, hr⟩ := Option.isSome_iff_exists.1 hsome
    obtain ⟨returned', hj⟩ := h.called callee returned r hop hr
    exact Or.inl ⟨callee, returned, returned', hop, hsome, by rw [hj, Callee.replace_of_lookup hr]⟩
  · have hnone : ∀ callee returned, i.op = .call (some callee) returned →
        replacements.lookup callee.name = none := by
      intro callee returned hop
      rw [← Option.not_isSome_iff_eq_none]
      exact fun hsome => hcalled ⟨callee, returned, hop, hsome⟩
    exact Or.inr ⟨(h.other hnone).1, fun callee returned hop =>
      Callee.replace_of_none (hnone callee returned hop)⟩

/-- A replacement is no runtime call, nor is what it replaces. -/
theorem not_isRuntimeCall_of_lookup {callee : Callee} (returned : Option Nat)
    (h : (replacements.lookup callee.name).isSome = true) :
    ¬ (Op.call (some callee) returned).IsRuntimeCall ∧
      ¬ (Op.call (some callee.replace) returned).IsRuntimeCall := by
  obtain ⟨r, hr⟩ := Option.isSome_iff_exists.1 h
  have hmem := mem_replacements hr
  have hall : ∀ p ∈ replacements, p.1 ∉ runtimeFunctions ∧ p.2 ∉ runtimeFunctions := by decide
  obtain ⟨hold, hnew⟩ := hall _ hmem
  rw [Callee.replace_of_lookup hr]
  constructor
  · rintro ⟨f, hf, hop⟩
    cases hop
    exact hold hf
  · rintro ⟨f, hf, hop⟩
    cases hop
    exact hnew hf

section Exec

variable {T : Hardware} {ty : Ty} {args : List (Ty × Word)} {m m' : Mem} {op op' : Op}
  {l : Option Event} {w : Word}

/-- An event of an operation that stays is the same. -/
theorem Exec.replace_event (h : Exec T ty args m op l w m')
    (hop : ∀ callee returned, op = .call (some callee) returned → callee.replace = callee) :
    l.map Event.replace = l := by
  cases h with
  | @call callee returned w m' _ =>
      cases callee with
      | none => rfl
      | some callee =>
          show some (Event.call (some callee.replace) args m w m') = _
          rw [hop callee returned rfl]
  | _ => rfl

/-- A replaced operation does the same. -/
theorem Exec.replace (hop : Op.Replaced op op') (h : Exec T ty args m op l w m') :
    Exec T ty args m op' (l.map Event.replace) w m' := by
  rcases hop with ⟨callee, returned, returned', rfl, hsome, rfl⟩ | ⟨rfl, hsame⟩
  · cases h with
    | compute hcompute _ =>
        rcases hcompute with hcompute | ⟨name, hcompute⟩
        · exact absurd hcompute (by simp)
        · exact absurd hcompute (by simp)
    | call w m' _ =>
        exact .call w m' (not_isRuntimeCall_of_lookup returned' hsome).2
  · rwa [h.replace_event hsame]

/-- And nothing else. -/
theorem Exec.of_replaced (hop : Op.Replaced op op') (h : Exec T ty args m op' l w m') :
    ∃ l₀, l = l₀.map Event.replace ∧ Exec T ty args m op l₀ w m' := by
  rcases hop with ⟨callee, returned, returned', rfl, hsome, rfl⟩ | ⟨rfl, hsame⟩
  · cases h with
    | compute hcompute _ =>
        rcases hcompute with hcompute | ⟨name, hcompute⟩
        · exact absurd hcompute (by simp)
        · exact absurd hcompute (by simp)
    | call w m' _ =>
        exact ⟨some (.call (some callee) args m w m'), rfl,
          .call w m' (not_isRuntimeCall_of_lookup returned hsome).1⟩
  · exact ⟨l, (h.replace_event hsame).symm, h⟩

end Exec

/-- Operations other than calls stay. -/
theorem Op.Replaced.eq_of_not_call {op op' : Op} (h : Op.Replaced op op')
    (hop : ∀ callee returned, op ≠ .call callee returned) : op' = op := by
  rcases h with ⟨callee, returned, -, hcall, -⟩ | ⟨hsame, -⟩
  · exact absurd hcall (hop _ _)
  · exact hsame

/-- Operations that are no calls come from themselves. -/
theorem Op.Replaced.eq_of_not_call' {op op' : Op} (h : Op.Replaced op op')
    (hop : ∀ callee returned, op' ≠ .call callee returned) : op' = op := by
  rcases h with ⟨callee, -, returned, -, -, hcall⟩ | ⟨hsame, -⟩
  · exact absurd hcall (hop _ _)
  · exact hsame

/-- So do runtime calls. -/
theorem Op.Replaced.runtimeCall_iff {op op' : Op} (h : Op.Replaced op op') {f : String}
    (hf : f ∈ runtimeFunctions) : op' = runtimeCall f ↔ op = runtimeCall f := by
  rcases h with ⟨callee, returned, returned', rfl, hsome, rfl⟩ | ⟨rfl, -⟩
  · constructor
    · intro hop
      exact absurd ⟨f, hf, hop⟩ (not_isRuntimeCall_of_lookup returned' hsome).2
    · intro hop
      exact absurd ⟨f, hf, hop⟩ (not_isRuntimeCall_of_lookup returned hsome).1
  · exact Iff.rfl

/-! ## Renumbered functions -/

/-- `F'` is `F` with callees replaced and numbers changed by `σ`; operands of `F` are instructions
of `F`, and none is a function that is replaced. -/
structure Renumbered (σ : Nat → Nat) (F F' : Func) : Prop where
  name : F'.name = F.name
  layout : F'.layout = F.layout.map (List.map σ)
  injOn : Set.InjOn σ {x | x ∈ F.ids}
  instr : ∀ x ∈ F.ids, Instr.ReplacedBy σ (F.instr x) (F'.instr (σ x))
  inst : ∀ x ∈ F.ids, ∀ v ∈ (F.instr x).operands, ∀ y, v.ref = .inst y → y ∈ F.ids
  function : ∀ x ∈ F.ids, ∀ v ∈ (F.instr x).operands, ∀ f, v.ref = .function f →
    replacements.lookup f = none

/-- The edge `e` is `e₀` with numbers changed by `σ`. -/
def Edge.Renames (σ : Nat → Nat) (F : Func) (e e₀ : Edge) : Prop :=
  e.source = e₀.source ∧ ∀ y ∈ F.ids, e.regs (σ y) = e₀.regs y

/-- The frame `c` is `d` with numbers changed by `σ`. -/
structure Renames (σ : Nat → Nat) (F : Func) (c d : Frame) : Prop where
  block : c.block = d.block.map σ
  inside : ∀ x ∈ d.block, x ∈ F.ids
  regs : ∀ y ∈ F.ids, c.regs (σ y) = d.regs y
  mem : c.mem = d.mem
  index : c.index = d.index
  edge : Option.Rel (Edge.Renames σ F) c.edge d.edge

section Renumbered

variable {T : Hardware} {cfg : Config} {σ : Nat → Nat} {F F' : Func} {c c' d d' : Frame}
  {l : Option Event}

/-- Operands have the same value. -/
theorem Renumbered.evaluates (h : Renumbered σ F F') {regs regs₀ : Nat → Option Word}
    (hregs : ∀ y ∈ F.ids, regs (σ y) = regs₀ y) {x : Nat} (hx : x ∈ F.ids) {v : Value}
    (hv : v ∈ (F.instr x).operands) (p : Ty × Word) :
    T.Evaluates regs (v.replace σ) p ↔ T.Evaluates regs₀ v p := by
  have hinst := h.inst x hx v hv
  have hfunction := h.function x hx v hv
  obtain ⟨r, ty⟩ := v
  cases r with
  | inst y =>
      show ty = p.1 ∧ regs (σ y) = some p.2 ↔ ty = p.1 ∧ regs₀ y = some p.2
      rw [hregs y (hinst y rfl)]
  | function f =>
      rw [Value.replace]
      simp only [hfunction f rfl]
      exact Iff.rfl
  | _ => exact Iff.rfl

theorem Renumbered.operands (h : Renumbered σ F F') (hcd : Renames σ F c d) {x : Nat}
    (hx : x ∈ F.ids) (args : List (Ty × Word)) :
    List.Forall₂ (T.Evaluates c.regs) (F'.instr (σ x)).operands args ↔
      List.Forall₂ (T.Evaluates d.regs) (F.instr x).operands args := by
  rw [(h.instr x hx).operands, List.forall₂_map_left_iff]
  have hall := fun v hv p => h.evaluates (T := T) hcd.regs hx (v := v) hv p
  generalize (F.instr x).operands = vs at hall
  induction vs generalizing args with
  | nil => cases args <;> simp
  | cons v vs ih =>
      cases args with
      | nil => simp
      | cons p ps =>
          rw [List.forall₂_cons, List.forall₂_cons]
          exact and_congr (hall v List.mem_cons_self p)
            (ih ps fun u hu => hall u (List.mem_cons_of_mem v hu))

/-- The frame behind an instruction that sets its register. -/
theorem Renames.set (h : Renumbered σ F F') (hcd : Renames σ F c d) {x : Nat} (hx : x ∈ F.ids)
    {B : List Nat} (hB : ∀ y ∈ B, y ∈ F.ids) (w : Option Word) (m : Mem)
    (handed handed' : Nat → Option (Option Word)) :
    Renames σ F ⟨B.map σ, Function.update c.regs (σ x) w, m, handed, c.index, c.edge⟩
      ⟨B, Function.update d.regs x w, m, handed', d.index, d.edge⟩ where
  block := rfl
  inside := hB
  regs := by
    intro y hy
    show Function.update c.regs (σ x) w (σ y) = Function.update d.regs x w y
    by_cases hyx : y = x
    · rw [hyx, Function.update_self, Function.update_self]
    · have hne : σ y ≠ σ x := fun hσ => hyx (h.injOn hy hx hσ)
      rw [Function.update_of_ne hne, Function.update_of_ne hyx]
      exact hcd.regs y hy
  mem := rfl
  index := hcd.index
  edge := hcd.edge

/-- **A step of the original function** is one of the replaced one. -/
theorem Renumbered.step (h : Renumbered σ F F') (hcd : Renames σ F c d)
    (hstep : Step T cfg F d l d') :
    ∃ c', Step T cfg F' c (l.map Event.replace) c' ∧ Renames σ F c' d' := by
  obtain ⟨x, B, hblock⟩ := hstep.block_eq
  have hx : x ∈ F.ids := hcd.inside x (by rw [hblock]; exact List.mem_cons_self)
  have hB : ∀ y ∈ B, y ∈ F.ids := fun y hy =>
    hcd.inside y (by rw [hblock]; exact List.mem_cons_of_mem x hy)
  have hcblock : c.block = σ x :: B.map σ := by rw [hcd.block, hblock, List.map_cons]
  have hop := (h.instr x hx).op
  cases hstep with
  | exec hy hargs hexec =>
      rw [hblock] at hy
      cases hy
      rw [← hcd.mem, ← (h.instr x hx).ty] at hexec
      exact ⟨_, .exec hcblock ((h.operands hcd hx _).2 hargs) (hexec.replace hop),
        hcd.set h hx hB _ _ _ _⟩
  | runtime hy hargs hcall hrun =>
      rw [hblock] at hy
      cases hy
      rw [← hcd.mem] at hrun ⊢
      have hcall' := (hop.runtimeCall_iff hrun.mem_runtimeFunctions).2 hcall
      exact ⟨_, .runtime hcblock ((h.operands hcd hx _).2 hargs) hcall' hrun,
        hcd.set h hx hB _ _ _ _⟩
  | @phi _ k _ incoming e v p hy hphi he hk hv hp =>
      rw [hblock] at hy
      cases hy
      have hphi' := (hop.eq_of_not_call (by simp [hphi])).trans hphi
      have hv' : F'.operand (σ x) k = some (v.replace σ) := by
        rw [Func.operand, (h.instr x hx).operands, List.getElem?_map]
        exact congrArg (Option.map _) hv
      -- both took the same edge
      have hedge := hcd.edge
      rw [he] at hedge
      generalize hc : c.edge = o at hedge
      cases hedge with
      | @some e' _ hsame =>
          rw [← hsame.1] at hk
          have hp' := (h.evaluates (T := T) hsame.2 hx (List.mem_of_getElem? hv) p).2 hp
          rw [← hcd.mem]
          exact ⟨_, .phi hcblock hphi' hc hk hv' hp', hcd.set h hx hB _ _ _ _⟩
  | @jump _ b _ C targets args hy hargs hbr htarget hb hC =>
      rw [hblock] at hy
      cases hy
      have hbr' := (hop.eq_of_not_call (by simp [hbr])).trans hbr
      have hC' : F'.layout[b]? = some (C.map σ) := by
        rw [h.layout, List.getElem?_map, hC]
        rfl
      refine ⟨_, .jump hcblock ((h.operands hcd hx _).2 hargs) hbr' htarget hb hC',
        rfl, ?_, hcd.regs, hcd.mem, rfl, .some ⟨hcd.index, hcd.regs⟩⟩
      exact fun y hy => F.mem_ids hC hy
  | ret hy hargs hret =>
      rw [hblock] at hy
      cases hy
      have hret' := (hop.eq_of_not_call (by simp [hret])).trans hret
      exact ⟨_, .ret hcblock ((h.operands hcd hx _).2 hargs) hret', rfl,
        fun y hy => absurd hy List.not_mem_nil, hcd.regs, hcd.mem, hcd.index, hcd.edge⟩

/-- **A step of the replaced function** is one of the original one. -/
theorem Renumbered.step_inv (h : Renumbered σ F F') (hcd : Renames σ F c d)
    (hstep : Step T cfg F' c l c') :
    ∃ l₀ d', l = l₀.map Event.replace ∧ Step T cfg F d l₀ d' ∧ Renames σ F c' d' := by
  obtain ⟨z, C, hcblock⟩ := hstep.block_eq
  obtain ⟨x, B, hblock, rfl, rfl⟩ : ∃ x B, d.block = x :: B ∧ σ x = z ∧ B.map σ = C := by
    rw [hcd.block] at hcblock
    exact List.map_eq_cons_iff.1 hcblock
  have hx : x ∈ F.ids := hcd.inside x (by rw [hblock]; exact List.mem_cons_self)
  have hB : ∀ y ∈ B, y ∈ F.ids := fun y hy =>
    hcd.inside y (by rw [hblock]; exact List.mem_cons_of_mem x hy)
  have hop := (h.instr x hx).op
  cases hstep with
  | exec hy hargs hexec =>
      rw [hcblock] at hy
      cases hy
      rw [hcd.mem, (h.instr x hx).ty] at hexec
      obtain ⟨l₀, hl, hexec₀⟩ := hexec.of_replaced hop
      exact ⟨l₀, _, hl, .exec hblock ((h.operands hcd hx _).1 hargs) hexec₀,
        hcd.set h hx hB _ _ _ _⟩
  | runtime hy hargs hcall hrun =>
      rw [hcblock] at hy
      cases hy
      rw [hcd.mem] at hrun ⊢
      have hcall₀ := (hop.runtimeCall_iff hrun.mem_runtimeFunctions).1 hcall
      exact ⟨none, _, rfl, .runtime hblock ((h.operands hcd hx _).1 hargs) hcall₀ hrun,
        hcd.set h hx hB _ _ _ _⟩
  | @phi _ k _ incoming e v p hy hphi he hk hv hp =>
      rw [hcblock] at hy
      cases hy
      have hphi₀ := (hop.eq_of_not_call' (by simp [hphi])).symm.trans hphi
      rw [Func.operand, (h.instr x hx).operands, List.getElem?_map] at hv
      obtain ⟨v₀, hv₀, rfl⟩ := Option.map_eq_some_iff.1 hv
      have hedge := hcd.edge
      rw [he] at hedge
      generalize hd : d.edge = o at hedge
      cases hedge with
      | @some _ e₀ hsame =>
          rw [hsame.1] at hk
          have hp₀ := (h.evaluates (T := T) hsame.2 hx (List.mem_of_getElem? hv₀) p).1 hp
          rw [hcd.mem]
          exact ⟨none, _, rfl, .phi hblock hphi₀ hd hk hv₀ hp₀, hcd.set h hx hB _ _ _ _⟩
  | @jump _ b _ C targets args hy hargs hbr htarget hb hC =>
      rw [hcblock] at hy
      cases hy
      have hbr₀ := (hop.eq_of_not_call' (by simp [hbr])).symm.trans hbr
      rw [h.layout, List.getElem?_map] at hC
      obtain ⟨C₀, hC₀, rfl⟩ := Option.map_eq_some_iff.1 hC
      refine ⟨none, _, rfl, .jump hblock ((h.operands hcd hx _).1 hargs) hbr₀ htarget hb hC₀,
        rfl, ?_, hcd.regs, hcd.mem, rfl, .some ⟨hcd.index, hcd.regs⟩⟩
      exact fun y hy => F.mem_ids hC₀ hy
  | ret hy hargs hret =>
      rw [hcblock] at hy
      cases hy
      have hret₀ := (hop.eq_of_not_call' (by simp [hret])).symm.trans hret
      exact ⟨_, _, rfl, .ret hblock ((h.operands hcd hx _).1 hargs) hret₀, rfl,
        fun y hy => absurd hy List.not_mem_nil, hcd.regs, hcd.mem, hcd.index, hcd.edge⟩

end Renumbered

/-! ## Names of functions -/

section Named

variable {setName : List String → String → String} {M M' : Module}

theorem Module.named_create (h : ∀ G, (M.body G).name = G) (func custom : String) (G : String) :
    ((M.create func custom).body G).name = G := by
  show (Function.update M.body custom _ G).name = G
  by_cases hG : G = custom
  · rw [hG, Function.update_self]
  · rw [Function.update_of_ne hG]
    exact h G

theorem Module.named_replaceUser (h : ∀ G, (M.body G).name = G) (custom : String) (u : FunctionUse)
    (G : String) : ((M.replaceUser custom u).body G).name = G := by
  by_cases hG : G = u.user
  · rw [hG, Module.body_replaceUser_self]
    exact h u.user
  · rw [Module.body_replaceUser_of_ne hG]
    exact h G

/-- The loop keeps the names. -/
theorem replaceUses_named {func custom : String} {fuel : Nat} (h : ∀ G, (M.body G).name = G)
    (hres : replaceUses func custom fuel M = some M') (G : String) : (M'.body G).name = G := by
  induction fuel generalizing M with
  | zero => exact absurd hres (by simp [replaceUses])
  | succ fuel ih =>
      rw [replaceUses] at hres
      split at hres
      · cases hres
        exact h G
      · rename_i u us _
        split at hres
        · exact ih (Module.named_replaceUser h custom u) hres
        · exact absurd hres (by simp)

/-- So does the phase. -/
theorem replacementPhase_named {L : List String} {fuel : Nat} (h : ∀ G, (M.body G).name = G)
    (hres : L.foldlM (replaceFunction setName fuel) M = some M') (G : String) :
    (M'.body G).name = G := by
  induction L generalizing M with
  | nil =>
      cases hres
      exact h G
  | cons f L ih =>
      rw [List.foldlM_cons] at hres
      obtain ⟨M₁, hM₁, hres⟩ := Option.bind_eq_some_iff.1 hres
      apply ih _ hres
      intro H
      rw [replaceFunction] at hM₁
      split at hM₁
      · cases hM₁
        exact h H
      · rename_i r _
        exact replaceUses_named (Module.named_create h f (setName M.names r)) hM₁ H

end Named

/-! ## Programs of modules -/

/-- The program of a module. -/
def Module.program (M : Module) (parameters : String → List String)
    (resolve : Word → Option String) : Program where
  functions := M.functions.map M.body
  parameters := parameters
  resolve := resolve

/-- The bodies have their names and refer to their own instructions, and the functions that are
replaced are external. -/
structure Module.Closed (M : Module) : Prop where
  named : ∀ G, (M.body G).name = G
  inst : ∀ G ∈ M.functions, ∀ x ∈ (M.body G).ids, ∀ v ∈ ((M.body G).instr x).operands, ∀ y,
    v.ref = .inst y → y ∈ (M.body G).ids
  external : ∀ G ∈ M.functions, ∀ x ∈ (M.body G).ids, ∀ callee returned,
    ((M.body G).instr x).op = .call (some callee) returned →
      (replacements.lookup callee.name).isSome = true → callee.isDeclaration = true

/-- The module `M'` is `M` with its allocator replaced, for programs. -/
structure Module.Replaces (σ : String → Nat → Nat) (M M' : Module) : Prop where
  names : M.functions.Nodup
  names' : M'.functions.Nodup
  functions : M.functions ⊆ M'.functions
  named : ∀ G, (M.body G).name = G
  named' : ∀ G, (M'.body G).name = G
  renumbered : ∀ G ∈ M.functions, Renumbered (σ G) (M.body G) (M'.body G)
  added : ∀ G ∈ M'.functions, G ∉ M.functions → (M'.body G).layout = []
  external : ∀ G ∈ M.functions, ∀ x ∈ (M.body G).ids, ∀ callee returned,
    ((M.body G).instr x).op = .call (some callee) returned →
      (replacements.lookup callee.name).isSome = true → callee.isDeclaration = true

/-- The activation `A` is `D` in the replaced module. -/
def Activation.Renumbered (σ : String → Nat → Nat) (M M' : Module) (A D : Activation) : Prop :=
  ∃ G ∈ M.functions, A.func = M'.body G ∧ D.func = M.body G ∧ A.args = D.args ∧
    Renames (σ G) (M.body G) A.frame D.frame

/-- The module defines the function of the name if it has a body for it. -/
theorem Module.define_program {M : Module} (hnamed : ∀ G, (M.body G).name = G)
    (parameters : String → List String) (resolve : Word → Option String) (name : String) :
    (M.program parameters resolve).define name =
      if name ∈ M.functions ∧ (M.body name).layout ≠ [] then some (M.body name) else none := by
  show (M.functions.map M.body).find? _ = _
  rw [List.find?_map]
  cases hfind : M.functions.find?
      ((fun F : Func => F.name == name && F.layout != []) ∘ M.body) with
  | some G =>
      have hG := List.find?_some hfind
      simp only [Function.comp_apply, hnamed, Bool.and_eq_true, beq_iff_eq, bne_iff_ne] at hG
      obtain ⟨rfl, hlayout⟩ := hG
      rw [if_pos ⟨List.mem_of_find?_eq_some hfind, hlayout⟩]
      rfl
  | none =>
      rw [if_neg]
      · rfl
      · rintro ⟨hmem, hlayout⟩
        have hnot := List.find?_eq_none.1 hfind name hmem
        simp [hnamed, hlayout] at hnot

section Replaces

variable {σ : String → Nat → Nat} {M M' : Module} {parameters : String → List String}
  {resolve : Word → Option String} {T : Hardware} {cfg : Config}

variable (parameters resolve) in
/-- The modules define the same functions. -/
theorem Module.Replaces.define (h : Module.Replaces σ M M') (name : String) :
    Option.Rel (fun F F' => ∃ G ∈ M.functions, F = M.body G ∧ F' = M'.body G)
      ((M.program parameters resolve).define name)
      ((M'.program parameters resolve).define name) := by
  rw [Module.define_program h.named, Module.define_program h.named']
  by_cases hmem : name ∈ M.functions
  · have hlayout : (M'.body name).layout ≠ [] ↔ (M.body name).layout ≠ [] := by
      rw [(h.renumbered name hmem).layout, ne_eq, List.map_eq_nil_iff]
    by_cases hbody : (M.body name).layout ≠ []
    · rw [if_pos ⟨hmem, hbody⟩, if_pos ⟨h.functions hmem, hlayout.2 hbody⟩]
      exact .some ⟨name, hmem, rfl, rfl⟩
    · rw [if_neg fun hboth => hbody hboth.2, if_neg fun hboth => hbody (hlayout.1 hboth.2)]
      exact .none
  · rw [if_neg fun hboth => hmem hboth.1, if_neg fun hboth => hboth.2 (h.added name hboth.1 hmem)]
    exact .none

variable (parameters resolve) in
/-- The modules enter the same functions. -/
theorem Module.Replaces.enters (h : Module.Replaces σ M M') {callee : Option Callee}
    (hext : ∀ f, callee = some f → (replacements.lookup f.name).isSome = true →
      f.isDeclaration = true) (args : List (Ty × Word)) :
    Option.Rel (fun p q => (∃ G ∈ M.functions, p.1 = M.body G ∧ q.1 = M'.body G) ∧ p.2 = q.2)
      ((M.program parameters resolve).enters callee args)
      ((M'.program parameters resolve).enters (callee.map Callee.replace) args) := by
  have hmap : ∀ (o o' : Option Func) (values : List Word),
      Option.Rel (fun F F' => ∃ G ∈ M.functions, F = M.body G ∧ F' = M'.body G) o o' →
      Option.Rel (fun p q : Func × List Word =>
        (∃ G ∈ M.functions, p.1 = M.body G ∧ q.1 = M'.body G) ∧ p.2 = q.2)
        (o.map (·, values)) (o'.map (·, values)) := by
    intro o o' values ho
    cases ho with
    | none => exact .none
    | some hFG => exact .some ⟨hFG, rfl⟩
  cases callee with
  | none =>
      rw [Option.map_none, Program.enters, Program.enters]
      cases args.getLast? with
      | none => exact .none
      | some f =>
          rw [Option.bind_some, Option.bind_some]
          apply hmap
          show Option.Rel _ ((resolve f.2).bind _) ((resolve f.2).bind _)
          cases resolve f.2 with
          | none => exact .none
          | some name => exact h.define parameters resolve name
  | some callee =>
      rw [Option.map_some, Program.enters, Program.enters]
      cases hlookup : replacements.lookup callee.name with
      | none =>
          rw [Callee.replace_of_none hlookup]
          split
          · exact .none
          · exact hmap _ _ _ (h.define parameters resolve callee.name)
      | some r =>
          -- neither the replaced function nor its replacement is entered
          rw [if_pos (hext callee rfl (by rw [hlookup]; rfl)), Callee.replace_of_lookup hlookup,
            if_pos rfl]
          exact .none

/-- A call is one of a call instruction. -/
theorem Step.call_op {F : Func} {d d' : Frame} {callee : Option Callee} {args : List (Ty × Word)}
    {m m' : Mem} {w : Word} (h : Step T cfg F d (some (.call callee args m w m')) d') :
    ∃ x B returned, d.block = x :: B ∧ (F.instr x).op = .call callee returned := by
  generalize hl : some (Event.call callee args m w m') = l at h
  cases h with
  | @exec x B _ _ _ _ hblock _ hexec =>
      generalize hop : (F.instr x).op = op at hexec
      subst hl
      cases hexec
      exact ⟨x, B, _, hblock, hop⟩
  | runtime => cases hl
  | phi => cases hl
  | jump => cases hl
  | ret => cases hl

/-- The functions that are replaced are external to every call that is made. -/
theorem Module.Replaces.external_call (h : Module.Replaces σ M M') {D : Activation} {A : Activation}
    (hAD : A.Renumbered σ M M' D) {T' : Hardware} {d' : Frame} {callee : Option Callee}
    {args : List (Ty × Word)} {m m' : Mem} {w : Word}
    (hstep : Step T' cfg D.func D.frame (some (.call callee args m w m')) d') (f : Callee)
    (hf : callee = some f) (hsome : (replacements.lookup f.name).isSome = true) :
    f.isDeclaration = true := by
  obtain ⟨G, hG, -, hD, -, hrenames⟩ := hAD
  obtain ⟨x, B, returned, hblock, hop⟩ := hstep.call_op
  have hx : x ∈ (M.body G).ids := hrenames.inside x (by rw [hblock]; exact List.mem_cons_self)
  rw [hD, hf] at hop
  exact h.external G hG x hx f returned hop hsome

theorem Event.replace_eq_call {e : Event} {callee : Option Callee} {args : List (Ty × Word)}
    {m m' : Mem} {w : Word} (h : e.replace = .call callee args m w m') :
    ∃ callee₀, e = .call callee₀ args m w m' ∧ callee = callee₀.map Callee.replace := by
  cases e with
  | call callee₀ args m w m' =>
      cases h
      exact ⟨callee₀, rfl, rfl⟩
  | _ => cases h

theorem Event.replace_eq_ret {e : Event} {values : List (Ty × Word)}
    (h : e.replace = .ret values) : e = .ret values := by
  cases e with
  | ret values =>
      cases h
      rfl
  | _ => cases h

variable (parameters resolve) in
/-- Renumbered activations run on the same hardware. -/
theorem Module.Replaces.hardware (h : Module.Replaces σ M M') {A D : Activation}
    (hAD : A.Renumbered σ M M' D) :
    (M'.program parameters resolve).hardware T A = (M.program parameters resolve).hardware T D := by
  obtain ⟨G, -, hA, hD, hargs, -⟩ := hAD
  rw [Program.hardware, Program.hardware, hA, hD, h.named, h.named', hargs]
  rfl

/-- A step of the active function of the original program. -/
theorem Module.Replaces.runs (h : Module.Replaces σ M M') {A D : Activation}
    (hAD : A.Renumbered σ M M' D) {l : Option Event} {d' : Frame}
    (hrun : (M.program parameters resolve).Runs T cfg D l d') :
    ∃ c', (M'.program parameters resolve).Runs T cfg A (l.map Event.replace) c' ∧
      Activation.Renumbered σ M M' ⟨A.func, A.args, c'⟩ ⟨D.func, D.args, d'⟩ := by
  have hhw := h.hardware parameters resolve (T := T) hAD
  obtain ⟨G, hG, hA, hD, hargs, hrenames⟩ := hAD
  rw [Program.Runs, hD] at hrun
  obtain ⟨c', hstep, hrenames'⟩ := (h.renumbered G hG).step hrenames hrun
  refine ⟨c', ?_, G, hG, hA, hD, hargs, hrenames'⟩
  rw [Program.Runs, hhw, hA]
  exact hstep

/-- A step of the active function of the replaced program. -/
theorem Module.Replaces.runs_inv (h : Module.Replaces σ M M') {A D : Activation}
    (hAD : A.Renumbered σ M M' D) {l : Option Event} {c' : Frame}
    (hrun : (M'.program parameters resolve).Runs T cfg A l c') :
    ∃ l₀ d', l = l₀.map Event.replace ∧ (M.program parameters resolve).Runs T cfg D l₀ d' ∧
      Activation.Renumbered σ M M' ⟨A.func, A.args, c'⟩ ⟨D.func, D.args, d'⟩ := by
  have hhw := h.hardware parameters resolve (T := T) hAD
  obtain ⟨G, hG, hA, hD, hargs, hrenames⟩ := hAD
  rw [Program.Runs, hhw, hA] at hrun
  obtain ⟨l₀, d', hl, hstep, hrenames'⟩ := (h.renumbered G hG).step_inv hrenames hrun
  refine ⟨l₀, d', hl, ?_, G, hG, hA, hD, hargs, hrenames'⟩
  rw [Program.Runs, hD]
  exact hstep

/-- Both programs stay in their functions, or both leave them. -/
theorem Module.Replaces.stays (h : Module.Replaces σ M M') {A D : Activation}
    (hAD : A.Renumbered σ M M' D) {l₀ : Option Event} {d' : Frame}
    (hrun : (M.program parameters resolve).Runs T cfg D l₀ d') {S R : List Activation}
    (hSR : S = [] ↔ R = []) :
    (M'.program parameters resolve).Stays S (l₀.map Event.replace) ↔
      (M.program parameters resolve).Stays R l₀ := by
  cases l₀ with
  | none => exact Iff.rfl
  | some e =>
      cases e with
      | alloca a => exact Iff.rfl
      | ret values => exact hSR
      | call callee args m w m' =>
          have hrel := h.enters parameters resolve
            (h.external_call hAD hrun) args
          show (M'.program parameters resolve).enters (callee.map Callee.replace) args = none ↔
            (M.program parameters resolve).enters callee args = none
          generalize (M.program parameters resolve).enters callee args = p at hrel ⊢
          generalize (M'.program parameters resolve).enters (callee.map Callee.replace) args = q
            at hrel ⊢
          cases hrel <;> simp

/-- Functions of the two modules start alike. -/
theorem Module.Replaces.start (h : Module.Replaces σ M M') {G : String} (hG : G ∈ M.functions)
    (values : List Word) (m : Mem) :
    (∀ d, ((M.body G).system T cfg m).start d → ∃ c, ((M'.body G).system T cfg m).start c ∧
        Activation.Renumbered σ M M' ⟨M'.body G, values, c⟩ ⟨M.body G, values, d⟩) ∧
      ∀ c, ((M'.body G).system T cfg m).start c → ∃ d, ((M.body G).system T cfg m).start d ∧
        Activation.Renumbered σ M M' ⟨M'.body G, values, c⟩ ⟨M.body G, values, d⟩ := by
  have hlayout := (h.renumbered G hG).layout
  have hframe : ∀ B : List Nat, (M.body G).layout[0]? = some B →
      Activation.Renumbered σ M M'
        ⟨M'.body G, values, ⟨B.map (σ G), fun _ => none, m, fun _ => none, 0, none⟩⟩
        ⟨M.body G, values, ⟨B, fun _ => none, m, fun _ => none, 0, none⟩⟩ := fun B hB =>
    ⟨G, hG, rfl, rfl, rfl, rfl, fun y hy => (M.body G).mem_ids hB hy, fun _ _ => rfl, rfl, rfl, .none⟩
  constructor
  · rintro d ⟨B, hB, rfl⟩
    refine ⟨_, ⟨B.map (σ G), ?_, rfl⟩, hframe B hB⟩
    rw [hlayout, List.getElem?_map, hB]
    rfl
  · rintro c ⟨C, hC, rfl⟩
    rw [hlayout, List.getElem?_map] at hC
    obtain ⟨B, hB, rfl⟩ := Option.map_eq_some_iff.1 hC
    exact ⟨_, ⟨B, hB, rfl⟩, hframe B hB⟩

/-- The memory of renumbered activations. -/
theorem Activation.Renumbered.mem {A D : Activation} (h : A.Renumbered σ M M' D) :
    A.frame.mem = D.frame.mem := by
  obtain ⟨G, -, -, -, -, hrenames⟩ := h
  exact hrenames.mem

/-- **One step of the original program.** -/
theorem Module.Replaces.step (h : Module.Replaces σ M M') {S R R' : List Activation}
    {l₀ : Option Event} (hSR : List.Forall₂ (Activation.Renumbered σ M M') S R)
    (hstep : (M.program parameters resolve).Step T cfg R l₀ R') :
    ∃ S', (M'.program parameters resolve).Step T cfg S (l₀.map Event.replace) S' ∧
      List.Forall₂ (Activation.Renumbered σ M M') S' R' := by
  cases hstep with
  | stay hrun hstays =>
      cases hSR with
      | cons hAD htail =>
          obtain ⟨c', hrun', hAD'⟩ := h.runs hAD hrun
          exact ⟨_, .stay hrun' ((h.stays hAD hrun (forall₂_nil_iff htail)).2 hstays),
            .cons hAD' htail⟩
  | @enter _ _ callee args w m' d' d₀ F values hrun henters hstart =>
      cases hSR with
      | cons hAD htail =>
          obtain ⟨c', hrun', -⟩ := h.runs hAD hrun
          -- replaced callees are external, so the call enters the same function
          have hrel := h.enters parameters resolve
            (h.external_call hAD hrun) args
          rw [henters] at hrel
          generalize hQ : (M'.program parameters resolve).enters (callee.map Callee.replace) args = q
            at hrel
          cases hrel with
          | @some _ q hq =>
              obtain ⟨⟨G, hG, hF, hF'⟩, hvalues⟩ := hq
              obtain ⟨q, values'⟩ := q
              obtain rfl : F = M.body G := hF
              obtain rfl : q = M'.body G := hF'
              obtain rfl : values = values' := hvalues
              obtain ⟨c₀, hc₀, hnew⟩ := (h.start hG values _).1 d₀ hstart
              rw [← hAD.mem] at hc₀ hrun'
              exact ⟨_, .enter hrun' hQ hc₀, .cons hnew (.cons hAD htail)⟩
  | @leave _ _ _ values callee args w d' e' hret hvalue hcall =>
      cases hSR with
      | cons hAD htail =>
          cases htail with
          | cons hBE htail =>
              obtain ⟨c', hret', -⟩ := h.runs hAD hret
              obtain ⟨b', hcall', hnew⟩ := h.runs hBE hcall
              -- the caller makes its call, with the replaced name, from the same memory
              have hcall'' := hcall'
              rw [Option.map_some, Event.replace, ← hBE.mem, ← hAD.mem] at hcall''
              exact ⟨_, .leave hret' hvalue hcall'', .cons hnew htail⟩

/-- **One step of the replaced program.** -/
theorem Module.Replaces.step_inv (h : Module.Replaces σ M M') {S S' R : List Activation}
    {l : Option Event} (hSR : List.Forall₂ (Activation.Renumbered σ M M') S R)
    (hstep : (M'.program parameters resolve).Step T cfg S l S') :
    ∃ l₀ R', l = l₀.map Event.replace ∧ (M.program parameters resolve).Step T cfg R l₀ R' ∧
      List.Forall₂ (Activation.Renumbered σ M M') S' R' := by
  cases hstep with
  | stay hrun hstays =>
      cases hSR with
      | cons hAD htail =>
          obtain ⟨l₀, d', rfl, hrun₀, hAD'⟩ := h.runs_inv hAD hrun
          exact ⟨l₀, _, rfl, .stay hrun₀ ((h.stays hAD hrun₀ (forall₂_nil_iff htail)).1 hstays),
            .cons hAD' htail⟩
  | @enter _ _ callee args w m' c' c₀ F values hrun henters hstart =>
      cases hSR with
      | cons hAD htail =>
          obtain ⟨l₀, d', hl, hrun₀, -⟩ := h.runs_inv hAD hrun
          cases l₀ with
          | none => cases hl
          | some e =>
              -- the event is the replaced one of a call
              obtain ⟨callee₀, rfl, rfl⟩ := Event.replace_eq_call (Option.some.inj hl).symm
              have hrel := h.enters parameters resolve
                (h.external_call hAD hrun₀) args
              rw [henters] at hrel
              generalize hP : (M.program parameters resolve).enters callee₀ args = p at hrel
              cases hrel with
              | @some p _ hp =>
                  obtain ⟨⟨G, hG, hF, hF'⟩, hvalues⟩ := hp
                  obtain ⟨p, values'⟩ := p
                  obtain rfl : p = M.body G := hF
                  obtain rfl : F = M'.body G := hF'
                  obtain rfl : values' = values := hvalues
                  obtain ⟨d₀, hd₀, hnew⟩ := (h.start hG values' _).2 c₀ hstart
                  rw [hAD.mem] at hd₀ hrun₀
                  exact ⟨none, _, rfl, .enter hrun₀ hP hd₀, .cons hnew (.cons hAD htail)⟩
  | @leave _ _ _ values callee args w c' b' hret hvalue hcall =>
      cases hSR with
      | cons hAD htail =>
          cases htail with
          | cons hBE htail =>
              obtain ⟨l₀, d', hl, hret₀, -⟩ := h.runs_inv hAD hret
              obtain ⟨l₁, e', hl', hcall₀, hnew⟩ := h.runs_inv hBE hcall
              cases l₀ with
              | none => cases hl
              | some e =>
                  -- a replaced event that is a return was one
                  obtain rfl := Event.replace_eq_ret (Option.some.inj hl).symm
                  cases l₁ with
                  | none => cases hl'
                  | some e =>
                      obtain ⟨callee₀, rfl, rfl⟩ := Event.replace_eq_call (Option.some.inj hl').symm
                      rw [hBE.mem, hAD.mem] at hcall₀
                      exact ⟨none, _, rfl, .leave hret₀ hvalue hcall₀, .cons hnew htail⟩

/-- Both programs start alike. -/
theorem Module.Replaces.program_start (h : Module.Replaces σ M M') (entry : String) (m : Mem) :
    (∀ R, ((M.program parameters resolve).system T cfg entry m).start R →
        ∃ S, ((M'.program parameters resolve).system T cfg entry m).start S ∧
          List.Forall₂ (Activation.Renumbered σ M M') S R) ∧
      ∀ S, ((M'.program parameters resolve).system T cfg entry m).start S →
        ∃ R, ((M.program parameters resolve).system T cfg entry m).start R ∧
          List.Forall₂ (Activation.Renumbered σ M M') S R := by
  have hrel := h.define parameters resolve entry
  constructor
  · rintro R ⟨F, args, d, hF, hd, rfl⟩
    rw [hF] at hrel
    generalize hF' : (M'.program parameters resolve).define entry = o at hrel
    cases hrel with
    | some hboth =>
        obtain ⟨G, hG, rfl, rfl⟩ := hboth
        obtain ⟨c, hc, hnew⟩ := (h.start hG args m).1 d hd
        exact ⟨_, ⟨_, args, c, hF', hc, rfl⟩, .cons hnew .nil⟩
  · rintro S ⟨F', args, c, hF', hc, rfl⟩
    rw [hF'] at hrel
    generalize hF : (M.program parameters resolve).define entry = o at hrel
    cases hrel with
    | some hboth =>
        obtain ⟨G, hG, rfl, rfl⟩ := hboth
        obtain ⟨d, hd, hnew⟩ := (h.start hG args m).2 c hc
        exact ⟨_, ⟨_, args, d, hF, hd, rfl⟩, .cons hnew .nil⟩

/-- **Runs of the original program** are runs of the replaced one. -/
theorem Module.Replaces.run (h : Module.Replaces σ M M') {entry : String} {m : Mem}
    {es₀ : List Event} {R : List Activation}
    (hrun : ((M.program parameters resolve).system T cfg entry m).Run es₀ R) :
    ∃ S, ((M'.program parameters resolve).system T cfg entry m).Run (es₀.map Event.replace) S ∧
      List.Forall₂ (Activation.Renumbered σ M M') S R := by
  apply hrun.inductionOn (P := fun es₀ R =>
    ∃ S, ((M'.program parameters resolve).system T cfg entry m).Run (es₀.map Event.replace) S ∧
      List.Forall₂ (Activation.Renumbered σ M M') S R)
  · intro R hstart
    obtain ⟨S, hS, hSR⟩ := (h.program_start entry m).1 R hstart
    exact ⟨S, .start hS, hSR⟩
  · rintro es₀ R l₀ R' - ⟨S, hS, hSR⟩ hstep
    obtain ⟨S', hstep', hSR'⟩ := h.step hSR hstep
    refine ⟨S', ?_, hSR'⟩
    have hsnoc := hS.snoc hstep'
    rwa [Option.toList_map, ← List.map_append] at hsnoc

/-- **Runs of the replaced program** are runs of the original one. -/
theorem Module.Replaces.run_inv (h : Module.Replaces σ M M') {entry : String} {m : Mem}
    {es : List Event} {S : List Activation}
    (hrun : ((M'.program parameters resolve).system T cfg entry m).Run es S) :
    ∃ es₀ R, ((M.program parameters resolve).system T cfg entry m).Run es₀ R ∧
      es = es₀.map Event.replace ∧ List.Forall₂ (Activation.Renumbered σ M M') S R := by
  apply hrun.inductionOn (P := fun es S =>
    ∃ es₀ R, ((M.program parameters resolve).system T cfg entry m).Run es₀ R ∧
      es = es₀.map Event.replace ∧ List.Forall₂ (Activation.Renumbered σ M M') S R)
  · intro S hstart
    obtain ⟨R, hR, hSR⟩ := (h.program_start entry m).2 S hstart
    exact ⟨[], R, .start hR, rfl, hSR⟩
  · rintro es S l S' - ⟨es₀, R, hR, rfl, hSR⟩ hstep
    obtain ⟨l₀, R', rfl, hstep₀, hSR'⟩ := h.step_inv hSR hstep
    refine ⟨_, R', hR.snoc hstep₀, ?_, hSR'⟩
    rw [Option.toList_map, List.map_append]

end Replaces

/-! ## The phase over a program -/

/-- The modules of the phase are replaced as programs. -/
theorem Progress.replaces {M M' : Module} (h : Progress M M.functions M') (hM : M.Consistent)
    (hcalls : M.CallsOnly) (hrep : M.Replaceable) (hclosed : M.Closed)
    (hnamed : ∀ G, (M'.body G).name = G) : ∃ σ, Module.Replaces σ M M' := by
  obtain ⟨σ, hσ⟩ := h.replacedBy hM hcalls hrep
  refine ⟨σ, hM.names, h.consistent.names, hσ.functions.subset, hclosed.named, hnamed, ?_, hσ.added,
    hclosed.external⟩
  intro G hG
  refine ⟨(hnamed G).trans (hclosed.named G).symm, hσ.layout G hG, hσ.injOn G hG, hσ.instr G hG,
    hclosed.inst G hG, ?_⟩
  intro x hx v hv f hf
  cases hr : replacements.lookup f with
  | none => rfl
  | some r =>
      have hnot := hrep.operand hM hcalls hr hG hx hv
      rw [hf] at hnot
      exact absurd hnot (by simp [Ref.mentions])

/-- **The program with the replaced allocator has the executions of the original one**, with the
names of the allocation functions replaced in their events: each execution of the one is one of the
other, at every point with the same stack up to the numbers of instructions. -/
theorem replaced_program_same {setName : List String → String → String} (hN : Naming setName)
    {M : Module} (hM : M.Consistent) (hcalls : M.CallsOnly) (hrep : M.Replaceable)
    (hclosed : M.Closed) (parameters : String → List String) (resolve : Word → Option String)
    (T : Hardware) (cfg : Config) :
    ∃ N, ∀ fuel, N ≤ fuel → ∃ M' σ, replacementPhase setName fuel M = some M' ∧ ∀ entry m,
      (∀ es₀ R, ((M.program parameters resolve).system T cfg entry m).Run es₀ R →
        ∃ S, ((M'.program parameters resolve).system T cfg entry m).Run (es₀.map Event.replace) S ∧
          List.Forall₂ (Activation.Renumbered σ M M') S R) ∧
      ∀ es S, ((M'.program parameters resolve).system T cfg entry m).Run es S →
        ∃ es₀ R, ((M.program parameters resolve).system T cfg entry m).Run es₀ R ∧
          es = es₀.map Event.replace ∧ List.Forall₂ (Activation.Renumbered σ M M') S R := by
  obtain ⟨M', N, hend⟩ := hM.phase_ends hN (fun _ hf => hf) hM.names
    fun f hf r hr => (hrep f hf r hr).1
  refine ⟨N, fun fuel hfuel => ?_⟩
  have hres := hend fuel hfuel
  have hprogress := (Progress.start hM).run hN (fun _ hf => hf) hM.names hres
  obtain ⟨σ, hσ⟩ := hprogress.replaces hM hcalls hrep hclosed
    (replacementPhase_named hclosed.named hres)
  exact ⟨M', σ, hres, fun entry m => ⟨fun es₀ R => hσ.run, fun es S => hσ.run_inv⟩⟩

/-! ### A module with one body -/

/-- A call of a function that is replaced calls a declaration. -/
def Op.leavesModule : Op → Bool
  | .call (some callee) _ => (replacements.lookup callee.name).isNone || callee.isDeclaration
  | _ => true

theorem Module.closed_ofBody {functions : List String} {returnTy : String → Ty} {F : Func}
    (hinst : ∀ x ∈ F.ids, ∀ v ∈ (F.instr x).operands, v.isAmong F.ids = true)
    (hexternal : ∀ x ∈ F.ids, (F.instr x).op.leavesModule = true) :
    (Module.ofBody functions returnTy F).Closed where
  named := by
    intro G
    show (if G = F.name then F else _).name = G
    split
    · rename_i hG
      exact hG.symm
    · rfl
  inst := by
    intro G _ x hx v hv y hy
    obtain ⟨-, hsame, hx⟩ := Module.body_ofBody hx
    rw [hsame] at hv ⊢
    have hmem := hinst x hx v hv
    rw [Value.isAmong, hy] at hmem
    exact of_decide_eq_true hmem
  external := by
    intro G _ x hx callee returned hop hsome
    obtain ⟨-, hsame, hx⟩ := Module.body_ofBody hx
    rw [hsame] at hop
    have hleaves := hexternal x hx
    rw [hop, Op.leavesModule, Bool.or_eq_true] at hleaves
    apply hleaves.resolve_left
    rw [Option.isNone_iff_eq_none]
    exact fun hnone => absurd hsome (by rw [hnone]; decide)

theorem visitThenFree_closed : visitThenFree.Closed :=
  Module.closed_ofBody (by decide) (by decide)

/-- The functions that are replaced are called only, and the names of the replacements are free. -/
theorem Module.replaceable_of_free {M : Module}
    (hcallees : ∀ f ∈ M.functions, ∀ u ∈ M.uses f, u.index = none)
    (hfree : ∀ p ∈ replacements, p.2 ∉ M.names) : M.Replaceable :=
  fun f hf _ hr => ⟨hcallees f hf, fun _ => hfree _ (mem_replacements hr)⟩

theorem visitThenFree_replaceable : visitThenFree.Replaceable :=
  Module.replaceable_of_free (by decide) (by decide)

theorem visitThenFree_program_same :
    ∃ N, ∀ fuel, N ≤ fuel → ∃ M' σ, replacementPhase uniqueName fuel visitThenFree = some M' ∧
      ∀ entry m,
        (∀ es₀ R, ((visitThenFree.program (fun _ => []) fun _ => none).system wordHardware
            Config.shipped entry m).Run es₀ R →
          ∃ S, ((M'.program (fun _ => []) fun _ => none).system wordHardware Config.shipped
              entry m).Run (es₀.map Event.replace) S ∧
            List.Forall₂ (Activation.Renumbered σ visitThenFree M') S R) ∧
        ∀ es S, ((M'.program (fun _ => []) fun _ => none).system wordHardware Config.shipped
            entry m).Run es S →
          ∃ es₀ R, ((visitThenFree.program (fun _ => []) fun _ => none).system wordHardware
              Config.shipped entry m).Run es₀ R ∧
            es = es₀.map Event.replace ∧
            List.Forall₂ (Activation.Renumbered σ visitThenFree M') S R :=
  replaced_program_same naming_uniqueName visitThenFree_consistent visitThenFree_callsOnly
    visitThenFree_replaceable visitThenFree_closed _ _ wordHardware Config.shipped

end PTAuth.Pass
