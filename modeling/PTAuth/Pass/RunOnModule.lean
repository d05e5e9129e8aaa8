import PTAuth.Pass.Protection
import PTAuth.Pass.ReplacedPrograms
import PTAuth.Pass.UseLists

/-!
# The whole pass

`runOnModule` replaces the allocation functions, declares the functions of the runtime and
instruments the bodies. The first phase does what the original program does under other names, the
second adds nothing and leaves nothing out but what a check refuses. So the result does nothing that
the original program does not (`run_on_module_preserved`), and all that it does up to a check that
refuses a pointer it goes through (`run_on_module_followed`).
-/

set_option autoImplicit false

namespace PTAuth.Pass

open PTAuth.Library PTAuth.Runtime

/-! ## The pass -/

/-- The functions that `runOnModule` declares. -/
def hookFunctions : List String :=
  ["__loadCheck", "__GEPCheck", "__nestedGEPCheck", "__storeCheck", "__xpac", "__noCheck"]

/-- `getOrInsertFunction`, and the cast of its result to a function, which fails for a variable. -/
def Module.getOrInsertFunction (M : Module) (f : String) : Option Module :=
  if f ∈ M.functions then some M
  else if f ∈ M.globalVariables then none
  else some
    { functions := M.functions ++ [f]
      globalVariables := M.globalVariables
      body := Function.update M.body f ⟨f, [], fun _ => Instr.unused, fun _ => [], 0⟩
      returnTy := Function.update M.returnTy f voidPtrTy
      returned := Function.update M.returned f none
      uses := Function.update M.uses f [] }

/-- `runOnModule`; the result is the functions of the module. -/
def runOnModule (setName : List String → String → String) (optimization tbi : Bool) (fuel : Nat)
    (M : Module) : Option (List Func) := do
  let M ← replacementPhase setName fuel M
  let M ← hookFunctions.foldlM Module.getOrInsertFunction M
  let m ← instrumentModule optimization tbi fuel (M.functions.map M.body)
  return m.done.map Prod.fst

/-! ## Declarations -/

section Declarations

variable {σ : String → Nat → Nat} {M M' M₁ : Module} {f : String}

/-- A declaration leaves a module replaced. -/
theorem Module.Replaces.getOrInsertFunction (h : Module.Replaces σ M M')
    (hres : M'.getOrInsertFunction f = some M₁) : Module.Replaces σ M M₁ := by
  rw [Module.getOrInsertFunction] at hres
  split at hres
  · cases hres
    exact h
  · rename_i hf
    split at hres
    · cases hres
    · cases hres
      have hbody : ∀ G, G ≠ f → Function.update M'.body f
          ⟨f, [], fun _ => Instr.unused, fun _ => [], 0⟩ G = M'.body G :=
        fun G hG => Function.update_of_ne hG _ _
      have hne : ∀ G ∈ M.functions, G ≠ f := fun G hG heq => hf (heq ▸ h.functions hG)
      refine ⟨h.names, ?_, fun G hG => List.mem_append_left _ (h.functions hG), h.named, ?_, ?_, ?_,
        h.external⟩
      · refine List.nodup_append.2 ⟨h.names', List.nodup_singleton f, fun a ha b hb hab => ?_⟩
        exact hf (List.mem_singleton.1 hb ▸ hab ▸ ha)
      · intro G
        by_cases hG : G = f
        · subst hG
          exact congrArg Func.name (Function.update_self G _ M'.body)
        · exact (congrArg Func.name (hbody G hG)).trans (h.named' G)
      · intro G hG
        show Renumbered (σ G) (M.body G) (Function.update M'.body f _ G)
        rw [hbody G (hne G hG)]
        exact h.renumbered G hG
      · intro G hG hnew
        show (Function.update M'.body f _ G).layout = []
        by_cases hGf : G = f
        · rw [hGf, Function.update_self]
        · rw [hbody G hGf]
          exact h.added G ((List.mem_append.1 hG).resolve_right fun hmem =>
            hGf (List.mem_singleton.1 hmem)) hnew

/-- It leaves functions linked. -/
theorem Module.getOrInsertFunction_wellLinked (h : ∀ G ∈ M'.functions, (M'.body G).WellLinked)
    (hres : M'.getOrInsertFunction f = some M₁) : ∀ G ∈ M₁.functions, (M₁.body G).WellLinked := by
  rw [Module.getOrInsertFunction] at hres
  split at hres
  · cases hres
    exact h
  · split at hres
    · cases hres
    · cases hres
      intro G hG
      show Func.WellLinked (Function.update M'.body f _ G)
      by_cases hGf : G = f
      · rw [hGf, Function.update_self]
        exact Func.wellLinked_declaration f
      · rw [Function.update_of_ne hGf]
        exact h G ((List.mem_append.1 hG).resolve_right fun hmem => hGf (List.mem_singleton.1 hmem))

/-- It succeeds for what is no variable, and adds none. -/
theorem Module.getOrInsertFunction_some (hf : f ∉ M'.globalVariables) :
    ∃ M₁, M'.getOrInsertFunction f = some M₁ ∧ M₁.globalVariables = M'.globalVariables := by
  rw [Module.getOrInsertFunction]
  by_cases hmem : f ∈ M'.functions
  · exact ⟨M', if_pos hmem, rfl⟩
  · rw [if_neg hmem, if_neg hf]
    exact ⟨_, rfl, rfl⟩

/-- **The declarations of the runtime.** -/
theorem Module.Replaces.declared (h : Module.Replaces σ M M')
    (hlinked : ∀ G ∈ M'.functions, (M'.body G).WellLinked) (fs : List String)
    (hfs : ∀ f ∈ fs, f ∉ M'.globalVariables) :
    ∃ M₁, fs.foldlM Module.getOrInsertFunction M' = some M₁ ∧ Module.Replaces σ M M₁ ∧
      ∀ G ∈ M₁.functions, (M₁.body G).WellLinked := by
  induction fs generalizing M' with
  | nil => exact ⟨M', rfl, h, hlinked⟩
  | cons f fs ih =>
      obtain ⟨M₂, hM₂, hglobal⟩ := Module.getOrInsertFunction_some (hfs f List.mem_cons_self)
      obtain ⟨M₁, hM₁, hreplaces, hlinked₁⟩ := ih (h.getOrInsertFunction hM₂)
        (Module.getOrInsertFunction_wellLinked hlinked hM₂)
        (fun g hg => hglobal ▸ hfs g (List.mem_cons_of_mem f hg))
      refine ⟨M₁, ?_, hreplaces, hlinked₁⟩
      rw [List.foldlM_cons, hM₂]
      exact hM₁

end Declarations

/-! ## Both phases -/

/-- The activation `A` has the function, the arguments, the memory and the registers of `D`, whose
instructions are numbered by `σ`. -/
structure Activation.Mirrors (σ : String → Nat → Nat) (A D : Activation) : Prop where
  name : A.func.name = D.func.name
  args : A.args = D.args
  mem : A.frame.mem = D.frame.mem
  regs : ∀ y ∈ D.func.ids, A.frame.regs (σ D.func.name y) = D.frame.regs y

section Both

variable {σ : String → Nat → Nat} {M M' : Module} {parameters : String → List String}
  {resolve : Word → Option String} {T : Hardware} {cfg : Config}

/-- First the numbers change, then instructions are inserted. -/
theorem Activation.Same.mirrors (h : Module.Replaces σ M M') {A B D : Activation}
    (hAB : A.Same (M'.program parameters resolve) T B) (hBD : B.Renumbered σ M M' D) :
    A.Mirrors σ D := by
  obtain ⟨G, hG, hB, hD, hargs, hrenames⟩ := hBD
  refine ⟨?_, hAB.args.trans hargs, hAB.frame.mem.trans hrenames.mem, fun y hy => ?_⟩
  · rw [hAB.name, hB, hD, h.named, h.named']
  · rw [hD] at hy
    rw [hD, h.named, ← hrenames.regs y hy]
    apply hAB.frame.regs
    rw [hB, Func.ids, (h.renumbered G hG).layout, ← List.map_flatten]
    exact List.mem_map_of_mem hy

theorem Module.Replaces.mirrors (h : Module.Replaces σ M M') {S R R₀ : List Activation}
    (hSR : List.Forall₂ (Activation.Same (M'.program parameters resolve) T) S R)
    (hR : List.Forall₂ (Activation.Renumbered σ M M') R R₀) :
    List.Forall₂ (Activation.Mirrors σ) S R₀ := by
  apply (System.forall₂_comp hSR hR).imp
  rintro A D ⟨B, hAB, hBD⟩
  exact hAB.mirrors h hBD

/-- Renumbered programs go through the same pointers. -/
theorem Module.Replaces.goes (h : Module.Replaces σ M M') {S R : List Activation} {m : Mem} {w : Word}
    (hSR : List.Forall₂ (Activation.Renumbered σ M M') S R)
    (hgoes : (M'.program parameters resolve).Goes T S m w) :
    (M.program parameters resolve).Goes T R m w := by
  obtain ⟨A, S', x, B, rfl, rfl, hblock, hop, v, hv, hw⟩ := hgoes
  cases hSR with
  | @cons _ D _ R' hAD htail =>
      have hhw := h.hardware parameters resolve (T := T) hAD
      obtain ⟨G, hG, hA, hD, -, hrenames⟩ := hAD
      have hsame := hrenames.block
      rw [hblock] at hsame
      obtain ⟨y, C, hC, rfl, -⟩ := List.map_eq_cons_iff.1 hsame.symm
      have hy : y ∈ (M.body G).ids := hrenames.inside y (hC ▸ List.mem_cons_self)
      have hR := h.renumbered G hG
      rw [hA] at hop hv
      -- loads and GEPs are not replaced
      have hop₀ : ((M'.body G).instr (σ G y)).op = ((M.body G).instr y).op := by
        apply (hR.instr y hy).op.eq_of_not_call'
        intro callee returned hcall
        rw [hcall] at hop
        rcases hop with hop | hop <;> cases hop
      rw [Func.operand, (hR.instr y hy).operands, List.getElem?_map] at hv
      obtain ⟨v₀, hv₀, rfl⟩ := Option.map_eq_some_iff.1 hv
      have heval := (hR.evaluates (T := (M'.program parameters resolve).hardware T A) hrenames.regs hy
        (List.mem_of_getElem? hv₀) ((v₀.replace (σ G)).ty, w)).1 ⟨rfl, hw⟩
      refine ⟨D, R', y, C, rfl, hrenames.mem.symm, hC, ?_, v₀, ?_, ?_⟩
      · rw [hD, ← hop₀]
        exact hop
      · rw [hD]
        exact hv₀
      · rw [← hhw]
        exact heval.2

end Both

/-- **The pass ends**, with the functions of a replaced module, instrumented. -/
theorem runOnModule_ends {setName : List String → String → String} (hN : Naming setName)
    {M : Module} (hM : M.Consistent) (hwf : ∀ G ∈ M.functions, (M.body G).WellLinked)
    (hcalls : M.CallsOnly) (hrep : M.Replaceable) (hclosed : M.Closed)
    (hhooks : ∀ f ∈ hookFunctions, f ∉ M.globalVariables) (optimization tbi : Bool) :
    ∃ N, ∀ fuel, N ≤ fuel → ∃ fs σ M', runOnModule setName optimization tbi fuel M = some fs ∧
      Module.Replaces σ M M' ∧
      List.Forall₂ (fun F G => F.WellLinked ∧ Instrumented tbi F G) (M'.functions.map M'.body) fs := by
  obtain ⟨M₁, N, hend⟩ := hM.phase_ends hN (fun _ hf => hf) hM.names
    fun f hf r hr => (hrep f hf r hr).1
  have hres := hend N (Nat.le_refl N)
  -- what the replacement phase leaves is linked, so the loop over its functions ends too
  have hprogress := (Progress.start hM).run hN (fun _ hf => hf) hM.names hres
  obtain ⟨σ, hσ⟩ := hprogress.replaces hM hcalls hrep hclosed
    (replacementPhase_named hclosed.named hres)
  obtain ⟨M', hM', hreplaces, hlinked⟩ := hσ.declared
    (hM.phase_wellLinked hN (fun _ hf => hf) hwf hres) hookFunctions
    (fun f hf => hprogress.globalVariables ▸ hhooks f hf)
  have hbodies : ∀ F ∈ M'.functions.map M'.body, F.WellLinked := by
    intro F hF
    obtain ⟨G, hG, rfl⟩ := List.mem_map.1 hF
    exact hlinked G hG
  obtain ⟨N', hend'⟩ := instrumentModule_instrumented optimization tbi hbodies
  refine ⟨max N N', fun fuel hfuel => ?_⟩
  obtain ⟨m, hm, hinstrumented⟩ := hend' fuel ((Nat.le_max_right N N').trans hfuel)
  refine ⟨m.done.map Prod.fst, σ, M', ?_, hreplaces,
    (List.forall₂_and_left (p := fun F : Func => F.WellLinked) _ _).2 ⟨hbodies, hinstrumented⟩⟩
  have hphase : replacementPhase setName fuel M = some M₁ :=
    hend fuel ((Nat.le_max_left N N').trans hfuel)
  rw [runOnModule, hphase, Option.bind_eq_bind, Option.bind_some, hM', Option.bind_some, hm]
  rfl

/-- **The whole pass adds nothing**, in the Top-Byte Ignore build: every execution of the rewritten
module is one of the original module, with the names of the allocation functions replaced in its
events, and without the upper bits of pointers that `read` gets, and at every point with the same
stack. -/
theorem run_on_module_preserved {setName : List String → String → String} (hN : Naming setName)
    {M : Module} (hM : M.Consistent) (hwf : ∀ G ∈ M.functions, (M.body G).WellLinked)
    (hcalls : M.CallsOnly) (hrep : M.Replaceable) (hclosed : M.Closed)
    (hhooks : ∀ f ∈ hookFunctions, f ∉ M.globalVariables) (optimization : Bool)
    (parameters : String → List String) (resolve : Word → Option String) (T : Hardware)
    {cfg : Config} (htbi : cfg.topByteIgnore = true) :
    ∃ N, ∀ fuel, N ≤ fuel → ∃ fs σ, runOnModule setName optimization true fuel M = some fs ∧
      (∀ G ∈ M.functions, Set.InjOn (σ G) {x | x ∈ (M.body G).ids}) ∧
      ∀ entry m es S, ((Program.mk fs parameters resolve).system T cfg entry m).Run es S →
        ∃ es₀ R, ((M.program parameters resolve).system T cfg entry m).Run es₀ R ∧
          List.Forall₂ (fun e e₀ => Event.Agrees e e₀.replace) es es₀ ∧
          List.Forall₂ (Activation.Mirrors σ) S R := by
  obtain ⟨N, hend⟩ := runOnModule_ends hN hM hwf hcalls hrep hclosed hhooks optimization true
  refine ⟨N, fun fuel hfuel => ?_⟩
  obtain ⟨fs, σ, M', hres, hreplaces, hfs⟩ := hend fuel hfuel
  have hinstrumented : (M'.program parameters resolve).InstrumentedTo ⟨fs, parameters, resolve⟩ :=
    ⟨hfs, rfl, rfl⟩
  refine ⟨fs, σ, hres, fun G hG => (hreplaces.renumbered G hG).injOn, fun entry m es S hrun => ?_⟩
  -- first back to the replaced module, then to the original one
  obtain ⟨es₁, R, hrun₁, hes, hSR⟩ := (hinstrumented.simulates htbi entry m).run hrun
  obtain ⟨es₀, R₀, hrun₀, rfl, hR⟩ := hreplaces.run_inv hrun₁
  exact ⟨es₀, R₀, hrun₀, List.forall₂_map_right_iff.1 hes, hreplaces.mirrors (hSR.same htbi) hR⟩

/-- **The whole pass leaves nothing out but what a check refuses**: every execution of the original
module is followed to its end by the rewritten one, or up to a point that it passes, where the
original goes through a pointer that a check refuses and the rewritten module is stuck. -/
theorem run_on_module_followed {setName : List String → String → String} (hN : Naming setName)
    {M : Module} (hM : M.Consistent) (hwf : ∀ G ∈ M.functions, (M.body G).WellLinked)
    (hcalls : M.CallsOnly) (hrep : M.Replaceable) (hclosed : M.Closed)
    (hhooks : ∀ f ∈ hookFunctions, f ∉ M.globalVariables) (optimization : Bool)
    (parameters : String → List String) (resolve : Word → Option String) (T : Hardware)
    {cfg : Config} (htbi : cfg.topByteIgnore = true) :
    ∃ N, ∀ fuel, N ≤ fuel → ∃ fs σ, runOnModule setName optimization true fuel M = some fs ∧
      (∀ G ∈ M.functions, Set.InjOn (σ G) {x | x ∈ (M.body G).ids}) ∧
      ∀ entry m es₀ R, ((M.program parameters resolve).system T cfg entry m).Run es₀ R →
        ∃ es S, ((Program.mk fs parameters resolve).system T cfg entry m).Run es S ∧
          ((List.Forall₂ (fun e e₀ => Event.Agrees e e₀.replace) es es₀ ∧
              List.Forall₂ (Activation.Mirrors σ) S R) ∨
            ∃ es₁ R₁, es₁ <+: es₀ ∧
              ((M.program parameters resolve).system T cfg entry m).Run es₁ R₁ ∧
              ((M.program parameters resolve).system T cfg entry m).Leads R₁ R ∧
              List.Forall₂ (fun e e₀ => Event.Agrees e e₀.replace) es es₁ ∧
              (∃ m' w check, (M.program parameters resolve).Goes T R₁ m' w ∧
                Refuses cfg m' check w) ∧
              ∀ l S', ¬ (Program.mk fs parameters resolve).Step T cfg S l S') := by
  obtain ⟨N, hend⟩ := runOnModule_ends hN hM hwf hcalls hrep hclosed hhooks optimization true
  refine ⟨N, fun fuel hfuel => ?_⟩
  obtain ⟨fs, σ, M', hres, hreplaces, hfs⟩ := hend fuel hfuel
  have hinstrumented : (M'.program parameters resolve).InstrumentedTo ⟨fs, parameters, resolve⟩ :=
    ⟨hfs, rfl, rfl⟩
  refine ⟨fs, σ, hres, fun G hG => (hreplaces.renumbered G hG).injOn, fun entry m es₀ R hrun => ?_⟩
  -- the replaced module makes every step of the original one, and is followed
  have hfollows := (hinstrumented.follows (T := T) htbi entry m).precomp
    (D := (M.program parameters resolve).system T cfg entry m)
    (F := fun e₀ e => e = e₀.replace)
    (Q := fun R S => List.Forall₂ (Activation.Renumbered σ M M') S R)
    (hreplaces.program_start entry m).1 (by
      intro R S l R' hSR hstep
      obtain ⟨S', hstep', hSR'⟩ := hreplaces.step hSR hstep
      refine ⟨_, S', hstep', ?_, hSR'⟩
      cases l with
      | none => exact .none
      | some e => exact .some rfl)
  have hevents : ∀ es₁ es : List Event, List.Forall₂ (Relation.Comp (fun e₀ e => e = e₀.replace)
      fun e₀ e => Event.Agrees e e₀) es₁ es →
        List.Forall₂ (fun e e₀ => Event.Agrees e e₀.replace) es es₁ := by
    intro es₁ es hes
    apply (hes.imp _).flip
    rintro e₀ e ⟨_, rfl, he⟩
    exact he
  obtain ⟨es, S, hrun', ⟨hes, R', hR, hstacks⟩ |
    ⟨es₁, R₁, hle, hrun₁, hleads, hes, R', hR, hrefused⟩⟩ := hfollows.run hrun
  · exact ⟨es, S, hrun', Or.inl ⟨hevents es₀ es hes, hreplaces.mirrors (hstacks.same htbi) hR⟩⟩
  · refine ⟨es, S, hrun', Or.inr ⟨es₁, R₁, hle, hrun₁, hleads, hevents es₁ es hes, ?_, ?_⟩⟩
    · obtain ⟨m', w, check, hgoes, hrefuses⟩ := hrefused.goes
      exact ⟨m', w, check, hreplaces.goes hR hgoes, hrefuses⟩
    · exact fun l S' => hrefused.stuck hinstrumented

/-! ## What the pass leaves alone -/

section Spared

variable {σ : Nat → Nat} {F F' : Func} {x : Nat}

/-- Operands only change their numbers: none of them is a function that is replaced. -/
theorem Renumbered.operands_rename (h : Renumbered σ F F') (hx : x ∈ F.ids) :
    (F'.instr (σ x)).operands = (F.instr x).operands.map (Value.rename σ) := by
  rw [(h.instr x hx).operands]
  apply List.map_congr_left
  intro v hv
  rw [Value.replace]
  split
  · rename_i f hf
    rw [h.function x hx v hv f hf, Value.rename]
    simp only [hf]
  · rfl

theorem Renumbered.operand_rename (h : Renumbered σ F F') (hx : x ∈ F.ids) (k : Nat) :
    F'.operand (σ x) k = (F.operand x k).map (Value.rename σ) := by
  rw [Func.operand, h.operands_rename hx]
  exact List.getElem?_map ..

theorem Renumbered.slotOf (h : Renumbered σ F F') (hx : x ∈ F.ids) {a : Nat}
    (ha : F.slotOf x = some a) : F'.slotOf (σ x) = some (σ a) := by
  obtain ⟨v, hv, hva, halloca⟩ := Func.slotOf_eq_some.1 ha
  have haF : a ∈ F.ids := h.inst x hx v (List.mem_of_getElem? hv) a hva
  refine Func.slotOf_eq_some.2 ⟨v.rename σ, ?_, Value.rename_inst.2 ⟨a, hva, rfl⟩, ?_⟩
  · rw [h.operand_rename hx, hv]
    rfl
  · rw [(h.instr a haF).op.eq_of_not_call]
    · exact halloca
    · intro callee returned hcall
      rw [hcall] at halloca
      exact absurd halloca (by simp [Op.isAlloca])

/-- What is stripped behind the replacement was to be stripped before. -/
theorem Renumbered.stripsArgument (h : Renumbered σ F F') (hx : x ∈ F.ids) {v : Value}
    (hv : v ∈ (F.instr x).operands) (hs : F'.stripsArgument (v.rename σ) = true) :
    F.stripsArgument v = true := by
  obtain ⟨hptr, hconst, hgep⟩ := Func.stripsArgument_iff.1 hs
  refine Func.stripsArgument_iff.2 ⟨?_, ?_, ?_⟩
  · rw [pointerArgument, Value.rename_ty] at hptr
    exact hptr
  · rw [Value.rename] at hconst
    split at hconst
    · rename_i y hy
      rw [hy]
      rfl
    · exact hconst
  · -- a GEP over an alloca stays one
    rw [Option.eq_none_iff_forall_ne_some]
    intro a ha
    obtain ⟨g, hg, hslot⟩ := Option.bind_eq_some_iff.1 ha
    obtain ⟨hvg, hop⟩ := Func.dynCast_eq_some.1 hg
    have hgF : g ∈ F.ids := h.inst x hx v hv g hvg
    have hop' : (F'.instr (σ g)).op = (F.instr g).op := by
      apply (h.instr g hgF).op.eq_of_not_call
      intro callee returned hcall
      rw [hcall] at hop
      exact absurd hop (by simp)
    have hcast : F'.dynCast (· == .gep) (v.rename σ) = some (σ g) :=
      Func.dynCast_eq_some.2 ⟨Value.rename_inst.2 ⟨g, hvg, rfl⟩, hop' ▸ hop⟩
    rw [hcast, Option.bind_some, h.slotOf hgF hslot] at hgep
    exact absurd hgep (by simp)

/-- Where nothing is replaced, spared instructions are spared behind the replacement. -/
theorem Renumbered.spared (h : Renumbered σ F F') (hx : x ∈ F.ids) {tbi : Bool}
    (hop : (F'.instr (σ x)).op = (F.instr x).op) (hs : F.Spared tbi x) : F'.Spared tbi (σ x) := by
  obtain ⟨hload, hgep, hargs⟩ := hs
  refine ⟨hop ▸ hload, fun hg => ?_, fun k v hv hsite => ?_⟩
  · obtain ⟨a, ha⟩ := Option.ne_none_iff_exists'.1 (hgep (hop ▸ hg))
    rw [h.slotOf hx ha]
    exact Option.some_ne_none _
  · rw [h.operand_rename hx] at hv
    obtain ⟨w, hw, rfl⟩ := Option.map_eq_some_iff.1 hv
    obtain ⟨hstrips, hcall⟩ := hsite
    rw [hop] at hcall
    exact hargs k w hw ⟨h.stripsArgument hx (List.mem_of_getElem? hw) hstrips, hcall⟩

end Spared

/-- **What the pass leaves alone.** It inserts bitcasts and calls of runtime functions, among which
`__storeCheck` is not. Nothing is inserted in front of an instruction that is no load, no GEP but one
over an alloca, no call of an allocation function and no call that gets stripped pointers, and it
stays as it is but for the numbers of its operands; of loads and GEPs all operands but the first
stay. -/
theorem run_on_module_spares {setName : List String → String → String} (hN : Naming setName)
    {M : Module} (hM : M.Consistent) (hwf : ∀ G ∈ M.functions, (M.body G).WellLinked)
    (hcalls : M.CallsOnly) (hrep : M.Replaceable) (hclosed : M.Closed)
    (hhooks : ∀ f ∈ hookFunctions, f ∉ M.globalVariables) (optimization tbi : Bool) :
    ∃ N, ∀ fuel, N ≤ fuel → ∃ (fs : List Func) (σ : String → Nat → Nat),
      runOnModule setName optimization tbi fuel M = some fs ∧
      (∀ G ∈ M.functions, Set.InjOn (σ G) {x | x ∈ (M.body G).ids}) ∧
      ∀ G ∈ M.functions, ∃ F ∈ fs, ∃ pre : Nat → List Nat, F.name = G ∧
        F.layout = (M.body G).layout.map (List.flatMap fun x => pre x ++ [σ G x]) ∧
        ∀ x ∈ (M.body G).ids,
          (∀ z ∈ pre x, (F.instr z).op = .bitcast ∨
            ∃ f ∈ runtimeFunctions, (F.instr z).op = runtimeCall f) ∧
          ((M.body G).Spared tbi x ∧
              (∀ callee returned, ((M.body G).instr x).op = .call (some callee) returned →
                replacements.lookup callee.name = none) →
            pre x = [] ∧ F.instr (σ G x) = ((M.body G).instr x).rename (σ G)) ∧
          (((M.body G).instr x).op = .load ∨ ((M.body G).instr x).op = .gep → ∀ k,
            F.operand (σ G x) (k + 1) = ((M.body G).operand x (k + 1)).map (Value.rename (σ G))) := by
  obtain ⟨N, hend⟩ := runOnModule_ends hN hM hwf hcalls hrep hclosed hhooks optimization tbi
  refine ⟨N, fun fuel hfuel => ?_⟩
  obtain ⟨fs, σ, M', hres, hreplaces, hfs⟩ := hend fuel hfuel
  refine ⟨fs, σ, hres, fun G hG => (hreplaces.renumbered G hG).injOn, fun G hG => ?_⟩
  obtain ⟨F, hF, hlinked, pre, hd, hs⟩ :=
    forall₂_partner hfs (List.mem_map_of_mem (hreplaces.functions hG))
  have hR := hreplaces.renumbered G hG
  refine ⟨F, hF, fun x => pre (σ G x), hd.name.trans (hreplaces.named' G), ?_, fun x hx => ?_⟩
  · rw [hd.layout, hR.layout, List.map_map]
    exact List.map_congr_left fun B _ => List.flatMap_map ..
  have hx' : σ G x < (M'.body G).next := by
    apply hlinked.ids_lt
    rw [Func.ids, hR.layout, ← List.map_flatten]
    exact List.mem_map_of_mem hx
  refine ⟨fun z hz => hd.pre_op hz, fun hspared => ?_, fun hop k => ?_⟩
  · obtain ⟨hspared, hnone⟩ := hspared
    obtain ⟨hop, hname⟩ := (hR.instr x hx).other hnone
    obtain ⟨hpre, hsame⟩ := hs.spares hd hx' (hR.spared hx hop hspared)
    refine ⟨hpre, hsame.trans ?_⟩
    calc (M'.body G).instr (σ G x)
        = ⟨((M'.body G).instr (σ G x)).op, ((M'.body G).instr (σ G x)).operands,
            ((M'.body G).instr (σ G x)).ty, ((M'.body G).instr (σ G x)).name⟩ := rfl
      _ = ((M.body G).instr x).rename (σ G) := by
          rw [hop, hR.operands_rename hx, (hR.instr x hx).ty, hname]
          rfl
  · have hnone : ∀ callee returned, ((M.body G).instr x).op = .call (some callee) returned →
        replacements.lookup callee.name = none := by
      intro callee returned hcall
      rw [hcall] at hop
      rcases hop with hop | hop <;> cases hop
    have hsame := ((hR.instr x hx).other hnone).1
    rw [hs.spares_index hx' (hsame ▸ hop) k]
    exact hR.operand_rename hx (k + 1)

/-! ### A module with one body -/

theorem Module.wellLinked_ofBody {functions : List String} {returnTy : String → Ty} {F : Func}
    (h : F.WellLinked) (G : String) : ((Module.ofBody functions returnTy F).body G).WellLinked := by
  show Func.WellLinked (if G = F.name then F else _)
  split
  · exact h
  · exact Func.wellLinked_declaration G

/-- `int *p = malloc(8); p && p[1]; free(p);` -/
def allocThenIndex : Func :=
  Func.ofInstrs "main" [[0, 1, 2, 3, 4, 5, 6], [7, 8, 9, 10, 11], [12, 13, 14, 15, 16]]
    [⟨.alloca (.ptr (.int 32)), [], .ptr (.ptr (.int 32)), "p"⟩,
      ⟨.call (some ⟨"malloc", true⟩) none, [⟨.constantInt 8, .int 64⟩], voidPtrTy, ""⟩,
      ⟨.bitcast, [⟨.inst 1, voidPtrTy⟩], .ptr (.int 32), ""⟩,
      ⟨.store, [⟨.inst 2, .ptr (.int 32)⟩, ⟨.inst 0, .ptr (.ptr (.int 32))⟩], .other "void", ""⟩,
      ⟨.load, [⟨.inst 0, .ptr (.ptr (.int 32))⟩], .ptr (.int 32), ""⟩,
      ⟨.other "icmp", [⟨.inst 4, .ptr (.int 32)⟩, ⟨.constant "null", .ptr (.int 32)⟩], .int 1,
        "tobool"⟩,
      ⟨.br [1, 2], [⟨.inst 5, .int 1⟩], .other "void", ""⟩,
      ⟨.load, [⟨.inst 0, .ptr (.ptr (.int 32))⟩], .ptr (.int 32), ""⟩,
      ⟨.gep, [⟨.inst 7, .ptr (.int 32)⟩, ⟨.constantInt 1, .int 64⟩], .ptr (.int 32), ""⟩,
      ⟨.load, [⟨.inst 8, .ptr (.int 32)⟩], .int 32, ""⟩,
      ⟨.other "icmp", [⟨.inst 9, .int 32⟩, ⟨.constantInt 0, .int 32⟩], .int 1, "tobool1"⟩,
      ⟨.br [2], [], .other "void", ""⟩,
      ⟨.phi [0, 1], [⟨.constantInt 0, .int 1⟩, ⟨.inst 10, .int 1⟩], .int 1, ""⟩,
      ⟨.load, [⟨.inst 0, .ptr (.ptr (.int 32))⟩], .ptr (.int 32), ""⟩,
      ⟨.bitcast, [⟨.inst 13, .ptr (.int 32)⟩], voidPtrTy, ""⟩,
      ⟨.call (some ⟨"free", true⟩) none, [⟨.inst 14, voidPtrTy⟩], .other "void", ""⟩,
      ⟨.ret, [], .other "void", ""⟩]

/-- Its module. -/
def allocModule : Module :=
  Module.ofBody ["malloc", "free", "main"]
    (fun g => if g = "malloc" then voidPtrTy else .other "void") allocThenIndex

/-- The pass replaces both calls and inserts `__loadCheck`, between bitcasts, in front of the load
of what `free` gets. -/
example : (runOnModule uniqueName true true 100 allocModule).map (List.map fun F =>
    (F.name, F.ids.length)) =
    some [("__ptauth_malloc", 0), ("malloc", 0), ("__ptauth_free", 0), ("free", 0), ("main", 20),
      ("__loadCheck", 0), ("__GEPCheck", 0), ("__nestedGEPCheck", 0), ("__storeCheck", 0),
      ("__xpac", 0), ("__noCheck", 0)] := by decide

theorem allocModule_consistent : allocModule.Consistent :=
  Module.consistent_ofBody (by decide) (by decide) (by decide) (by decide) (by decide)

theorem allocModule_wellLinked : ∀ G ∈ allocModule.functions, (allocModule.body G).WellLinked := by
  have hmain : allocThenIndex.WellFormed :=
    Func.wellFormed_ofInstrs (by decide) (by decide) (by decide)
  exact fun G _ => Module.wellLinked_ofBody hmain.wellLinked G

theorem allocModule_callsOnly : allocModule.CallsOnly :=
  Module.callsOnly_ofBody (by decide)

theorem allocModule_replaceable : allocModule.Replaceable :=
  Module.replaceable_of_free (by decide) (by decide)

theorem allocModule_closed : allocModule.Closed :=
  Module.closed_ofBody (by decide) (by decide)

theorem allocModule_preserved :
    ∃ N, ∀ fuel, N ≤ fuel → ∃ fs σ, runOnModule uniqueName true true fuel allocModule = some fs ∧
      (∀ G ∈ allocModule.functions, Set.InjOn (σ G) {x | x ∈ (allocModule.body G).ids}) ∧
      ∀ entry m es S, ((Program.mk fs (fun _ => []) fun _ => none).system wordHardware
          Config.shipped entry m).Run es S →
        ∃ es₀ R, ((allocModule.program (fun _ => []) fun _ => none).system wordHardware
            Config.shipped entry m).Run es₀ R ∧
          List.Forall₂ (fun e e₀ => Event.Agrees e e₀.replace) es es₀ ∧
          List.Forall₂ (Activation.Mirrors σ) S R :=
  run_on_module_preserved naming_uniqueName allocModule_consistent allocModule_wellLinked
    allocModule_callsOnly allocModule_replaceable allocModule_closed
    (fun _ _ => List.not_mem_nil) true _ _ wordHardware rfl

theorem allocModule_followed :
    ∃ N, ∀ fuel, N ≤ fuel → ∃ fs σ, runOnModule uniqueName true true fuel allocModule = some fs ∧
      (∀ G ∈ allocModule.functions, Set.InjOn (σ G) {x | x ∈ (allocModule.body G).ids}) ∧
      ∀ entry m es₀ R, ((allocModule.program (fun _ => []) fun _ => none).system wordHardware
          Config.shipped entry m).Run es₀ R →
        ∃ es S, ((Program.mk fs (fun _ => []) fun _ => none).system wordHardware
            Config.shipped entry m).Run es S ∧
          ((List.Forall₂ (fun e e₀ => Event.Agrees e e₀.replace) es es₀ ∧
              List.Forall₂ (Activation.Mirrors σ) S R) ∨
            ∃ es₁ R₁, es₁ <+: es₀ ∧
              ((allocModule.program (fun _ => []) fun _ => none).system wordHardware
                Config.shipped entry m).Run es₁ R₁ ∧
              ((allocModule.program (fun _ => []) fun _ => none).system wordHardware
                Config.shipped entry m).Leads R₁ R ∧
              List.Forall₂ (fun e e₀ => Event.Agrees e e₀.replace) es es₁ ∧
              (∃ m' w check, (allocModule.program (fun _ => []) fun _ => none).Goes wordHardware
                R₁ m' w ∧ Refuses Config.shipped m' check w) ∧
              ∀ l S', ¬ (Program.mk fs (fun _ => []) fun _ => none).Step wordHardware
                Config.shipped S l S') :=
  run_on_module_followed naming_uniqueName allocModule_consistent allocModule_wellLinked
    allocModule_callsOnly allocModule_replaceable allocModule_closed
    (fun _ _ => List.not_mem_nil) true _ _ wordHardware rfl

theorem allocModule_spares :
    ∃ N, ∀ fuel, N ≤ fuel → ∃ (fs : List Func) (σ : String → Nat → Nat),
      runOnModule uniqueName true true fuel allocModule = some fs ∧
      (∀ G ∈ allocModule.functions, Set.InjOn (σ G) {x | x ∈ (allocModule.body G).ids}) ∧
      ∀ G ∈ allocModule.functions, ∃ F ∈ fs, ∃ pre : Nat → List Nat, F.name = G ∧
        F.layout = (allocModule.body G).layout.map (List.flatMap fun x => pre x ++ [σ G x]) ∧
        ∀ x ∈ (allocModule.body G).ids,
          (∀ z ∈ pre x, (F.instr z).op = .bitcast ∨
            ∃ f ∈ runtimeFunctions, (F.instr z).op = runtimeCall f) ∧
          ((allocModule.body G).Spared true x ∧
              (∀ callee returned, ((allocModule.body G).instr x).op = .call (some callee) returned →
                replacements.lookup callee.name = none) →
            pre x = [] ∧ F.instr (σ G x) = ((allocModule.body G).instr x).rename (σ G)) ∧
          (((allocModule.body G).instr x).op = .load ∨ ((allocModule.body G).instr x).op = .gep →
            ∀ k, F.operand (σ G x) (k + 1) =
              ((allocModule.body G).operand x (k + 1)).map (Value.rename (σ G))) :=
  run_on_module_spares naming_uniqueName allocModule_consistent allocModule_wellLinked
    allocModule_callsOnly allocModule_replaceable allocModule_closed
    (fun _ _ => List.not_mem_nil) true true

end PTAuth.Pass
