import PTAuth.Pass.RunOnModule

/-!
# Use after free

The instrumented program runs together with the heap of the runtime, and headers of freed blocks
stay as they are until the blocks are handed out again (`Process.TidyStep`). Then the build that
stops on failures stops every guarded use of a pointer into a freed object, unless the tag of the
pointer is zero or collides: with the tombstone, with the id of the object that got the header next,
or with another word that validation reads (`stale_access_collides`).
-/

set_option autoImplicit false

namespace PTAuth.Pass

open PTAuth.Library PTAuth.Runtime

/-- A step of a program with its heap that leaves the headers of freed blocks alone, too, until they
are handed out again. -/
inductive Process.TidyStep (P : Program) (T : Hardware) (cfg : Config) :
    Process → Option Event → Process → Prop where
  | allocator {S S' : List Activation} {h h' : Heap} {a : HeapAction} {callee : Callee}
      {args : List (Ty × Word)} {w : Word} :
      P.Step T cfg S (some (.call (some callee) args h.mem w h'.mem)) S' →
        a.Called h' callee.name (args.map Prod.snd) w → h.Guard a → h.Tidy a → h.step a = some h' →
          Process.TidyStep P T cfg ⟨S, h⟩ (some (.call (some callee) args h.mem w h'.mem)) ⟨S', h'⟩
  | other {S S' : List Activation} {A : Activation} {h : Heap} {l : Option Event} :
      P.Step T cfg S l (A :: S') → ¬ Allocates l → h.Keeps A.frame.mem →
        (∀ v ∈ h.vacant, v.block.HeaderAgree h.mem A.frame.mem) →
          Process.TidyStep P T cfg ⟨S, h⟩ l ⟨A :: S', { h with mem := A.frame.mem }⟩

/-- The executions of a program with such a heap. -/
def Program.tidyProcess (P : Program) (T : Hardware) (cfg : Config) (entry : String) (m : Mem) :
    System Process Event where
  start := (P.process T cfg entry m).start
  step := Process.TidyStep P T cfg

section Tidy

variable {P : Program} {T : Hardware} {cfg : Config} {entry : String} {m : Mem}
  {s s' : Process} {l : Option Event}

theorem Process.TidyStep.step (h : Process.TidyStep P T cfg s l s') :
    Process.Step P T cfg s l s' := by
  cases h with
  | allocator hstep hcalled hguard _ hheap => exact .allocator hstep hcalled hguard hheap
  | other hstep hnot hkeeps _ => exact .other hstep hnot hkeeps

/-- **A tidy step** keeps the tombstones. -/
theorem Process.TidyStep.tombstones (h : Process.TidyStep P T cfg s l s') (hi : s.heap.Inv)
    (ht : s.heap.Tombstones) : s'.heap.Tombstones := by
  cases h with
  | allocator _ _ hguard htidy hheap => exact ht.step_tidy hi hguard htidy hheap
  | other _ _ _ hvacant => exact ht.keeps hvacant

/-- What holds along tidy executions: the heap is sound, freed blocks that are still vacant hold
tombstones, and the stack is one of the program. -/
theorem Program.tidy_run {es : List Event} (hrun : (P.tidyProcess T cfg entry m).Run es s) :
    s.Sound ∧ s.heap.Tombstones ∧ (P.system T cfg entry m).Run es s.stack := by
  apply hrun.inductionOn (P := fun es s =>
    s.Sound ∧ s.heap.Tombstones ∧ (P.system T cfg entry m).Run es s.stack)
  · intro s hstart
    refine ⟨.start hstart, ?_, .start hstart.1⟩
    rw [hstart.2]
    exact Heap.Tombstones.initial m
  · rintro es s l t - ⟨hsound, htombstones, ih⟩ hstep
    exact ⟨hsound.step hstep.step, hstep.tombstones hsound.inv htombstones,
      ih.snoc hstep.step.program⟩

end Tidy

/-- What the executions of an instrumented program say of a pointer into a freed object: the checks
stop it exactly if it does not collide, and so no guarded instruction goes through it. -/
theorem Program.stale_access {P Q : Program} {T : Hardware}
    (hwf : ∀ F ∈ P.functions, F.WellLinked)
    (hplain : ∀ F ∈ P.functions, ∀ x ∈ F.ids, ¬ (F.instr x).op.IsCheck)
    (hfs : List.Forall₂ (fun F G => Instrumented true F G) P.functions Q.functions) {entry : String}
    {m : Mem} {es : List Event} {s : Process}
    (hrun : (Q.tidyProcess T Config.failStop entry m).Run es s) {o : Obj} (ho : o ∈ s.heap.dead)
    {k : Nat} (hk : k < o.userSize) :
    (∀ check, Refuses Config.failStop s.heap.mem check (o.ptr + BitVec.ofNat 64 k) ↔
      ¬ s.heap.Collides o k) ∧
    ∀ A S x B, s.stack = A :: S → A.frame.block = x :: B → A.func.Guarded x →
      (Q.hardware T A).Through A.func A.frame x (o.ptr + BitVec.ofNat 64 k) →
        s.heap.Collides o k := by
  obtain ⟨hsound, htombstones, hrun'⟩ := Program.tidy_run hrun
  have hpasses := hsound.inv.stale_passes_iff htombstones ho hk
  constructor
  · intro check
    rw [refuses_iff rfl check, ← hpasses]
    exact and_iff_left fun hlog => absurd hlog (by decide)
  · intro A S x B hstack hblock hguarded hw
    rw [hstack] at hrun'
    have hvouched := Program.guarded_vouched hwf hplain hfs hrun' hblock hguarded hw
    rw [hsound.mem A S hstack] at hvouched
    exact hpasses.1 hvouched

/-- Replaced modules have no checks either. -/
theorem Module.Replaces.plain {σ : String → Nat → Nat} {M M' : Module} (h : Module.Replaces σ M M')
    (hplain : ∀ G ∈ M.functions, ∀ x ∈ (M.body G).ids, ¬ ((M.body G).instr x).op.IsCheck) :
    ∀ F ∈ M'.functions.map M'.body, ∀ x ∈ F.ids, ¬ (F.instr x).op.IsCheck := by
  intro F hF x hx
  obtain ⟨G, hG, rfl⟩ := List.mem_map.1 hF
  by_cases hmem : G ∈ M.functions
  · have hR := h.renumbered G hmem
    rw [Func.ids, hR.layout, ← List.map_flatten] at hx
    obtain ⟨y, hy, rfl⟩ := List.mem_map.1 hx
    rintro ⟨p, hp, hop⟩
    have hf : p.1 ∈ runtimeFunctions := by
      have hall : ∀ p ∈ runtimeChecks, p.1 ∈ runtimeFunctions := by decide
      exact hall p hp
    exact hplain G hmem y hy ⟨p, hp, ((hR.instr y hy).op.runtimeCall_iff hf).1 hop⟩
  · rw [Func.ids, h.added G hG hmem] at hx
    exact absurd hx List.not_mem_nil

/-- **Use after free passes by a collision only.** For every execution of a module that the pass
left, in the build that stops on failures and with a heap whose freed headers stay: the checks stop
a pointer into a freed object exactly if it does not collide, and control is in front of no load and
no GEP behind a check that goes through such a pointer. -/
theorem stale_access_collides {setName : List String → String → String} (hN : Naming setName)
    {M : Module} (hM : M.Consistent) (hwf : ∀ G ∈ M.functions, (M.body G).WellLinked)
    (hcalls : M.CallsOnly) (hrep : M.Replaceable) (hclosed : M.Closed)
    (hhooks : ∀ f ∈ hookFunctions, f ∉ M.globalVariables)
    (hplain : ∀ G ∈ M.functions, ∀ x ∈ (M.body G).ids, ¬ ((M.body G).instr x).op.IsCheck)
    (optimization : Bool) (parameters : String → List String) (resolve : Word → Option String)
    (T : Hardware) :
    ∃ N, ∀ fuel, N ≤ fuel → ∃ fs, runOnModule setName optimization true fuel M = some fs ∧
      ∀ entry m es s,
        ((Program.mk fs parameters resolve).tidyProcess T Config.failStop entry m).Run es s →
        ∀ o ∈ s.heap.dead, ∀ k < o.userSize,
          (∀ check, Refuses Config.failStop s.heap.mem check (o.ptr + BitVec.ofNat 64 k) ↔
            ¬ s.heap.Collides o k) ∧
          ∀ A S x B, s.stack = A :: S → A.frame.block = x :: B → A.func.Guarded x →
            ((Program.mk fs parameters resolve).hardware T A).Through A.func A.frame x
              (o.ptr + BitVec.ofNat 64 k) → s.heap.Collides o k := by
  obtain ⟨N, hend⟩ := runOnModule_ends hN hM hwf hcalls hrep hclosed hhooks optimization true
  refine ⟨N, fun fuel hfuel => ?_⟩
  obtain ⟨fs, σ, M', hres, hreplaces, hfs⟩ := hend fuel hfuel
  obtain ⟨hlinked, hinstrumented⟩ :=
    (List.forall₂_and_left (p := fun F : Func => F.WellLinked) _ _).1 hfs
  refine ⟨fs, hres, fun entry m es s hrun o ho k hk => ?_⟩
  exact Program.stale_access (P := M'.program parameters resolve) (Q := ⟨fs, parameters, resolve⟩)
    hlinked (hreplaces.plain hplain) hinstrumented hrun ho hk

/-! ### A use after free -/

/-- `int *p = malloc(8); free(p); p[1];` -/
def freeThenIndex : Func :=
  Func.ofInstrs "main" [[0, 1, 2, 3, 4, 5, 6, 7, 8, 9]]
    [⟨.alloca (.ptr (.int 32)), [], .ptr (.ptr (.int 32)), "p"⟩,
      ⟨.call (some ⟨"malloc", true⟩) none, [⟨.constantInt 8, .int 64⟩], voidPtrTy, ""⟩,
      ⟨.bitcast, [⟨.inst 1, voidPtrTy⟩], .ptr (.int 32), ""⟩,
      ⟨.store, [⟨.inst 2, .ptr (.int 32)⟩, ⟨.inst 0, .ptr (.ptr (.int 32))⟩], .other "void", ""⟩,
      ⟨.load, [⟨.inst 0, .ptr (.ptr (.int 32))⟩], .ptr (.int 32), ""⟩,
      ⟨.bitcast, [⟨.inst 4, .ptr (.int 32)⟩], voidPtrTy, ""⟩,
      ⟨.call (some ⟨"free", true⟩) none, [⟨.inst 5, voidPtrTy⟩], .other "void", ""⟩,
      ⟨.load, [⟨.inst 0, .ptr (.ptr (.int 32))⟩], .ptr (.int 32), ""⟩,
      ⟨.gep, [⟨.inst 7, .ptr (.int 32)⟩, ⟨.constantInt 1, .int 64⟩], .ptr (.int 32), ""⟩,
      ⟨.ret, [], .other "void", ""⟩]

/-- Its module. -/
def staleModule : Module :=
  Module.ofBody ["malloc", "free", "main"]
    (fun g => if g = "malloc" then voidPtrTy else .other "void") freeThenIndex

/-- The pass inserts `__GEPCheck`, between bitcasts, in front of the GEP. -/
example : ((runOnModule uniqueName true true 100 staleModule).bind
    (List.find? fun F => F.name == "main")).map (fun F => (F.ids.drop 10).map fun x =>
      (F.instr x).op) =
    some [.load, .bitcast, runtimeCall "__GEPCheck", .bitcast, .gep, .ret] := by decide

theorem staleModule_wellLinked : ∀ G ∈ staleModule.functions, (staleModule.body G).WellLinked := by
  have hmain : freeThenIndex.WellFormed :=
    Func.wellFormed_ofInstrs (by decide) (by decide) (by decide)
  exact fun G _ => Module.wellLinked_ofBody hmain.wellLinked G

theorem staleModule_collides :
    ∃ N, ∀ fuel, N ≤ fuel → ∃ fs, runOnModule uniqueName true true fuel staleModule = some fs ∧
      ∀ entry m es s, ((Program.mk fs (fun _ => []) fun _ => none).tidyProcess wordHardware
          Config.failStop entry m).Run es s →
        ∀ o ∈ s.heap.dead, ∀ k < o.userSize,
          (∀ check, Refuses Config.failStop s.heap.mem check (o.ptr + BitVec.ofNat 64 k) ↔
            ¬ s.heap.Collides o k) ∧
          ∀ A S x B, s.stack = A :: S → A.frame.block = x :: B → A.func.Guarded x →
            ((Program.mk fs (fun _ => []) fun _ => none).hardware wordHardware A).Through A.func
              A.frame x (o.ptr + BitVec.ofNat 64 k) → s.heap.Collides o k :=
  stale_access_collides naming_uniqueName
    (Module.consistent_ofBody (by decide) (by decide) (by decide) (by decide) (by decide))
    staleModule_wellLinked (Module.callsOnly_ofBody (by decide))
    (Module.replaceable_of_free (by decide) (by decide))
    (Module.closed_ofBody (by decide) (by decide)) (fun _ _ => List.not_mem_nil) (by decide) true
    _ _ wordHardware

end PTAuth.Pass
