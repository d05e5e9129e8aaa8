import PTAuth.Pass.RunOnModule
import PTAuth.Pass.Verification

/-!
# The whole pass keeps modules verified

A replaced call has the type of the function that it calls instead, which is that of the old one,
and its operands and users are those of the old call. So the replacement phase keeps functions
verified (`Renumbered.verified`), as insertions do, and the result of `runOnModule` passes the
verifier if the module does (`run_on_module_verified`).
-/

set_option autoImplicit false

namespace PTAuth.Pass

/-! ## Replaced functions -/

/-- The functions that are called instead have the types of those that are replaced. -/
def ReplacesTypes (sig : String → Option (List Ty × Ty)) : Prop :=
  ∀ f r, replacements.lookup f = some r → sig r = sig f

section Renumbered

variable {sig : String → Option (List Ty × Ty)} {other : String → List Ty → Ty → Prop}
  {σ : Nat → Nat} {F F' : Func}

theorem Op.Replaced.isTerminator {op op' : Op} (h : Op.Replaced op op') :
    op'.isTerminator = op.isTerminator := by
  rcases h with ⟨callee, returned, returned', rfl, -, rfl⟩ | ⟨rfl, -⟩
  · rfl
  · rfl

theorem Op.Replaced.isPhi {op op' : Op} (h : Op.Replaced op op') : op'.isPhi = op.isPhi := by
  rcases h with ⟨callee, returned, returned', rfl, -, rfl⟩ | ⟨rfl, -⟩
  · rfl
  · rfl

theorem Op.Replaced.targets {op op' : Op} (h : Op.Replaced op op') : op'.targets = op.targets := by
  rcases h with ⟨callee, returned, returned', rfl, -, rfl⟩ | ⟨rfl, -⟩
  · rfl
  · rfl

/-- The operands keep their types. -/
theorem Renumbered.argTys (h : Renumbered σ F F') {x : Nat} (hx : x ∈ F.ids) :
    (F'.instr (σ x)).argTys = (F.instr x).argTys := by
  rw [Instr.argTys, h.operands_rename hx, List.map_map]
  exact List.map_congr_left fun v _ => Value.rename_ty σ v

/-- A replaced instruction is typed as before. -/
theorem Op.Replaced.rule {op op' : Op} (h : Op.Replaced op op') (hsig : ReplacesTypes sig)
    {args : List Ty} {ty : Ty} (hrule : Rule sig other op args ty) : Rule sig other op' args ty := by
  rcases h with ⟨callee, returned, returned', rfl, hsome, rfl⟩ | ⟨rfl, -⟩
  · obtain ⟨r, hr⟩ := Option.isSome_iff_exists.1 hsome
    intro params result hparams
    rw [Callee.replace_of_lookup hr, hsig _ r hr] at hparams
    exact hrule params result hparams
  · exact hrule

/-- Paths are paths of the original function. -/
theorem Renumbered.path (h : Renumbered σ F F') {p B : List Nat} (hpath : F'.Path p B) :
    ∃ p₀ B₀, F.Path p₀ B₀ ∧ p = p₀.map σ ∧ B = B₀.map σ := by
  induction hpath with
  | entry hB =>
      rw [h.layout, List.getElem?_map] at hB
      obtain ⟨B₀, hB₀, rfl⟩ := Option.map_eq_some_iff.1 hB
      exact ⟨[], B₀, .entry hB₀, rfl, rfl⟩
  | @next p B x _ ih =>
      obtain ⟨p₀, B₀, hpath₀, rfl, hB⟩ := ih
      obtain ⟨x₀, C, rfl, rfl, rfl⟩ := List.map_eq_cons_iff.1 hB.symm
      exact ⟨p₀ ++ [x₀], C, .next hpath₀, by rw [List.map_append, List.map_singleton], rfl⟩
  | @jump p B C targets x b _ hop hb hC ih =>
      obtain ⟨p₀, B₀, hpath₀, rfl, hB⟩ := ih
      obtain ⟨x₀, B₁, rfl, rfl, rfl⟩ := List.map_eq_cons_iff.1 hB.symm
      rw [h.layout, List.getElem?_map] at hC
      obtain ⟨C₀, hC₀, rfl⟩ := Option.map_eq_some_iff.1 hC
      -- branches are not replaced
      have hsame := (h.instr x₀ (hpath₀.mem x₀ List.mem_cons_self)).op.eq_of_not_call' (by
        intro callee returned hcall
        rw [hcall] at hop
        cases hop)
      exact ⟨p₀ ++ [x₀], C₀, .jump hpath₀ (hsame ▸ hop) hb hC₀,
        by rw [List.map_append, List.map_singleton], rfl⟩

/-- Blocks end in the same instruction, under its new number. -/
theorem Renumbered.terminator (h : Renumbered σ F F') (b : Nat) :
    F'.terminator b = (F.terminator b).map σ := by
  rw [Func.terminator, Func.terminator, h.layout, List.getElem?_map]
  cases F.layout[b]? with
  | none => rfl
  | some B => exact List.getLast?_map

/-- Control takes the same edges. -/
theorem Renumbered.predecessors (h : Renumbered σ F F') (b : Nat) :
    F'.predecessors b = F.predecessors b := by
  have hsucc : ∀ a, F'.successors a = F.successors a := by
    intro a
    rw [Func.successors, Func.successors, h.terminator]
    cases ht : F.terminator a with
    | none => rfl
    | some t => exact (h.instr t (Func.terminator_mem ht)).op.targets
  rw [Func.predecessors, Func.predecessors, h.layout, List.length_map]
  simp only [hsucc]

/-- Control is in front of an instruction where it is in the original function, and has passed the
same. -/
theorem Renumbered.path_original (h : Renumbered σ F F') {x : Nat} (hx : x ∈ F.ids)
    {p' C : List Nat} (hpath : F'.Path p' (σ x :: C)) :
    ∃ p B, F.Path p (x :: B) ∧ p' = p.map σ := by
  obtain ⟨p, B₀, hpath₀, rfl, hB⟩ := h.path hpath
  obtain ⟨y, B, rfl, hy, rfl⟩ := List.map_eq_cons_iff.1 hB.symm
  obtain rfl := h.injOn (hpath₀.mem y List.mem_cons_self) hx hy
  exact ⟨p, B, hpath₀, rfl⟩

/-- **Phis** keep their edges, their operands, and what dominates the ends of the edges. -/
theorem Renumbered.phiRules (h : Renumbered σ F F') {b x : Nat} {incoming : List Nat}
    (hx : x ∈ F.ids) (hrules : F.PhiRules b x incoming) : F'.PhiRules b (σ x) incoming := by
  refine ⟨?_, ?_, fun j k a hj hk => ?_, fun k a t hk ht p' C hpath v y hv hy => ?_⟩
  · rw [h.predecessors]
    exact hrules.edges
  · rw [h.operands_rename hx, List.length_map]
    exact hrules.operands
  · rw [h.operand_rename hx, h.operand_rename hx, hrules.values j k a hj hk]
  · rw [h.terminator] at ht
    obtain ⟨u, hu, rfl⟩ := Option.map_eq_some_iff.1 ht
    rw [h.operand_rename hx] at hv
    obtain ⟨w, hw, rfl⟩ := Option.map_eq_some_iff.1 hv
    obtain ⟨z, hz, rfl⟩ := Value.rename_inst.1 hy
    obtain ⟨p, B, hpath₀, rfl⟩ := h.path_original (Func.terminator_mem hu) hpath
    exact List.mem_map_of_mem (hrules.dominated k a u hk hu p B hpath₀ w z hw hz)

/-- Definitions still stand in front of their uses. -/
theorem Renumbered.dominated (h : Renumbered σ F F') (hF : F.Dominated) : F'.Dominated := by
  intro p' z C hpath hphi k v y hv hy
  obtain ⟨p, B₀, hpath₀, rfl, hB⟩ := h.path hpath
  obtain ⟨x, B, rfl, rfl, rfl⟩ := List.map_eq_cons_iff.1 hB.symm
  have hx := hpath₀.mem x List.mem_cons_self
  rw [(h.instr x hx).op.isPhi] at hphi
  rw [h.operand_rename hx] at hv
  obtain ⟨v₀, hv₀, rfl⟩ := Option.map_eq_some_iff.1 hv
  obtain ⟨w, hw, rfl⟩ := Value.rename_inst.1 hy
  exact List.mem_map_of_mem (hF p x B hpath₀ hphi k v₀ w hv₀ hw)

/-- **Replacing calls keeps a function verified.** -/
theorem Renumbered.verified (h : Renumbered σ F F') (hsig : ReplacesTypes sig)
    (hv : F.Verified sig other) : F'.Verified sig other := by
  have hids : F'.ids = F.ids.map σ := by
    rw [Func.ids, h.layout, Func.ids, List.map_flatten]
  refine ⟨fun z hz => ?_, fun C hC => ?_, (h.predecessors 0).trans hv.entry, fun C hC => ?_,
    fun b C hC z hz incoming hop => ?_, h.dominated hv.dominated⟩
  -- every instruction is one of the original, under its new number, with operands of the same types
  · rw [hids] at hz
    obtain ⟨x, hx, rfl⟩ := List.mem_map.1 hz
    have hi := h.instr x hx
    rw [h.argTys hx, hi.ty]
    exact hi.op.rule hsig (hv.typed x hx)
  · rw [h.layout] at hC
    obtain ⟨B, hB, rfl⟩ := List.mem_map.1 hC
    obtain ⟨A, x, rfl, hx, hA⟩ := hv.terminated B hB
    have hmem : ∀ y ∈ A ++ [x], y ∈ F.ids := fun y hy => List.mem_flatten.2 ⟨_, hB, hy⟩
    refine ⟨A.map σ, σ x, by rw [List.map_append, List.map_singleton], ?_, fun z hz => ?_⟩
    · rw [(h.instr x (hmem x (by simp))).op.isTerminator]
      exact hx
    · obtain ⟨y, hy, rfl⟩ := List.mem_map.1 hz
      rw [(h.instr y (hmem y (List.mem_append_left _ hy))).op.isTerminator]
      exact hA y hy
  · rw [h.layout] at hC
    obtain ⟨B, hB, rfl⟩ := List.mem_map.1 hC
    have hmem : ∀ y ∈ B, y ∈ F.ids := fun y hy => List.mem_flatten.2 ⟨B, hB, hy⟩
    refine List.pairwise_map.2 ((hv.phisFirst B hB).imp_of_mem fun {x y} hx hy hphis => ?_)
    rw [(h.instr x (hmem x hx)).op.isPhi, (h.instr y (hmem y hy)).op.isPhi]
    exact hphis
  · rw [h.layout, List.getElem?_map] at hC
    obtain ⟨B, hB, rfl⟩ := Option.map_eq_some_iff.1 hC
    obtain ⟨x, hx, rfl⟩ := List.mem_map.1 hz
    have hmem := F.mem_ids hB hx
    have hop₀ : (F.instr x).op = .phi incoming := by
      rw [← (h.instr x hmem).op.eq_of_not_call' (by simp [hop])]
      exact hop
    exact h.phiRules hmem (hv.phis b B hB x hx incoming hop₀)

end Renumbered

/-- Functions without a body are verified. -/
theorem Func.verified_of_layout {sig : String → Option (List Ty × Ty)}
    {other : String → List Ty → Ty → Prop} {F : Func} (h : F.layout = []) : F.Verified sig other := by
  have hids : F.ids = [] := by
    rw [Func.ids, h]
    rfl
  refine ⟨fun x hx => ?_, fun B hB => ?_, ?_, fun B hB => ?_, fun b B hB => ?_,
    fun p x B hpath => ?_⟩
  · rw [hids] at hx
    exact absurd hx List.not_mem_nil
  · rw [h] at hB
    exact absurd hB List.not_mem_nil
  · rw [Func.predecessors, h]
    rfl
  · rw [h] at hB
    exact absurd hB List.not_mem_nil
  · rw [h] at hB
    exact absurd hB (by simp)
  · have hx := hpath.mem x List.mem_cons_self
    rw [hids] at hx
    exact absurd hx List.not_mem_nil

/-- **The pass keeps modules verified**: it ends, and its result defines every function of the
module under its name, once, and all that it defines is linked and verified. -/
theorem run_on_module_verified {setName : List String → String → String} (hN : Naming setName)
    {M : Module} (hM : M.Consistent) (hwf : ∀ G ∈ M.functions, (M.body G).WellLinked)
    (hcalls : M.CallsOnly) (hrep : M.Replaceable) (hclosed : M.Closed)
    (hhooks : ∀ f ∈ hookFunctions, f ∉ M.globalVariables) (optimization tbi : Bool)
    {sig : String → Option (List Ty × Ty)} {other : String → List Ty → Ty → Prop}
    (hsig : DeclaresRuntime sig) (htypes : ReplacesTypes sig)
    (hv : ∀ G ∈ M.functions, (M.body G).Verified sig other) :
    ∃ N, ∀ fuel, N ≤ fuel → ∃ fs, runOnModule setName optimization tbi fuel M = some fs ∧
      (fs.map Func.name).Nodup ∧ (∀ G ∈ M.functions, G ∈ fs.map Func.name) ∧
      ∀ F ∈ fs, F.WellLinked ∧ F.Verified sig other := by
  obtain ⟨N, hend⟩ := runOnModule_ends hN hM hwf hcalls hrep hclosed hhooks optimization tbi
  refine ⟨N, fun fuel hfuel => ?_⟩
  obtain ⟨fs, σ, M', hres, hreplaces, hfs⟩ := hend fuel hfuel
  have hbodies : ∀ F ∈ M'.functions.map M'.body, F.Verified sig other := by
    intro F hF
    obtain ⟨G, hG, rfl⟩ := List.mem_map.1 hF
    by_cases hold : G ∈ M.functions
    · exact (hreplaces.renumbered G hold).verified htypes (hv G hold)
    · exact Func.verified_of_layout (hreplaces.added G hG hold)
  obtain ⟨hnames, hverified⟩ := verified_of_instrumented hfs hsig hbodies
  have hsame : fs.map Func.name = M'.functions := by
    rw [hnames, List.map_map]
    exact (List.map_congr_left fun G _ => hreplaces.named' G).trans (List.map_id _)
  refine ⟨fs, hres, hsame.symm ▸ hreplaces.names', fun G hG => ?_, hverified⟩
  rw [hsame]
  exact hreplaces.functions hG

/-! ### A module with one body -/

/-- The runtime functions, and nothing else that is known. -/
def runtimeSignature (f : String) : Option (List Ty × Ty) :=
  if f ∈ runtimeFunctions then some ([voidPtrTy], voidPtrTy) else none

/-- What has been passed in front of the blocks: the first block, in front of the others. -/
theorem allocThenIndex_available : allocThenIndex.Available fun b =>
    if b = 0 then [] else [0, 1, 2, 3, 4, 5, 6] := by decide

/-- The phi of `p && p[1]`. -/
theorem allocThenIndex_phiRules : allocThenIndex.PhiRules 2 12 [0, 1] where
  edges := by decide
  operands := rfl
  values := by
    intro j k a hj hk
    have hnodup : [0, 1].Nodup := by decide
    rw [(List.getElem?_inj (List.getElem?_eq_some_iff.1 hj).1 hnodup).1 (hj.trans hk.symm)]
  dominated := by
    intro k a t hk ht p C hpath v y hv hy
    match k with
    | 0 =>
        obtain rfl := Option.some.inj hv
        exact absurd hy (by simp)
    | 1 =>
        obtain rfl := Option.some.inj hv
        obtain rfl := Ref.inst.inj hy
        obtain rfl := Option.some.inj hk
        obtain rfl := Option.some.inj ht
        exact allocThenIndex_available.mem hpath (by decide)
    | k + 2 => exact absurd hv (by simp [Func.operand, allocThenIndex, Func.ofInstrs])

theorem allocThenIndex_verified : allocThenIndex.Verified runtimeSignature fun _ _ _ => True where
  typed := by
    intro x hx
    have hx : x ∈ [0, 1, 2, 3, 4, 5, 6, 7, 8, 9, 10, 11, 12, 13, 14, 15, 16] := hx
    have hload : ∀ args ty, args = [Ty.ptr ty] →
        Rule runtimeSignature (fun _ _ _ => True) .load args ty := fun _ _ h => h
    have hcall : ∀ f args ty, runtimeSignature f = none →
        Rule runtimeSignature (fun _ _ _ => True) (.call (some ⟨f, true⟩) none) args ty := by
      intro f args ty hf params result h
      rw [hf] at h
      cases h
    have hgep : Rule runtimeSignature (fun _ _ _ => True) .gep [.ptr (.int 32), .int 64]
        (.ptr (.int 32)) := by
      refine ⟨rfl, _, _, rfl, rfl, fun u hu => ?_⟩
      rw [List.mem_singleton.1 hu]
      rfl
    have hphi : Rule runtimeSignature (fun _ _ _ => True) (.phi [0, 1]) [.int 1, .int 1] (.int 1) := by
      intro t ht
      simpa using ht
    simp only [List.mem_cons, List.not_mem_nil, or_false] at hx
    rcases hx with rfl | rfl | rfl | rfl | rfl | rfl | rfl | rfl | rfl | rfl | rfl | rfl | rfl |
      rfl | rfl | rfl | rfl
    · exact (rfl : Ty.ptr (.ptr (.int 32)) = _)
    · exact hcall "malloc" _ _ rfl
    · exact ⟨voidPtrTy, rfl, rfl⟩
    · exact ⟨.ptr (.int 32), rfl⟩
    · exact hload _ _ rfl
    · trivial
    · trivial
    · exact hload _ _ rfl
    · exact hgep
    · exact hload _ _ rfl
    · trivial
    · trivial
    · exact hphi
    · exact hload _ _ rfl
    · exact ⟨.ptr (.int 32), rfl, rfl⟩
    · exact hcall "free" _ _ rfl
    · trivial
  terminated := by
    intro B hB
    have hB : B ∈ [[0, 1, 2, 3, 4, 5, 6], [7, 8, 9, 10, 11], [12, 13, 14, 15, 16]] := hB
    simp only [List.mem_cons, List.not_mem_nil, or_false] at hB
    rcases hB with rfl | rfl | rfl
    · exact ⟨[0, 1, 2, 3, 4, 5], 6, rfl, rfl, by decide⟩
    · exact ⟨[7, 8, 9, 10], 11, rfl, rfl, by decide⟩
    · exact ⟨[12, 13, 14, 15], 16, rfl, rfl, by decide⟩
  entry := by decide
  phisFirst := by decide
  phis := by
    intro b B hB x hx incoming hop
    have honly : ∀ b < 3, ∀ x ∈ allocThenIndex.layout.getD b [],
        (allocThenIndex.instr x).op.isPhi = true → b = 2 ∧ x = 12 := by decide
    have hblock : allocThenIndex.layout.getD b [] = B := by
      rw [List.getD_eq_getElem?_getD, hB, Option.getD_some]
    obtain ⟨rfl, rfl⟩ := honly b (List.getElem?_eq_some_iff.1 hB).1 x (hblock ▸ hx) (by rw [hop]; rfl)
    obtain rfl := Op.phi.inj hop
    exact allocThenIndex_phiRules
  dominated := allocThenIndex_available.dominated (by decide)

theorem allocModule_verified :
    ∃ N, ∀ fuel, N ≤ fuel → ∃ fs, runOnModule uniqueName true true fuel allocModule = some fs ∧
      (fs.map Func.name).Nodup ∧ (∀ G ∈ allocModule.functions, G ∈ fs.map Func.name) ∧
      ∀ F ∈ fs, F.WellLinked ∧ F.Verified runtimeSignature fun _ _ _ => True := by
  apply run_on_module_verified naming_uniqueName allocModule_consistent allocModule_wellLinked
    allocModule_callsOnly allocModule_replaceable allocModule_closed
    (fun _ _ => List.not_mem_nil) true true
  · exact fun f hf => if_pos hf
  · have hsame : ∀ p ∈ replacements, runtimeSignature p.2 = runtimeSignature p.1 := by decide
    exact fun f r hr => hsame _ (mem_replacements hr)
  · intro G hG
    show Func.Verified _ _ (if G = allocThenIndex.name then allocThenIndex else _)
    split
    · exact allocThenIndex_verified
    · exact Func.verified_of_layout rfl

end PTAuth.Pass
