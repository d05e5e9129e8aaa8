import PTAuth.Pass.SlotScan

/-!
# Which dereferences are covered

Two laws a programmer may expect of the checks, in terms of the input function and of what the walk
makes of it. `Rearmed` is about straight-line functions: behind every call that takes a load of a
slot, the next dereference of the slot is checked. `Covered` is about every path of the control
flow: from the only call that takes a load of the slot to the first dereference on the path. The walk
meets both exactly where the scan of the input has the slot armed in front of the load
(`rearmed_iff`, `covered_iff`), and breaks both otherwise: a slot that was checked is not armed again
up to the next return, and the layout is not the control flow.
-/

set_option autoImplicit false

namespace PTAuth.Pass

/-- The call `c` takes a load of the slot as a pointer argument, up to bitcasts. -/
def Func.TakesLoad (F : Func) (a c : Nat) : Prop :=
  ∃ l v, F.LoadOf a l ∧ F.Hands c v ∧ CastsTo F v l

/-- The base of the GEP `g` is a `__GEPCheck` of the load `l`. -/
def Func.GEPChecked (F : Func) (l g : Nat) : Prop :=
  ∃ w, F.operand g 0 = some w ∧ F.CheckOf "__GEPCheck" w l

/-- A GEP on the load itself is not checked. -/
theorem Func.not_gepChecked {F : Func} {l g : Nat} {v : Value} (hv : F.operand g 0 = some v)
    (hvl : v.ref = .inst l) (hl : (F.instr l).op = .load) : ¬ F.GEPChecked l g := by
  rintro ⟨w, hw, hcheck⟩
  obtain rfl := Option.some.inj (hv.symm.trans hw)
  exact not_checkOf_self hvl hl hcheck

/-- In front of the load `l`, behind all that is laid out before it, the scan has the slot armed and
the load as it was. -/
def Func.Armed (tbi : Bool) (F : Func) (a l : Nat) : Prop :=
  ∃ W B, F.ids = W ++ l :: B ∧ (F.scan tbi a W).armed = true ∧ (l, 0) ∉ (F.scan tbi a W).taken

/-! ## Armed loads -/

section Armed

variable {tbi : Bool} {s : State} {a g l : Nat} {W B : List Nat}

/-- The scan knows whether the slot is armed. -/
theorem Scanned.armed_iff {F : Func} {σ : Scan} (h : Scanned tbi F a σ s) :
    σ.armed = true ↔ ∃ c, s.SlotFlags a (some ⟨true, c⟩) := by
  have hflags := h.flags
  rw [Scan.armed]
  cases hf : σ.flags with
  | none =>
      simp only [Option.any_none, Bool.false_eq_true, false_iff, not_exists]
      intro c hc
      exact absurd (hf.symm.trans (hflags.unique hc)) (by simp)
  | some f =>
      rw [hf] at hflags
      rw [Option.any_some]
      constructor
      · intro hpassed
        refine ⟨f.checked, ?_⟩
        rw [← hpassed]
        exact hflags
      · rintro ⟨c, hc⟩
        rw [Option.some.inj (hflags.unique hc)]

/-- **An armed load is checked.** -/
theorem inspected_of_armed (hwf : s.func.WellFormed) (hslot : s.func.Slot a)
    (hclean : s.SlotFlags a none) (hderef : s.func.Deref a l g) (harmed : s.func.Armed tbi a l) :
    Inspected s.func (visited tbi s s.func.ids).func l g := by
  obtain ⟨W, B, hids, harmed, hnot⟩ := harmed
  have hlt : ∀ y ∈ W ++ l :: B, y < s.func.next := fun y hy => hwf.ids_lt y (hids ▸ hy)
  have hscan : Scanned tbi s.func a (s.func.scan tbi a W) (visited tbi s W) :=
    Scanned.run hwf hclean W fun y hy => hlt y (List.mem_append_left _ hy)
  have hb : Behind tbi s.func W (visited tbi s W) := Behind.ofPrefix hwf rfl hids
  obtain ⟨hfresh, -⟩ := fresh_of_split hwf hids
  obtain ⟨c, hf⟩ := hscan.armed_iff.1 harmed
  have ha := (hscan.loadOf_iff.2 (Func.hide_loadOf.2 ⟨hderef.load, hnot⟩)).2
  have hvisit := visit_deref hb hwf hslot hderef hfresh ha
  have hinspected := checkGEP_armed hb hwf hderef hfresh ha hf
  have hb' := hb.step hwf (hlt l (by simp))
  rw [hids, visited_append, visited_cons]
  rw [hvisit] at hb' ⊢
  exact hinspected.run hwf hderef.gep hb' B fun y hy => hlt y (by simp [hy])

/-- **A load that is not armed is not checked.** -/
theorem armed_of_gepChecked (hwf : s.func.WellFormed) (hslot : s.func.Slot a)
    (hclean : s.SlotFlags a none) (hderef : s.func.Deref a l g) (hl : l ∈ s.func.ids)
    (hcheck : (visited tbi s s.func.ids).func.GEPChecked l g) : s.func.Armed tbi a l := by
  obtain ⟨W, B, hids⟩ := List.append_of_mem hl
  have hlt : ∀ y ∈ W ++ l :: B, y < s.func.next := fun y hy => hwf.ids_lt y (hids ▸ hy)
  have hscan : Scanned tbi s.func a (s.func.scan tbi a W) (visited tbi s W) :=
    Scanned.run hwf hclean W fun y hy => hlt y (List.mem_append_left _ hy)
  have hb : Behind tbi s.func W (visited tbi s W) := Behind.ofPrefix hwf rfl hids
  obtain ⟨hfresh, hfresh'⟩ := fresh_of_split hwf hids
  obtain ⟨pre, hd⟩ := hb.decorated
  have hop := (hd.op l (hlt l (by simp))).trans hderef.load.1
  refine ⟨W, B, hids, ?_⟩
  by_contra hnot
  -- the handler of the load changes nothing
  have hvisit : visit tbi (visited tbi s W) l = visited tbi s W := by
    obtain ⟨p, hp, ⟨hs, hmem⟩ | ⟨⟨w, hw, hsealed⟩, -⟩⟩ :=
      hscan.link_cases (Or.inl ⟨Or.inl hderef.load, rfl⟩)
    · have ha := (hscan.loadOf_iff.2 (Func.hide_loadOf.2 ⟨hderef.load, hmem⟩)).2
      rw [visit_deref hb hwf hslot hderef hfresh ha]
      apply checkGEP_unarmed ha hscan.flags
      intro c hc
      exact hnot ⟨hscan.armed_iff.2 ⟨c, hc ▸ hscan.flags⟩, hmem⟩
    · exact visit_of_sealed hop hw hsealed
  have hb' := hb.step hwf (hlt l (by simp))
  rw [hvisit] at hb'
  obtain ⟨v, hv, hvl⟩ := hderef.base hwf.toLinked
  rw [← hb.base a l g hderef hfresh] at hv
  have hlast := base_visited hwf hderef.gep hvl hb' hv B (fun y hy => hlt y (by simp [hy])) hfresh'
  obtain ⟨pre', hd'⟩ := (hb'.run hwf B fun y hy => hlt y (by simp [hy])).decorated
  rw [hids, visited_append, visited_cons, hvisit] at hcheck
  refine Func.not_gepChecked hlast hvl ?_ hcheck
  exact (hd'.op l (hlt l (by simp))).trans hderef.load.1

end Armed

/-- **The walk ends, and checks exactly the GEPs on armed loads.** -/
theorem walk_checks (tbi : Bool) {s : State} (hwf : s.func.WellFormed) {a : Nat}
    (hslot : s.func.Slot a) (hclean : ∀ p ∈ s.pass.pointers, p.fn ≠ s.func.name) :
    ∃ N, ∀ fuel, N ≤ fuel → ∃ t, walk tbi fuel s = some t ∧
      ∀ l g, s.func.Deref a l g → l ∈ s.func.ids →
        (t.func.GEPChecked l g ↔ s.func.Armed tbi a l) := by
  have hnone : s.SlotFlags a none := State.slotFlags_of_clean hclean a
  obtain ⟨N, hN⟩ := walk_eq tbi hwf
  refine ⟨N, fun fuel hfuel => ⟨_, hN fuel hfuel, fun l g hderef hl => ⟨fun hcheck => ?_,
    fun harmed => ?_⟩⟩⟩
  · exact armed_of_gepChecked hwf hslot hnone hderef hl hcheck
  · exact (inspected_of_armed hwf hslot hnone hderef harmed).checkOf

/-! ## Straight-line functions -/

/-- `g` is the next dereference of the slot behind `c`. -/
def Func.NextDeref (F : Func) (a c l g : Nat) : Prop :=
  F.Deref a l g ∧ [c, g].Sublist F.ids ∧
    ∀ l' g', F.Deref a l' g' → ¬ [c, g', g].Sublist F.ids

/-- A dereference that asks for a check: the next one behind a call that takes a load of the slot,
the slot having been stored a pointer before. -/
def Func.AsksCheck (F : Func) (a l g : Nat) : Prop :=
  ∃ x c, F.StoresTo a x ∧ F.TakesLoad a c ∧ [x, c].Sublist F.ids ∧ F.NextDeref a c l g

/-- Every dereference that asks for a check has one in `G`. -/
def Func.Rearmed (F G : Func) (a : Nat) : Prop := ∀ l g, F.AsksCheck a l g → G.GEPChecked l g

theorem Func.AsksCheck.deref {F : Func} {a l g : Nat} (h : F.AsksCheck a l g) : F.Deref a l g := by
  obtain ⟨-, -, -, -, -, hderef, -⟩ := h
  exact hderef

theorem Func.AsksCheck.mem {F : Func} {a l g : Nat} (h : F.AsksCheck a l g)
    (hwf : F.WellFormed) : l ∈ F.ids := by
  obtain ⟨-, c, -, -, -, hderef, hsub, -⟩ := h
  obtain ⟨v, hv, hvl⟩ := hderef.base hwf.toLinked
  exact hwf.operand_mem g (hsub.subset (by simp)) 0 v l hv hvl

/-- **Re-arming.** The walk checks every dereference that asks for it exactly if the scan has the slot
armed in front of the load of each. -/
theorem rearmed_iff (tbi : Bool) {s : State} (hwf : s.func.WellFormed) {a : Nat}
    (hslot : s.func.Slot a) (hclean : ∀ p ∈ s.pass.pointers, p.fn ≠ s.func.name) :
    ∃ N, ∀ fuel, N ≤ fuel → ∃ t, walk tbi fuel s = some t ∧
      (s.func.Rearmed t.func a ↔ ∀ l g, s.func.AsksCheck a l g → s.func.Armed tbi a l) := by
  obtain ⟨N, hN⟩ := walk_checks tbi hwf hslot hclean
  refine ⟨N, fun fuel hfuel => ?_⟩
  obtain ⟨t, ht, hchecks⟩ := hN fuel hfuel
  refine ⟨t, ht, forall_congr' fun l => forall_congr' fun g => ?_⟩
  exact forall_congr' fun hasks => hchecks l g hasks.deref (hasks.mem hwf)

/-! ### A slot that is used twice -/

/-- `p = q; use(p); p[1]; use(p); p[1];` -/
def useTwice : Func :=
  Func.ofInstrs "main" [[0, 1, 2, 3, 4, 5, 6, 7, 8, 9, 10]]
    [⟨.alloca (.ptr (.int 32)), [], .ptr (.ptr (.int 32)), "p"⟩,
      ⟨.store, [⟨.argument "q", .ptr (.int 32)⟩, ⟨.inst 0, .ptr (.ptr (.int 32))⟩], .other "void", ""⟩,
      ⟨.load, [⟨.inst 0, .ptr (.ptr (.int 32))⟩], .ptr (.int 32), ""⟩,
      ⟨.call (some ⟨"use", false⟩) none, [⟨.inst 2, .ptr (.int 32)⟩], .other "void", ""⟩,
      ⟨.load, [⟨.inst 0, .ptr (.ptr (.int 32))⟩], .ptr (.int 32), ""⟩,
      ⟨.gep, [⟨.inst 4, .ptr (.int 32)⟩, ⟨.constantInt 1, .int 64⟩], .ptr (.int 32), ""⟩,
      ⟨.load, [⟨.inst 0, .ptr (.ptr (.int 32))⟩], .ptr (.int 32), ""⟩,
      ⟨.call (some ⟨"use", false⟩) none, [⟨.inst 6, .ptr (.int 32)⟩], .other "void", ""⟩,
      ⟨.load, [⟨.inst 0, .ptr (.ptr (.int 32))⟩], .ptr (.int 32), ""⟩,
      ⟨.gep, [⟨.inst 8, .ptr (.int 32)⟩, ⟨.constantInt 1, .int 64⟩], .ptr (.int 32), ""⟩,
      ⟨.ret, [], .other "void", ""⟩]

theorem useTwice_wellFormed : useTwice.WellFormed :=
  Func.wellFormed_ofInstrs (by decide) (by decide) (by decide)

theorem useTwice_slot : useTwice.Slot 0 :=
  Func.slot_of_intPtr rfl rfl (by decide)

theorem useTwice_straightLine : useTwice.StraightLine :=
  ⟨[0, 1, 2, 3, 4, 5, 6, 7, 8, 9], 10, rfl, rfl, by decide⟩

/-- The second dereference asks for a check. -/
theorem useTwice_asksCheck : useTwice.AsksCheck 0 8 9 := by
  refine ⟨1, 7, ?_, ?_, by decide, ⟨⟨rfl, rfl⟩, rfl, rfl⟩, by decide, ?_⟩
  · exact ⟨rfl, ⟨.argument "q", .ptr (.int 32)⟩, ⟨.inst 0, .ptr (.ptr (.int 32))⟩, rfl,
      pointerArgument_intPtr _, rfl, rfl⟩
  · exact ⟨6, ⟨.inst 6, .ptr (.int 32)⟩, ⟨rfl, rfl⟩,
      ⟨⟨"use", false⟩, none, 0, rfl, by decide, rfl, pointerArgument_intPtr _⟩, .self rfl⟩
  · intro l' g' hderef hsub
    have hbetween : ∀ y ∈ useTwice.ids, [7, y, 9].Sublist useTwice.ids →
        (useTwice.instr y).op ≠ .gep := by decide
    exact hbetween g' (hsub.subset (by simp)) hsub hderef.gep

/-- **The second use is not re-armed.** -/
theorem not_rearmed :
    ¬ ∀ (s : State) (a : Nat), s.func.WellFormed → s.func.StraightLine → s.func.Slot a →
      (∀ p ∈ s.pass.pointers, p.fn ≠ s.func.name) →
        ∃ N, ∀ fuel, N ≤ fuel → ∃ t, walk true fuel s = some t ∧ s.func.Rearmed t.func a := by
  intro h
  have hrearmed := visited_of_walk useTwice_wellFormed (h (State.start useTwice) 0
    useTwice_wellFormed useTwice_straightLine useTwice_slot fun _ hp => absurd hp List.not_mem_nil)
  have hbase : (visited true (State.start useTwice) useTwice.ids).func.operand 9 0 =
      some ⟨.inst 8, .ptr (.int 32)⟩ := by decide +kernel
  exact Func.not_gepChecked hbase rfl (by decide +kernel) (hrearmed 8 9 useTwice_asksCheck)

/-- The scan does not arm the slot again behind the first check. -/
theorem useTwice_not_armed : ¬ useTwice.Armed true 0 8 := by
  rintro ⟨W, B, hids, harmed, -⟩
  obtain rfl := front_unique useTwice_wellFormed (V := [0, 1, 2, 3, 4, 5, 6, 7]) (U := [9, 10]) rfl
    hids
  exact absurd harmed (by decide +kernel)

/-- `p = q; use(&p->f); read(0, p, 8); p[1];` -/
def fieldThenRead : Func :=
  Func.ofInstrs "main" [[0, 1, 2, 3, 4, 5, 6, 7, 8, 9]]
    [⟨.alloca (.ptr (.int 32)), [], .ptr (.ptr (.int 32)), "p"⟩,
      ⟨.store, [⟨.argument "q", .ptr (.int 32)⟩, ⟨.inst 0, .ptr (.ptr (.int 32))⟩], .other "void", ""⟩,
      ⟨.load, [⟨.inst 0, .ptr (.ptr (.int 32))⟩], .ptr (.int 32), ""⟩,
      ⟨.gep, [⟨.inst 2, .ptr (.int 32)⟩, ⟨.constantInt 0, .int 64⟩], .ptr (.int 32), ""⟩,
      ⟨.call (some ⟨"use", false⟩) none, [⟨.inst 3, .ptr (.int 32)⟩], .other "void", ""⟩,
      ⟨.load, [⟨.inst 0, .ptr (.ptr (.int 32))⟩], .ptr (.int 32), ""⟩,
      ⟨.call (some ⟨"read", true⟩) none,
        [⟨.constantInt 0, .int 32⟩, ⟨.inst 5, .ptr (.int 32)⟩, ⟨.constantInt 8, .int 64⟩], .int 64, ""⟩,
      ⟨.load, [⟨.inst 0, .ptr (.ptr (.int 32))⟩], .ptr (.int 32), ""⟩,
      ⟨.gep, [⟨.inst 7, .ptr (.int 32)⟩, ⟨.constantInt 1, .int 64⟩], .ptr (.int 32), ""⟩,
      ⟨.ret, [], .other "void", ""⟩]

theorem fieldThenRead_wellFormed : fieldThenRead.WellFormed :=
  Func.wellFormed_ofInstrs (by decide) (by decide) (by decide)

theorem fieldThenRead_slot : fieldThenRead.Slot 0 :=
  Func.slot_of_intPtr rfl rfl (by decide)

/-- The only dereference that asks for a check is armed: the first call takes the load of the slot
through the GEP, and the second one, which strips its argument, takes nothing. -/
theorem fieldThenRead_armed : ∀ l g, fieldThenRead.AsksCheck 0 l g → fieldThenRead.Armed true 0 l := by
  intro l g hasks
  have hmem := hasks.mem fieldThenRead_wellFormed
  obtain ⟨x, c, -, ⟨m, v, -, hands, -⟩, -, hderef, hsub, -⟩ := hasks
  have huse : fieldThenRead.users l = [(g, 0)] := hderef.users
  have hcases : ∀ y ∈ fieldThenRead.ids, fieldThenRead.users y = [(3, 0)] ∨
      fieldThenRead.users y = [(8, 0)] → y = 2 ∨ y = 7 := by decide
  have hgeps : ∀ y ∈ fieldThenRead.ids, (fieldThenRead.instr y).op = .gep → y = 3 ∨ y = 8 := by
    decide
  have hcalls : ∀ y ∈ fieldThenRead.ids, (fieldThenRead.instr y).op.isCall = true →
      ¬ [y, 3].Sublist fieldThenRead.ids := by decide
  rcases hgeps g (hsub.subset (by simp)) hderef.gep with rfl | rfl
  · obtain ⟨callee, returned, i, hop, -⟩ := hands
    exact absurd hsub (hcalls c (hsub.subset (by simp)) (by rw [hop]; rfl))
  · rcases hcases l hmem (Or.inr huse) with rfl | rfl
    · exact absurd huse (by decide)
    · exact ⟨[0, 1, 2, 3, 4, 5, 6], [8, 9], rfl, by decide +kernel, by decide +kernel⟩

/-- The statement of `rearmed_iff` at the two functions. -/
theorem useTwice_rearmed_iff :
    (∃ N, ∀ fuel, N ≤ fuel → ∃ t, walk true fuel (State.start useTwice) = some t ∧
      (useTwice.Rearmed t.func 0 ↔
        ∀ l g, useTwice.AsksCheck 0 l g → useTwice.Armed true 0 l) ∧
      ¬ useTwice.Rearmed t.func 0) ∧
    ∃ N, ∀ fuel, N ≤ fuel → ∃ t, walk true fuel (State.start fieldThenRead) = some t ∧
      (fieldThenRead.Rearmed t.func 0 ↔
        ∀ l g, fieldThenRead.AsksCheck 0 l g → fieldThenRead.Armed true 0 l) ∧
      fieldThenRead.Rearmed t.func 0 := by
  constructor
  · obtain ⟨N, hN⟩ := rearmed_iff true (s := State.start useTwice) useTwice_wellFormed useTwice_slot
      fun _ hp => absurd hp List.not_mem_nil
    refine ⟨N, fun fuel hfuel => ?_⟩
    obtain ⟨t, ht, hiff⟩ := hN fuel hfuel
    exact ⟨t, ht, hiff, fun hrearmed => useTwice_not_armed (hiff.1 hrearmed 8 9 useTwice_asksCheck)⟩
  · obtain ⟨N, hN⟩ := rearmed_iff true (s := State.start fieldThenRead) fieldThenRead_wellFormed
      fieldThenRead_slot fun _ hp => absurd hp List.not_mem_nil
    refine ⟨N, fun fuel hfuel => ?_⟩
    obtain ⟨t, ht, hiff⟩ := hN fuel hfuel
    exact ⟨t, ht, hiff, hiff.2 fieldThenRead_armed⟩

/-! ## Paths of the control flow -/

/-- On a path, `g` is the first dereference of the slot behind the only call that takes a load of the
slot, and the slot was stored a pointer before the call. -/
def Func.FirstOnPath (F : Func) (a l g : Nat) : Prop :=
  ∃ p c q B, F.Path (p ++ c :: q) (g :: B) ∧ (∃ x ∈ p, F.StoresTo a x) ∧ F.TakesLoad a c ∧
    (∀ c', F.TakesLoad a c' → c' = c) ∧ F.Deref a l g ∧ ∀ g' ∈ q, ∀ l', ¬ F.Deref a l' g'

/-- Every first dereference of a path has a check in `G`. -/
def Func.Covered (F G : Func) (a : Nat) : Prop := ∀ l g, F.FirstOnPath a l g → G.GEPChecked l g

theorem Func.FirstOnPath.deref {F : Func} {a l g : Nat} (h : F.FirstOnPath a l g) :
    F.Deref a l g := by
  obtain ⟨-, -, -, -, -, -, -, -, hderef, -⟩ := h
  exact hderef

theorem Func.FirstOnPath.mem {F : Func} {a l g : Nat} (h : F.FirstOnPath a l g)
    (hwf : F.WellFormed) : l ∈ F.ids := by
  obtain ⟨p, c, q, B, hpath, -, -, -, hderef, -⟩ := h
  obtain ⟨v, hv, hvl⟩ := hderef.base hwf.toLinked
  exact hwf.operand_mem g (hpath.mem g List.mem_cons_self) 0 v l hv hvl

/-- **Coverage of paths.** The walk checks the first dereference of every path exactly if the scan has
the slot armed in front of the load of each. -/
theorem covered_iff (tbi : Bool) {s : State} (hwf : s.func.WellFormed) {a : Nat}
    (hslot : s.func.Slot a) (hclean : ∀ p ∈ s.pass.pointers, p.fn ≠ s.func.name) :
    ∃ N, ∀ fuel, N ≤ fuel → ∃ t, walk tbi fuel s = some t ∧
      (s.func.Covered t.func a ↔ ∀ l g, s.func.FirstOnPath a l g → s.func.Armed tbi a l) := by
  obtain ⟨N, hN⟩ := walk_checks tbi hwf hslot hclean
  refine ⟨N, fun fuel hfuel => ?_⟩
  obtain ⟨t, ht, hchecks⟩ := hN fuel hfuel
  refine ⟨t, ht, forall_congr' fun l => forall_congr' fun g => ?_⟩
  exact forall_congr' fun hfirst => hchecks l g hfirst.deref (hfirst.mem hwf)

/-! ### A slot that is used in two branches -/

/-- `p = q; use(p); if (..) p[1]; else p[1];` -/
def useInBranches : Func :=
  Func.ofInstrs "main" [[0, 1, 2, 3, 4], [5, 6, 7], [8, 9, 10], [11]]
    [⟨.alloca (.ptr (.int 32)), [], .ptr (.ptr (.int 32)), "p"⟩,
      ⟨.store, [⟨.argument "q", .ptr (.int 32)⟩, ⟨.inst 0, .ptr (.ptr (.int 32))⟩], .other "void", ""⟩,
      ⟨.load, [⟨.inst 0, .ptr (.ptr (.int 32))⟩], .ptr (.int 32), ""⟩,
      ⟨.call (some ⟨"use", false⟩) none, [⟨.inst 2, .ptr (.int 32)⟩], .other "void", ""⟩,
      ⟨.br [1, 2], [⟨.argument "b", .int 1⟩], .other "void", ""⟩,
      ⟨.load, [⟨.inst 0, .ptr (.ptr (.int 32))⟩], .ptr (.int 32), ""⟩,
      ⟨.gep, [⟨.inst 5, .ptr (.int 32)⟩, ⟨.constantInt 1, .int 64⟩], .ptr (.int 32), ""⟩,
      ⟨.br [3], [], .other "void", ""⟩,
      ⟨.load, [⟨.inst 0, .ptr (.ptr (.int 32))⟩], .ptr (.int 32), ""⟩,
      ⟨.gep, [⟨.inst 8, .ptr (.int 32)⟩, ⟨.constantInt 1, .int 64⟩], .ptr (.int 32), ""⟩,
      ⟨.br [3], [], .other "void", ""⟩,
      ⟨.ret, [], .other "void", ""⟩]

theorem useInBranches_wellFormed : useInBranches.WellFormed :=
  Func.wellFormed_ofInstrs (by decide) (by decide) (by decide)

theorem useInBranches_slot : useInBranches.Slot 0 :=
  Func.slot_of_intPtr rfl rfl (by decide)

/-- The path through the second branch. -/
theorem useInBranches_path : useInBranches.Path ([0, 1, 2] ++ 3 :: [4, 8]) (9 :: [10]) := by
  have h₁ : useInBranches.Path [0] [1, 2, 3, 4] := .next (.entry rfl)
  have h₂ : useInBranches.Path [0, 1] [2, 3, 4] := .next h₁
  have h₃ : useInBranches.Path [0, 1, 2] [3, 4] := .next h₂
  have h₄ : useInBranches.Path [0, 1, 2, 3] [4] := .next h₃
  have h₅ : useInBranches.Path [0, 1, 2, 3, 4] [8, 9, 10] := .jump (b := 2) h₄ rfl (by decide) rfl
  exact .next h₅

/-- The dereference in the second branch is the first of its path. -/
theorem useInBranches_firstOnPath : useInBranches.FirstOnPath 0 8 9 := by
  refine ⟨[0, 1, 2], 3, [4, 8], [10], useInBranches_path, ⟨1, by decide, ?_⟩, ?_, ?_,
    ⟨⟨rfl, rfl⟩, rfl, rfl⟩, ?_⟩
  · exact ⟨rfl, ⟨.argument "q", .ptr (.int 32)⟩, ⟨.inst 0, .ptr (.ptr (.int 32))⟩, rfl,
      pointerArgument_intPtr _, rfl, rfl⟩
  · exact ⟨2, ⟨.inst 2, .ptr (.int 32)⟩, ⟨rfl, rfl⟩,
      ⟨⟨"use", false⟩, none, 0, rfl, by decide, rfl, pointerArgument_intPtr _⟩, .self rfl⟩
  · rintro c ⟨l, v, -, ⟨callee, returned, i, hop, -⟩, -⟩
    have hlt : c < useInBranches.next :=
      useInBranches_wellFormed.lt_of_op (by simp [hop])
    have honly : ∀ y < useInBranches.next,
        y = 3 ∨ (useInBranches.instr y).op.isCall = false := by decide
    rcases honly c hlt with h | h
    · exact h
    · rw [hop] at h
      exact absurd h (by simp [Op.isCall])
  · intro g' hg' l' hderef
    have hnot : ∀ y ∈ [4, 8], (useInBranches.instr y).op ≠ .gep := by decide
    exact hnot g' hg' hderef.gep

/-- **The second branch is not covered.** -/
theorem not_covered :
    ¬ ∀ (s : State) (a : Nat), s.func.WellFormed → s.func.Slot a →
      (∀ p ∈ s.pass.pointers, p.fn ≠ s.func.name) →
        ∃ N, ∀ fuel, N ≤ fuel → ∃ t, walk true fuel s = some t ∧ s.func.Covered t.func a := by
  intro h
  have hcovered := visited_of_walk useInBranches_wellFormed (h (State.start useInBranches) 0
    useInBranches_wellFormed useInBranches_slot fun _ hp => absurd hp List.not_mem_nil)
  have hbase : (visited true (State.start useInBranches) useInBranches.ids).func.operand 9 0 =
      some ⟨.inst 8, .ptr (.int 32)⟩ := by decide +kernel
  exact Func.not_gepChecked hbase rfl (by decide +kernel) (hcovered 8 9 useInBranches_firstOnPath)

/-- The scan uses the mark up in the first branch. -/
theorem useInBranches_not_armed : ¬ useInBranches.Armed true 0 8 := by
  rintro ⟨W, B, hids, harmed, -⟩
  obtain rfl := front_unique useInBranches_wellFormed (V := [0, 1, 2, 3, 4, 5, 6, 7]) (U := [9, 10, 11])
    rfl hids
  exact absurd harmed (by decide +kernel)

/-- `p = q; use(p); if (..) p[1];` -/
def useInBranch : Func :=
  Func.ofInstrs "main" [[0, 1, 2, 3, 4], [5, 6, 7], [8]]
    [⟨.alloca (.ptr (.int 32)), [], .ptr (.ptr (.int 32)), "p"⟩,
      ⟨.store, [⟨.argument "q", .ptr (.int 32)⟩, ⟨.inst 0, .ptr (.ptr (.int 32))⟩], .other "void", ""⟩,
      ⟨.load, [⟨.inst 0, .ptr (.ptr (.int 32))⟩], .ptr (.int 32), ""⟩,
      ⟨.call (some ⟨"use", false⟩) none, [⟨.inst 2, .ptr (.int 32)⟩], .other "void", ""⟩,
      ⟨.br [1, 2], [⟨.argument "b", .int 1⟩], .other "void", ""⟩,
      ⟨.load, [⟨.inst 0, .ptr (.ptr (.int 32))⟩], .ptr (.int 32), ""⟩,
      ⟨.gep, [⟨.inst 5, .ptr (.int 32)⟩, ⟨.constantInt 1, .int 64⟩], .ptr (.int 32), ""⟩,
      ⟨.br [2], [], .other "void", ""⟩,
      ⟨.ret, [], .other "void", ""⟩]

theorem useInBranch_wellFormed : useInBranch.WellFormed :=
  Func.wellFormed_ofInstrs (by decide) (by decide) (by decide)

theorem useInBranch_slot : useInBranch.Slot 0 :=
  Func.slot_of_intPtr rfl rfl (by decide)

theorem useInBranch_armed : ∀ l g, useInBranch.FirstOnPath 0 l g → useInBranch.Armed true 0 l := by
  intro l g hfirst
  have hgeps : ∀ y ∈ useInBranch.ids, ∀ g ∈ useInBranch.ids, useInBranch.users y = [(g, 0)] →
      (useInBranch.instr g).op = .gep → y = 5 := by decide
  obtain ⟨p, c, q, B, hpath, -, -, -, -, -⟩ := id hfirst
  obtain rfl := hgeps l (hfirst.mem useInBranch_wellFormed) g (hpath.mem g List.mem_cons_self)
    hfirst.deref.users hfirst.deref.gep
  exact ⟨[0, 1, 2, 3, 4], [6, 7, 8], rfl, by decide +kernel, by decide +kernel⟩

/-- The statement of `covered_iff` at the two functions. -/
theorem useInBranches_covered_iff :
    (∃ N, ∀ fuel, N ≤ fuel → ∃ t, walk true fuel (State.start useInBranches) = some t ∧
      (useInBranches.Covered t.func 0 ↔
        ∀ l g, useInBranches.FirstOnPath 0 l g → useInBranches.Armed true 0 l) ∧
      ¬ useInBranches.Covered t.func 0) ∧
    ∃ N, ∀ fuel, N ≤ fuel → ∃ t, walk true fuel (State.start useInBranch) = some t ∧
      (useInBranch.Covered t.func 0 ↔
        ∀ l g, useInBranch.FirstOnPath 0 l g → useInBranch.Armed true 0 l) ∧
      useInBranch.Covered t.func 0 := by
  constructor
  · obtain ⟨N, hN⟩ := covered_iff true (s := State.start useInBranches) useInBranches_wellFormed
      useInBranches_slot fun _ hp => absurd hp List.not_mem_nil
    refine ⟨N, fun fuel hfuel => ?_⟩
    obtain ⟨t, ht, hiff⟩ := hN fuel hfuel
    exact ⟨t, ht, hiff, fun hcovered =>
      useInBranches_not_armed (hiff.1 hcovered 8 9 useInBranches_firstOnPath)⟩
  · obtain ⟨N, hN⟩ := covered_iff true (s := State.start useInBranch) useInBranch_wellFormed
      useInBranch_slot fun _ hp => absurd hp List.not_mem_nil
    refine ⟨N, fun fuel hfuel => ?_⟩
    obtain ⟨t, ht, hiff⟩ := hN fuel hfuel
    exact ⟨t, ht, hiff, hiff.2 useInBranch_armed⟩

end PTAuth.Pass
