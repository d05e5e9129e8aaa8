import PTAuth.Pass.Slots

/-!
# What a visit is bound to do

The counterpart of the events a visit may make. The load of a GEP inserts a `__GEPCheck` when its
slot is armed, and changes nothing otherwise (`visit_deref`). `Behind` collects what is still as in
the original function behind a prefix of the walk.
-/

set_option autoImplicit false

namespace PTAuth.Pass

/-! ## Slots, and what is done with them -/

/-- A slot: an alloca whose name and type are on no avoid list. -/
structure Func.Slot (F : Func) (a : Nat) : Prop where
  alloca : (F.instr a).op.isAlloca = true
  name : (F.instr a).name ∉ globalVarsAvoidList
  type : structType (F.instr a).ty ∉ typesAvoidList
  file : isFile (F.instr a).ty = false

/-- An alloca for a pointer to integers is a slot unless its name is avoided. -/
theorem Func.slot_of_intPtr {F : Func} {a : Nat} (halloca : (F.instr a).op.isAlloca = true)
    (hty : (F.instr a).ty = .ptr (.ptr (.int 32)))
    (hname : (F.instr a).name ∉ globalVarsAvoidList) : F.Slot a where
  alloca := halloca
  name := hname
  type := by
    rw [hty]
    decide +kernel
  file := by
    rw [hty]
    decide +kernel

/-- The base of the GEP `g` is the single-use load `l` of the slot `a`. -/
structure Func.Deref (F : Func) (a l g : Nat) : Prop where
  load : F.LoadOf a l
  gep : (F.instr g).op = .gep
  users : F.users l = [(g, 0)]

theorem Func.Deref.base {F : Func} {a l g : Nat} (h : F.Deref a l g) (hF : F.Linked) :
    ∃ v, F.operand g 0 = some v ∧ v.ref = .inst l :=
  hF.users_operand g 0 l (by simp [h.users])

theorem Func.Deref.ne {F : Func} {a l g : Nat} (h : F.Deref a l g) : l ≠ g := by
  rintro rfl
  have hop := h.load.1
  rw [h.gep] at hop
  exact absurd hop (by simp)

/-! ## Frames -/

section Frame

variable {tbi : Bool} {F₀ : Func} {pre : Nat → List Nat} {s t : State} {x : Nat}

/-- A load of a slot stays one, unless the visited call may take it. -/
theorem Steps.slotOf_eq (h : Steps tbi x s t) (hd : Decorated tbi F₀ pre s.func)
    (hx : x < F₀.next) {l a : Nat} (hl : (s.func.instr l).op = .load)
    (ha : s.func.slotOf l = some a) (hno : ¬ F₀.MayTake x l) : t.func.slotOf l = some a := by
  have hllt := hd.lt_of_load hl
  induction h with
  | refl => exact ha
  | @wrap t f u j hst hw ih =>
      obtain ⟨pre', hd', -⟩ := hst.decorated hd hx
      obtain ⟨v, hv, hwrapped⟩ := hd'.wrapped hx hw
      have hl' := (hst.op_eq hd hx hllt).trans hl
      show (t.func.wrapOperand f u j).slotOf l = some a
      rw [hwrapped.slotOf_eq hd'.linked (Nat.lt_of_lt_of_le hllt hd'.next_le)]
      · exact ih
      · rintro rfl
        cases hw with
        | nested _ _ hnone _ =>
            rw [ih] at hnone
            exact absurd hnone (by simp)
        | gep _ hgep _ _ _ =>
            rw [hl'] at hgep
            exact absurd hgep (by simp)
        | xpac _ hs _ =>
            obtain ⟨-, callee, returned, hop, -⟩ := hs
            rw [hl'] at hop
            exact absurd hop (by simp)
        | argument htake _ _ =>
            rcases htake with htake | htake
            · exact hno (Or.inl (hd'.mayPass_original hx htake))
            · exact hno (Or.inr (hd'.mayNest_original hx htake))
  | pass p _ ih => exact ih

/-- The base of a GEP is rewritten at the load it is only. -/
theorem Wrap.base {F : Func} {f : String} {g k : Nat} (h : Wrap tbi F x f g k)
    (hg : (F.instr g).op = .gep) : k = 0 ∧ ∃ v, F.operand g 0 = some v ∧ v.ref = .inst x := by
  cases h with
  | nested hload _ _ _ =>
      rw [hg] at hload
      exact absurd hload (by simp)
  | gep _ _ hv hvx _ => exact ⟨rfl, _, hv, hvx⟩
  | xpac _ hs _ =>
      obtain ⟨-, callee, returned, hcall, -⟩ := hs
      rw [hg] at hcall
      exact absurd hcall (by simp)
  | argument htake _ _ =>
      have hload := htake.load
      rw [hg] at hload
      exact absurd hload (by simp)

/-- The base of a GEP over a load changes at that load only. -/
theorem Steps.base_eq (h : Steps tbi x s t) (hd : Decorated tbi F₀ pre s.func) (hx : x < F₀.next)
    {g : Nat} (hg : (F₀.instr g).op = .gep) {v : Value} (hv : s.func.operand g 0 = some v)
    (hvx : v.ref ≠ .inst x) : t.func.operand g 0 = some v := by
  have hglt := hd.base.lt_of_gep hg
  rw [h.operand_eq hd hx hglt]
  · exact hv
  · rintro G f ⟨p, hd'⟩ hsame hw
    obtain ⟨-, v', hv', hvx'⟩ := hw.base ((hd'.op g hglt).trans hg)
    rw [hsame, hv] at hv'
    obtain rfl := Option.some.inj hv'
    exact hvx hvx'

/-- The use list of the load of a GEP changes at that load only. -/
theorem Steps.users_eq (h : Steps tbi x s t) (hd : Decorated tbi F₀ pre s.func)
    (hwf : F₀.WellFormed) (hx : x < F₀.next) {a l g : Nat} (hderef : F₀.Deref a l g) (hxl : x ≠ l)
    {v : Value} (hv : s.func.operand g 0 = some v) (hvl : v.ref = .inst l) :
    t.func.users l = s.func.users l := by
  have hllt := hd.base.lt_of_load hderef.load.1
  have hglt := hd.base.lt_of_gep hderef.gep
  have hvx : v.ref ≠ .inst x := by
    rw [hvl]
    exact fun he => hxl (Ref.inst.inj he).symm
  induction h with
  | refl => rfl
  | @wrap t f u j hst hw ih =>
      obtain ⟨pre', hd', -⟩ := hst.decorated hd hx
      obtain ⟨w, hwv, hwrapped⟩ := hd'.wrapped hx hw
      show (t.func.wrapOperand f u j).users l = _
      rw [hwrapped.users l (Nat.lt_of_lt_of_le hllt hd'.next_le)]
      · exact ih
      · -- a wrapped use of `l` would be its only use, the base of `g`
        intro hwl
        have hw₀ := hd'.operand_original (hd'.target_lt hx hw) hwv hwl hllt
        have huse := hwf.operand_users u j w l hw₀ hwl
        rw [hderef.users, List.mem_singleton] at huse
        obtain ⟨rfl, rfl⟩ := Prod.mk.inj huse
        obtain ⟨-, v', hv', hvx'⟩ := hw.base ((hd'.op u hglt).trans hderef.gep)
        rw [hst.base_eq hd hx hderef.gep hv hvx] at hv'
        obtain rfl := Option.some.inj hv'
        exact hvx hvx'
  | pass p _ ih => exact ih

/-- Bitcasts never change. -/
theorem Steps.bitcast_eq (h : Steps tbi x s t) (hd : Decorated tbi F₀ pre s.func)
    (hx : x < F₀.next) {z : Nat} (hz : (s.func.instr z).op = .bitcast) :
    t.func.instr z = s.func.instr z := by
  rcases Nat.lt_or_ge z F₀.next with hlt | hge
  · have hop := (hd.op z hlt).symm.trans hz
    exact h.instr_eq hd hx hlt (by simp [hop]) (by simp [hop]) fun _ callee returned => by simp [hop]
  · rcases Nat.lt_or_ge z s.func.next with hlt | hge'
    · obtain ⟨y, hy⟩ := hd.pre_cover z hge hlt
      obtain ⟨pre', -, hgrown⟩ := h.decorated hd hx
      exact hgrown.old y z hy
    · rw [hd.linked.unused z hge'] at hz
      exact absurd hz (by simp [Instr.unused])

/-- What is as in the original function behind the visits `done`. -/
structure Behind (tbi : Bool) (F₀ : Func) (done : List Nat) (s : State) : Prop where
  decorated : ∃ pre, Decorated tbi F₀ pre s.func
  settled : Settled F₀ done s.func
  slotOf : ∀ l a, F₀.LoadOf a l → (∀ c ∈ done, ¬ F₀.MayTake c l) → s.func.slotOf l = some a
  base : ∀ a l g, F₀.Deref a l g → l ∉ done → s.func.operand g 0 = F₀.operand g 0
  users : ∀ a l g, F₀.Deref a l g → l ∉ done → s.func.users l = [(g, 0)]

theorem Behind.refl (hwf : F₀.WellFormed) (hs : s.func = F₀) : Behind tbi F₀ [] s where
  decorated := by
    refine ⟨fun _ => [], ?_⟩
    rw [hs]
    exact Decorated.refl hwf.toLinked
  settled := hs ▸ Settled.refl F₀
  slotOf := fun l a hl _ => hs ▸ hl.2
  base := fun _ _ _ _ _ => by rw [hs]
  users := fun _ _ _ hderef _ => by rw [hs, hderef.users]

/-- **One visit.** -/
theorem Behind.step (hwf : F₀.WellFormed) {done : List Nat} (h : Behind tbi F₀ done s)
    (hx : x < F₀.next) : Behind tbi F₀ (done ++ [x]) (visit tbi s x) := by
  obtain ⟨pre, hd⟩ := h.decorated
  have hsteps := visit_steps hd hwf hx
  obtain ⟨pre', hd', -⟩ := hsteps.decorated hd hx
  have hbase : ∀ a l g, F₀.Deref a l g → l ∉ done ++ [x] →
      l ∉ done ∧ x ≠ l ∧ ∃ v, s.func.operand g 0 = some v ∧ v.ref = .inst l ∧
        F₀.operand g 0 = some v := by
    intro a l g hderef hnot
    have hnot' : l ∉ done := fun hmem => hnot (List.mem_append_left _ hmem)
    obtain ⟨v, hv, hvl⟩ := hderef.base hwf.toLinked
    refine ⟨hnot', ?_, v, ?_, hvl, hv⟩
    · rintro rfl
      exact hnot (by simp)
    · rw [h.base a l g hderef hnot']
      exact hv
  refine ⟨⟨pre', hd'⟩, h.settled.steps hsteps hd hx, fun l a hl hno => ?_,
    fun a l g hderef hnot => ?_, fun a l g hderef hnot => ?_⟩
  · have hlt := hwf.lt_of_load hl.1
    refine hsteps.slotOf_eq hd hx ((hd.op l hlt).trans hl.1)
      (h.slotOf l a hl fun c hc => hno c (List.mem_append_left _ hc)) (hno x (by simp))
  · obtain ⟨-, hxl, v, hv, hvl, hv₀⟩ := hbase a l g hderef hnot
    rw [hv₀]
    apply hsteps.base_eq hd hx hderef.gep hv
    rw [hvl]
    exact fun he => hxl (Ref.inst.inj he).symm
  · obtain ⟨hnot', hxl, v, hv, hvl, -⟩ := hbase a l g hderef hnot
    rw [hsteps.users_eq hd hwf hx hderef hxl hv hvl]
    exact h.users a l g hderef hnot'

/-- **Many visits.** -/
theorem Behind.run (hwf : F₀.WellFormed) {done : List Nat} (h : Behind tbi F₀ done s) :
    ∀ xs : List Nat, (∀ y ∈ xs, y < F₀.next) →
      Behind tbi F₀ (done ++ xs) (visited tbi s xs) := by
  intro xs
  induction xs generalizing s done with
  | nil => simpa using h
  | cons y xs ih =>
      intro hlt
      have hstep := ih (h.step hwf (hlt y List.mem_cons_self)) fun z hz =>
        hlt z (List.mem_cons_of_mem y hz)
      simpa using hstep

end Frame

/-! ## Loads -/

section Loads

variable {tbi : Bool} {F₀ : Func} {pre : Nat → List Nat} {done : List Nat} {s : State}
  {a l g : Nat}

theorem loadThroughLoad_of_slotOf (ha : s.func.slotOf l = some a) : loadThroughLoad s l = s := by
  rw [loadThroughLoad, Func.dynCast_of_slotOf ha rfl]

/-- **At the load of a GEP, the handler is the check of the GEP.** -/
theorem visit_deref (hb : Behind tbi F₀ done s) (hwf : F₀.WellFormed) (hslot : F₀.Slot a)
    (hderef : F₀.Deref a l g) (hfresh : l ∉ done) (ha : s.func.slotOf l = some a) :
    visit tbi s l = checkGEP s l g := by
  obtain ⟨pre, hd⟩ := hb.decorated
  have hllt := hwf.lt_of_load hderef.load.1
  have hglt := hwf.lt_of_gep hderef.gep
  have hop := (hd.op l hllt).trans hderef.load.1
  obtain ⟨p, hp, hpa, -⟩ := Func.slotOf_eq_some.1 ha
  have halt : a < F₀.next := by
    obtain ⟨p₀, hp₀, hpa₀, -⟩ := Func.slotOf_eq_some.1 hderef.load.2
    exact hwf.operand_lt l 0 p₀ a hp₀ hpa₀
  have hpty : p.ty = (F₀.instr a).ty := by
    rw [hd.linked.operand_ty l 0 p a hp hpa, hd.ty a halt]
  have hlty : (s.func.instr l).ty.isPointerTy = true := by
    obtain ⟨v, hv, hvl⟩ := hderef.base hwf.toLinked
    rw [hd.ty l hllt, ← hwf.operand_ty g 0 v l hv hvl]
    exact hwf.gep_base g v hderef.gep hv
  -- the filters of `instrumentLoad` look at the type of the load, and at the slot
  have hsel : loadSelected s.func l p = true := by
    simp only [loadSelected, Bool.and_eq_true, Bool.not_eq_true', decide_eq_true_eq]
    refine ⟨⟨⟨hlty, ?_⟩, ?_⟩, ?_⟩
    · rw [hpty]
      exact hslot.file
    · rw [Func.nameOf, hpa]
      show (s.func.instr a).name ∉ _
      rw [hd.instrName a halt]
      exact hslot.name
    · rw [hpty]
      exact hslot.type
  -- the only user of the load is its latest
  have huse : (s.func.users l).head? = some (g, 0) := by
    rw [hb.users a l g hderef hfresh]
    rfl
  have hgop : (s.func.instr g).op = .gep := (hd.op g hglt).trans hderef.gep
  have ha' : (checkGEP s l g).func.slotOf l = some a := by
    obtain ⟨v, hv, -⟩ := hderef.base hwf.toLinked
    rw [← hb.base a l g hderef hfresh] at hv
    exact checkGEP_slotOf hd.linked hderef.ne hv (Nat.lt_of_lt_of_le hglt hd.next_le)
      (Nat.lt_of_lt_of_le hllt hd.next_le) ha
  rw [visit_of_load hop, instrumentLoad, hp]
  simp only [hsel, if_true]
  rw [loadThroughLoad_of_slotOf ha, loadForGEP, huse, hp]
  simp only [hgop, hpa, Ref.isGlobalVariable, Bool.not_false, and_self, if_true]
  exact checkNestedGEP_of_slotOf ha' g

/-- The base of the GEP `g` is an inserted check of the load `l`. -/
def Inspected (F₀ F : Func) (l g : Nat) : Prop :=
  ∃ w y z, F.operand g 0 = some w ∧ w.ref = .inst y ∧ F₀.next ≤ y ∧ F₀.next ≤ z ∧
    F.CheckCall "__GEPCheck" w z l

/-- An armed slot gets its check. -/
theorem checkGEP_armed (hb : Behind tbi F₀ done s) (hwf : F₀.WellFormed)
    (hderef : F₀.Deref a l g) (hfresh : l ∉ done) (ha : s.func.slotOf l = some a) {c : Bool}
    (h : s.SlotFlags a (some ⟨true, c⟩)) : Inspected F₀ (checkGEP s l g).func l g := by
  obtain ⟨pre, hd⟩ := hb.decorated
  obtain ⟨v, hv, hvl⟩ := hderef.base hwf.toLinked
  rw [← hb.base a l g hderef hfresh] at hv
  have hwrapped := s.func.wrapped_wrapOperand "__GEPCheck"
    (Nat.lt_of_lt_of_le (hwf.lt_of_gep hderef.gep) hd.next_le) hv
  have hany : s.pass.pointers.any (s.isArmed a) = true := h.any_isArmed
  obtain ⟨y, w, hw, hwy, hy, -⟩ := hwrapped.new
  obtain ⟨z, hz, hcheck⟩ := hwrapped.check l hvl w hw
  rw [checkGEP]
  simp only [ha, hany, if_true]
  exact ⟨w, y, z, hw, hwy, Nat.le_trans hd.next_le hy, Nat.le_trans hd.next_le hz, hcheck⟩

/-- A slot that is not armed gets none. -/
theorem checkGEP_unarmed (ha : s.func.slotOf l = some a) {flags : Option Flags}
    (h : s.SlotFlags a flags) (hnot : ∀ c, flags ≠ some ⟨true, c⟩) : checkGEP s l g = s := by
  rw [checkGEP]
  simp only [ha, h.any_isArmed]
  rcases flags with _ | ⟨_ | _, c⟩
  · rfl
  · rfl
  · exact absurd rfl (hnot c)

/-- Later visits keep the check. -/
theorem Inspected.step (hwf : F₀.WellFormed) (hd : Decorated tbi F₀ pre s.func) {x : Nat}
    (hx : x < F₀.next) (hg : (F₀.instr g).op = .gep) (h : Inspected F₀ s.func l g) :
    Inspected F₀ (visit tbi s x).func l g := by
  obtain ⟨w, y, z, hw, hwy, hy, hz, hcasts, hop, u, hu, hcasts'⟩ := h
  have hsteps := visit_steps hd hwf hx
  obtain ⟨pre', -, hgrown⟩ := hsteps.decorated hd hx
  have hzinstr : (visit tbi s x).func.instr z = s.func.instr z := by
    have hzlt : z < s.func.next := hd.linked.lt_of_op (by simp [hop])
    obtain ⟨v, hv⟩ := hd.pre_cover z hz hzlt
    exact hgrown.old v z hv
  refine ⟨w, y, z, hsteps.base_eq hd hx hg hw ?_, hwy, hy, hz, ?_, ?_, u, ?_, ?_⟩
  · rw [hwy]
    intro he
    exact absurd hx (Nat.not_lt.2 (Ref.inst.inj he ▸ hy))
  · exact hcasts.mono fun v hv => hsteps.bitcast_eq hd hx hv
  · rw [hzinstr]
    exact hop
  · rw [Func.operand, hzinstr]
    exact hu
  · exact hcasts'.mono fun v hv => hsteps.bitcast_eq hd hx hv

theorem Inspected.checkOf {F : Func} (h : Inspected F₀ F l g) :
    ∃ w, F.operand g 0 = some w ∧ F.CheckOf "__GEPCheck" w l := by
  obtain ⟨w, y, z, hw, -, -, -, hcheck⟩ := h
  exact ⟨w, hw, z, hcheck⟩

end Loads

end PTAuth.Pass
