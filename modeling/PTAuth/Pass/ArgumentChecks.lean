import PTAuth.Pass.Preservation

/-!
# What the checks of call arguments authenticate

For an argument that is a load of a slot, `instrumentCalls` wraps operand 0 of the load: the address of
the slot, where the pointer that is passed is the result of the load. Addresses of the stack
have no bits above bit 47, so the inserted `__loadCheck` hands nothing to `validatePointer`
(`Slotted.handed`), whatever the slot holds. The check does what it is there for exactly if there is
nothing to do: if the pointer that is passed has no such bits either.

`Slotted` is the invariant of the executions of a rewritten function that this rests on.
-/

set_option autoImplicit false

namespace PTAuth.Pass

open PTAuth.Library PTAuth.Runtime

variable {T : Hardware} {cfg : Config} {tbi : Bool} {F₀ F : Func} {pre : Nat → List Nat}
  {c c' : Frame} {l : Option Event}

/-! ## The number of an inserted call -/

/-- The call that `wrapOperand` inserts. -/
theorem Func.wrapOperand_call {F : Func} (f : String) {x k : Nat} {v : Value} (hx : x < F.next)
    (hv : F.operand x k = some v) :
    F.wrapId x k < (F.wrapOperand f x k).next ∧ F.next ≤ F.wrapId x k ∧
      ((F.wrapOperand f x k).instr (F.wrapId x k)).op = runtimeCall f := by
  obtain ⟨hg, -⟩ := grows_createBitCast F x v voidPtrTy
  have hid : F.wrapId x k = (F.createBitCast x v voidPtrTy).1.next := by
    simp only [Func.wrapId, hv]
  -- the call is numbered between the cast of its argument and the cast back
  have hwrap : F.wrapOperand f x k =
      (((F.createBitCast x v voidPtrTy).1.createCall x f
          (F.createBitCast x v voidPtrTy).2).1.createBitCast x
            ⟨.inst (F.createBitCast x v voidPtrTy).1.next, voidPtrTy⟩ v.ty).1.setOperand x k
        (((F.createBitCast x v voidPtrTy).1.createCall x f
          (F.createBitCast x v voidPtrTy).2).1.createBitCast x
            ⟨.inst (F.createBitCast x v voidPtrTy).1.next, voidPtrTy⟩ v.ty).2 := by
    simp only [Func.wrapOperand, hv]
    rfl
  generalize F.createBitCast x v voidPtrTy = arg at *
  obtain ⟨hg', -⟩ := grows_createBitCast (arg.1.createCall x f arg.2).1 x
    ⟨.inst arg.1.next, voidPtrTy⟩ v.ty
  rw [hwrap, hid]
  have hnext : (arg.1.createCall x f arg.2).1.next = arg.1.next + 1 := rfl
  have hlt : arg.1.next < (arg.1.createCall x f arg.2).1.next := by omega
  have hx' := hg.next_le
  refine ⟨Nat.lt_of_lt_of_le hlt hg'.next_le, hx', ?_⟩
  rw [Func.setOperand_instr_of_ne _ (by omega), hg'.instr _ hlt]
  show ((arg.1.create x (runtimeCall f) arg.2 voidPtrTy).instr arg.1.next).op = runtimeCall f
  rw [Func.create_instr_self]

/-- The insertion is a call in front of its target. -/
def Insertion.Placed (pre : Nat → List Nat) (F : Func) (i : Insertion) : Prop :=
  i.call ∈ pre i.target ∧ (F.instr i.call).op = runtimeCall i.check

/-- One rewrite. -/
theorem Decorated.placed (hd : Decorated tbi F₀ pre F) {x y k : Nat} {f : String} (hx : x < F₀.next)
    (hw : Wrap tbi F x f y k) :
    ∃ pre', Decorated tbi F₀ pre' (F.wrapOperand f y k) ∧
      Insertion.Placed pre' (F.wrapOperand f y k) ⟨x, f, y, k, F.wrapId y k⟩ ∧
      ∀ i, Insertion.Placed pre F i → Insertion.Placed pre' (F.wrapOperand f y k) i := by
  obtain ⟨pre', hd', hext⟩ := hd.wrapOperand hx hw
  obtain ⟨v, hv⟩ := hw.operand
  have hy : y < F.next := Nat.lt_of_lt_of_le (hd.target_lt hx hw) hd.next_le
  obtain ⟨hlt, hge, hop⟩ := F.wrapOperand_call f hy hv
  refine ⟨pre', hd', ⟨?_, hop⟩, fun i hi => ⟨hext.subset _ hi.1, ?_⟩⟩
  · -- the number is new, and nothing was inserted elsewhere
    obtain ⟨u, hu⟩ := hd'.pre_cover _ (Nat.le_trans hd.next_le hge) hlt
    by_cases huy : u = y
    · rwa [huy] at hu
    · rw [hext.other u huy] at hu
      exact absurd (hd.pre_range u _ hu).2 (Nat.not_lt.2 hge)
  · rw [hext.old _ _ hi.1]
    exact hi.2

theorem Steps.placed {x : Nat} {s t : State} (h : Steps tbi x s t) (hd : Decorated tbi F₀ pre s.func)
    (hx : x < F₀.next) :
    ∃ pre', Decorated tbi F₀ pre' t.func ∧
      (∀ i, Insertion.Placed pre s.func i → Insertion.Placed pre' t.func i) ∧
      ∀ i ∈ t.inserted, i ∈ s.inserted ∨ Insertion.Placed pre' t.func i := by
  induction h with
  | refl => exact ⟨pre, hd, fun _ hi => hi, fun _ hi => Or.inl hi⟩
  | @wrap t f y k _ hw ih =>
      obtain ⟨pre₁, hd₁, hkeep, hins⟩ := ih
      obtain ⟨pre₂, hd₂, hnew, hkeep'⟩ := hd₁.placed hx hw
      refine ⟨pre₂, hd₂, fun i hi => hkeep' i (hkeep i hi), fun i hi => ?_⟩
      rcases List.mem_append.1 hi with hi | hi
      · rcases hins i hi with hold | hi
        · exact Or.inl hold
        · exact Or.inr (hkeep' i hi)
      · rw [List.mem_singleton.1 hi]
        exact Or.inr hnew
  | pass p _ ih => exact ih

/-- Every insertion of the walk is a call in front of its target. -/
theorem visited_placed (hwf : F₀.WellFormed) :
    ∀ (xs : List Nat) {pre : Nat → List Nat} {s : State}, (∀ x ∈ xs, x < F₀.next) →
      Decorated tbi F₀ pre s.func →
      ∃ pre', Decorated tbi F₀ pre' (visited tbi s xs).func ∧
        (∀ i, Insertion.Placed pre s.func i → Insertion.Placed pre' (visited tbi s xs).func i) ∧
        ∀ i ∈ (visited tbi s xs).inserted,
          i ∈ s.inserted ∨ Insertion.Placed pre' (visited tbi s xs).func i := by
  intro xs
  induction xs with
  | nil => exact fun _ hd => ⟨_, hd, fun _ hi => hi, fun _ hi => Or.inl hi⟩
  | cons x xs ih =>
      intro pre s hxs hd
      have hx := hxs x List.mem_cons_self
      obtain ⟨pre₁, hd₁, hkeep, hins⟩ := (visit_steps hd hwf hx).placed hd hx
      obtain ⟨pre₂, hd₂, hkeep', hins'⟩ := ih (fun y hy => hxs y (List.mem_cons_of_mem x hy)) hd₁
      refine ⟨pre₂, hd₂, fun i hi => hkeep' i (hkeep i hi), fun i hi => ?_⟩
      rcases hins' i hi with hi | hi
      · rcases hins i hi with hold | hi
        · exact Or.inl hold
        · exact Or.inr (hkeep' i hi)
      · exact Or.inr hi

/-! ## Executions of a rewritten function -/

/-- The address has no bits above bit 47. -/
def Untagged (w : Word) : Prop := w.toNat < 2 ^ 48

/-- What holds along executions with a stack below bit 48. -/
structure Slotted (T : Hardware) (cfg : Config) (F₀ F : Func) (pre : Nat → List Nat) (c : Frame) :
    Prop where
  front : ∃ B₀, (∀ y ∈ B₀, y < F₀.next) ∧
    ((c.block = [] ∧ B₀ = []) ∨ ∃ x B r q, B₀ = x :: B ∧ Stands T cfg F pre c x B r q)
  closed : ∀ y, (F.instr y).op.isPhi = false → c.regs y ≠ none → ∀ v ∈ (F.instr y).operands,
    ∀ u, v.ref = .inst u → c.regs u ≠ none
  hosted : ∀ y < F₀.next, c.regs y ≠ none → ∀ z ∈ pre y, (F.instr z).op.IsRuntimeCall →
    c.handed z ≠ none
  single : ∀ y, (F.instr y).op = .load → c.regs y ≠ none → (F.instr y).operands.length = 1
  stack : ∀ a, (F.instr a).op.isAlloca = true → ∀ w, c.regs a = some w → Untagged w
  address : ∀ l a, F₀.slotOf l = some a → (F₀.instr l).operands.length = 1 → ∀ z ∈ pre l,
    (∀ w, c.regs z = some w → Untagged w) ∧ ∀ v, c.handed z = some v → v = none

section Run

variable {x : Nat} {B : List Nat}

/-- Registers are set when the operands have values, but for phis. -/
theorem Sets.closed (h : Sets T F c l c' x)
    (hclosed : ∀ y, (F.instr y).op.isPhi = false → c.regs y ≠ none → ∀ v ∈ (F.instr y).operands,
      ∀ u, v.ref = .inst u → c.regs u ≠ none) :
    ∀ y, (F.instr y).op.isPhi = false → c'.regs y ≠ none → ∀ v ∈ (F.instr y).operands,
      ∀ u, v.ref = .inst u → c'.regs u ≠ none := by
  intro y hphi hy v hv u hu
  apply h.defined
  by_cases hyx : y = x
  · subst hyx
    obtain ⟨args, hargs⟩ := h.args hphi
    obtain ⟨p, -, -, hp⟩ := forall₂_partner hargs hv
    rw [hu, show T.eval c.regs (.inst u) = c.regs u from rfl] at hp
    rw [hp]
    simp
  · rw [h.regs y hyx] at hy
    exact hclosed y hphi hy v hv u hu

theorem Sets.single (h : Sets T F c l c' x)
    (hsingle : ∀ y, (F.instr y).op = .load → c.regs y ≠ none → (F.instr y).operands.length = 1) :
    ∀ y, (F.instr y).op = .load → c'.regs y ≠ none → (F.instr y).operands.length = 1 := by
  intro y hop hy
  by_cases hyx : y = x
  · subst hyx
    rcases h.value with hsame | ⟨w, -, hone, -⟩
    · rw [hsame] at hy
      exact hsingle y hop hy
    · exact hone hop
  · rw [h.regs y hyx] at hy
    exact hsingle y hop hy

theorem Sets.stack (h : Sets T F c l c' x) (hevent : ∀ a, l = some (.alloca a) → Untagged a)
    (hstack : ∀ a, (F.instr a).op.isAlloca = true → ∀ w, c.regs a = some w → Untagged w) :
    ∀ a, (F.instr a).op.isAlloca = true → ∀ w, c'.regs a = some w → Untagged w := by
  intro a hop w hw
  by_cases hax : a = x
  · subst hax
    rcases h.value with hsame | ⟨q, hq, -, halloca⟩
    · rw [hsame] at hw
      exact hstack a hop w hw
    · rw [hq] at hw
      cases hw
      exact hevent w (halloca hop)
  · rw [h.regs a hax] at hw
    exact hstack a hop w hw

/-- Copies of the address of a slot. -/
theorem Copy.untagged {zs : List Nat} {v₀ v : Value} {b : Bool} {a : Nat} (h : Copy F zs v₀ v b)
    (hv₀ : v₀.ref = .inst a) (ha : ∀ w, c.regs a = some w → Untagged w)
    (hzs : ∀ z ∈ zs, v.ref = .inst z → ∀ w, c.regs z = some w → Untagged w) {w : Word}
    (hw : T.eval c.regs v.ref = some w) : Untagged w := by
  have hconst : ∀ {u : Value} {b : Bool}, Copy F zs v₀ u b → u.ref.isConstant = false := by
    intro u b hu
    induction hu with
    | self => rw [hv₀]; rfl
    | fold ty hc _ ih => rw [ih] at hc; cases hc
    | cast => rfl
    | call => rfl
  cases h with
  | self =>
      rw [hv₀] at hw
      exact ha w hw
  | fold ty hc hu =>
      rw [hconst hu] at hc
      cases hc
  | cast ty hz _ _ => exact hzs _ hz rfl w hw
  | call _ hz _ _ => exact hzs _ hz rfl w hw

/-- An original step goes to the beginning of what is left of a block. -/
theorem Stands.original (hd : Decorated tbi F₀ pre F) {p : Nat → Prop} (hids : ∀ y ∈ F₀.ids, p y)
    (hB : ∀ y ∈ B, p y) {r : List Nat} (h : Stands T cfg F pre c x B r [])
    (hstep : Step T cfg F c l c') : ∃ B', c'.block = decorate pre B' ∧ ∀ y ∈ B', p y := by
  have hblock : c.block = x :: decorate pre B := h.block
  cases hstep with
  | exec hy _ _ =>
      rw [hblock] at hy
      cases hy
      exact ⟨B, rfl, hB⟩
  | runtime hy _ _ _ =>
      rw [hblock] at hy
      cases hy
      exact ⟨B, rfl, hB⟩
  | phi hy _ _ _ _ _ =>
      rw [hblock] at hy
      cases hy
      exact ⟨B, rfl, hB⟩
  | jump hy _ _ _ _ hC =>
      obtain ⟨D, hD, rfl⟩ := hd.layout_getElem? hC
      exact ⟨D, rfl, fun y hy => hids y (F₀.mem_ids hD hy)⟩
  | ret hy _ _ => exact ⟨[], rfl, fun y hy => absurd hy List.not_mem_nil⟩

/-- The front of an execution at the beginning of what is left of a block. -/
theorem Slotted.front_of_block {p : Nat → Prop} (hB : ∀ y ∈ B, p y)
    (hblock : c.block = decorate pre B) :
    ∃ B₀, (∀ y ∈ B₀, p y) ∧
      ((c.block = [] ∧ B₀ = []) ∨ ∃ x B r q, B₀ = x :: B ∧ Stands T cfg F pre c x B r q) := by
  refine ⟨B, hB, ?_⟩
  cases B with
  | nil => exact Or.inl ⟨hblock, rfl⟩
  | cons x B => exact Or.inr ⟨x, B, [], pre x, rfl, Stands.ofBlock hblock⟩

end Run

/-- The operand of what was inserted in front of a load of a slot is a copy of the address. -/
theorem Decorated.slot_operand (hd : Decorated tbi F₀ pre F) {l a z : Nat}
    (hslot : F₀.slotOf l = some a) (hone : (F₀.instr l).operands.length = 1) (hz : z ∈ pre l)
    {v : Value} (hv : (F.instr z).operands = [v]) :
    ∃ v₀ b, v₀.ref = .inst a ∧ Copy F (pre l) v₀ v b := by
  obtain ⟨k, v₀, u, b, hv₀, hcopy, hi⟩ := hd.pre_copy l z hz
  obtain ⟨w₀, hw₀, hw₀a, -⟩ := Func.slotOf_eq_some.1 hslot
  have hu : u = v := by
    rcases hi with ⟨ty, hi⟩ | ⟨f, -, hi⟩
    · rw [hi] at hv
      exact List.singleton_inj.1 hv
    · rw [hi] at hv
      exact List.singleton_inj.1 hv
  have hk : k = 0 := by
    have hlt := (List.getElem?_eq_some_iff.1 hv₀).1
    omega
  subst hk
  rw [hw₀] at hv₀
  cases hv₀
  exact ⟨v₀, b, hw₀a, hu ▸ hcopy⟩

section Step

variable {x z : Nat} {B r q : List Nat}

/-- An original instruction: everything in front of it has run. -/
theorem Slotted.step_original (hd : Decorated tbi F₀ pre F) (hids : ∀ y ∈ F₀.ids, y < F₀.next)
    (h : Slotted T cfg F₀ F pre c) (hevent : ∀ a, l = some (.alloca a) → Untagged a)
    (hstep : Step T cfg F c l c') (hB : ∀ y ∈ x :: B, y < F₀.next)
    (hat : Stands T cfg F pre c x B r []) : Slotted T cfg F₀ F pre c' := by
  have hx : x < F₀.next := hB x List.mem_cons_self
  have hsets := hstep.sets hat.block
  have hpre : ∀ z l, z ∈ pre l → z ≠ x := by
    rintro z l hz rfl
    exact hd.not_mem_pre hx hz
  obtain ⟨B', hblock', hB'⟩ :=
    hat.original hd hids (fun y hy => hB y (List.mem_cons_of_mem _ hy)) hstep
  refine ⟨Slotted.front_of_block hB' hblock', hsets.closed h.closed, ?_,
    hsets.single h.single, hsets.stack hevent h.stack, ?_⟩
  · intro y hy hdef z hz hop
    apply hsets.stays_handed
    by_cases hyx : y = x
    · subst hyx
      obtain ⟨v, p, w, -, -, -, ⟨hcast, -⟩ | ⟨f, validated, -, -, hhanded⟩⟩ := hat.all_ran z hz
      · obtain ⟨f, -, hop⟩ := hop
        rw [hcast] at hop
        exact absurd hop (by simp [runtimeCall])
      · rw [hhanded]
        simp
    · rw [hsets.regs y hyx] at hdef
      exact h.hosted y hy hdef z hz hop
  · intro l a hslot hone z hz
    rw [hsets.regs z (hpre z l hz), hsets.handed z (hpre z l hz)]
    exact h.address l a hslot hone z hz

/-- An inserted instruction that runs on a copy of the address of a slot. -/
theorem Slotted.address_ran (hd : Decorated tbi F₀ pre F) (h : Slotted T cfg F₀ F pre c)
    (hsets : Sets T F c l c' z) (hstack : ∀ a, (F.instr a).op.isAlloca = true →
      ∀ w, c'.regs a = some w → Untagged w)
    (hran : Ran T cfg F c' z) {b a : Nat} (hslot : F₀.slotOf b = some a)
    (hone : (F₀.instr b).operands.length = 1) (hz : z ∈ pre b) :
    (∀ w, c'.regs z = some w → Untagged w) ∧ ∀ v, c'.handed z = some v → v = none := by
  obtain ⟨v, p, w, hv, ⟨-, hp⟩, hw, hop⟩ := hran
  obtain ⟨v₀, b', hv₀, hcopy⟩ := hd.slot_operand hslot hone hz hv
  have halloca : (F.instr a).op.isAlloca = true := by
    obtain ⟨w₀, hw₀, hw₀a, hop₀⟩ := Func.slotOf_eq_some.1 hslot
    rw [hd.op a (hd.base.operand_lt b 0 w₀ a hw₀ hw₀a)]
    exact hop₀
  have hpsmall : Untagged p.2 := by
    refine hcopy.untagged hv₀ (hstack a halloca) ?_ hp
    intro y hy hvy q hq
    have hyz : y ≠ z := by
      rintro rfl
      refine hd.operand_ne hz (Nat.le_refl y) v ?_ hvy
      rw [hv]
      exact List.mem_singleton_self v
    rw [hsets.regs y hyz] at hq
    exact (h.address b a hslot hone y hy).1 q hq
  rw [hw]
  rcases hop with ⟨hcast, rfl⟩ | ⟨f, validated, hcall, hrun, hval⟩
  · refine ⟨fun q hq => ?_, fun q hq => ?_⟩
    · cases hq
      exact hpsmall
    · rcases hsets.validated with hsame | ⟨⟨f, -, hcall⟩, -⟩
      · rw [hsame] at hq
        exact (h.address b a hslot hone z hz).2 q hq
      · rw [hcast] at hcall
        exact absurd hcall (by simp [runtimeCall])
  · obtain ⟨hsame, hnone⟩ := hrun.of_untagged hpsmall
    refine ⟨fun q hq => ?_, fun q hq => ?_⟩
    · cases hq
      rw [hsame]
      exact hpsmall
    · rw [hval] at hq
      cases hq
      exact hnone

/-- An inserted instruction: what is in front of other instructions does not change. -/
theorem Slotted.step_inserted (hd : Decorated tbi F₀ pre F) (h : Slotted T cfg F₀ F pre c)
    (hevent : ∀ a, l = some (.alloca a) → Untagged a) (hstep : Step T cfg F c l c')
    (hB : ∀ y ∈ x :: B, y < F₀.next) (hat : Stands T cfg F pre c x B r (z :: q)) :
    Slotted T cfg F₀ F pre c' := by
  have hz : z ∈ pre x := hat.mem_pre
  have hsets := hstep.sets hat.block
  obtain ⟨-, hat', -, hregs, hhanded⟩ := hat.inserted hd hstep
  have hran : Ran T cfg F c' z := hat'.ran z (List.mem_append_right _ List.mem_cons_self)
  have hstack := hsets.stack hevent h.stack
  refine ⟨⟨x :: B, hB, Or.inr ⟨x, B, _, q, rfl, hat'⟩⟩, hsets.closed h.closed, ?_,
    hsets.single h.single, hstack, ?_⟩
  · intro y hy hdef u hu hop
    apply hsets.stays_handed
    have hyz : y ≠ z := by
      rintro rfl
      exact hd.not_mem_pre hy hz
    rw [hregs y hyz] at hdef
    exact h.hosted y hy hdef u hu hop
  · intro b a hslot hone u hu
    by_cases huz : u = z
    · subst huz
      exact h.address_ran hd hsets hstack hran hslot hone hu
    · rw [hregs u huz, hhanded u huz]
      exact h.address b a hslot hone u hu

/-- **One step.** -/
theorem Slotted.step (hd : Decorated tbi F₀ pre F) (hids : ∀ y ∈ F₀.ids, y < F₀.next)
    (h : Slotted T cfg F₀ F pre c) (hevent : ∀ a, l = some (.alloca a) → Untagged a)
    (hstep : Step T cfg F c l c') : Slotted T cfg F₀ F pre c' := by
  obtain ⟨B₀, hB₀, ⟨hnil, -⟩ | ⟨x, B, r, q, rfl, hat⟩⟩ := h.front
  · obtain ⟨y, C, hy⟩ := hstep.block_eq
    rw [hnil] at hy
    cases hy
  · cases q with
    | nil => exact h.step_original hd hids hevent hstep hB₀ hat
    | cons z q => exact h.step_inserted hd hevent hstep hB₀ hat

end Step

theorem Slotted.start {m : Mem} (hd : Decorated tbi F₀ pre F) (hids : ∀ y ∈ F₀.ids, y < F₀.next)
    (h : (F.system T cfg m).start c) : Slotted T cfg F₀ F pre c := by
  obtain ⟨C, hC, rfl⟩ := h
  obtain ⟨B, hB, rfl⟩ := hd.layout_getElem? hC
  refine ⟨Slotted.front_of_block (fun y hy => ?_) rfl, ?_, ?_, ?_, ?_, ?_⟩
  · exact hids y (F₀.mem_ids hB hy)
  · exact fun _ _ hy => absurd rfl hy
  · exact fun _ _ hy => absurd rfl hy
  · exact fun _ _ hy => absurd rfl hy
  · intro a _ w hw
    cases hw
  · intro l a _ _ z _
    refine ⟨fun w hw => ?_, fun v hv => ?_⟩
    · cases hw
    · cases hv

/-- **Every run.** -/
theorem Slotted.run {m : Mem} {es : List Event} (hd : Decorated tbi F₀ pre F)
    (hids : ∀ y ∈ F₀.ids, y < F₀.next) (hrun : (F.system T cfg m).Run es c)
    (hstack : ∀ a, Event.alloca a ∈ es → Untagged a) : Slotted T cfg F₀ F pre c := by
  refine hrun.invariant (P := fun e => ∀ a, e = .alloca a → Untagged a)
    (fun _ hs => Slotted.start hd hids hs) ?_ ?_
  · intro c l c' h hP hstep
    exact h.step hd hids (fun a ha => hP _ ha a rfl) hstep
  · rintro e he a rfl
    exact hstack a he

/-! ## Arguments -/

/-- The value is no instruction that has not run. -/
def Defined (c : Frame) (v : Value) : Prop := ∀ u, v.ref = .inst u → c.regs u ≠ none

/-- An instruction whose copy has a value has run. -/
theorem Slotted.defined_copy (h : Slotted T cfg F₀ F pre c) {zs : List Nat} {v₀ v : Value} {b : Bool}
    (hcopy : Copy F zs v₀ v b) (hv : Defined c v) : Defined c v₀ := by
  induction hcopy with
  | self => exact hv
  | fold ty hc _ ih =>
      apply ih
      intro u hu
      rw [hu] at hc
      cases hc
  | cast ty hz hi _ ih =>
      apply ih
      intro u hu
      refine h.closed _ (by rw [hi]; rfl) (hv _ rfl) _ ?_ u hu
      rw [hi]
      exact List.mem_singleton_self _
  | call hf hz hi _ ih =>
      apply ih
      intro u hu
      refine h.closed _ (by rw [hi]; rfl) (hv _ rfl) _ ?_ u hu
      rw [hi]
      exact List.mem_singleton_self _

/-- The original operands of an instruction that has run have run, but for phis. -/
theorem Slotted.defined_operand (hd : Decorated tbi F₀ pre F) (h : Slotted T cfg F₀ F pre c)
    {y k : Nat} {v₀ : Value} (hphi : (F₀.instr y).op.isPhi = false) (hy : c.regs y ≠ none)
    (hv₀ : F₀.operand y k = some v₀) : Defined c v₀ := by
  have hlt : y < F₀.next := hd.base.lt_of_operand hv₀
  have hphi' : (F.instr y).op.isPhi = false := by
    rw [hd.op y hlt]
    exact hphi
  have hk : k < (F.instr y).operands.length := by
    rw [hd.operands_length y hlt]
    exact (List.getElem?_eq_some_iff.1 hv₀).1
  have hv : F.operand y k = some (F.instr y).operands[k] := List.getElem?_eq_getElem hk
  obtain ⟨w₀, b, hw₀, -, hcopy, -⟩ := hd.operand y hlt k _ hv
  rw [hv₀] at hw₀
  cases hw₀
  exact h.defined_copy hcopy fun u hu => h.closed y hphi' hy _ (List.getElem_mem hk) u hu

/-- What an argument strips to has run. -/
theorem Slotted.defined_strips (hd : Decorated tbi F₀ pre F) (h : Slotted T cfg F₀ F pre c) {v : Value}
    {l : Nat} (hstrips : Strips F₀ v l) (hv : Defined c v) : c.regs l ≠ none := by
  induction hstrips with
  | self hl => exact hv _ hl
  | cast hz hcarries hw _ ih => exact ih (h.defined_operand hd hcarries.not_phi (hv _ hz) hw)

/-- Argument `i` of the direct call `x`, outside `functionsAvoidList`, is a pointer and, up to casts, the load
`l` of the slot `a`. -/
def Func.PassesLoad (F : Func) (x i l a : Nat) : Prop :=
  ∃ callee returned v, (F.instr x).op = .call (some callee) returned ∧
    callee.name ∉ functionsAvoidList ∧ F.operand x i = some v ∧ v.ty.isPointerTy = true ∧
      Strips F v l ∧ (F.instr l).op = .load ∧ F.slotOf l = some a

/-- The last run of the check `z` has handed the pointer `w` to `validatePointer` if it carries a tag,
and no other pointer. -/
def Frame.Authenticated (c : Frame) (z : Nat) (w : Word) : Prop :=
  (¬ Untagged w → c.handed z = some (some w)) ∧ ∀ q, c.handed z = some (some q) → q = w

/-- When control reaches the call, the check has run, and has handed nothing to `validatePointer`. -/
theorem Slotted.handed (hd : Decorated tbi F₀ pre F) (h : Slotted T cfg F₀ F pre c)
    {x i l a z : Nat} (hpass : F₀.PassesLoad x i l a)
    (hplaced : Insertion.Placed pre F ⟨x, "__loadCheck", l, 0, z⟩) {v : Value} {w : Word}
    (hv : F.operand x i = some v) (hw : T.eval c.regs v.ref = some w) : c.handed z = some none := by
  obtain ⟨callee, returned, v₀, -, -, hv₀, -, hstrips, hload, hslot⟩ := hpass
  obtain ⟨hz, hcall⟩ := hplaced
  have hx : x < F₀.next := hd.base.lt_of_operand hv₀
  -- the argument has a value, so the load has run
  have hdef : Defined c v := by
    intro u hu
    rw [hu, show T.eval c.regs (.inst u) = c.regs u from rfl] at hw
    rw [hw]
    simp
  obtain ⟨u₀, b, hu₀, -, hcopy, -⟩ := hd.operand x hx i v hv
  rw [hv₀] at hu₀
  cases hu₀
  have hl := h.defined_strips hd hstrips (h.defined_copy hcopy hdef)
  have hlt := hd.base.lt_of_load hload
  have hone : (F₀.instr l).operands.length = 1 := by
    rw [← hd.operands_length l hlt]
    exact h.single l ((hd.op l hlt).trans hload) hl
  cases hhanded : c.handed z with
  | none =>
      exact absurd hhanded (h.hosted l hlt hl z hz ⟨"__loadCheck", by decide, hcall⟩)
  | some q => rw [(h.address l a hslot hone z hz).2 q hhanded]

/-- **The check of an argument authenticates the pointer that is passed exactly if there is nothing to
authenticate**: if the pointer has no bits above bit 47. -/
theorem argument_authenticated_iff (T : Hardware) (cfg : Config) (tbi : Bool) {s : State}
    (hwf : s.func.WellFormed) :
    ∃ N, ∀ fuel, N ≤ fuel → ∃ t, walk tbi fuel s = some t ∧
      ∀ x i l a z, s.func.PassesLoad x i l a →
        ⟨x, "__loadCheck", l, 0, z⟩ ∈ t.inserted → ⟨x, "__loadCheck", l, 0, z⟩ ∉ s.inserted →
      ∀ m es c, (t.func.system T cfg m).Run es c → (∀ p, Event.alloca p ∈ es → Untagged p) →
      ∀ B v w, c.block = x :: B → t.func.operand x i = some v → T.eval c.regs v.ref = some w →
        (c.Authenticated z w ↔ Untagged w) := by
  obtain ⟨N, hN⟩ := walk_eq tbi hwf
  refine ⟨N, fun fuel hfuel => ⟨_, hN fuel hfuel, ?_⟩⟩
  have hstart : Decorated tbi s.func (fun _ => []) s.func := Decorated.refl hwf.toLinked
  obtain ⟨pre, hd, -, hins⟩ := visited_placed hwf s.func.ids hwf.ids_lt hstart
  intro x i l a z hpass hmem hnew m es c hrun hstack B v w hblock hv hw
  -- nothing is handed to `validatePointer`, so the check is right exactly if nothing should be
  have hplaced := (hins _ hmem).resolve_left hnew
  have hslotted := Slotted.run hd hwf.ids_lt hrun hstack
  have hhanded := hslotted.handed hd hpass hplaced hv hw
  constructor
  · rintro ⟨hreach, -⟩
    by_contra htagged
    rw [hreach htagged] at hhanded
    cases hhanded
  · intro huntagged
    refine ⟨fun htagged => absurd huntagged htagged, fun q hq => ?_⟩
    rw [hhanded] at hq
    cases hq

/-! ### A tagged pointer that is passed -/

/-- `p = q; use(p);` -/
def useOnce : Func :=
  Func.ofInstrs "main" [[0, 1, 2, 3, 4]]
    [⟨.alloca (.ptr (.int 32)), [], .ptr (.ptr (.int 32)), "p"⟩,
      ⟨.store, [⟨.argument "q", .ptr (.int 32)⟩, ⟨.inst 0, .ptr (.ptr (.int 32))⟩], .other "void", ""⟩,
      ⟨.load, [⟨.inst 0, .ptr (.ptr (.int 32))⟩], .ptr (.int 32), ""⟩,
      ⟨.call (some ⟨"use", false⟩) none, [⟨.inst 2, .ptr (.int 32)⟩], .other "void", ""⟩,
      ⟨.ret, [], .other "void", ""⟩]

theorem useOnce_wellFormed : useOnce.WellFormed :=
  Func.wellFormed_ofInstrs (by decide) (by decide) (by decide)

theorem useOnce_passesLoad : useOnce.PassesLoad 3 0 2 0 :=
  ⟨⟨"use", false⟩, none, ⟨.inst 2, .ptr (.int 32)⟩, rfl, by decide, rfl, rfl, .self rfl, rfl, rfl⟩

/-- The function behind the pass. -/
def useOnceChecked : State := visited true (State.start useOnce) useOnce.ids

theorem useOnceChecked_inserted : ⟨3, "__loadCheck", 2, 0, 6⟩ ∈ useOnceChecked.inserted := by
  decide +kernel

/-- A run to the call: the tagged argument `q` is passed, and the check has validated nothing. -/
theorem useOnceChecked_run :
    ∃ es c, (useOnceChecked.func.system wordHardware Config.shipped fun _ => 0).Run es c ∧
      (∀ p, Event.alloca p ∈ es → Untagged p) ∧ c.block = [3, 4] ∧
      c.regs 2 = some 0xAB00000000001008#64 ∧ c.handed 6 = some none := by
  have hlayout : useOnceChecked.func.layout[0]? = some [0, 1, 5, 6, 7, 2, 3, 4] := by decide +kernel
  have h0 : useOnceChecked.func.instr 0 =
      ⟨.alloca (.ptr (.int 32)), [], .ptr (.ptr (.int 32)), "p"⟩ := by decide +kernel
  have h1 : useOnceChecked.func.instr 1 =
      ⟨.store, [⟨.argument "q", .ptr (.int 32)⟩, ⟨.inst 0, .ptr (.ptr (.int 32))⟩], .other "void", ""⟩ := by
    decide +kernel
  have h5 : useOnceChecked.func.instr 5 =
      ⟨.bitcast, [⟨.inst 0, .ptr (.ptr (.int 32))⟩], voidPtrTy, ""⟩ := by decide +kernel
  have h6 : useOnceChecked.func.instr 6 =
      ⟨runtimeCall "__loadCheck", [⟨.inst 5, voidPtrTy⟩], voidPtrTy, ""⟩ := by decide +kernel
  have h7 : useOnceChecked.func.instr 7 =
      ⟨.bitcast, [⟨.inst 6, voidPtrTy⟩], .ptr (.ptr (.int 32)), ""⟩ := by decide +kernel
  have h2 : useOnceChecked.func.instr 2 =
      ⟨.load, [⟨.inst 7, .ptr (.ptr (.int 32))⟩], .ptr (.int 32), ""⟩ := by decide +kernel
  generalize useOnceChecked.func = F at *
  let slot : Word := 0x7000#64
  let q : Word := 0xAB00000000001008#64
  let r0 : Nat → Option Word := fun _ => none
  let r1 := Function.update r0 0 (some slot)
  let r2 := Function.update r1 1 (some 0)
  let r3 := Function.update r2 5 (some slot)
  let r4 := Function.update r3 6 (some slot)
  let r5 := Function.update r4 7 (some slot)
  let m : Mem := writeWord (fun _ => 0) slot q
  have hnone : List.Forall₂ (wordHardware.Evaluates r0) (F.instr 0).operands [] := by
    rw [h0]
    exact .nil
  have hstore : List.Forall₂ (wordHardware.Evaluates r1) (F.instr 1).operands
      [(.ptr (.int 32), q), (.ptr (.ptr (.int 32)), slot)] := by
    rw [h1]
    exact .cons ⟨rfl, rfl⟩ (.cons ⟨rfl, rfl⟩ .nil)
  have hcast : List.Forall₂ (wordHardware.Evaluates r2) (F.instr 5).operands
      [(.ptr (.ptr (.int 32)), slot)] := by
    rw [h5]
    exact .cons ⟨rfl, rfl⟩ .nil
  have hcheck : List.Forall₂ (wordHardware.Evaluates r3) (F.instr 6).operands [(voidPtrTy, slot)] := by
    rw [h6]
    exact .cons ⟨rfl, rfl⟩ .nil
  have hback : List.Forall₂ (wordHardware.Evaluates r4) (F.instr 7).operands [(voidPtrTy, slot)] := by
    rw [h7]
    exact .cons ⟨rfl, rfl⟩ .nil
  have hload : List.Forall₂ (wordHardware.Evaluates r5) (F.instr 2).operands
      [(.ptr (.ptr (.int 32)), slot)] := by
    rw [h2]
    exact .cons ⟨rfl, rfl⟩ .nil
  -- the check gets the address of the slot and returns it
  have huntagged : RuntimeCall Config.shipped m "__loadCheck" slot slot none :=
    .check List.mem_cons_self (Check.run_of_untagged .load Config.shipped _ 0 (by decide)) rfl
  have hstrip : Runtime.xpac slot = slot := by decide
  have hread : readWord m (Runtime.xpac slot) = q := by
    rw [hstrip]
    exact readWord_writeWord _ slot q
  let S := F.system wordHardware Config.shipped fun _ => 0
  have run0 : S.Run [] ⟨[0, 1, 5, 6, 7, 2, 3, 4], r0, fun _ => 0, fun _ => none, 0, none⟩ :=
    .start ⟨_, hlayout, rfl⟩
  have run1 : S.Run [.alloca slot] ⟨[1, 5, 6, 7, 2, 3, 4], r1, fun _ => 0, fun _ => none, 0, none⟩ := by
    refine .event run0 (.exec rfl hnone ?_)
    rw [h0]
    exact .alloca slot
  have run2 : S.Run [.alloca slot] ⟨[5, 6, 7, 2, 3, 4], r2, m, fun _ => none, 0, none⟩ := by
    refine .silent run1 (.exec rfl hstore ?_)
    rw [h1]
    exact .store rfl (congrArg (fun p => some (writeWord (fun _ => 0) p q)) hstrip)
  have run3 : S.Run [.alloca slot] ⟨[6, 7, 2, 3, 4], r3, m, fun _ => none, 0, none⟩ := by
    refine .silent run2 (.exec rfl hcast ?_)
    rw [h5]
    exact .bitcast rfl
  have run4 : S.Run [.alloca slot]
      ⟨[7, 2, 3, 4], r4, m, Function.update (fun _ => none) 6 (some none), 0, none⟩ := by
    refine .silent run3 (.runtime rfl hcheck ?_ huntagged)
    rw [h6]
  have run5 : S.Run [.alloca slot]
      ⟨[2, 3, 4], r5, m, Function.update (fun _ => none) 6 (some none), 0, none⟩ := by
    refine .silent run4 (.exec rfl hback ?_)
    rw [h7]
    exact .bitcast rfl
  have run6 : S.Run [.alloca slot]
      ⟨[3, 4], Function.update r5 2 (some q), m, Function.update (fun _ => none) 6 (some none), 0, none⟩ := by
    refine .silent run5 (.exec rfl hload ?_)
    rw [h2]
    exact .load rfl (congrArg some hread)
  refine ⟨_, _, run6, ?_, rfl, rfl, rfl⟩
  intro p hp
  cases List.mem_singleton.1 hp
  show slot.toNat < 2 ^ 48
  decide

theorem not_authenticated :
    ¬ ∀ (T : Hardware) (cfg : Config) (tbi : Bool) (s : State), s.func.WellFormed →
      ∃ N, ∀ fuel, N ≤ fuel → ∃ t, walk tbi fuel s = some t ∧
        ∀ x i l a z, s.func.PassesLoad x i l a →
          ⟨x, "__loadCheck", l, 0, z⟩ ∈ t.inserted → ⟨x, "__loadCheck", l, 0, z⟩ ∉ s.inserted →
        ∀ m es c, (t.func.system T cfg m).Run es c → (∀ p, Event.alloca p ∈ es → Untagged p) →
        ∀ B v w, c.block = x :: B → t.func.operand x i = some v → T.eval c.regs v.ref = some w →
          c.Authenticated z w := by
  intro h
  have hclaim := visited_of_walk (s := State.start useOnce) useOnce_wellFormed
    (h wordHardware Config.shipped true (State.start useOnce) useOnce_wellFormed)
  obtain ⟨es, c, hrun, hstack, hblock, hreg, hhanded⟩ := useOnceChecked_run
  have hoperand : useOnceChecked.func.operand 3 0 = some ⟨.inst 2, .ptr (.int 32)⟩ := by decide +kernel
  obtain ⟨hreach, -⟩ := hclaim 3 0 2 0 6 useOnce_passesLoad useOnceChecked_inserted
    List.not_mem_nil _ es c hrun hstack [4] _ _ hblock hoperand hreg
  have htagged : ¬ Untagged 0xAB00000000001008#64 := by
    show ¬ BitVec.toNat 0xAB00000000001008#64 < 2 ^ 48
    decide
  rw [hhanded] at hreach
  exact absurd (hreach htagged) (by simp)

theorem useOnce_authenticated_iff :
    ∃ N, ∀ fuel, N ≤ fuel → ∃ t, walk true fuel (State.start useOnce) = some t ∧
      ∀ x i l a z, useOnce.PassesLoad x i l a →
        ⟨x, "__loadCheck", l, 0, z⟩ ∈ t.inserted → ⟨x, "__loadCheck", l, 0, z⟩ ∉ ([] : List Insertion) →
      ∀ m es c, (t.func.system wordHardware Config.shipped m).Run es c →
        (∀ p, Event.alloca p ∈ es → Untagged p) →
      ∀ B v w, c.block = x :: B → t.func.operand x i = some v →
        wordHardware.eval c.regs v.ref = some w → (c.Authenticated z w ↔ Untagged w) :=
  argument_authenticated_iff wordHardware Config.shipped true (s := State.start useOnce)
    useOnce_wellFormed

end PTAuth.Pass
