import PTAuth.Pass.Chains
import PTAuth.Pass.Decoration

/-!
# What a visit can do

`Wrap F x f y k` lists the rewrites that the handler of `x` makes: it wraps the address of `x`
itself, the base of the GEP that uses `x`, an argument of the call `x`, or the address of a load of
a slot that is passed to the call `x`. `Steps x s t` says that `t` comes from `s` by such rewrites
and by changes of the state of the pass. Every visit is such a sequence (`visit_steps`), keeps the
function decorated (`Steps.decorated`), and does nothing at an inserted instruction ahead of the
cursor (`visit_inert`).
-/

set_option autoImplicit false

namespace PTAuth.Pass

/-! ## What a call may pass -/

/-- `x` is a direct call of a function outside `functionsAvoidList` with the pointer argument `v`. -/
def Func.Hands (F : Func) (x : Nat) (v : Value) : Prop :=
  ∃ callee returned i, (F.instr x).op = .call (some callee) returned ∧
    callee.name ∉ functionsAvoidList ∧ F.operand x i = some v ∧ pointerArgument v = true

/-- The call `x` may be taken by the pass to pass the load `l`: an argument strips to it. -/
def Func.MayPass (F : Func) (x l : Nat) : Prop :=
  (F.instr l).op = .load ∧ ∃ v, F.Hands x v ∧ Strips F v l

/-- The call `x` may be taken by the pass to pass a load through the load `l`. -/
def Func.MayNest (F : Func) (x l : Nat) : Prop :=
  (F.instr l).op = .load ∧ ∃ v y w, F.Hands x v ∧ CastsTo F v y ∧ (F.instr y).op = .load ∧
    F.operand y 0 = some w ∧ w.ref = .inst l

/-- The load `l` is one that the pass may rewrite for the call `x`. -/
def Func.MayTake (F : Func) (x l : Nat) : Prop := F.MayPass x l ∨ F.MayNest x l

theorem Func.MayTake.load {F : Func} {x l : Nat} (h : F.MayTake x l) : (F.instr l).op = .load := by
  rcases h with h | h
  · exact h.1
  · exact h.1

/-! ## Rewrites -/

/-- A rewrite by the handler of `x`: operand `k` of `y` is wrapped by `f`. -/
inductive Wrap (tbi : Bool) (F : Func) (x : Nat) : String → Nat → Nat → Prop where
  -- the loop of `instrumentLoad` over `pointers`, at a load through a load
  | nested {f : String} {v : Value} :
      (F.instr x).op = .load → F.operand x 0 = some v → F.slotOf x = none →
        f ∈ ["__loadCheck", "__noCheck"] → Wrap tbi F x f x 0
  -- the two checks of `instrumentLoad` on the GEP that uses the load
  | gep {f : String} {g : Nat} {v : Value} :
      (F.instr x).op = .load → (F.instr g).op = .gep → F.operand g 0 = some v →
        v.ref = .inst x → f ∈ ["__GEPCheck", "__nestedGEPCheck"] → Wrap tbi F x f g 0
  -- an external call, before the pointer leaves the module
  | xpac {f : String} {i : Nat} {v : Value} :
      F.operand x i = some v → XpacSite tbi F x v → f = "__xpac" → Wrap tbi F x f x i
  -- a call of the module: the address of the load that is passed, not the argument
  | argument {f : String} {l a : Nat} :
      F.MayTake x l → F.slotOf l = some a → f = "__loadCheck" → Wrap tbi F x f l 0

/-- Rewrites by the handler of `x`, and changes of the state of the pass. -/
inductive Steps (tbi : Bool) (x : Nat) (s : State) : State → Prop where
  | refl : Steps tbi x s s
  | wrap {t : State} {f : String} {y k : Nat} :
      Steps tbi x s t → Wrap tbi t.func x f y k → Steps tbi x s (t.wrap x f y k)
  | pass {t : State} (p : PassState) :
      Steps tbi x s t → Steps tbi x s { t with pass := p }

theorem Steps.trans {tbi : Bool} {x : Nat} {s t u : State} (h : Steps tbi x s t)
    (h' : Steps tbi x t u) : Steps tbi x s u := by
  induction h' with
  | refl => exact h
  | wrap _ hw ih => exact ih.wrap hw
  | pass p _ ih => exact ih.pass p

/-! ## One rewrite -/

/-- The operand that is wrapped exists. -/
theorem Wrap.operand {tbi : Bool} {F : Func} {x y k : Nat} {f : String}
    (h : Wrap tbi F x f y k) : ∃ v, F.operand y k = some v := by
  cases h with
  | nested _ hv _ _ => exact ⟨_, hv⟩
  | gep _ _ hv _ _ => exact ⟨_, hv⟩
  | xpac hv _ _ => exact ⟨_, hv⟩
  | argument _ ha _ =>
      obtain ⟨v, hv, -⟩ := Func.slotOf_eq_some.1 ha
      exact ⟨v, hv⟩

theorem Wrap.mem_runtimeFunctions {tbi : Bool} {F : Func} {x y k : Nat} {f : String}
    (h : Wrap tbi F x f y k) : f ∈ runtimeFunctions := by
  cases h with
  | nested _ _ _ hf =>
      simp only [List.mem_cons, List.not_mem_nil, or_false] at hf
      rcases hf with rfl | rfl <;> decide
  | gep _ _ _ _ hf =>
      simp only [List.mem_cons, List.not_mem_nil, or_false] at hf
      rcases hf with rfl | rfl <;> decide
  | xpac _ _ hf =>
      rw [hf]
      decide
  | argument _ _ hf =>
      rw [hf]
      decide

/-- The rewritten instructions: loads, GEPs, and the visited call. -/
theorem Wrap.op_cases {tbi : Bool} {F : Func} {x y k : Nat} {f : String}
    (h : Wrap tbi F x f y k) :
    (F.instr y).op = .load ∨ (F.instr y).op = .gep ∨
      (y = x ∧ ∃ callee returned, (F.instr x).op = .call callee returned) := by
  cases h with
  | nested hop _ _ _ => exact Or.inl hop
  | gep _ hop _ _ _ => exact Or.inr (Or.inl hop)
  | xpac _ hs _ =>
      obtain ⟨-, callee, returned, hop, -⟩ := hs
      exact Or.inr (Or.inr ⟨rfl, some callee, returned, hop⟩)
  | argument hl _ _ => exact Or.inl hl.load

section Decorated

variable {tbi : Bool} {F₀ F : Func} {pre : Nat → List Nat}

/-- Rewrites happen at original instructions. -/
theorem Decorated.target_lt (h : Decorated tbi F₀ pre F) {x y k : Nat} {f : String}
    (hx : x < F₀.next) (hw : Wrap tbi F x f y k) : y < F₀.next := by
  rcases hw.op_cases with hop | hop | ⟨rfl, -⟩
  · exact h.lt_of_load hop
  · exact h.lt_of_gep hop
  · exact hx

/-- What a rewrite by a handler does. -/
theorem Decorated.wrapped (h : Decorated tbi F₀ pre F) {x y k : Nat} {f : String}
    (hx : x < F₀.next) (hw : Wrap tbi F x f y k) :
    ∃ v, F.operand y k = some v ∧ Wrapped f y k v F (F.wrapOperand f y k) := by
  obtain ⟨v, hv⟩ := hw.operand
  exact ⟨v, hv, F.wrapped_wrapOperand f (Nat.lt_of_lt_of_le (h.target_lt hx hw) h.next_le) hv⟩

/-- A GEP over an alloca still is one. -/
theorem Decorated.slotOf_gep (h : Decorated tbi F₀ pre F) {g a : Nat} (hop : (F₀.instr g).op = .gep)
    (hslot : F₀.slotOf g = some a) : F.slotOf g = some a := by
  obtain ⟨v, hv, hva, halloca⟩ := Func.slotOf_eq_some.1 hslot
  refine Func.slotOf_eq_some.2 ⟨v, (h.stackBase g a hop hslot).trans hv, hva, ?_⟩
  rw [h.op a (h.base.operand_lt g 0 v a hv hva)]
  exact halloca

/-- `__xpac` only at the sites of the original function. -/
theorem Decorated.xpacSite (h : Decorated tbi F₀ pre F) {x k : Nat} {v v₀ : Value}
    (hx : x < F₀.next) (hv : F.operand x k = some v) (h₀ : F₀.operand x k = some v₀)
    (hs : XpacSite tbi F x v) : XpacSite tbi F₀ x v₀ := by
  obtain ⟨hstrips, callee, returned, hop, hdecl, hname⟩ := hs
  rw [h.op x hx] at hop
  obtain ⟨w₀, b, hw₀, -, -, hb, hcall⟩ := h.operand x hx k v hv
  rw [h₀] at hw₀
  obtain rfl := Option.some.inj hw₀
  -- the argument has been stripped before, or is as it was
  rcases hcall (by rw [hop]; rfl) with rfl | rfl
  · refine ⟨?_, callee, returned, hop, hdecl, hname⟩
    obtain ⟨hptr, hconst, hgep⟩ := Func.stripsArgument_iff.1 hstrips
    refine Func.stripsArgument_iff.2 ⟨hptr, hconst, ?_⟩
    rw [Option.eq_none_iff_forall_ne_some]
    intro a ha
    obtain ⟨g, hg, ha⟩ := Option.bind_eq_some_iff.1 ha
    obtain ⟨hvg, hgop⟩ := Func.dynCast_eq_some.1 hg
    have hlt := h.base.operand_lt x k v g h₀ hvg
    have hg' : F.dynCast (· == .gep) v = some g := by
      refine Func.dynCast_eq_some.2 ⟨hvg, ?_⟩
      rw [h.op g hlt]
      exact hgop
    rw [hg', Option.bind_some, h.slotOf_gep (beq_iff_eq.1 hgop) ha] at hgep
    cases hgep
  · exact hb rfl

/-- Instructions that no handler acts on. -/
def Inert (op : Op) : Prop :=
  op = .bitcast ∨ ∃ f ∈ ["__loadCheck", "__GEPCheck", "__nestedGEPCheck"], op = runtimeCall f

/-- The handler of `x` inserts inert instructions, but in front of `x` itself. -/
theorem Wrap.inert {x y k : Nat} {f : String} (h : Wrap tbi F x f y k) (hy : y ≠ x) :
    f ∈ ["__loadCheck", "__GEPCheck", "__nestedGEPCheck"] := by
  cases h with
  | nested _ _ _ _ => exact absurd rfl hy
  | gep _ _ _ _ hf => exact List.mem_cons_of_mem _ hf
  | xpac _ _ _ => exact absurd rfl hy
  | argument _ _ hf =>
      rw [hf]
      exact List.mem_cons_self

end Decorated

/-- What the handler of `x` does to the inserted instructions: it keeps them, and those it adds in
front of other instructions are inert. -/
structure Grown (x : Nat) (pre : Nat → List Nat) (F : Func) (pre' : Nat → List Nat) (G : Func) :
    Prop where
  old : ∀ y, ∀ z ∈ pre y, G.instr z = F.instr z
  subset : ∀ y, pre y ⊆ pre' y
  new : ∀ y, y ≠ x → ∀ z ∈ pre' y, z ∈ pre y ∨ Inert (G.instr z).op

theorem Grown.refl (x : Nat) (pre : Nat → List Nat) (F : Func) : Grown x pre F pre F where
  old := fun _ _ _ => rfl
  subset := fun _ => List.Subset.refl _
  new := fun _ _ _ hz => Or.inl hz

/-- A GEP whose base is a load is over no alloca, in the original function neither. -/
theorem Decorated.slotOf_of_load {tbi : Bool} {F₀ F : Func} {pre : Nat → List Nat}
    (hd : Decorated tbi F₀ pre F) {g l : Nat} {v : Value} (hop : (F₀.instr g).op = .gep)
    (hv : F.operand g 0 = some v) (hvl : v.ref = .inst l) (hload : (F.instr l).op = .load) :
    F₀.slotOf g = none := by
  rw [Option.eq_none_iff_forall_ne_some]
  intro a ha
  obtain ⟨w, hw, hwa, halloca⟩ := Func.slotOf_eq_some.1 (hd.slotOf_gep hop ha)
  obtain rfl := Option.some.inj (hv.symm.trans hw)
  obtain rfl := Ref.inst.inj (hvl.symm.trans hwa)
  rw [hload] at halloca
  exact absurd halloca (by decide)

/-- GEPs over allocas are not rewritten. -/
theorem Decorated.gep_slotOf {tbi : Bool} {F₀ F : Func} {pre : Nat → List Nat}
    (hd : Decorated tbi F₀ pre F) {x y k : Nat} {f : String} (hx : x < F₀.next)
    (hw : Wrap tbi F x f y k) (hop : (F₀.instr y).op = .gep) : F₀.slotOf y = none := by
  have hop' := (hd.op y (hd.target_lt hx hw)).trans hop
  cases hw with
  | nested hload _ _ _ => exact absurd (hload.symm.trans hop') (by simp)
  | gep hload _ hv hvx _ => exact hd.slotOf_of_load hop hv hvx hload
  | xpac _ hs _ =>
      obtain ⟨-, callee, returned, hcall, -⟩ := hs
      exact absurd (hcall.symm.trans hop') (by simp)
  | argument htake _ _ => exact absurd (htake.load.symm.trans hop') (by simp)

/-- **A rewrite by a handler keeps a function decorated.** -/
theorem Decorated.wrapOperand {tbi : Bool} {F₀ F : Func} {pre : Nat → List Nat}
    (hd : Decorated tbi F₀ pre F) {x y k : Nat} {f : String} (hx : x < F₀.next)
    (hw : Wrap tbi F x f y k) :
    ∃ pre', Decorated tbi F₀ pre' (F.wrapOperand f y k) ∧
      Extends f y pre F pre' (F.wrapOperand f y k) := by
  apply hd.wrap (hd.target_lt hx hw) k hw.mem_runtimeFunctions
  -- `__xpac` is put in at the sites of the original function only
  · intro v₀ hf₀ h₀
    cases hw with
    | nested _ _ _ hf =>
        rw [hf₀] at hf
        exact absurd hf (by decide)
    | gep _ _ _ _ hf =>
        rw [hf₀] at hf
        exact absurd hf (by decide)
    | xpac hv' hs _ => exact hd.xpacSite hx hv' h₀ hs
    | argument _ _ hf =>
        rw [hf₀] at hf
        exact absurd hf (by decide)
  -- and nothing else at a call
  · intro hop
    rw [← hd.op y (hd.target_lt hx hw)] at hop
    cases hw with
    | nested hload _ _ _ =>
        rw [hload] at hop
        exact absurd hop (by decide)
    | gep _ hgep _ _ _ =>
        rw [hgep] at hop
        exact absurd hop (by decide)
    | xpac _ _ hf => exact hf
    | argument htake _ _ =>
        rw [htake.load] at hop
        exact absurd hop (by decide)
  · exact hd.gep_slotOf hx hw

/-- **Visits keep functions decorated.** -/
theorem Steps.decorated {tbi : Bool} {F₀ : Func} {pre : Nat → List Nat} {x : Nat} {s t : State}
    (h : Steps tbi x s t) (hd : Decorated tbi F₀ pre s.func) (hx : x < F₀.next) :
    ∃ pre', Decorated tbi F₀ pre' t.func ∧ Grown x pre s.func pre' t.func := by
  induction h with
  | refl => exact ⟨pre, hd, Grown.refl x pre s.func⟩
  | @wrap t f y k _ hw ih =>
      obtain ⟨pre₁, hd₁, hg₁⟩ := ih
      obtain ⟨pre₂, hd₂, hext⟩ := hd₁.wrapOperand hx hw
      refine ⟨pre₂, hd₂, fun u z hz => ?_, fun u => ?_, fun u hu z hz => ?_⟩
      · exact (hext.old u z (hg₁.subset u hz)).trans (hg₁.old u z hz)
      · exact List.Subset.trans (hg₁.subset u) (hext.subset u)
      -- what was in front of `u` before the last rewrite is as it was; new is the check and its cast
      · have hold : ∀ z ∈ pre₁ u, z ∈ pre u ∨
            Inert ((t.func.wrapOperand f y k).instr z).op := by
          intro z hz
          rcases hg₁.new u hu z hz with hz' | hop
          · exact Or.inl hz'
          · rw [hext.old u z hz]
            exact Or.inr hop
        by_cases huy : u = y
        · subst huy
          rcases hext.new z hz with hz' | hop | hop
          · exact hold z hz'
          · exact Or.inr (Or.inl hop)
          · exact Or.inr (Or.inr ⟨f, hw.inert hu, hop⟩)
        · rw [hext.other u huy] at hz
          exact hold z hz
  | pass p _ ih => exact ih

/-! ## The handlers -/

section Handlers

variable {tbi : Bool} {F₀ : Func} {pre : Nat → List Nat}

theorem instrumentStore_steps (s : State) (x : Nat) : Steps tbi x s (instrumentStore s x) := by
  rw [instrumentStore]
  split
  · split
    · exact Steps.pass _ .refl
    · exact .refl
  · exact .refl

/-- The operand that a rewrite puts in is no alloca. -/
theorem Wrapped.slotOf_self {f : String} {x : Nat} {v : Value} {F G : Func}
    (h : Wrapped f x 0 v F G) : G.slotOf x = none := by
  obtain ⟨z, w, hw, hz, -, hop⟩ := h.new
  have hcast : G.dynCast Op.isAlloca w = none := by
    rw [Func.dynCast, hz]
    rcases hop with hop | hop
    · simp [hop, Op.isAlloca]
    · simp [hop, Op.isAlloca]
  rw [Func.slotOf, hw]
  exact hcast

/-- The loop of `loadThroughLoad` keeps what wraps of the address keep; it runs when the address is
a load of a slot. -/
theorem loadThroughLoad_cases (s : State) (x : Nat) :
    loadThroughLoad s x = s ∨
      ((∃ v y a, s.func.operand x 0 = some v ∧ v.ref = .inst y ∧ (s.func.instr y).op = .load ∧
        s.func.slotOf y = some a) ∧
        ∀ P : State → Prop, P s →
          (∀ t f, f ∈ ["__loadCheck", "__noCheck"] → P t → P (t.wrap x f x 0)) →
            P (loadThroughLoad s x)) := by
  rw [loadThroughLoad]
  split
  · exact Or.inl rfl
  · rename_i y hy
    split
    · exact Or.inl rfl
    · rename_i a ha
      obtain ⟨v, hv, hcast⟩ := Option.bind_eq_some_iff.1 hy
      obtain ⟨hvy, hload⟩ := Func.dynCast_eq_some.1 hcast
      refine Or.inr ⟨⟨v, y, a, hv, hvy, beq_iff_eq.1 hload, ha⟩, fun P hs hwrap => ?_⟩
      apply List.foldlRecOn (motive := P) _ _ hs
      intro t ht p _
      split
      · apply hwrap t _ _ ht
        split
        · exact List.mem_cons_self
        · exact List.mem_cons_of_mem _ List.mem_cons_self
      · exact ht

theorem loadThroughLoad_steps {s : State} {x : Nat} (hx : x < s.func.next)
    (hop : (s.func.instr x).op = .load) : Steps tbi x s (loadThroughLoad s x) := by
  rcases loadThroughLoad_cases s x with heq | ⟨⟨v, y, a, hv, hvy, hload, -⟩, hrec⟩
  · rw [heq]
    exact .refl
  · have hslot : s.func.slotOf x = none := by
      rw [Func.slotOf, hv, Option.bind_some, Func.dynCast, hvy]
      simp [hload, Op.isAlloca]
    -- the address of `x` is a load, and an inserted instruction from the first wrap on
    refine (hrec (fun t => Steps tbi x s t ∧ x < t.func.next ∧ (t.func.instr x).op = .load ∧
      (∃ v, t.func.operand x 0 = some v) ∧ t.func.slotOf x = none)
      ⟨.refl, hx, hop, ⟨v, hv⟩, hslot⟩ ?_).1
    rintro t f hf ⟨ht, hxt, hopt, ⟨w, hw⟩, hst⟩
    have hwrapped := t.func.wrapped_wrapOperand f hxt hw
    obtain ⟨_, w', hw', -⟩ := hwrapped.new
    exact ⟨ht.wrap (.nested hopt hw hst hf), Nat.lt_trans hxt hwrapped.next_lt,
      hwrapped.op.trans hopt, ⟨w', hw'⟩, hwrapped.slotOf_self⟩

/-- The GEP at the head of the use list of a pointer uses it as its base. -/
theorem Decorated.userBack {F : Func} (h : Decorated tbi F₀ pre F) (hwf : F₀.WellLinked)
    {x g j : Nat} (huse : (F.users x).head? = some (g, j)) (hop : (F.instr g).op = .gep)
    (hty : (F.instr x).ty.isPointerTy = true) : ∃ v, F.operand g 0 = some v ∧ v.ref = .inst x := by
  obtain ⟨v, hv, hvx⟩ := h.linked.users_operand g j x (List.mem_of_mem_head? huse)
  cases j with
  | zero => exact ⟨v, hv, hvx⟩
  | succ j =>
      -- an index of a GEP is an integer, and `x` a pointer
      have hg := h.lt_of_gep hop
      obtain ⟨v₀, -, hv₀, hvty, -⟩ := h.operand g hg _ v hv
      have hnot := hwf.gep_index g j v₀ ((h.op g hg).symm.trans hop) hv₀
      rw [← hvty, h.linked.operand_ty g _ v x hv hvx, hty] at hnot
      exact absurd hnot (by decide)

theorem checkGEP_steps {s : State} {x g : Nat} {v : Value} (hop : (s.func.instr x).op = .load)
    (hg : (s.func.instr g).op = .gep) (hv : s.func.operand g 0 = some v) (hvx : v.ref = .inst x) :
    Steps tbi x s (checkGEP s x g) := by
  rw [checkGEP]
  split
  · exact .refl
  · split
    · exact Steps.pass _ (.wrap .refl (.gep hop hg hv hvx (by decide)))
    · exact .refl

/-- A load of a slot is no load through a GEP. -/
theorem checkNestedGEP_of_slotOf {t : State} {x a : Nat} (ha : t.func.slotOf x = some a) (g : Nat) :
    checkNestedGEP t x g = t := by
  rw [checkNestedGEP, Func.dynCast_of_slotOf ha rfl]

/-- The check of a GEP leaves the address of the load as it is. -/
theorem checkGEP_slotOf {s : State} {x g a : Nat} {v : Value} (hlinked : s.func.Linked)
    (hne : x ≠ g) (hv : s.func.operand g 0 = some v) (hglt : g < s.func.next)
    (hxlt : x < s.func.next) (ha : s.func.slotOf x = some a) :
    (checkGEP s x g).func.slotOf x = some a := by
  rw [checkGEP, ha]
  dsimp only
  split
  · have hw := s.func.wrapped_wrapOperand "__GEPCheck" hglt hv
    exact (hw.slotOf_eq hlinked hxlt hne).trans ha
  · exact ha

/-- At most one of the two checks acts. -/
theorem checkNestedGEP_of_checked {s : State} {x g : Nat} {v : Value} (hlinked : s.func.Linked)
    (hop : (s.func.instr x).op = .load) (hg : (s.func.instr g).op = .gep)
    (hv : s.func.operand g 0 = some v) (hglt : g < s.func.next) (hxlt : x < s.func.next) :
    checkGEP s x g = s ∨ checkNestedGEP (checkGEP s x g) x g = checkGEP s x g := by
  have hne : x ≠ g := by
    rintro rfl
    rw [hop] at hg
    exact absurd hg (by simp)
  cases ha : s.func.slotOf x with
  | none =>
      apply Or.inl
      rw [checkGEP, ha]
  | some a =>
      apply Or.inr
      exact checkNestedGEP_of_slotOf (checkGEP_slotOf hlinked hne hv hglt hxlt ha) g

theorem checkNestedGEP_steps {s : State} {x g : Nat} {v : Value}
    (hop : (s.func.instr x).op = .load) (hg : (s.func.instr g).op = .gep)
    (hv : s.func.operand g 0 = some v) (hvx : v.ref = .inst x) :
    Steps tbi x s (checkNestedGEP s x g) := by
  rw [checkNestedGEP]
  split
  · exact .refl
  · split
    · exact .refl
    · split
      · split
        · exact Steps.pass _ (.wrap .refl (.gep hop hg hv hvx (by decide)))
        · split
          · exact .refl
          · exact Steps.pass _ .refl
      · exact .refl

theorem loadSelected_ty {F : Func} {x : Nat} {p : Value} (h : loadSelected F x p = true) :
    (F.instr x).ty.isPointerTy = true := by
  simp only [loadSelected, Bool.and_eq_true] at h
  exact h.1.1.1

/-- **What `instrumentLoad` does** at a selected load: the loop of `loadThroughLoad`, and the two
checks of the GEP that uses the load, if it is the latest use. -/
theorem instrumentLoad_cases {s : State} {x : Nat} (hd : Decorated tbi F₀ pre s.func)
    (hwf : F₀.WellLinked) (hop : (s.func.instr x).op = .load) :
    instrumentLoad s x = s ∨ (∃ p, s.func.operand x 0 = some p ∧ loadSelected s.func x p = true) ∧
      (instrumentLoad s x = loadThroughLoad s x ∨
        ∃ g j v, ((loadThroughLoad s x).func.users x).head? = some (g, j) ∧
          ((loadThroughLoad s x).func.instr g).op = .gep ∧
          (loadThroughLoad s x).func.operand g 0 = some v ∧ v.ref = .inst x ∧
          instrumentLoad s x = checkNestedGEP (checkGEP (loadThroughLoad s x) x g) x g) := by
  have hx := hd.lt_of_load hop
  have hfirst : Steps tbi x s (loadThroughLoad s x) :=
    loadThroughLoad_steps (Nat.lt_of_lt_of_le hx hd.next_le) hop
  obtain ⟨pre', hd', -⟩ := hfirst.decorated hd hx
  rw [instrumentLoad]
  split
  · exact Or.inl rfl
  · rename_i p hp
    split
    · rename_i hsel
      have hty : ((loadThroughLoad s x).func.instr x).ty.isPointerTy = true := by
        rw [hd'.ty x hx, ← hd.ty x hx]
        exact loadSelected_ty hsel
      refine Or.inr ⟨⟨p, hp, hsel⟩, ?_⟩
      rw [loadForGEP]
      split
      · rename_i g j p' huse hp'
        split
        · rename_i hcond
          obtain ⟨v, hv, hvx⟩ := hd'.userBack hwf huse hcond.1 hty
          exact Or.inr ⟨g, j, v, huse, hcond.1, hv, hvx, rfl⟩
        · exact Or.inl rfl
      · exact Or.inl rfl
    · exact Or.inl rfl

theorem instrumentLoad_steps {s : State} {x : Nat} (hd : Decorated tbi F₀ pre s.func)
    (hwf : F₀.WellLinked) (hop : (s.func.instr x).op = .load) :
    Steps tbi x s (instrumentLoad s x) := by
  have hx := hd.lt_of_load hop
  have hfirst : Steps tbi x s (loadThroughLoad s x) :=
    loadThroughLoad_steps (Nat.lt_of_lt_of_le hx hd.next_le) hop
  rcases instrumentLoad_cases hd hwf hop with heq | ⟨-, heq | ⟨g, j, v, -, hg, hv, hvx, heq⟩⟩
  · rw [heq]
    exact .refl
  · rw [heq]
    exact hfirst
  · obtain ⟨pre', hd', -⟩ := hfirst.decorated hd hx
    have hop' : ((loadThroughLoad s x).func.instr x).op = .load := by
      rw [hd'.op x hx, ← hd.op x hx]
      exact hop
    have hglt := Nat.lt_of_lt_of_le (hd'.lt_of_gep hg) hd'.next_le
    have hxlt := Nat.lt_of_lt_of_le hx hd'.next_le
    rw [heq]
    apply hfirst.trans
    rcases checkNestedGEP_of_checked hd'.linked hop' hg hv hglt hxlt with hnone | hnone
    · rw [hnone]
      exact checkNestedGEP_steps hop' hg hv hvx
    · rw [hnone]
      exact checkGEP_steps hop' hg hv hvx

/-- A loop whose rounds are steps is a sequence of steps. -/
theorem foldl_steps {α : Type} {x : Nat} {f : State → α → State} {s : State}
    (hf : ∀ t i, Steps tbi x s t → Steps tbi x t (f t i)) (l : List α) :
    Steps tbi x s (l.foldl f s) := by
  have key : ∀ (l : List α) (t : State), Steps tbi x s t → Steps tbi x s (l.foldl f t) := by
    intro l
    induction l with
    | nil => exact fun _ ht => ht
    | cons i l ih => exact fun t ht => ih _ (ht.trans (hf t i ht))
  exact key l s .refl

/-- Steps do not change the operation of an original instruction. -/
theorem Steps.op_eq {x : Nat} {s t : State} (h : Steps tbi x s t)
    (hd : Decorated tbi F₀ pre s.func) (hx : x < F₀.next) {y : Nat} (hy : y < F₀.next) :
    (t.func.instr y).op = (s.func.instr y).op := by
  obtain ⟨pre', hd', -⟩ := h.decorated hd hx
  rw [hd'.op y hy, hd.op y hy]

/-- `xpacArgument` at most wraps the argument, with Top-Byte Ignore at the calls of `xpacedList`. -/
theorem xpacArgument_cases (tbi : Bool) (name : String) (s : State) (x i : Nat) :
    xpacArgument tbi name x s i = s ∨
      ∃ v, s.func.operand x i = some v ∧ s.func.stripsArgument v = true ∧
        (tbi = true → name ∈ xpacedList) ∧
          xpacArgument tbi name x s i = s.wrap x "__xpac" x i := by
  rw [xpacArgument]
  split
  · exact Or.inl rfl
  · rename_i v hv
    split
    · rename_i hcond
      rw [Bool.and_eq_true, Bool.or_eq_true, decide_eq_true_eq] at hcond
      obtain ⟨hstrips, hlist⟩ := hcond
      refine Or.inr ⟨v, hv, hstrips, fun htbi => ?_, rfl⟩
      rcases hlist with hnot | hmem
      · rw [htbi] at hnot
        exact absurd hnot (by decide)
      · exact hmem
    · exact Or.inl rfl

/-- With Top-Byte Ignore, only calls of `read` are stripped, and those hand over the pointer. -/
theorem xpacArgument_of_not_hands {s : State} {x : Nat} {callee : Callee} {returned : Option Nat}
    (hop : (s.func.instr x).op = .call (some callee) returned) (hno : ∀ v, ¬ s.func.Hands x v)
    (i : Nat) : xpacArgument true callee.name x s i = s := by
  rcases xpacArgument_cases true callee.name s x i with heq | ⟨v, hv, hstrips, hlist, -⟩
  · exact heq
  · have hread : callee.name = "read" := List.mem_singleton.1 (hlist rfl)
    refine absurd ⟨callee, returned, i, hop, ?_, hv, (Func.stripsArgument_iff.1 hstrips).1⟩ (hno v)
    rw [hread]
    decide

/-- What `externalArguments` keeps: what the flag keeps, and every `__xpac`. -/
theorem externalArguments_keeps {P : State → Prop} {s : State} {x : Nat} {callee : Callee}
    (hs : P s) (hflag : P { s with pass.flagFreeCalled := true })
    (hxpac : callee.isDeclaration = true → callee.name ∉ localAvoidList →
      ∀ t i, P t → P (xpacArgument tbi callee.name x t i)) :
    P (externalArguments tbi s x callee) := by
  have hfirst : P (if callee.name = "__ptauth_free" then
      { s with pass.flagFreeCalled := true } else s) := by
    split
    · exact hflag
    · exact hs
  rw [externalArguments]
  split
  · rename_i hdecl
    exact List.foldlRecOn (motive := P) _ _ hfirst fun t ht i _ => hxpac hdecl.1 hdecl.2 t i ht
  · exact hfirst

theorem xpacArgument_steps {s : State} {x i : Nat} {callee : Callee} {returned : Option Nat}
    (hop : (s.func.instr x).op = .call (some callee) returned)
    (hdecl : callee.isDeclaration = true) (havoid : callee.name ∉ localAvoidList) :
    Steps tbi x s (xpacArgument tbi callee.name x s i) := by
  rcases xpacArgument_cases tbi callee.name s x i with heq | ⟨v, hv, hstrips, hlist, heq⟩
  · rw [heq]
    exact .refl
  · rw [heq]
    exact .wrap .refl (.xpac hv ⟨hstrips, callee, returned, hop, hdecl, havoid, hlist⟩ rfl)

theorem passLoad_steps {s : State} {x : Nat} {v : Value} (hands : s.func.Hands x v) :
    Steps tbi x s (passLoad x s v) := by
  rw [passLoad]
  split
  · exact .refl
  · rename_i l hl
    split
    · exact .refl
    · rename_i a ha
      split
      · exact .refl
      · obtain ⟨href, hload⟩ := Func.dynCast_eq_some.1 hl
        have htake : s.func.MayTake x l :=
          Or.inl ⟨beq_iff_eq.1 hload, v, hands, Func.strips_of_stripPointerCasts _ v href⟩
        exact Steps.pass _ (.wrap .refl (.argument htake ha rfl))

theorem passNestedLoad_steps {s : State} {x : Nat} {v : Value} (hands : s.func.Hands x v) :
    Steps tbi x s (passNestedLoad x s v) := by
  rw [passNestedLoad]
  split
  · exact .refl
  · rename_i w hw
    obtain ⟨y, hy, hw⟩ := Option.bind_eq_some_iff.1 hw
    obtain ⟨u, hu, hy⟩ := Option.bind_eq_some_iff.1 hy
    obtain ⟨z, hz, hu⟩ := Option.bind_eq_some_iff.1 hu
    obtain ⟨hvz, hcast⟩ := Func.dynCast_eq_some.1 hz
    obtain ⟨huy, hload⟩ := Func.dynCast_eq_some.1 hy
    split
    · exact .refl
    · rename_i l hl
      obtain ⟨hwl, hload'⟩ := Func.dynCast_eq_some.1 hl
      split
      · exact .refl
      · rename_i a ha
        have htake : s.func.MayTake x l :=
          Or.inr ⟨beq_iff_eq.1 hload', v, y, w, hands, .cast hvz (beq_iff_eq.1 hcast) hu (.self huy),
            beq_iff_eq.1 hload, hw, hwl⟩
        exact Steps.pass _ (.wrap .refl (.argument htake ha rfl))

/-- A check on the address of a load of a slot rewrites that load only. -/
theorem Decorated.wrapOperand_instr {F : Func} (hd : Decorated tbi F₀ pre F) {l a y : Nat}
    {w : Value} (hl : F.dynCast (· == .load) w = some l) (ha : F.slotOf l = some a)
    (hy : y < F.next) (hop : (F.instr y).op ≠ .load) :
    (F.wrapOperand "__loadCheck" l 0).instr y = F.instr y := by
  obtain ⟨-, hload⟩ := Func.dynCast_eq_some.1 hl
  rw [beq_iff_eq] at hload
  obtain ⟨u, hu, -⟩ := Func.slotOf_eq_some.1 ha
  have hlt := Nat.lt_of_lt_of_le (hd.lt_of_load hload) hd.next_le
  apply (F.wrapped_wrapOperand "__loadCheck" hlt hu).instr y hy
  rintro rfl
  exact hop hload

/-- Passing a load rewrites that load only. -/
theorem passLoad_instr {s : State} {x : Nat} (hd : Decorated tbi F₀ pre s.func) {y : Nat}
    (hy : y < s.func.next) (hop : (s.func.instr y).op ≠ .load) (v : Value) :
    (passLoad x s v).func.instr y = s.func.instr y := by
  rw [passLoad]
  split
  · rfl
  · rename_i l hl
    split
    · rfl
    · rename_i a ha
      split
      · rfl
      · exact hd.wrapOperand_instr hl ha hy hop

/-- The argument is handed over in every function that has the call. -/
theorem hands_of_operand {F : Func} {x i : Nat} {v : Value} {callee : Callee}
    {returned : Option Nat} (hop : (F.instr x).op = .call (some callee) returned)
    (havoid : callee.name ∉ functionsAvoidList) (hv : F.operand x i = some v)
    (hptr : pointerArgument v = true) {G : Func} (hG : G.instr x = F.instr x) : G.Hands x v :=
  ⟨callee, returned, i, by rw [hG]; exact hop, havoid, by rw [Func.operand, hG]; exact hv, hptr⟩

/-- What `passArgument` does with a pointer that `x` hands over: `passLoad`, behind which the pointer
is still handed over, and `passNestedLoad`. -/
theorem passArgument_cases {s : State} {x i : Nat} {callee : Callee} {returned : Option Nat}
    (hd : Decorated tbi F₀ pre s.func) (hx : x < F₀.next)
    (hop : (s.func.instr x).op = .call (some callee) returned)
    (havoid : callee.name ∉ functionsAvoidList) :
    passArgument x s i = s ∨ ∃ v t, s.func.Hands x v ∧ t.func.Hands x v ∧ Steps tbi x s t ∧
      t = passLoad x { s with pass := { s.pass with internalCall := true, geps := [] } } v ∧
        passArgument x s i = passNestedLoad x t v := by
  rw [passArgument]
  split
  · exact Or.inl rfl
  · rename_i v hv
    split
    · rename_i hptr
      have hinstr := passLoad_instr (x := x)
        (s := { s with pass := { s.pass with internalCall := true, geps := [] } }) hd
        (Nat.lt_of_lt_of_le hx hd.next_le) (by simp [hop]) v
      have hands := hands_of_operand hop havoid hv hptr (rfl : s.func.instr x = s.func.instr x)
      exact Or.inr ⟨v, _, hands, hands_of_operand hop havoid hv hptr hinstr,
        (Steps.pass _ .refl).trans (passLoad_steps hands), rfl, rfl⟩
    · exact Or.inl rfl

theorem passArgument_steps {s : State} {x i : Nat} {callee : Callee} {returned : Option Nat}
    (hd : Decorated tbi F₀ pre s.func) (hx : x < F₀.next)
    (hop : (s.func.instr x).op = .call (some callee) returned)
    (havoid : callee.name ∉ functionsAvoidList) :
    Steps tbi x s (passArgument x s i) := by
  rcases passArgument_cases hd hx hop havoid with heq | ⟨v, t, -, hands, hsteps, -, heq⟩
  · rw [heq]
    exact .refl
  · rw [heq]
    exact hsteps.trans (passNestedLoad_steps hands)

theorem externalArguments_steps {s : State} {x : Nat} {callee : Callee} {returned : Option Nat}
    (hd : Decorated tbi F₀ pre s.func) (hx : x < F₀.next)
    (hop : (s.func.instr x).op = .call (some callee) returned) :
    Steps tbi x s (externalArguments tbi s x callee) := by
  apply externalArguments_keeps .refl (Steps.pass _ .refl)
  intro hdecl havoid t i ht
  exact ht.trans (xpacArgument_steps ((ht.op_eq hd hx hx).trans hop) hdecl havoid)

theorem instrumentCalls_steps {s : State} {x : Nat} {callee : Callee} {returned : Option Nat}
    (hd : Decorated tbi F₀ pre s.func) (hx : x < F₀.next)
    (hop : (s.func.instr x).op = .call (some callee) returned) :
    Steps tbi x s (instrumentCalls tbi s x callee) := by
  have hfirst := externalArguments_steps hd hx hop
  rw [instrumentCalls]
  split
  · rename_i havoid
    refine hfirst.trans (foldl_steps (fun t i ht => ?_) _)
    have hst := hfirst.trans ht
    obtain ⟨pre', hd', -⟩ := hst.decorated hd hx
    exact passArgument_steps hd' hx ((hst.op_eq hd hx hx).trans hop) havoid
  · exact hfirst

/-- **Every visit is a sequence of steps.** -/
theorem visit_steps {s : State} {x : Nat} (hd : Decorated tbi F₀ pre s.func)
    (hwf : F₀.WellLinked) (hx : x < F₀.next) : Steps tbi x s (visit tbi s x) := by
  rw [visit]
  split
  · exact Steps.pass _ .refl
  · exact instrumentStore_steps s x
  · rename_i hop
    exact instrumentLoad_steps hd hwf hop
  · rename_i callee returned hop
    exact instrumentCalls_steps hd hx hop
  · exact .refl

/-- **The pass does not instrument its own checks.** -/
theorem visit_inert {s : State} {z : Nat} (h : Inert (s.func.instr z).op) :
    visit tbi s z = s := by
  rcases h with hop | ⟨f, hf, hop⟩
  · rw [visit, hop]
  · rw [visit, hop]
    show instrumentCalls tbi s z ⟨f, true⟩ = s
    simp only [List.mem_cons, List.not_mem_nil, or_false] at hf
    rcases hf with rfl | rfl | rfl
    · rfl
    · rfl
    · rfl

end Handlers

end PTAuth.Pass
