import PTAuth.Pass.Context

/-!
# Where and on what the pass inserts

`Decorated` says what the instructions inserted in front of `x` are. `Sited` says more about each:
which operand of `x` it is for, by which function that operand is wrapped, and its types. The checks
and `__noCheck` wrap the address of a load and the base of a GEP that is over no alloca, `__xpac`
wraps arguments of calls (`Func.Site`); the type of every value on the way is that of the operand or
`i8*` (`Linkage`). Operands that are no sites stay.

Both hold together of the result of a walk (`visited_instrumented`).
-/

set_option autoImplicit false

namespace PTAuth.Pass

/-! ## Use lists -/

/-- Use lists list every use. -/
def Func.Complete (F : Func) : Prop :=
  ∀ x k v y, F.operand x k = some v → v.ref = .inst y → (x, k) ∈ F.users y

section Complete

variable {F : Func}

theorem Func.Complete.create (h : F.Complete) (hF : F.Linked) (x : Nat) (op : Op) (v : Value)
    (ty : Ty) : (F.create x op v ty).Complete := by
  intro y k w u hw hu
  show (y, k) ∈ addUse (Function.update F.users F.next []) v (F.next, 0) u
  rw [mem_addUse]
  by_cases hy : y = F.next
  · subst hy
    rw [Func.operand, F.create_instr_self] at hw
    cases k with
    | zero =>
        obtain rfl := Option.some.inj hw
        exact Or.inl ⟨hu, rfl⟩
    | succ k => simp at hw
  · rw [F.create_operand_of_ne x op v ty hy] at hw
    have hlt := hF.operand_lt y k w u hw hu
    rw [Function.update_of_ne (Nat.ne_of_lt hlt)]
    exact Or.inr (h y k w u hw hu)

theorem Func.Complete.setOperand (h : F.Complete) (hF : F.Linked) {x k : Nat} {old : Value}
    (hold : F.operand x k = some old) (v : Value) : (F.setOperand x k v).Complete := by
  intro y j w u hw hu
  rw [F.setOperand_operand] at hw
  simp only [Func.setOperand, hold]
  rw [mem_addUse, mem_dropUse (hF.users_nodup u)]
  split at hw
  · rename_i heq
    obtain ⟨rfl, rfl⟩ := heq
    rw [hold] at hw
    obtain rfl := Option.some.inj hw
    exact Or.inl ⟨hu, rfl⟩
  · rename_i hne
    refine Or.inr ⟨h y j w u hw hu, ?_⟩
    rintro ⟨-, heq⟩
    exact hne (Prod.mk.inj heq)

end Complete

/-! ## Sites -/

/-- Operand `k` of `x` is one that the pass may wrap by `f`. -/
def Func.Site (tbi : Bool) (F : Func) (x k : Nat) (f : String) : Prop :=
  f ∈ runtimeFunctions ∧
    ((((F.instr x).op = .load ∨ (F.instr x).op = .gep ∧ F.slotOf x = none) ∧ k = 0 ∧
        f ≠ "__xpac") ∨
      (f = "__xpac" ∧ ∃ v, F.operand x k = some v ∧ XpacSite tbi F x v))

/-- The type is that of the wrapped operand `v₀`, or `i8*`. -/
def CastTy (v₀ : Value) (ty : Ty) : Prop := ty = v₀.ty ∨ ty = voidPtrTy

/-- `z` is a bitcast of a copy of `v₀` from one of its two types to one, or a call of `f` on a copy
of type `i8*`. -/
def Linkage (F : Func) (pre : List Nat) (v₀ : Value) (f : String) (z : Nat) : Prop :=
  ∃ v b, Copy F pre v₀ v b ∧ CastTy v₀ v.ty ∧
    ((∃ ty, CastTy v₀ ty ∧ F.instr z = ⟨.bitcast, [v], ty, ""⟩) ∨
      (v.ty = voidPtrTy ∧ F.instr z = ⟨runtimeCall f, [v], voidPtrTy, ""⟩))

/-- Every inserted instruction is there for an operand that the pass wraps, other operands stay, and
use lists are complete. -/
structure Sited (tbi : Bool) (F₀ : Func) (pre : Nat → List Nat) (F : Func) : Prop where
  site : ∀ x, ∀ z ∈ pre x, ∃ k v₀ f, F₀.Site tbi x k f ∧ F₀.operand x k = some v₀ ∧
    Linkage F (pre x) v₀ f z
  spared : ∀ x < F₀.next, ∀ k, (∀ f, ¬ F₀.Site tbi x k f) → F.operand x k = F₀.operand x k
  complete : F.Complete

/-- Something is inserted in front of loads, GEPs and calls only. -/
theorem Func.Site.op_cases {tbi : Bool} {F : Func} {x k : Nat} {f : String} (h : F.Site tbi x k f) :
    (F.instr x).op = .load ∨ (F.instr x).op = .gep ∨
      ∃ callee returned, (F.instr x).op = .call (some callee) returned := by
  rcases h.2 with ⟨hop | ⟨hop, -⟩, -, -⟩ | ⟨-, v, -, -, callee, returned, hop, -⟩
  · exact Or.inl hop
  · exact Or.inr (Or.inl hop)
  · exact Or.inr (Or.inr ⟨callee, returned, hop⟩)

theorem Func.Site.not_phi {tbi : Bool} {F : Func} {x k : Nat} {f : String} (h : F.Site tbi x k f) :
    (F.instr x).op.isPhi = false := by
  rcases h.op_cases with hop | hop | ⟨callee, returned, hop⟩
  · rw [hop]
    rfl
  · rw [hop]
    rfl
  · rw [hop]
    rfl

/-- Nothing is inserted in front of a phi. -/
theorem Sited.pre_phi {tbi : Bool} {F₀ F : Func} {pre : Nat → List Nat} (hs : Sited tbi F₀ pre F)
    {x : Nat} (hphi : (F₀.instr x).op.isPhi = true) : pre x = [] := by
  rw [List.eq_nil_iff_forall_not_mem]
  intro z hz
  obtain ⟨k, v₀, f, hsite, -⟩ := hs.site x z hz
  rw [hsite.not_phi] at hphi
  exact absurd hphi (by decide)

/-- The operands of a phi stay. -/
theorem Sited.phi_operand {tbi : Bool} {F₀ F : Func} {pre : Nat → List Nat}
    (hs : Sited tbi F₀ pre F) {x : Nat} (hx : x < F₀.next) (hphi : (F₀.instr x).op.isPhi = true)
    (k : Nat) : F.operand x k = F₀.operand x k := by
  apply hs.spared x hx
  intro f hsite
  rw [hsite.not_phi] at hphi
  exact absurd hphi (by decide)

theorem Linkage.mono {F G : Func} {pre pre' : List Nat} {v₀ : Value} {f : String} {z : Nat}
    (h : Linkage F pre v₀ f z) (hz : z ∈ pre) (hpre : pre ⊆ pre')
    (hinstr : ∀ y ∈ pre, G.instr y = F.instr y) : Linkage G pre' v₀ f z := by
  obtain ⟨v, b, hcopy, hty, hi⟩ := h
  refine ⟨v, b, hcopy.mono hpre hinstr, hty, ?_⟩
  rw [hinstr z hz]
  exact hi

section Sited

variable {tbi : Bool} {F₀ F : Func} {pre : Nat → List Nat}

theorem Sited.refl (tbi : Bool) (hwf : F.WellLinked) : Sited tbi F (fun _ => []) F where
  site := fun _ _ hz => absurd hz List.not_mem_nil
  spared := fun _ _ _ _ => rfl
  complete := hwf.operand_users

/-- Original instructions keep their operands' places. -/
theorem Decorated.operand_of_original (hd : Decorated tbi F₀ pre F) {x k : Nat} {v₀ : Value}
    (hx : x < F₀.next) (h₀ : F₀.operand x k = some v₀) : ∃ v, F.operand x k = some v := by
  have hlt := (List.getElem?_eq_some_iff.1 h₀).1
  rw [← hd.operands_length x hx] at hlt
  exact ⟨_, List.getElem?_eq_getElem hlt⟩

/-- Creating an instruction for a site in front of `x`. -/
theorem Sited.create (h : Sited tbi F₀ pre F) (hd : Decorated tbi F₀ pre F) {x k : Nat}
    {v₀ v : Value} {b : Bool} {op : Op} {ty : Ty} {f : String} (hsite : F₀.Site tbi x k f)
    (h₀ : F₀.operand x k = some v₀) (hv : Copy F (pre x) v₀ v b) (hvty : CastTy v₀ v.ty)
    (hop : op = .bitcast ∧ CastTy v₀ ty ∨ op = runtimeCall f ∧ v.ty = voidPtrTy ∧ ty = voidPtrTy) :
    Sited tbi F₀ (Decorated.push pre x F.next) (F.create x op v ty) := by
  have hkeep : ∀ y, ∀ z ∈ pre y, (F.create x op v ty).instr z = F.instr z := fun y z hz =>
    F.create_instr_of_ne x op v ty (Nat.ne_of_lt (hd.pre_range y z hz).2)
  refine ⟨fun y z hz => ?_, fun y hy j hnot => ?_, h.complete.create hd.linked x op v ty⟩
  case refine_2 =>
    have hne : y ≠ F.next := Nat.ne_of_lt (Nat.lt_of_lt_of_le hy hd.next_le)
    rw [F.create_operand_of_ne x op v ty hne]
    exact h.spared y hy j hnot
  rcases Decorated.mem_push.1 hz with hz | ⟨rfl, rfl⟩
  · obtain ⟨j, w₀, g, hg, hw₀, hlink⟩ := h.site y z hz
    exact ⟨j, w₀, g, hg, hw₀, hlink.mono hz (Decorated.subset_push pre x F.next y) (hkeep y)⟩
  · refine ⟨k, v₀, f, hsite, h₀, v, b,
      hv.mono (Decorated.subset_push pre y F.next y) (hkeep y), hvty, ?_⟩
    rw [F.create_instr_self]
    rcases hop with ⟨rfl, hty⟩ | ⟨rfl, hvoid, rfl⟩
    · exact Or.inl ⟨ty, hty, rfl⟩
    · exact Or.inr ⟨hvoid, rfl⟩

/-- Setting an operand at a site leaves the inserted instructions alone. -/
theorem Sited.setOperand (h : Sited tbi F₀ pre F) (hd : Decorated tbi F₀ pre F) {x k : Nat}
    {old : Value} {f : String} (hx : x < F₀.next) (hsite : F₀.Site tbi x k f)
    (hold : F.operand x k = some old) (v : Value) : Sited tbi F₀ pre (F.setOperand x k v) := by
  refine ⟨fun y z hz => ?_, fun y hy j hnot => ?_, h.complete.setOperand hd.linked hold v⟩
  case refine_2 =>
    rw [F.setOperand_operand, if_neg]
    · exact h.spared y hy j hnot
    · rintro ⟨rfl, rfl⟩
      exact hnot f hsite
  obtain ⟨j, w₀, g, hg, hw₀, hlink⟩ := h.site y z hz
  refine ⟨j, w₀, g, hg, hw₀, hlink.mono hz (List.Subset.refl _) fun u hu => ?_⟩
  apply F.setOperand_instr_of_ne
  rintro rfl
  exact hd.not_mem_pre hx hu

/-- A bitcast for a site. -/
theorem Sited.createBitCast (h : Sited tbi F₀ pre F) (hd : Decorated tbi F₀ pre F) {x k : Nat}
    {v₀ v : Value} {b : Bool} {ty : Ty} {f : String} (hx : x < F₀.next)
    (hsite : F₀.Site tbi x k f) (h₀ : F₀.operand x k = some v₀) (hv : Copy F (pre x) v₀ v b)
    (hvty : CastTy v₀ v.ty) (hty : CastTy v₀ ty) :
    ∃ pre', Decorated tbi F₀ pre' (F.createBitCast x v ty).1 ∧
      Sited tbi F₀ pre' (F.createBitCast x v ty).1 ∧
      Copy (F.createBitCast x v ty).1 (pre' x) v₀ (F.createBitCast x v ty).2 b ∧
      (F.createBitCast x v ty).2.ty = ty := by
  rw [Func.createBitCast]
  split
  · rename_i heq
    exact ⟨pre, hd, h, hv, heq⟩
  · split
    · rename_i hconst
      exact ⟨pre, hd, h, .fold ty hconst hv, rfl⟩
    · have hext := hd.extends_create x v ty (f := f) (Or.inl rfl : Op.bitcast = .bitcast ∨ _)
      refine ⟨_, hd.create hx h₀ hv (Or.inl rfl),
        h.create hd hsite h₀ hv hvty (Or.inl ⟨rfl, hty⟩), ?_, rfl⟩
      refine .cast ty (Decorated.mem_push.2 (Or.inr ⟨rfl, rfl⟩)) (F.create_instr_self x .bitcast v ty) ?_
      exact hv.mono (hext.subset x) (hext.old x)

/-- A call for a site. -/
theorem Sited.createCall (h : Sited tbi F₀ pre F) (hd : Decorated tbi F₀ pre F) {x k : Nat}
    {v₀ v : Value} {b : Bool} {f : String} (hx : x < F₀.next) (hsite : F₀.Site tbi x k f)
    (h₀ : F₀.operand x k = some v₀) (hv : Copy F (pre x) v₀ v b) (hty : v.ty = voidPtrTy) :
    ∃ pre', Decorated tbi F₀ pre' (F.createCall x f v).1 ∧
      Sited tbi F₀ pre' (F.createCall x f v).1 ∧
      Copy (F.createCall x f v).1 (pre' x) v₀ (F.createCall x f v).2 (b || f == "__xpac") := by
  have hext := hd.extends_create x v voidPtrTy (Or.inr rfl : runtimeCall f = .bitcast ∨ _)
  refine ⟨_, hd.create hx h₀ hv (Or.inr ⟨f, hsite.1, rfl, rfl⟩),
    h.create hd hsite h₀ hv (Or.inr hty) (Or.inr ⟨rfl, hty, rfl⟩), ?_⟩
  refine .call (v := v) hsite.1 (Decorated.mem_push.2 (Or.inr ⟨rfl, rfl⟩)) ?_ ?_
  · exact F.create_instr_self x _ v voidPtrTy
  · exact hv.mono (hext.subset x) (hext.old x)

/-- At a site of `__xpac` the pass strips a pointer. -/
theorem Func.Site.xpacSite {x k : Nat} {v₀ : Value} (h : F₀.Site tbi x k "__xpac")
    (h₀ : F₀.operand x k = some v₀) : XpacSite tbi F₀ x v₀ := by
  rcases h.2 with ⟨-, -, hne⟩ | ⟨-, v, hv, hsite⟩
  · exact absurd rfl hne
  · rw [h₀] at hv
    obtain rfl := Option.some.inj hv
    exact hsite

/-- Arguments of calls are wrapped by `__xpac` only. -/
theorem Func.Site.eq_xpac {x k : Nat} {f : String} (h : F₀.Site tbi x k f)
    (hcall : (F₀.instr x).op.isCall = true) : f = "__xpac" := by
  rcases h.2 with ⟨hop | ⟨hop, -⟩, -, -⟩ | ⟨rfl, -⟩
  · rw [hop] at hcall
    exact absurd hcall (by decide)
  · rw [hop] at hcall
    exact absurd hcall (by decide)
  · rfl

/-- A GEP that is a site is over no alloca. -/
theorem Func.Site.slotOf_gep {x k : Nat} {f : String} (h : F₀.Site tbi x k f)
    (hgep : (F₀.instr x).op = .gep) : F₀.slotOf x = none := by
  rcases h.2 with ⟨hop | ⟨-, hslot⟩, -, -⟩ | ⟨-, v, -, -, callee, returned, hop, -⟩
  · exact absurd (hop.symm.trans hgep) (by simp)
  · exact hslot
  · exact absurd (hop.symm.trans hgep) (by simp)

/-- **A rewrite at a site.** -/
theorem Sited.wrap (h : Sited tbi F₀ pre F) (hd : Decorated tbi F₀ pre F) {x k : Nat} {f : String}
    (hx : x < F₀.next) (hsite : F₀.Site tbi x k f) :
    ∃ pre', Decorated tbi F₀ pre' (F.wrapOperand f x k) ∧ Sited tbi F₀ pre' (F.wrapOperand f x k) := by
  rw [Func.wrapOperand]
  cases hop : F.operand x k with
  | none => exact ⟨pre, hd, h⟩
  | some v =>
      obtain ⟨v₀, b, h₀, hty, hcopy, hb, -⟩ := hd.operand x hx k v hop
      have hself : CastTy v₀ v.ty := Or.inl hty
      have hvoid : CastTy v₀ voidPtrTy := Or.inr rfl
      -- cast, call, cast back, each for the same operand
      obtain ⟨pre₁, hd₁, h₁, hcopy₁, hty₁⟩ := h.createBitCast hd hx hsite h₀ hcopy hself hvoid
      obtain ⟨pre₂, hd₂, h₂, hcopy₂⟩ := h₁.createCall hd₁ hx hsite h₀ hcopy₁ hty₁
      obtain ⟨pre₃, hd₃, h₃, hcopy₃, hty₃⟩ := h₂.createBitCast hd₂ hx hsite h₀ hcopy₂ hvoid hself
      obtain ⟨old, hold⟩ := hd₃.operand_of_original hx h₀
      refine ⟨pre₃, ?_, h₃.setOperand hd₃ hx hsite hold _⟩
      refine hd₃.setOperand hx h₀ hcopy₃ (hty₃.trans hty) (fun hor => ?_) (fun hcall => ?_)
        hsite.slotOf_gep
      · cases b with
        | true => exact hb rfl
        | false =>
            obtain rfl : f = "__xpac" := by simpa using hor
            exact hsite.xpacSite h₀
      · simp [hsite.eq_xpac hcall]

/-- The handlers rewrite at sites. -/
theorem Wrap.site (hd : Decorated tbi F₀ pre F) {x y k : Nat} {f : String} (hx : x < F₀.next)
    (hw : Wrap tbi F x f y k) : F₀.Site tbi y k f := by
  have hy := hd.target_lt hx hw
  have hop := hd.op y hy
  have hslot : (F₀.instr y).op = .gep → F₀.slotOf y = none := hd.gep_slotOf hx hw
  refine ⟨hw.mem_runtimeFunctions, ?_⟩
  cases hw with
  | nested hload _ _ hf =>
      refine Or.inl ⟨Or.inl (hop.symm.trans hload), rfl, ?_⟩
      rintro rfl
      exact absurd hf (by decide)
  | gep _ hgep _ _ hf =>
      have hgep' := hop.symm.trans hgep
      refine Or.inl ⟨Or.inr ⟨hgep', hslot hgep'⟩, rfl, ?_⟩
      rintro rfl
      exact absurd hf (by decide)
  | xpac hv hs hf =>
      obtain ⟨v₀, -, h₀, -⟩ := hd.operand _ hy k _ hv
      exact Or.inr ⟨hf, v₀, h₀, hd.xpacSite hx hv h₀ hs⟩
  | argument htake _ hf =>
      refine Or.inl ⟨Or.inl (hop.symm.trans htake.load), rfl, ?_⟩
      rw [hf]
      decide

/-! ## What stays -/

/-- An instruction that the pass wraps no operand of: no load, no GEP but one over an alloca, and no
call of an external function with an argument that is stripped. -/
def Func.Spared (tbi : Bool) (F : Func) (x : Nat) : Prop :=
  (F.instr x).op ≠ .load ∧ ((F.instr x).op = .gep → F.slotOf x ≠ none) ∧
    ∀ k v, F.operand x k = some v → ¬ XpacSite tbi F x v

theorem Func.Spared.not_site {x : Nat} (h : F₀.Spared tbi x) (k : Nat) (f : String) :
    ¬ F₀.Site tbi x k f := by
  rintro ⟨-, ⟨hop | ⟨hop, hslot⟩, -⟩ | ⟨-, v, hv, hsite⟩⟩
  · exact h.1 hop
  · exact h.2.1 hop hslot
  · exact h.2.2 k v hv hsite

/-- **Spared instructions** stay as they are, with nothing in front of them. -/
theorem Sited.spares (h : Sited tbi F₀ pre F) (hd : Decorated tbi F₀ pre F) {x : Nat}
    (hx : x < F₀.next) (hspared : F₀.Spared tbi x) :
    pre x = [] ∧ F.instr x = F₀.instr x := by
  constructor
  · apply List.eq_nil_iff_forall_not_mem.2
    intro z hz
    obtain ⟨k, v₀, f, hsite, -⟩ := h.site x z hz
    exact hspared.not_site k f hsite
  · have hoperands : (F.instr x).operands = (F₀.instr x).operands :=
      List.ext_getElem? fun k => h.spared x hx k (hspared.not_site k)
    calc F.instr x = ⟨(F.instr x).op, (F.instr x).operands, (F.instr x).ty, (F.instr x).name⟩ := rfl
      _ = F₀.instr x := by rw [hd.op x hx, hoperands, hd.ty x hx, hd.instrName x hx]

/-- Of loads and GEPs only the first operand changes. -/
theorem Sited.spares_index (h : Sited tbi F₀ pre F) {x : Nat} (hx : x < F₀.next)
    (hop : (F₀.instr x).op = .load ∨ (F₀.instr x).op = .gep) (k : Nat) :
    F.operand x (k + 1) = F₀.operand x (k + 1) := by
  apply h.spared x hx
  rintro f ⟨-, ⟨-, hk, -⟩ | ⟨-, v, -, -, callee, returned, hcall, -⟩⟩
  · exact absurd hk (Nat.succ_ne_zero k)
  · rw [hcall] at hop
    rcases hop with hop | hop <;> cases hop

/-! ## Walks -/

/-- A function with insertions at sites. -/
def Instrumented (tbi : Bool) (F₀ F : Func) : Prop :=
  ∃ pre, Decorated tbi F₀ pre F ∧ Sited tbi F₀ pre F

theorem Instrumented.refl (tbi : Bool) (hwf : F.WellLinked) : Instrumented tbi F F :=
  ⟨_, Decorated.refl hwf.toLinked, Sited.refl tbi hwf⟩

theorem Steps.instrumented {x : Nat} {s t : State} (h : Steps tbi x s t)
    (hs : Instrumented tbi F₀ s.func) (hx : x < F₀.next) : Instrumented tbi F₀ t.func := by
  induction h with
  | refl => exact hs
  | wrap _ hw ih =>
      obtain ⟨pre, hd, hsited⟩ := ih
      exact hsited.wrap hd (hd.target_lt hx hw) (hw.site hd hx)
  | pass p _ ih => exact ih

/-- **The walk inserts at sites.** -/
theorem visited_instrumented (tbi : Bool) {s : State} (hwf : s.func.WellLinked) :
    Instrumented tbi s.func (visited tbi s s.func.ids).func := by
  have key : ∀ (xs : List Nat) (t : State), (∀ x ∈ xs, x < s.func.next) →
      Instrumented tbi s.func t.func → Instrumented tbi s.func (visited tbi t xs).func := by
    intro xs
    induction xs with
    | nil => exact fun _ _ h => h
    | cons x xs ih =>
        intro t hlt ht
        have hx := hlt x List.mem_cons_self
        apply ih (visit tbi t x) fun y hy => hlt y (List.mem_cons_of_mem x hy)
        obtain ⟨pre, hd, hsited⟩ := ht
        exact (visit_steps hd hwf hx).instrumented ⟨pre, hd, hsited⟩ hx
  exact key s.func.ids s hwf.ids_lt (Instrumented.refl tbi hwf)

/-! ## Modules -/

/-- What the loop over the functions adds for one of them. -/
theorem rewritten_instrumented (optimization tbi : Bool) (m : ModuleState) (hwf : F.WellLinked) :
    Instrumented tbi F (rewritten optimization tbi m F).1 := by
  rw [rewritten]
  split
  · exact Instrumented.refl tbi hwf
  · dsimp only
    generalize (if optimization then optimizer m F else m) = m₁
    split
    · exact Instrumented.refl tbi hwf
    · exact visited_instrumented tbi (s := ⟨F, m₁.pass, []⟩) hwf

/-- **The pass over a module ends, and inserts at sites of its functions.** -/
theorem instrumentModule_instrumented (optimization tbi : Bool) {fs : List Func}
    (hwf : ∀ F ∈ fs, F.WellLinked) :
    ∃ N, ∀ fuel, N ≤ fuel → ∃ m, instrumentModule optimization tbi fuel fs = some m ∧
      List.Forall₂ (fun F G => Instrumented tbi F G) fs (m.done.map Prod.fst) := by
  obtain ⟨N, hN⟩ := instrumentModule_ends optimization tbi ModuleState.start hwf
  refine ⟨N, fun fuel hfuel => ⟨_, hN fuel hfuel, ?_⟩⟩
  have key : ∀ (fs : List Func) (m : ModuleState), (∀ F ∈ fs, F.WellLinked) →
      ∃ ps, (fs.foldl (instrumented optimization tbi) m).done = m.done ++ ps ∧
        List.Forall₂ (fun F G => Instrumented tbi F G) fs (ps.map Prod.fst) := by
    intro fs
    induction fs with
    | nil => exact fun m _ => ⟨[], (List.append_nil _).symm, .nil⟩
    | cons F fs ih =>
        intro m hwf
        have hF := rewritten_instrumented optimization tbi m (hwf F List.mem_cons_self)
        obtain ⟨ps, hps, hfs⟩ := ih (instrumented optimization tbi m F) fun G hG =>
          hwf G (List.mem_cons_of_mem F hG)
        refine ⟨_ :: ps, ?_, .cons hF hfs⟩
        rw [List.foldl_cons, hps, instrumented_done, List.append_assoc]
        rfl
  obtain ⟨ps, hps, hfs⟩ := key fs ModuleState.start hwf
  rw [hps]
  exact hfs

end Sited

end PTAuth.Pass
