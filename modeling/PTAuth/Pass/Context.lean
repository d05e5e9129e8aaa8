import PTAuth.Pass.Optimizer
import PTAuth.Pass.Placement

/-!
# What a function's instrumentation owes to the functions before it

Of the state that the pass carries from function to function, a walk can tell apart only what
`GEPS` holds (`Alike`). `GEPS` is read at a nested dereference, a load through a GEP that feeds
another GEP, and emptied at a call that hands over a pointer (`Func.Clears`); returns empty
`pointers` but not `GEPS`. So a function whose nested dereferences all stand behind a clearing call
is instrumented alike in every module (`visited_closed`). A function with an open one is not: behind
a function that leaves something in `GEPS` it loses the check of its first open dereference
(`visited_open`).
-/

set_option autoImplicit false

namespace PTAuth.Pass

/-! ## Nested dereferences -/

/-- The load `x` feeds the GEP `g` and goes through a GEP over `base`. -/
structure Func.Nested (F : Func) (x g : Nat) (base : Value) : Prop where
  load : (F.instr x).op = .load
  address : ∃ p g₂, F.operand x 0 = some p ∧ loadSelected F x p = true ∧
    F.dynCast (· == .gep) p = some g₂ ∧ F.operand g₂ 0 = some base
  user : ∃ j, (F.users x).head? = some (g, j)
  gep : (F.instr g).op = .gep

/-- `instrumentLoad` looks into `GEPS` at `x`. -/
def Func.AsksNested (F : Func) (x : Nat) : Prop :=
  ∃ g base, F.Nested x g base ∧ F.nameOf base ∉ globalVarsAvoidList ∧
    isNestedGEPCheck F base = false

/-- The value is a call of `__nestedGEPCheck` behind casts. -/
def Func.NestedChecked (F : Func) (v : Value) : Prop :=
  ∃ y, StripsCasts F v y ∧ F.CallsNestedCheck y none

/-- `instrumentLoad` may look into `GEPS` at `x`: the base is no call of `__nestedGEPCheck`, and it has
no name on `globalVarsAvoidList`, or may lose its name because it is a load. -/
def Func.MayAsk (F : Func) (x : Nat) : Prop :=
  ∃ g base, F.Nested x g base ∧ ¬ F.NestedChecked base ∧
    (F.nameOf base ∉ globalVarsAvoidList ∨ ∃ y, F.dynCast (· == .load) base = some y)

theorem Func.not_nestedChecked_of_load {F : Func} {v : Value} {l : Nat}
    (hv : F.dynCast (· == .load) v = some l) : ¬ F.NestedChecked v := by
  obtain ⟨hvl, hload⟩ := Func.dynCast_eq_some.1 hv
  rw [beq_iff_eq] at hload
  rintro ⟨y, hs, callee, hop, -⟩
  obtain rfl := hs.eq_of_load hvl hload
  exact absurd (hload.symm.trans hop) (by simp)

/-- It is a load, and of no slot. -/
theorem Func.MayAsk.load {F : Func} {x : Nat} (h : F.MayAsk x) :
    (F.instr x).op = .load ∧ F.slotOf x = none := by
  obtain ⟨g, base, ⟨hop, ⟨p, g₂, hp, -, hcast, -⟩, -, -⟩, -⟩ := h
  obtain ⟨hpg, hgep⟩ := Func.dynCast_eq_some.1 hcast
  rw [beq_iff_eq] at hgep
  refine ⟨hop, ?_⟩
  rw [Func.slotOf, hp, Option.bind_some, Func.dynCast, hpg]
  simp [hgep, Op.isAlloca]

/-- The call `c` empties `GEPS`. -/
def Func.Clears (F : Func) (c : Nat) : Prop := ∃ v, F.Hands c v

/-- Every nested dereference stands behind a call that empties `GEPS`. -/
def Func.NestedClosed (F : Func) : Prop :=
  ∀ W x B, F.ids = W ++ x :: B → F.MayAsk x → ∃ c ∈ W, F.Clears c

section Blind

variable {tbi : Bool} {F₀ : Func} {pre : Nat → List Nat} {b : Bool} {s t : State} {x : Nat}

/-! ## Loads that do not look into `GEPS` -/

theorem loadThroughLoad_pass (s : State) (x : Nat) : (loadThroughLoad s x).pass = s.pass := by
  rcases loadThroughLoad_cases s x with h | ⟨-, h⟩
  · rw [h]
  · exact h (fun t => t.pass = s.pass) rfl fun _ _ _ ht => ht

theorem checkGEP_geps (s : State) (x g : Nat) : (checkGEP s x g).pass.geps = s.pass.geps := by
  rw [checkGEP]
  split
  · rfl
  · split
    · rfl
    · rfl

/-- A load through a GEP is no load through a load. -/
theorem loadThroughLoad_gep (hx : x < s.func.next) {g₂ : Nat}
    (h : ((loadThroughLoad s x).func.operand x 0).bind
      ((loadThroughLoad s x).func.dynCast (· == .gep)) = some g₂) : loadThroughLoad s x = s := by
  rcases loadThroughLoad_cases s x with heq | ⟨⟨v, y, a, hv, hvy, hload, -⟩, hrec⟩
  · exact heq
  · exfalso
    -- before the loop the address is a load, behind it an inserted instruction
    have hkey := hrec (fun t => x < t.func.next ∧
      ∃ w, t.func.operand x 0 = some w ∧ t.func.dynCast (· == .gep) w = none) ?_ ?_
    · obtain ⟨-, w, hw, hnone⟩ := hkey
      rw [hw, Option.bind_some, hnone] at h
      exact absurd h (by simp)
    · refine ⟨hx, v, hv, ?_⟩
      simp [Func.dynCast, hvy, hload]
    · rintro t f - ⟨hxt, w, hw, -⟩
      have hwrapped := t.func.wrapped_wrapOperand f hxt hw
      obtain ⟨z, w', hw', hz, -, hop⟩ := hwrapped.new
      refine ⟨Nat.lt_trans hxt hwrapped.next_lt, w', hw', ?_⟩
      show (t.func.wrapOperand f x 0).dynCast _ w' = none
      rw [Func.dynCast, hz]
      rcases hop with hop | hop
      · simp [hop]
      · simp [hop]

/-- Without a look into `GEPS` the two checks of a GEP come down to the first. -/
theorem checkNestedGEP_of_not_asks {v : Value} {g : Nat} (hlinked : s.func.Linked)
    (hop : (s.func.instr x).op = .load) (hg : (s.func.instr g).op = .gep)
    (hv : s.func.operand g 0 = some v)
    (hno : ∀ g₂ base, (s.func.operand x 0).bind (s.func.dynCast (· == .gep)) = some g₂ →
      s.func.operand g₂ 0 = some base →
        ¬ (s.func.nameOf base ∉ globalVarsAvoidList ∧ isNestedGEPCheck s.func base = false)) :
    checkNestedGEP (checkGEP s x g) x g = checkGEP s x g := by
  rcases checkNestedGEP_of_checked hlinked hop hg hv (hlinked.lt_of_gep hg) (hlinked.lt_of_load hop)
    with heq | heq
  · rw [heq, checkNestedGEP]
    split
    · rfl
    · rename_i g₂ hg₂
      split
      · rfl
      · rename_i base hbase
        rw [if_neg]
        rintro ⟨hname, hcheck⟩
        exact hno g₂ base hg₂ hbase ⟨hname, by simpa using hcheck⟩
  · exact heq

/-- The look into `GEPS` in front of the rewrites of `instrumentLoad` and behind them. -/
theorem not_asks_of_loadThroughLoad (hx : x < s.func.next) (hop : (s.func.instr x).op = .load)
    {p : Value} (hp : s.func.operand x 0 = some p) (hsel : loadSelected s.func x p = true)
    {g j : Nat} (huse : ((loadThroughLoad s x).func.users x).head? = some (g, j))
    (hg : ((loadThroughLoad s x).func.instr g).op = .gep) (hno : ¬ s.func.AsksNested x) :
    ∀ g₂ base, ((loadThroughLoad s x).func.operand x 0).bind
        ((loadThroughLoad s x).func.dynCast (· == .gep)) = some g₂ →
      (loadThroughLoad s x).func.operand g₂ 0 = some base →
        ¬ ((loadThroughLoad s x).func.nameOf base ∉ globalVarsAvoidList ∧
          isNestedGEPCheck (loadThroughLoad s x).func base = false) := by
  intro g₂ base hg₂ hbase hasks
  have heq := loadThroughLoad_gep hx hg₂
  rw [heq] at huse hg hg₂ hbase hasks
  rw [hp, Option.bind_some] at hg₂
  exact hno ⟨g, base, ⟨hop, ⟨p, g₂, hp, hsel, hg₂, hbase⟩, ⟨j, huse⟩, hg⟩, hasks⟩

/-- **A load that does not look into `GEPS`** does the same whatever it holds. -/
theorem instrumentLoad_blind (h : Alike b s t) (hd : Decorated tbi F₀ pre s.func)
    (hwf : F₀.WellFormed) (hop : (s.func.instr x).op = .load) (hno : ¬ s.func.AsksNested x) :
    Alike b (instrumentLoad s x) (instrumentLoad t x) ∧
      (instrumentLoad s x).pass.geps = s.pass.geps := by
  have hxlt := hd.linked.lt_of_load hop
  have hx := hd.lt_of_load hop
  rw [instrumentLoad, instrumentLoad, ← h.func]
  split
  · exact ⟨h, rfl⟩
  · rename_i p hp
    split
    · rename_i hsel
      -- the loop of `loadThroughLoad` looks at `pointers` only, and both states come out alike
      have hno' := @not_asks_of_loadThroughLoad s x hxlt hop p hp hsel
      have h' := loadThroughLoad_alike h x
      have hsteps : Steps tbi x s (loadThroughLoad s x) := loadThroughLoad_steps hxlt hop
      obtain ⟨pre', hd', -⟩ := hsteps.decorated hd hx
      have hop' := (hsteps.op_eq hd hx hx).trans hop
      have hty : ((loadThroughLoad s x).func.instr x).ty.isPointerTy = true := by
        rw [hd'.ty x hx, ← hd.ty x hx]
        exact loadSelected_ty hsel
      have hpass := loadThroughLoad_pass s x
      generalize loadThroughLoad s x = s' at *
      generalize loadThroughLoad t x = t' at *
      rw [loadForGEP, loadForGEP, ← h'.func]
      split
      · rename_i g j p' huse hp'
        split
        · rename_i hcond
          obtain ⟨v, hv, -⟩ := hd'.userBack hwf huse hcond.1 hty
          have hno'' := hno' huse hcond.1 hno
          -- neither state gets to the look into `GEPS`
          have hs := checkNestedGEP_of_not_asks hd'.linked hop' hcond.1 hv hno''
          have ht : checkNestedGEP (checkGEP t' x g) x g = checkGEP t' x g := by
            apply checkNestedGEP_of_not_asks (v := v)
            · exact h'.func ▸ hd'.linked
            · exact h'.func ▸ hop'
            · exact h'.func ▸ hcond.1
            · exact h'.func ▸ hv
            · exact h'.func ▸ hno''
          rw [hs, ht]
          refine ⟨checkGEP_alike h' x g, ?_⟩
          rw [checkGEP_geps, hpass]
        · exact ⟨h', by rw [hpass]⟩
      · exact ⟨h', by rw [hpass]⟩
    · exact ⟨h, rfl⟩

/-! ## Calls that hand over nothing -/

/-- A call that hands over nothing at most sets `FlagFreeCalled`. -/
theorem instrumentCalls_of_not_hands {callee : Callee} {returned : Option Nat}
    (hop : (s.func.instr x).op = .call (some callee) returned) (hno : ∀ v, ¬ s.func.Hands x v) :
    ∃ flag, instrumentCalls true s x callee = { s with pass.flagFreeCalled := flag } := by
  have hfirst : ∃ flag, externalArguments true s x callee =
      { s with pass.flagFreeCalled := flag } := by
    apply externalArguments_keeps (P := fun t => ∃ flag, t = { s with pass.flagFreeCalled := flag })
      ⟨s.pass.flagFreeCalled, rfl⟩ ⟨true, rfl⟩
    rintro - - t i ⟨flag, rfl⟩
    exact ⟨flag, xpacArgument_of_not_hands (s := { s with pass.flagFreeCalled := flag }) hop hno i⟩
  obtain ⟨flag, hfirst⟩ := hfirst
  refine ⟨flag, ?_⟩
  rw [instrumentCalls, hfirst]
  dsimp only
  split
  · rename_i havoid
    apply List.foldl_fixed'
    exact passArgument_of_not_hands (s := { s with pass.flagFreeCalled := flag }) hop havoid hno
  · rfl

/-! ## What calls do to `GEPS` -/

theorem externalArguments_geps (tbi : Bool) (s : State) (x : Nat) (callee : Callee) :
    (externalArguments tbi s x callee).pass.geps = s.pass.geps := by
  apply externalArguments_keeps (P := fun t => t.pass.geps = s.pass.geps) rfl rfl
  intro _ _ t i ht
  rcases xpacArgument_cases tbi callee.name t x i with heq | ⟨-, -, -, -, heq⟩
  · rw [heq]
    exact ht
  · rw [heq]
    exact ht

/-- A call that hands over nothing leaves `GEPS` as it is. -/
theorem instrumentCalls_geps {callee : Callee} {returned : Option Nat}
    (hd : Decorated tbi F₀ pre s.func) (hx : x < F₀.next)
    (hop : (s.func.instr x).op = .call (some callee) returned) (hno : ¬ F₀.Clears x) :
    (instrumentCalls tbi s x callee).pass.geps = s.pass.geps := by
  have hfirst := externalArguments_steps hd hx hop
  obtain ⟨pre', hd', -⟩ := hfirst.decorated hd hx
  have hop' := (hfirst.op_eq hd hx hx).trans hop
  rw [instrumentCalls]
  split
  · rename_i havoid
    rw [List.foldl_fixed' (passArgument_of_not_hands hop' havoid
      (hd'.not_hands hx (not_exists.1 hno)))]
    exact externalArguments_geps tbi s x callee
  · exact externalArguments_geps tbi s x callee

/-- A pointer argument empties `GEPS`. -/
theorem passArgument_geps (s : State) (x i : Nat) :
    (passArgument x s i).pass.geps =
      if (s.func.operand x i).any pointerArgument then [] else s.pass.geps := by
  have hload : ∀ t v, (passLoad x t v).pass.geps = t.pass.geps := by
    intro t v
    rw [passLoad]
    split
    · rfl
    · split
      · rfl
      · split
        · rfl
        · rfl
  have hnested : ∀ t v, (passNestedLoad x t v).pass.geps = t.pass.geps := by
    intro t v
    rw [passNestedLoad]
    split
    · rfl
    · split
      · rfl
      · split
        · rfl
        · rfl
  rw [passArgument]
  cases s.func.operand x i with
  | none => rfl
  | some v =>
      cases hptr : pointerArgument v with
      | false => simp [hptr]
      | true => simp [hptr, hnested, hload]

/-- A call that hands something over empties `GEPS`. -/
theorem visit_geps_of_clears (hd : Decorated tbi F₀ pre s.func) (hx : x < F₀.next)
    (hclears : F₀.Clears x) : (visit tbi s x).pass.geps = [] := by
  obtain ⟨v₀, callee, returned, i, hop, havoid, hv₀, hptr⟩ := hclears
  have hops := (hd.op x hx).trans hop
  have hlt := (List.getElem?_eq_some_iff.1 hv₀).1
  rw [visit_of_call hops, instrumentCalls, if_pos havoid]
  -- the induction is on the arguments; argument `i` empties `GEPS`, and none fills it again
  have key : ∀ (l : List Nat) (u : State), Steps tbi x s u → i ∈ l ∨ u.pass.geps = [] →
      (l.foldl (passArgument x) u).pass.geps = [] := by
    intro l
    induction l with
    | nil => exact fun u _ hu => hu.resolve_left List.not_mem_nil
    | cons j l ih =>
        intro u hst hu
        obtain ⟨pre', hd', -⟩ := hst.decorated hd hx
        have hstep : Steps tbi x u (passArgument x u j) :=
          passArgument_steps hd' hx ((hd'.op x hx).trans hop) havoid
        apply ih _ (hst.trans hstep)
        have hgeps := passArgument_geps u x j
        rcases hu with hmem | hempty
        · rcases List.mem_cons.1 hmem with rfl | hmem
          · have hlen : i < (u.func.instr x).operands.length := by
              rw [hd'.operands_length x hx]
              exact hlt
            obtain ⟨w₀, -, hw₀, hty, -⟩ := hd'.operand x hx i _ (List.getElem?_eq_getElem hlen)
            obtain rfl := Option.some.inj (hv₀.symm.trans hw₀)
            have hptr' : (u.func.operand x i).any pointerArgument = true := by
              rw [Func.operand, List.getElem?_eq_getElem hlen, Option.any_some, pointerArgument, hty]
              exact hptr
            rw [if_pos hptr'] at hgeps
            exact Or.inr hgeps
          · exact Or.inl hmem
        · refine Or.inr (hgeps.trans ?_)
          rw [hempty, ite_self]
  apply key _ _ (externalArguments_steps hd hx hops)
  rw [hd.operands_length x hx]
  exact Or.inl (List.mem_range.2 hlt)

/-! ## The front of the walk -/

/-- Bases of GEPs are the original ones, or over loads. -/
def Bases (F₀ F : Func) : Prop :=
  ∀ g, (F₀.instr g).op = .gep → F.operand g 0 = F₀.operand g 0 ∨
    ∃ v y, F₀.operand g 0 = some v ∧ F₀.dynCast (· == .load) v = some y

/-- Bitcasts stay, and so do the indices of GEPs. -/
structure Casts (F₀ F : Func) : Prop where
  bitcast : ∀ z, (F₀.instr z).op = .bitcast → F.instr z = F₀.instr z
  index : ∀ g, (F₀.instr g).op = .gep → ∀ j, F.operand g (j + 1) = F₀.operand g (j + 1)

/-- What a walk over `F₀` keeps of it. -/
structure Front (tbi : Bool) (F₀ F : Func) : Prop where
  decorated : ∃ pre, Decorated tbi F₀ pre F
  heads : Heads F₀ F
  bases : Bases F₀ F
  casts : Casts F₀ F

theorem Front.refl (tbi : Bool) {F : Func} (hF : F.Linked) : Front tbi F F where
  decorated := ⟨_, Decorated.refl hF⟩
  heads := Heads.refl F
  bases := fun _ _ => Or.inl rfl
  casts := ⟨fun _ _ => rfl, fun _ _ _ => rfl⟩

theorem Steps.bases (h : Steps tbi x s t) (hd : Decorated tbi F₀ pre s.func) (hx : x < F₀.next)
    (hbases : Bases F₀ s.func) : Bases F₀ t.func := by
  induction h with
  | refl => exact hbases
  | @wrap t f y k hst hw ih =>
      obtain ⟨pre', hd', -⟩ := hst.decorated hd hx
      obtain ⟨v, -, hwrapped⟩ := hd'.wrapped hx hw
      intro g hg
      show (t.func.wrapOperand f y k).operand g 0 = _ ∨ _
      have hglt := hd'.base.lt_of_gep hg
      by_cases hgy : g = y
      · -- the base of a GEP is wrapped at the load it is
        subst hgy
        have hgep := (hd'.op g hglt).trans hg
        obtain ⟨-, v, hv, hvx⟩ := hw.base hgep
        cases hw with
        | gep hload _ _ _ _ =>
            refine Or.inr ⟨v, x, hd'.operand_original hglt hv hvx hx, ?_⟩
            rw [Func.dynCast_eq_some, beq_iff_eq]
            exact ⟨hvx, (hd'.op x hx).symm.trans hload⟩
        | nested hload _ _ _ => exact absurd (hload.symm.trans hgep) (by simp)
        | xpac _ hs _ =>
            obtain ⟨-, callee, returned, hop, -⟩ := hs
            exact absurd (hop.symm.trans hgep) (by simp)
        | argument htake _ _ => exact absurd (htake.load.symm.trans hgep) (by simp)
      · rw [Func.operand, hwrapped.instr g (Nat.lt_of_lt_of_le hglt hd'.next_le) hgy]
        exact ih g hg
  | pass p _ ih => exact ih

theorem Steps.casts (h : Steps tbi x s t) (hd : Decorated tbi F₀ pre s.func) (hx : x < F₀.next)
    (hcasts : Casts F₀ s.func) : Casts F₀ t.func := by
  refine ⟨fun z hz => ?_, ?_⟩
  · rw [h.instr_eq hd hx (hd.base.lt_of_op (by simp [hz])) (by simp [hz]) (by simp [hz]) (by simp [hz])]
    exact hcasts.bitcast z hz
  · induction h with
    | refl => exact hcasts.index
    | @wrap t f y k hst hw ih =>
        obtain ⟨pre', hd', -⟩ := hst.decorated hd hx
        obtain ⟨v, -, hwrapped⟩ := hd'.wrapped hx hw
        intro g hg j
        have hglt := hd'.base.lt_of_gep hg
        rw [← ih g hg j]
        apply hwrapped.operand_eq (Nat.lt_of_lt_of_le hglt hd'.next_le)
        rintro ⟨rfl, rfl⟩
        exact absurd (hw.base ((hd'.op g hglt).trans hg)).1 (by simp)
    | pass p _ ih => exact ih

theorem Front.visit (h : Front tbi F₀ s.func) (hwf : F₀.WellFormed) (hx : x < F₀.next) :
    Front tbi F₀ (visit tbi s x).func := by
  obtain ⟨pre, hd⟩ := h.decorated
  have hsteps := visit_steps hd hwf hx
  obtain ⟨pre', hd', -⟩ := hsteps.decorated hd hx
  exact ⟨⟨pre', hd'⟩, hsteps.heads hd hx h.heads, hsteps.bases hd hx h.bases,
    hsteps.casts hd hx h.casts⟩

theorem Decorated.nameOf_original {F : Func} (hd : Decorated tbi F₀ pre F) {v : Value}
    (hv : ∀ y, v.ref = .inst y → y < F₀.next) : F.nameOf v = F₀.nameOf v := by
  rw [Func.nameOf, Func.nameOf]
  cases hy : v.ref with
  | inst y => exact hd.instrName y (hv y hy)
  | _ => rfl

/-- A chain of casts to a call stays: no GEP in it is over a load. -/
theorem Front.strips {F : Func} (h : Front tbi F₀ F) {v : Value} {y : Nat}
    (hs : StripsCasts F₀ v y) (hy : (F₀.instr y).op.isCall = true) : StripsCasts F v y := by
  obtain ⟨pre, hd⟩ := h.decorated
  induction hs with
  | self hv => exact .self hv
  | @cast v w z k y hv hcall hc hw hs ih =>
      have hop := hd.op z (hd.base.lt_of_operand hw)
      rw [← hop] at hcall
      have hstays : F.Carries z k ∧ F.operand z k = some w := by
        rw [Func.Carries] at hc ⊢
        rw [hop] at hcall ⊢
        cases hz : (F₀.instr z).op with
        | bitcast =>
            rw [hz] at hc
            rw [Func.operand, h.casts.bitcast z hz]
            exact ⟨hc, hw⟩
        | gep =>
            rw [hz] at hc
            obtain ⟨hzero, rfl⟩ := hc
            have htail : (F.instr z).operands.tail = (F₀.instr z).operands.tail := by
              apply List.ext_getElem?
              intro j
              rw [← List.drop_one, ← List.drop_one, List.getElem?_drop, List.getElem?_drop,
                Nat.add_comm]
              exact h.casts.index z hz j
            refine ⟨⟨by rw [allZeroIndices, htail]; exact hzero, rfl⟩, ?_⟩
            rcases h.bases z hz with heq | ⟨u, l, hu, hl⟩
            · exact heq.trans hw
            -- a load is the end of a chain, and no call
            · obtain rfl := Option.some.inj (hw.symm.trans hu)
              obtain ⟨hwl, hload⟩ := Func.dynCast_eq_some.1 hl
              rw [hs.eq_of_load hwl (beq_iff_eq.1 hload), beq_iff_eq.1 hload] at hy
              exact absurd hy (by decide)
        | call callee returned =>
            rw [hz] at hcall
            exact absurd hcall (by simp [Op.isCall])
        | _ =>
            rw [hz] at hc
            exact hc.elim
      exact .cast hv hcall hstays.1 hstays.2 (ih hy)

/-- So an own check of the function is still one. -/
theorem Front.isNestedGEPCheck {F : Func} (h : Front tbi F₀ F) {v : Value}
    (hv : F₀.NestedChecked v) : isNestedGEPCheck F v = true := by
  obtain ⟨y, hs, callee, hop, hname⟩ := hv
  obtain ⟨pre, hd⟩ := h.decorated
  apply (h.strips hs (by rw [hop]; rfl)).strips.isNestedGEPCheck hd.linked
  exact ⟨callee, (hd.op y (hd.base.lt_of_call hop)).trans hop, hname⟩

/-- A look into `GEPS` on the way is one that the original function may ask for. -/
theorem Front.mayAsk {F : Func} (h : Front tbi F₀ F) (hasks : F.AsksNested x) : F₀.MayAsk x := by
  obtain ⟨pre, hd⟩ := h.decorated
  obtain ⟨g, base, ⟨hop, ⟨p, g₂, hp, hsel, hcast, hbase⟩, ⟨j, huse⟩, hgep⟩, hname, hcheck⟩ := hasks
  obtain ⟨hpg, hgep₂⟩ := Func.dynCast_eq_some.1 hcast
  rw [beq_iff_eq] at hgep₂
  have hx := hd.lt_of_load hop
  have hg := hd.lt_of_gep hgep
  have hg₂ := hd.lt_of_gep hgep₂
  have hp₀ := hd.operand_original hx hp hpg hg₂
  have hsel₀ : loadSelected F₀ x p = true := by
    rw [loadSelected, ← hd.ty x hx, ← hd.nameOf_original fun y hy => ?_]
    · exact hsel
    · rw [hpg] at hy
      exact Ref.inst.inj hy ▸ hg₂
  have hcast₀ : F₀.dynCast (· == .gep) p = some g₂ := by
    rw [Func.dynCast_eq_some, beq_iff_eq]
    exact ⟨hpg, (hd.op g₂ hg₂).symm.trans hgep₂⟩
  have hnested : ∀ base', F₀.operand g₂ 0 = some base' → F₀.Nested x g base' := fun base' hbase' =>
    ⟨(hd.op x hx).symm.trans hop, ⟨p, g₂, hp₀, hsel₀, hcast₀, hbase'⟩,
      ⟨j, h.heads.head_eq hx huse hg⟩, (hd.op g hg).symm.trans hgep⟩
  -- the base is the original one, or an inserted cast over a load, which has lost its name
  rcases h.bases g₂ ((hd.op g₂ hg₂).symm.trans hgep₂) with heq | ⟨v, y, hv, hload⟩
  · rw [hbase] at heq
    refine ⟨g, base, hnested base heq.symm, fun hchecked => ?_, Or.inl ?_⟩
    · exact absurd (hcheck.symm.trans (h.isNestedGEPCheck hchecked)) (by decide)
    · rw [← hd.nameOf_original fun y hy => hd.base.operand_lt g₂ 0 base y heq.symm hy]
      exact hname
  · exact ⟨g, v, hnested v hv, Func.not_nestedChecked_of_load hload, Or.inr ⟨y, hload⟩⟩

/-! ## In front of the first clearing call -/

/-- A visit that neither looks into `GEPS` nor empties it leaves it as it is. -/
theorem visit_geps_of_blind (hwf : F₀.WellFormed) (hd : Decorated tbi F₀ pre s.func)
    (hno : ¬ s.func.AsksNested x) (hclears : ¬ F₀.Clears x) (hx : x < F₀.next) :
    (visit tbi s x).pass.geps = s.pass.geps := by
  rw [visit]
  split
  · rfl
  · rw [instrumentStore]
    split
    · split
      · rfl
      · rfl
    · rfl
  · rename_i hop
    exact (instrumentLoad_blind (Alike.refl true s) hd hwf hop hno).2
  · rename_i callee returned hop
    exact instrumentCalls_geps hd hx hop hclears
  · rfl

/-- **A visit that neither looks into `GEPS` nor empties it.** -/
theorem visit_blind (h : Alike b s t) (hwf : F₀.WellFormed) (hfront : Front true F₀ s.func)
    (hno : ¬ s.func.AsksNested x) (hclears : ¬ F₀.Clears x) (hx : x < F₀.next) :
    Alike b (visit true s x) (visit true t x) ∧ (visit true s x).pass.geps = s.pass.geps := by
  obtain ⟨pre, hd⟩ := hfront.decorated
  exact ⟨visit_alike h true x fun hop => (instrumentLoad_blind h hd hwf hop hno).1,
    visit_geps_of_blind hwf hd hno hclears hx⟩

/-- **Many such visits.** -/
theorem visited_blind (hwf : F₀.WellFormed) :
    ∀ (xs : List Nat) {s t : State}, (∀ x ∈ xs, ¬ F₀.MayAsk x ∧ ¬ F₀.Clears x ∧ x < F₀.next) →
      Front true F₀ s.func → Alike b s t →
        Alike b (visited true s xs) (visited true t xs) ∧
          (visited true s xs).pass.geps = s.pass.geps ∧ Front true F₀ (visited true s xs).func := by
  intro xs
  induction xs with
  | nil => exact fun _ hfront h => ⟨h, rfl, hfront⟩
  | cons x xs ih =>
      intro s t hxs hfront h
      obtain ⟨hmay, hclears, hx⟩ := hxs x List.mem_cons_self
      have hvisit := visit_blind h hwf hfront (fun hasks => hmay (hfront.mayAsk hasks)) hclears hx
      obtain ⟨halike, hgeps, hfront'⟩ := ih (fun y hy => hxs y (List.mem_cons_of_mem x hy))
        (hfront.visit hwf hx) hvisit.1
      exact ⟨halike, hgeps.trans hvisit.2, hfront'⟩

/-- **A clearing call** makes the states agree on `GEPS`. -/
theorem visit_clears (h : Alike b s t) (hd : Decorated true F₀ pre s.func) (hx : x < F₀.next)
    (hclears : F₀.Clears x) : Alike true (visit true s x) (visit true t x) := by
  obtain ⟨v₀, callee, returned, i, hop, havoid, hv₀, hptr⟩ := hclears
  have hops := (hd.op x hx).trans hop
  have hlen : i < (s.func.instr x).operands.length := by
    rw [hd.operands_length x hx]
    exact (List.getElem?_eq_some_iff.1 hv₀).1
  have hopt : (t.func.instr x).op = .call (some callee) returned := by
    rw [← h.func]
    exact hops
  rw [visit_of_call hops, visit_of_call hopt, instrumentCalls, instrumentCalls,
    congrArg Func.instr h.func.symm, if_pos havoid, if_pos havoid]
  -- the induction is on the arguments; argument `i` empties `GEPS` in both states
  have key : ∀ (l : List Nat) (u w : State), Steps true x s u → Alike b u w → i ∈ l →
      Alike true (l.foldl (passArgument x) u) (l.foldl (passArgument x) w) := by
    intro l
    induction l with
    | nil => exact fun _ _ _ _ hi => absurd hi List.not_mem_nil
    | cons j l ih =>
        intro u w hst huw hi
        obtain ⟨pre', hd', -⟩ := hst.decorated hd hx
        rw [List.foldl_cons, List.foldl_cons]
        by_cases hij : i = j
        · subst hij
          apply Alike.foldl (fun _ _ k huw => passArgument_alike huw x k)
          have hi' : i < (u.func.instr x).operands.length := by
            rw [hd'.operands_length x hx]
            exact (List.getElem?_eq_some_iff.1 hv₀).1
          obtain ⟨v, hv⟩ : ∃ v, u.func.operand x i = some v := ⟨_, List.getElem?_eq_getElem hi'⟩
          obtain ⟨w₀, -, hw₀, hty, -⟩ := hd'.operand x hx i _ hv
          obtain rfl := Option.some.inj (hv₀.symm.trans hw₀)
          have hptr' : pointerArgument v = true := by
            rw [pointerArgument, hty]
            exact hptr
          have hw : w.func.operand x i = some v := by
            rw [← huw.func]
            exact hv
          rw [passArgument, passArgument, hv, hw]
          dsimp only
          rw [if_pos hptr', if_pos hptr']
          exact passPointer_alike huw x _
        · have hmem : i ∈ l := (List.mem_cons.1 hi).resolve_left hij
          have hstep : Steps true x u (passArgument x u j) :=
            passArgument_steps hd' hx ((hd'.op x hx).trans hop) havoid
          exact ih _ _ (hst.trans hstep) (passArgument_alike huw x j) hmem
  exact key _ _ _ (externalArguments_steps hd hx hops) (externalArguments_alike h true x callee)
    (List.mem_range.2 hlen)

/-- The instructions up to the first clearing call. -/
theorem exists_open (F : Func) (xs : List Nat) :
    ∃ W B, xs = W ++ B ∧ (∀ c ∈ W, ¬ F.Clears c) ∧ (B = [] ∨ ∃ c C, B = c :: C ∧ F.Clears c) := by
  rcases first_or_none F.Clears xs with hnone | ⟨W, c, C, rfl, hc, hW⟩
  · exact ⟨xs, [], (List.append_nil xs).symm, hnone, Or.inl rfl⟩
  · exact ⟨W, c :: C, rfl, hW, Or.inr ⟨c, C, rfl, hc⟩⟩

/-- **A function without open nested dereferences** is instrumented alike whatever `GEPS` holds. -/
theorem visited_closed (hwf : F₀.WellFormed) (hclosed : F₀.NestedClosed) (hs : s.func = F₀)
    (h : Alike false s t) :
    Alike false (visited true s F₀.ids) (visited true t F₀.ids) := by
  obtain ⟨W, B, hids, hW, hB⟩ := exists_open F₀ F₀.ids
  have hfront : Front true F₀ s.func := by
    rw [hs]
    exact Front.refl true hwf.toLinked
  have hquiet : ∀ x ∈ W, ¬ F₀.MayAsk x ∧ ¬ F₀.Clears x ∧ x < F₀.next := by
    intro x hx
    refine ⟨fun hmay => ?_, hW x hx, hwf.ids_lt x (by simp [hids, hx])⟩
    obtain ⟨V, U, rfl⟩ := List.append_of_mem hx
    obtain ⟨c, hc, hclears⟩ := hclosed V x (U ++ B) (by simp [hids]) hmay
    exact hW c (by simp [hc]) hclears
  obtain ⟨halike, -, hfront'⟩ := visited_blind hwf W hquiet hfront h
  rcases hB with rfl | ⟨c, C, rfl, hclears⟩
  · rw [hids, List.append_nil]
    exact halike
  · obtain ⟨pre, hd⟩ := hfront'.decorated
    rw [hids, visited_append, visited_append, visited_cons, visited_cons]
    have hc := visit_clears halike hd (hwf.ids_lt c (by simp [hids])) hclears
    exact (visited_alike hc true C).weaken

/-! ## Open nested dereferences -/

/-- Where a call of `__nestedGEPCheck` is found behind casts and calls that return an argument, it is
behind casts alone; and no load has a name on `globalVarsAvoidList`. -/
structure Func.Plain (F : Func) : Prop where
  checks : ∀ v y returned, Strips F v y → F.CallsNestedCheck y returned → F.NestedChecked v
  names : ∀ y, (F.instr y).op = .load → (F.instr y).name ∉ globalVarsAvoidList

/-- The dereference `x` is untouched, and no `__nestedGEPCheck` was inserted. -/
structure Target (F₀ : Func) (x : Nat) (F : Func) : Prop where
  decorated : ∃ pre, Decorated true F₀ pre F ∧
    ∀ y, ∀ z ∈ pre y, (F.instr z).op ≠ runtimeCall "__nestedGEPCheck"
  instr : F.instr x = F₀.instr x
  users : F.users x = F₀.users x

theorem Target.refl {F : Func} (hF : F.Linked) (x : Nat) : Target F x F where
  decorated := ⟨_, Decorated.refl hF, fun _ _ hz => absurd hz List.not_mem_nil⟩
  instr := rfl
  users := rfl

/-- A rewrite elsewhere. -/
theorem Target.wrap {F : Func} (h : Target F₀ x F) (hx : x < F₀.next) {f : String} {y k : Nat}
    {v : Value} (hy : y < F₀.next) (hyx : y ≠ x) (hcall : (F₀.instr y).op.isCall = false)
    (hv : F.operand y k = some v) (hvx : v.ref ≠ .inst x)
    (hf : f ∈ ["__loadCheck", "__noCheck", "__GEPCheck"])
    (hgep : (F₀.instr y).op = .gep → F₀.slotOf y = none) : Target F₀ x (F.wrapOperand f y k) := by
  obtain ⟨pre, hd, hpre⟩ := h.decorated
  have hxlt := Nat.lt_of_lt_of_le hx hd.next_le
  have hwrapped := F.wrapped_wrapOperand f (Nat.lt_of_lt_of_le hy hd.next_le) hv
  have hfr : f ∈ runtimeFunctions ∧ f ≠ "__xpac" ∧ f ≠ "__nestedGEPCheck" := by
    simp only [List.mem_cons, List.not_mem_nil, or_false] at hf
    rcases hf with rfl | rfl | rfl <;> decide
  obtain ⟨pre', hd', hext⟩ := hd.wrap hy k hfr.1 (fun _ hxpac => absurd hxpac hfr.2.1)
    (fun hop => absurd (hcall.symm.trans hop) (by decide)) hgep
  refine ⟨⟨pre', hd', fun u z hz => ?_⟩, ?_, ?_⟩
  · have hold : ∀ z ∈ pre u, ((F.wrapOperand f y k).instr z).op ≠ runtimeCall "__nestedGEPCheck" := by
      intro z hz
      rw [hext.old u z hz]
      exact hpre u z hz
    -- in front of `y` the casts and the call are new
    by_cases hu : u = y
    · subst hu
      rcases hext.new z hz with hz | hop | hop
      · exact hold z hz
      · rw [hop]
        exact fun h => absurd h (by simp [runtimeCall])
      · rw [hop]
        intro h
        simp only [runtimeCall, Op.call.injEq, Option.some.injEq, Callee.mk.injEq] at h
        exact hfr.2.2 h.1.1
    · rw [hext.other u hu] at hz
      exact hold z hz
  · rw [hwrapped.instr x hxlt fun he => hyx he.symm]
    exact h.instr
  · rw [hwrapped.users x hxlt hvx]
    exact h.users

/-- With something in `GEPS`, nothing is inserted at a nested dereference. -/
theorem checkNestedGEP_of_geps (h : s.pass.geps ≠ []) (x g : Nat) :
    (checkNestedGEP s x g).func = s.func ∧ (checkNestedGEP s x g).inserted = s.inserted := by
  rw [checkNestedGEP]
  split
  · exact ⟨rfl, rfl⟩
  · split
    · exact ⟨rfl, rfl⟩
    · rw [if_neg h]
      split
      · split
        · exact ⟨rfl, rfl⟩
        · exact ⟨rfl, rfl⟩
      · exact ⟨rfl, rfl⟩

theorem Target.instrumentLoad (h : Target F₀ x s.func) (hwf : F₀.WellFormed) (hx : x < F₀.next)
    (hload : (F₀.instr x).op = .load) (hslot : F₀.slotOf x = none) (hgeps : s.pass.geps ≠ [])
    {y : Nat} (hyx : y ≠ x) (hop : (s.func.instr y).op = .load) :
    Target F₀ x (instrumentLoad s y).func := by
  obtain ⟨pre, hd, -⟩ := h.decorated
  have hy := hd.lt_of_load hop
  have hcall : (F₀.instr y).op.isCall = false := by
    rw [← hd.op y hy, hop]
    rfl
  have hslot' : s.func.slotOf x = none := hd.slotOf_none hx hslot
  have hfirst : Target F₀ x (loadThroughLoad s y).func := by
    rcases loadThroughLoad_cases s y with heq | ⟨⟨v, l, a, hv, hvl, -, ha⟩, hrec⟩
    · rw [heq]
      exact h
    · -- the address of `y` is a load of a slot, so not `x`, and inserted from then on
      refine (hrec (fun t => Target F₀ x t.func ∧
        ∃ v, t.func.operand y 0 = some v ∧ v.ref ≠ .inst x) ⟨h, v, hv, ?_⟩ ?_).1
      · intro hvx
        obtain rfl := Ref.inst.inj (hvl.symm.trans hvx)
        rw [hslot'] at ha
        exact absurd ha (by simp)
      · rintro t f hf ⟨ht, w, hw, hwx⟩
        obtain ⟨pre', hd', -⟩ := ht.decorated
        have hwrapped := t.func.wrapped_wrapOperand f (Nat.lt_of_lt_of_le hy hd'.next_le) hw
        obtain ⟨z, w', hw', hz, hle, -⟩ := hwrapped.new
        refine ⟨ht.wrap hx hy hyx hcall hw hwx ?_ fun hgep => ?_, w', hw', ?_⟩
        · simp only [List.mem_cons, List.not_mem_nil, or_false] at hf
          rcases hf with rfl | rfl <;> decide
        · exact absurd (hop.symm.trans ((hd.op y hy).trans hgep)) (by simp)
        · rw [hz]
          intro he
          have hxle := Nat.le_trans hd'.next_le hle
          rw [Ref.inst.inj he] at hxle
          exact absurd hx (Nat.not_lt.2 hxle)
  rcases instrumentLoad_cases hd hwf hop with heq | ⟨-, heq | ⟨g, j, v, -, hgep, hv, hvy, heq⟩⟩
  · rw [heq]
    exact h
  · rw [heq]
    exact hfirst
  · have hgeps' : (checkGEP (loadThroughLoad s y) y g).pass.geps ≠ [] := by
      rw [checkGEP_geps, loadThroughLoad_pass]
      exact hgeps
    rw [heq, (checkNestedGEP_of_geps hgeps' y g).1]
    generalize loadThroughLoad s y = s' at *
    obtain ⟨pre', hd', -⟩ := hfirst.decorated
    -- the only rewrite left is of the GEP, which is not `x`
    rw [checkGEP]
    split
    · exact hfirst
    · split
      · have hg := hd'.lt_of_gep hgep
        have hgop := (hd'.op g hg).symm.trans hgep
        have hload' := (hd'.op y hy).trans ((hd.op y hy).symm.trans hop)
        apply hfirst.wrap hx hg _ (by rw [hgop]; rfl) hv _ (by decide) fun _ =>
          hd'.slotOf_of_load hgop hv hvy hload'
        · rintro rfl
          exact absurd (hload.symm.trans hgop) (by simp)
        · rw [hvy]
          exact fun he => hyx (Ref.inst.inj he)
      · exact hfirst

/-- **One visit**, with something in `GEPS`. -/
theorem Target.visit (h : Target F₀ x s.func) (hwf : F₀.WellFormed) (hx : x < F₀.next)
    (hload : (F₀.instr x).op = .load) (hslot : F₀.slotOf x = none) (hgeps : s.pass.geps ≠ [])
    {y : Nat} (hyx : y ≠ x) (hy : y < F₀.next) (hclears : ¬ F₀.Clears y) :
    Target F₀ x (visit true s y).func := by
  obtain ⟨pre, hd, -⟩ := h.decorated
  rw [PTAuth.Pass.visit]
  split
  · exact h
  · rw [instrumentStore]
    split
    · split
      · exact h
      · exact h
    · exact h
  · rename_i hop
    exact h.instrumentLoad hwf hx hload hslot hgeps hyx hop
  · rename_i callee returned hop
    have hno : ∀ v, ¬ s.func.Hands y v := hd.not_hands hy (not_exists.1 hclears)
    obtain ⟨flag, heq⟩ := instrumentCalls_of_not_hands hop hno
    rw [heq]
    exact h
  · exact h

/-- **Many visits.** -/
theorem Target.run (hwf : F₀.WellFormed) (hx : x < F₀.next) (hload : (F₀.instr x).op = .load)
    (hslot : F₀.slotOf x = none) :
    ∀ (ys : List Nat) {s : State}, (∀ y ∈ ys, y ≠ x ∧ ¬ F₀.MayAsk y ∧ ¬ F₀.Clears y ∧ y < F₀.next) →
      Front true F₀ s.func → s.pass.geps ≠ [] → Target F₀ x s.func →
      Target F₀ x (visited true s ys).func := by
  intro ys
  induction ys with
  | nil => exact fun _ _ _ h => h
  | cons y ys ih =>
      intro s hys hfront hgeps h
      obtain ⟨hyx, hmay, hclears, hy⟩ := hys y List.mem_cons_self
      have hvisit := visit_blind (Alike.refl true s) hwf hfront
        (fun hasks => hmay (hfront.mayAsk hasks)) hclears hy
      apply ih (fun z hz => hys z (List.mem_cons_of_mem y hz)) (hfront.visit hwf hy)
      · rw [hvisit.2]
        exact hgeps
      · exact h.visit hwf hx hload hslot hgeps hyx hy hclears

/-- What `isNestedGEPCheck` finds behind a rewritten operand are calls of the original function. -/
theorem Target.not_isNestedGEPCheck {F : Func} (h : Target F₀ x F) (hplain : F₀.Plain) {g k : Nat}
    (hg : g < F₀.next) {base v : Value} (hbase : F₀.operand g k = some base)
    (hv : F.operand g k = some v) (hno : ¬ F₀.NestedChecked base) : isNestedGEPCheck F v = false := by
  obtain ⟨pre, hd, hpre⟩ := h.decorated
  rw [Bool.eq_false_iff]
  intro hcheck
  obtain ⟨y, returned, hs, callee, hop, hname⟩ := exists_strips_of_isNestedGEPCheck hcheck
  -- an inserted call is none of `__nestedGEPCheck` while `x` is untouched
  have hy : y < F₀.next := by
    rcases Nat.lt_or_ge y F₀.next with hlt | hge
    · exact hlt
    · obtain ⟨u, hu⟩ := hd.pre_cover y hge (hd.linked.lt_of_op (by simp [hop]))
      rcases hd.pre_op hu with hcast | ⟨f, -, hcall⟩
      · exact absurd (hcast.symm.trans hop) (by simp)
      · have hne := hpre u y hu
        rw [hcall] at hop hne
        simp only [runtimeCall, Op.call.injEq, Option.some.injEq] at hop hne
        rw [← hop.1] at hname
        exact absurd (congrArg runtimeCall hname) hne
  obtain ⟨w, b, hw, -, hcopy, -⟩ := hd.operand g hg k v hv
  obtain rfl := Option.some.inj (hbase.symm.trans hw)
  exact hno (hplain.checks base y returned (hd.strips_original hs hy hbase hcopy)
    ⟨callee, (hd.op y hy).symm.trans hop, hname⟩)

/-- **The open dereference still looks into `GEPS`.** -/
theorem Target.asksNested {F : Func} (h : Target F₀ x F) (hplain : F₀.Plain)
    (hmay : F₀.MayAsk x) : F.AsksNested x := by
  obtain ⟨pre, hd, -⟩ := h.decorated
  obtain ⟨g, base, ⟨hop, ⟨p, g₂, hp, hsel, hcast, hbase⟩, ⟨j, huse⟩, hgep⟩, hchecked, hname⟩ := hmay
  obtain ⟨hpg, hgep₂⟩ := Func.dynCast_eq_some.1 hcast
  rw [beq_iff_eq] at hgep₂
  have hg := hd.base.lt_of_gep hgep
  have hg₂ := hd.base.lt_of_gep hgep₂
  have hbase_lt : ∀ y, base.ref = .inst y → y < F₀.next := fun y => hd.base.operand_lt g₂ 0 base y hbase
  have hname₀ : F₀.nameOf base ∉ globalVarsAvoidList := by
    rcases hname with hname | ⟨y, hy⟩
    · exact hname
    · obtain ⟨hby, hload⟩ := Func.dynCast_eq_some.1 hy
      rw [Func.nameOf, hby]
      exact hplain.names y (beq_iff_eq.1 hload)
  -- the base may have been wrapped by now; an inserted instruction has no name
  have hlen : 0 < (F.instr g₂).operands.length := by
    rw [hd.operands_length g₂ hg₂]
    exact (List.getElem?_eq_some_iff.1 hbase).1
  obtain ⟨base', hbase'⟩ : ∃ v, F.operand g₂ 0 = some v := ⟨_, List.getElem?_eq_getElem hlen⟩
  obtain ⟨w, b, hw, -, hcopy, -⟩ := hd.operand g₂ hg₂ 0 base' hbase'
  obtain rfl := Option.some.inj (hbase.symm.trans hw)
  have hname' : F.nameOf base' ∉ globalVarsAvoidList := by
    cases hcopy with
    | self =>
        rw [hd.nameOf_original hbase_lt]
        exact hname₀
    | fold ty _ _ =>
        show "" ∉ globalVarsAvoidList
        decide
    | cast ty _ hi _ =>
        simp only [Func.nameOf, hi]
        decide
    | call _ _ hi _ =>
        simp only [Func.nameOf, hi]
        decide
  refine ⟨g, base', ⟨?_, ⟨p, g₂, ?_, ?_, ?_, hbase'⟩, ⟨j, ?_⟩, ?_⟩, hname',
    h.not_isNestedGEPCheck hplain hg₂ hbase hbase' hchecked⟩
  · rw [h.instr]
    exact hop
  · rw [Func.operand, h.instr]
    exact hp
  · rw [loadSelected, h.instr, hd.nameOf_original fun y hy => ?_]
    · exact hsel
    · rw [hpg] at hy
      exact Ref.inst.inj hy ▸ hg₂
  · rw [Func.dynCast_eq_some, beq_iff_eq]
    exact ⟨hpg, (hd.op g₂ hg₂).trans hgep₂⟩
  · rw [h.users]
    exact huse
  · exact (hd.op g hg).trans hgep

/-! ## The check that is lost -/

/-- A visit records its own rewrites. -/
theorem Steps.inserted (h : Steps tbi x s t) :
    (∀ i ∈ s.inserted, i ∈ t.inserted) ∧ ∀ i ∈ t.inserted, i ∈ s.inserted ∨ i.site = x := by
  induction h with
  | refl => exact ⟨fun _ hi => hi, fun _ hi => Or.inl hi⟩
  | wrap _ _ ih =>
      refine ⟨fun i hi => List.mem_append_left _ (ih.1 i hi), fun i hi => ?_⟩
      rcases List.mem_append.1 hi with hi | hi
      · exact ih.2 i hi
      · rw [List.mem_singleton.1 hi]
        exact Or.inr rfl
  | pass p _ ih => exact ih

theorem visited_inserted (hwf : F₀.WellFormed) :
    ∀ (xs : List Nat) {s : State}, (∀ x ∈ xs, x < F₀.next) → Front tbi F₀ s.func →
      (∀ i ∈ s.inserted, i ∈ (visited tbi s xs).inserted) ∧
        ∀ i ∈ (visited tbi s xs).inserted, i ∈ s.inserted ∨ i.site ∈ xs := by
  intro xs
  induction xs with
  | nil => exact fun _ _ => ⟨fun _ hi => hi, fun _ hi => Or.inl hi⟩
  | cons x xs ih =>
      intro s hxs hfront
      have hx := hxs x List.mem_cons_self
      obtain ⟨pre, hd⟩ := hfront.decorated
      have hstep := (visit_steps hd hwf hx).inserted
      have hrest := ih (fun y hy => hxs y (List.mem_cons_of_mem x hy)) (hfront.visit hwf hx)
      refine ⟨fun i hi => hrest.1 i (hstep.1 i hi), fun i hi => ?_⟩
      rcases hrest.2 i hi with hi | hi
      · exact (hstep.2 i hi).imp id fun h => by simp [h]
      · exact Or.inr (List.mem_cons_of_mem x hi)

/-- What happens at a dereference that looks into `GEPS`. -/
theorem visit_of_nested (tbi : Bool) {g : Nat} {base : Value} (h : s.func.Nested x g base)
    (hname : s.func.nameOf base ∉ globalVarsAvoidList)
    (hcheck : isNestedGEPCheck s.func base = false) :
    visit tbi s x =
      if s.pass.geps = [] then
        { s.wrap x "__nestedGEPCheck" g 0 with pass.geps := [⟨base.ty, true⟩] }
      else if s.pass.geps.any fun p => p.type == base.ty then s
      else { s with pass.geps := s.pass.geps ++ [⟨base.ty, true⟩] } := by
  obtain ⟨hop, ⟨p, g₂, hp, hsel, hcast, hbase⟩, ⟨j, huse⟩, hgep⟩ := h
  obtain ⟨hpg, hgep₂⟩ := Func.dynCast_eq_some.1 hcast
  rw [beq_iff_eq] at hgep₂
  -- the address is a GEP, so it is neither a load nor an alloca, and the other checks do nothing
  have hthrough : loadThroughLoad s x = s := by
    rcases loadThroughLoad_cases s x with heq | ⟨⟨v, y, a, hv, hvy, hload, -⟩, -⟩
    · exact heq
    · obtain rfl := Option.some.inj (hp.symm.trans hv)
      obtain rfl := Ref.inst.inj (hpg.symm.trans hvy)
      exact absurd (hgep₂.symm.trans hload) (by simp)
  have hslot : s.func.slotOf x = none := by
    rw [Func.slotOf, hp, Option.bind_some, Func.dynCast, hpg]
    simp [hgep₂, Op.isAlloca]
  have hfirst : checkGEP s x g = s := by rw [checkGEP, hslot]
  have hglobal : p.ref.isGlobalVariable = false := by rw [hpg]; rfl
  have hvisit : visit tbi s x = checkNestedGEP s x g := by
    rw [visit_of_load hop, instrumentLoad, hp]
    dsimp only
    rw [if_pos hsel, hthrough, loadForGEP, huse, hp]
    dsimp only
    rw [if_pos ⟨hgep, by simp [hglobal]⟩, hfirst]
  rw [hvisit, checkNestedGEP, hp, Option.bind_some, hcast]
  dsimp only
  rw [hbase]
  dsimp only
  rw [if_pos ⟨hname, by simp [hcheck]⟩]

/-- At a dereference that looks into `GEPS`, a check is inserted exactly if it is empty. -/
theorem visit_asks (tbi : Bool) (hasks : s.func.AsksNested x) :
    (s.pass.geps = [] →
        ∃ i ∈ (visit tbi s x).inserted, i.site = x ∧ i.check = "__nestedGEPCheck") ∧
      (s.pass.geps ≠ [] → (visit tbi s x).inserted = s.inserted) := by
  obtain ⟨g, base, hnested, hname, hcheck⟩ := hasks
  rw [visit_of_nested tbi hnested hname hcheck]
  refine ⟨fun hempty => ?_, fun hgeps => ?_⟩
  · rw [if_pos hempty]
    exact ⟨⟨x, "__nestedGEPCheck", g, 0, s.func.wrapId g 0⟩, by simp [State.wrap], rfl, rfl⟩
  · rw [if_neg hgeps]
    split
    · rfl
    · rfl

/-- The first open nested dereference. -/
theorem exists_first_open {F : Func} (h : ¬ F.NestedClosed) :
    ∃ W x B, F.ids = W ++ x :: B ∧ F.MayAsk x ∧ ∀ y ∈ W, ¬ F.MayAsk y ∧ ¬ F.Clears y := by
  simp only [Func.NestedClosed, not_forall, not_exists, not_and] at h
  obtain ⟨V, z, C, hids, hmay, hV⟩ := h
  rcases first_or_none F.MayAsk (V ++ [z]) with hnone | ⟨W, x, U, hsplit, hx, hW⟩
  · exact absurd hmay (hnone z (by simp))
  · have hsub : ∀ y ∈ W, y ∈ V := by
      intro y hy
      have hmem : y ∈ V ++ [z] := by simp [hsplit, hy]
      rcases List.mem_append.1 hmem with hmem | hmem
      · exact hmem
      · rw [List.mem_singleton.1 hmem] at hy
        exact absurd hmay (hW z hy)
    refine ⟨W, x, U ++ C, ?_, hx, fun y hy => ⟨hW y hy, hV y (hsub y hy)⟩⟩
    rw [hids, ← List.singleton_append, ← List.append_assoc, hsplit]
    simp

/-- **A function with an open nested dereference** loses a check when something is left in `GEPS`. -/
theorem visited_open (hwf : F₀.WellFormed) (hplain : F₀.Plain) (hopen : ¬ F₀.NestedClosed)
    (hs : s.func = F₀) (h : Alike false s t) (hfresh : s.inserted = []) (hempty : s.pass.geps = [])
    (hgeps : t.pass.geps ≠ []) :
    (visited true s F₀.ids).inserted ≠ (visited true t F₀.ids).inserted := by
  obtain ⟨W, x, B, hids, hmay, hW⟩ := exists_first_open hopen
  obtain ⟨hxW, hxB⟩ := fresh_of_split hwf hids
  have hlt : ∀ y ∈ F₀.ids, y < F₀.next := hwf.ids_lt
  have hx : x < F₀.next := hlt x (by simp [hids])
  have hquiet : ∀ y ∈ W, y ≠ x ∧ ¬ F₀.MayAsk y ∧ ¬ F₀.Clears y ∧ y < F₀.next := fun y hy =>
    ⟨fun he => hxW (he ▸ hy), (hW y hy).1, (hW y hy).2, hlt y (by simp [hids, hy])⟩
  have ht : t.func = F₀ := h.func ▸ hs
  have hfront : ∀ {u : State}, u.func = F₀ → Front true F₀ u.func := by
    intro u hu
    rw [hu]
    exact Front.refl true hwf.toLinked
  have hWlt : ∀ y ∈ W, ¬ F₀.MayAsk y ∧ ¬ F₀.Clears y ∧ y < F₀.next := fun y hy => (hquiet y hy).2
  obtain ⟨halike, hgeps₁, hfront₁⟩ := visited_blind hwf W hWlt (hfront hs) h
  obtain ⟨-, hgeps₂, hfront₂⟩ := visited_blind hwf W hWlt (hfront ht) (Alike.refl false t)
  have htarget : Target F₀ x (visited true t W).func := by
    apply Target.run hwf hx hmay.load.1 hmay.load.2 W hquiet (hfront ht) hgeps
    rw [ht]
    exact Target.refl hwf.toLinked x
  -- in front of `x` both runs are at the same function, and look into `GEPS` there
  have hasks₂ := htarget.asksNested hplain hmay
  have hasks₁ : (visited true s W).func.AsksNested x := by
    rw [halike.func]
    exact hasks₂
  obtain ⟨i, hi, hsite, -⟩ := (visit_asks true hasks₁).1 (hgeps₁.trans hempty)
  have hnone := (visit_asks true hasks₂).2 fun he => hgeps (hgeps₂.symm.trans he)
  have hBlt : ∀ y ∈ B, y < F₀.next := fun y hy => hlt y (by simp [hids, hy])
  rw [hids, visited_append, visited_append, visited_cons, visited_cons]
  intro heq
  have hmem := (visited_inserted hwf B hBlt (hfront₁.visit hwf hx)).1 i hi
  rw [heq] at hmem
  rcases (visited_inserted hwf B hBlt (hfront₂.visit hwf hx)).2 i hmem with hmem | hmem
  · rw [hnone, ← halike.inserted] at hmem
    rcases (visited_inserted hwf W (fun y hy => (hWlt y hy).2.2) (hfront hs)).2 i hmem with hold | hold
    · rw [hfresh] at hold
      exact absurd hold List.not_mem_nil
    · exact hxW (hsite ▸ hold)
  · exact hxB (hsite ▸ hmem)

end Blind

/-! ## A function in two modules -/

/-- What the loop over the functions makes of `F`, from the state `m`. -/
def rewritten (optimization tbi : Bool) (m : ModuleState) (F : Func) : Func × List Insertion :=
  if F.layout = [] then (F, [])
  else
    let m := if optimization then optimizer m F else m
    if F.name ∈ avoidList ∨ F.name ∈ m.optimizedList then (F, [])
    else
      let s := visited tbi ⟨F, m.pass, []⟩ F.ids
      (s.func, s.inserted)

section Modules

variable {optimization tbi : Bool} {F : Func} {m : ModuleState}

theorem optimizer_done (optimization : Bool) (m : ModuleState) (F : Func) :
    (if optimization then optimizer m F else m).done = m.done := by
  cases optimization with
  | false => rfl
  | true => rfl

theorem instrumented_done (m : ModuleState) (F : Func) :
    (instrumented optimization tbi m F).done = m.done ++ [rewritten optimization tbi m F] := by
  have hdone := optimizer_done optimization m F
  rw [instrumented, rewritten]
  dsimp only
  generalize (if optimization then optimizer m F else m) = m₁ at hdone ⊢
  split
  · rfl
  · split
    · rw [hdone]
    · rw [hdone]

theorem foldl_instrumented_done :
    ∀ (fs : List Func) (m : ModuleState), ∃ ds : List (Func × List Insertion),
      (fs.foldl (instrumented optimization tbi) m).done = m.done ++ ds ∧ ds.length = fs.length := by
  intro fs
  induction fs with
  | nil => exact fun m => ⟨[], (List.append_nil _).symm, rfl⟩
  | cons F fs ih =>
      intro m
      obtain ⟨ds, hds, hlen⟩ := ih (instrumented optimization tbi m F)
      refine ⟨rewritten optimization tbi m F :: ds, ?_, by simp [hlen]⟩
      rw [List.foldl_cons, hds, instrumented_done]
      simp

/-- The entry of `F` behind the functions `fs`. -/
theorem done_getElem (fs gs : List Func) (F : Func) :
    ((fs ++ F :: gs).foldl (instrumented optimization tbi) ModuleState.start).done[fs.length]? =
      some (rewritten optimization tbi (fs.foldl (instrumented optimization tbi) ModuleState.start) F) := by
  obtain ⟨ds, hds, hlen⟩ :=
    foldl_instrumented_done fs ModuleState.start
  rw [List.foldl_append, List.foldl_cons]
  obtain ⟨es, hes, -⟩ := foldl_instrumented_done gs
    (instrumented optimization tbi (fs.foldl (instrumented optimization tbi) ModuleState.start) F)
  rw [hes, instrumented_done, hds]
  simp [ModuleState.start, hlen]

/-- The state of the pass knows nothing of `F`. -/
structure Unseen (F : Func) (m : ModuleState) : Prop where
  apart : F.name ≠ "" → ∀ p ∈ m.pass.pointers, p.fn ≠ F.name
  listed : ∀ n ∈ m.optimizedList, n = F.name → n = ""
  nameless : "" ∈ m.optimizedList

theorem Unseen.start (F : Func) : Unseen F ModuleState.start where
  apart := fun _ _ hp => absurd hp List.not_mem_nil
  listed := fun _ hn _ => List.mem_singleton.1 hn
  nameless := List.mem_singleton.2 rfl

theorem Unseen.optimizer (h : Unseen F m) (optimization : Bool) {G : Func}
    (hname : G.name = F.name → G.name = "") :
    Unseen F (if optimization then optimizer m G else m) := by
  cases optimization with
  | false => exact h
  | true =>
      have hmem : ∀ n, n ∈ (PTAuth.Pass.optimizer m G).optimizedList →
          n ∈ m.optimizedList ∨ n = G.name := by
        intro n hn
        simp only [PTAuth.Pass.optimizer] at hn
        split at hn
        · simpa using hn
        · exact Or.inl hn
      refine ⟨h.apart, fun n hn hF => ?_, ?_⟩
      · rcases hmem n hn with hn | rfl
        · exact h.listed n hn hF
        · exact hname hF
      · show "" ∈ (PTAuth.Pass.optimizer m G).optimizedList
        simp only [PTAuth.Pass.optimizer]
        split
        · exact List.mem_append_left _ h.nameless
        · exact h.nameless

/-- **One other function.** -/
theorem Unseen.step (h : Unseen F m) {G : Func} (hname : G.name = F.name → G.name = "") :
    Unseen F (instrumented optimization tbi m G) := by
  have hopt := h.optimizer optimization hname
  rw [instrumented]
  dsimp only
  generalize (if optimization then PTAuth.Pass.optimizer m G else m) = m₁ at hopt ⊢
  split
  · exact ⟨h.apart, h.listed, h.nameless⟩
  · split
    · exact ⟨hopt.apart, hopt.listed, hopt.nameless⟩
    · rename_i hskip
      rw [not_or] at hskip
      refine ⟨fun hF => ?_, hopt.listed, hopt.nameless⟩
      -- a nameless `G` is on the list from the start, so `G` has a name, and not that of `F`
      have hstart : State.Apart F.name ⟨G, m₁.pass, []⟩ := by
        refine ⟨fun he => ?_, hopt.apart hF⟩
        apply hskip.2
        rw [hname he]
        exact hopt.nameless
      exact (visited_apart hstart tbi G.ids).entries

theorem Unseen.run : ∀ {fs : List Func} {m : ModuleState}, Unseen F m →
    (∀ G ∈ fs, G.name = F.name → G.name = "") →
      Unseen F (fs.foldl (instrumented optimization tbi) m) := by
  intro fs
  induction fs with
  | nil => exact fun h _ => h
  | cons G fs ih =>
      intro m h hfs
      exact ih (h.step (hfs G List.mem_cons_self)) fun H hH => hfs H (List.mem_cons_of_mem G hH)

/-- Functions that the pass leaves alone wherever they stand: declarations, functions on
`avoidList`, functions without a name. -/
def Func.LeftAlone (F : Func) : Prop := F.layout = [] ∨ F.name ∈ avoidList ∨ F.name = ""

/-- The functions that are walked. -/
theorem rewritten_eq (tbi : Bool) (h : Unseen F m) :
    ∃ p : PassState, p.geps = m.pass.geps ∧ State.own ⟨F, p, []⟩ = State.own ⟨F, m.pass, []⟩ ∧
      (F.LeftAlone ∨ (optimization = true ∧ optimized F = true) →
        rewritten optimization tbi m F = (F, [])) ∧
      (¬ (F.LeftAlone ∨ (optimization = true ∧ optimized F = true)) →
        rewritten optimization tbi m F =
          ((visited tbi ⟨F, p, []⟩ F.ids).func, (visited tbi ⟨F, p, []⟩ F.ids).inserted)) := by
  refine ⟨(if optimization then optimizer m F else m).pass, ?_, ?_, ?_⟩
  · cases optimization with
    | false => rfl
    | true => rfl
  · cases optimization with
    | false => rfl
    | true => rfl
  · have hmem : F.name ∈ (if optimization then optimizer m F else m).optimizedList ↔
        F.name = "" ∨ (optimization = true ∧ optimized F = true) := by
      have hlisted : F.name ∈ m.optimizedList ↔ F.name = "" :=
        ⟨fun hn => h.listed _ hn rfl, fun he => he ▸ h.nameless⟩
      cases optimization with
      | false => simpa using hlisted
      | true =>
          simp only [if_true, optimizer, true_and]
          rw [← hlisted, optimized]
          split
          · rename_i hclear
            simp [hclear]
          · rename_i hclear
            simp [hclear]
    have hiff : F.LeftAlone ∨ (optimization = true ∧ optimized F = true) ↔
        F.layout = [] ∨ F.name ∈ avoidList ∨
          F.name ∈ (if optimization then optimizer m F else m).optimizedList := by
      rw [Func.LeftAlone, hmem, or_assoc, or_assoc]
    rw [hiff, rewritten]
    dsimp only
    generalize (if optimization then optimizer m F else m) = m₁
    by_cases hlayout : F.layout = []
    · rw [if_pos hlayout]
      exact ⟨fun _ => rfl, fun hnot => absurd (Or.inl hlayout) hnot⟩
    · rw [if_neg hlayout, or_iff_right hlayout]
      exact ⟨fun hskip => if_pos hskip, fun hskip => if_neg hskip⟩

end Modules

/-- The pass makes the same of `F` in every module that contains it. -/
def Func.Independent (optimization : Bool) (F : Func) : Prop :=
  ∀ fs₁ gs₁ fs₂ gs₂, WellFormedModule (fs₁ ++ F :: gs₁) → WellFormedModule (fs₂ ++ F :: gs₂) →
    ∃ N, ∀ fuel, N ≤ fuel → ∃ m₁ m₂,
      instrumentModule optimization true fuel (fs₁ ++ F :: gs₁) = some m₁ ∧
        instrumentModule optimization true fuel (fs₂ ++ F :: gs₂) = some m₂ ∧
        m₁.done[fs₁.length]? = m₂.done[fs₂.length]?

/-- The entries of `F` in two modules, after long enough runs. -/
theorem exists_entries (optimization : Bool) {F : Func} {fs₁ gs₁ fs₂ gs₂ : List Func}
    (h₁ : WellFormedModule (fs₁ ++ F :: gs₁)) (h₂ : WellFormedModule (fs₂ ++ F :: gs₂)) :
    ∃ N, ∀ fuel, N ≤ fuel → ∃ m₁ m₂,
      instrumentModule optimization true fuel (fs₁ ++ F :: gs₁) = some m₁ ∧
        instrumentModule optimization true fuel (fs₂ ++ F :: gs₂) = some m₂ ∧
        m₁.done[fs₁.length]? = some (rewritten optimization true
          (fs₁.foldl (instrumented optimization true) ModuleState.start) F) ∧
        m₂.done[fs₂.length]? = some (rewritten optimization true
          (fs₂.foldl (instrumented optimization true) ModuleState.start) F) := by
  obtain ⟨N, hN⟩ := instrumentModule_eq optimization true ModuleState.start h₁.wellFormed
  obtain ⟨M, hM⟩ := instrumentModule_eq optimization true ModuleState.start h₂.wellFormed
  exact ⟨N + M, fun fuel hfuel => ⟨_, _, hN fuel (by omega), hM fuel (by omega),
    done_getElem fs₁ gs₁ F, done_getElem fs₂ gs₂ F⟩⟩

/-- In a module, the functions before `F` leave nothing of `F` behind. -/
theorem WellFormedModule.unseen {F : Func} {fs gs : List Func}
    (h : WellFormedModule (fs ++ F :: gs)) (optimization : Bool) :
    Unseen F (fs.foldl (instrumented optimization true) ModuleState.start) := by
  apply (Unseen.start F).run
  intro G hG hname
  exact (List.pairwise_append.1 h.names).2.2 G hG F List.mem_cons_self hname

/-- Two walks over `F` behind functions that leave nothing of it behind. -/
theorem alike_of_unseen {F : Func} (hF : F.name ≠ "") {m₁ m₂ : ModuleState} (h₁ : Unseen F m₁)
    (h₂ : Unseen F m₂) {p₁ p₂ : PassState}
    (hp₁ : State.own ⟨F, p₁, []⟩ = State.own ⟨F, m₁.pass, []⟩)
    (hp₂ : State.own ⟨F, p₂, []⟩ = State.own ⟨F, m₂.pass, []⟩) :
    Alike false ⟨F, p₁, []⟩ ⟨F, p₂, []⟩ := by
  have hown : ∀ {m : ModuleState}, Unseen F m → State.own ⟨F, m.pass, []⟩ = [] := by
    intro m hm
    rw [State.own, List.filter_eq_nil_iff]
    exact fun q hq hfn => hm.apart hF q hq (beq_iff_eq.1 hfn)
  refine ⟨rfl, rfl, ?_, fun h => absurd h (by decide)⟩
  rw [hp₁, hp₂, hown h₁, hown h₂]

theorem independent_of_closed {optimization : Bool} {F : Func} (hwf : F.WellFormed)
    (h : F.LeftAlone ∨ F.NestedClosed) : F.Independent optimization := by
  intro fs₁ gs₁ fs₂ gs₂ hm₁ hm₂
  obtain ⟨N, hN⟩ := exists_entries optimization hm₁ hm₂
  refine ⟨N, fun fuel hfuel => ?_⟩
  obtain ⟨m₁, m₂, hrun₁, hrun₂, hentry₁, hentry₂⟩ := hN fuel hfuel
  refine ⟨m₁, m₂, hrun₁, hrun₂, ?_⟩
  rw [hentry₁, hentry₂]
  have hu₁ := hm₁.unseen optimization
  have hu₂ := hm₂.unseen optimization
  obtain ⟨p₁, -, hown₁, hskip₁, hwalk₁⟩ := rewritten_eq true hu₁
  obtain ⟨p₂, -, hown₂, hskip₂, hwalk₂⟩ := rewritten_eq true hu₂
  by_cases hskip : F.LeftAlone ∨ (optimization = true ∧ optimized F = true)
  · rw [hskip₁ hskip, hskip₂ hskip]
  · rw [hwalk₁ hskip, hwalk₂ hskip]
    have hF : F.name ≠ "" := fun he => hskip (Or.inl (Or.inr (Or.inr he)))
    have hclosed := h.resolve_left fun hleft => hskip (Or.inl hleft)
    have halike := visited_closed hwf hclosed rfl (alike_of_unseen hF hu₁ hu₂ hown₁ hown₂)
    rw [halike.func, halike.inserted]

/-! ### A function behind another -/

/-- `void f(int **p) { &p[1][1]; }` -/
def nestedGEP (name : String) : Func :=
  Func.ofInstrs name [[0, 1, 2, 3]]
    [⟨.gep, [⟨.argument "p", .ptr (.ptr (.int 32))⟩, ⟨.constantInt 1, .int 64⟩],
        .ptr (.ptr (.int 32)), ""⟩,
      ⟨.load, [⟨.inst 0, .ptr (.ptr (.int 32))⟩], .ptr (.int 32), ""⟩,
      ⟨.gep, [⟨.inst 1, .ptr (.int 32)⟩, ⟨.constantInt 1, .int 64⟩], .ptr (.int 32), ""⟩,
      ⟨.ret, [], .other "void", ""⟩]

theorem nestedGEP_wellFormed {name : String} (hname : name ∈ ["first", "second"]) :
    (nestedGEP name).WellFormed := by
  simp only [List.mem_cons, List.not_mem_nil, or_false] at hname
  rcases hname with rfl | rfl
  · exact Func.wellFormed_ofInstrs (by decide) (by decide) (by decide)
  · exact Func.wellFormed_ofInstrs (by decide) (by decide) (by decide)

/-- It leaves the type of its base in `GEPS`. -/
theorem nestedGEP_geps (optimization : Bool) {name : String} (hname : name ∈ ["first", "second"]) :
    (instrumented optimization true ModuleState.start (nestedGEP name)).pass.geps ≠ [] := by
  simp only [List.mem_cons, List.not_mem_nil, or_false] at hname
  rcases hname with rfl | rfl
  · cases optimization with
    | false => decide +kernel
    | true => decide +kernel
  · cases optimization with
    | false => decide +kernel
    | true => decide +kernel

/-- Functions that `optimizer` lists have no nested dereference. -/
theorem nestedClosed_of_optimized {F : Func} (h : optimized F = true) : F.NestedClosed := by
  rintro W x B hids ⟨g, base, ⟨hop, ⟨p, g₂, hp, -, hcast, -⟩, ⟨j, huse⟩, hgep⟩, -⟩
  have hcalm := optimized_iff.1 h x (by simp [hids])
  exact absurd hcast (hcalm.nested p (g, j) g₂ hop hp huse hgep)

/-- Behind `nestedGEP` a plain function with an open nested dereference loses a check. -/
theorem closed_of_independent {optimization : Bool} {F : Func} (hwf : F.WellFormed)
    (hplain : F.Plain) (h : F.Independent optimization) : F.LeftAlone ∨ F.NestedClosed := by
  by_contra hnot
  rw [not_or] at hnot
  have hF : F.name ≠ "" := fun he => hnot.1 (Or.inr (Or.inr he))
  -- one of the two names is not that of `F`; behind this function `F` is walked differently
  obtain ⟨name, hmem, hne⟩ : ∃ name ∈ ["first", "second"], name ≠ F.name := by
    by_cases hfirst : F.name = "first"
    · refine ⟨"second", by decide, ?_⟩
      rw [hfirst]
      decide
    · exact ⟨"first", by decide, fun he => hfirst he.symm⟩
  have hm₁ : WellFormedModule ([] ++ F :: []) := by
    refine ⟨fun G hG => ?_, List.pairwise_singleton _ _⟩
    rw [List.mem_singleton.1 hG]
    exact hwf
  have hm₂ : WellFormedModule ([nestedGEP name] ++ F :: []) := by
    refine ⟨fun G hG => ?_, List.pairwise_pair.2 fun he => absurd he hne⟩
    rcases List.mem_cons.1 hG with rfl | hG
    · exact nestedGEP_wellFormed hmem
    · rw [List.mem_singleton.1 hG]
      exact hwf
  obtain ⟨N, hN⟩ := h [] [] [nestedGEP name] [] hm₁ hm₂
  obtain ⟨M, hM⟩ := exists_entries optimization hm₁ hm₂
  obtain ⟨m₁, m₂, hrun₁, hrun₂, heq⟩ := hN (N + M) (Nat.le_add_right N M)
  obtain ⟨m₁', m₂', hrun₁', hrun₂', hentry₁, hentry₂⟩ := hM (N + M) (Nat.le_add_left M N)
  obtain rfl := Option.some.inj (hrun₁.symm.trans hrun₁')
  obtain rfl := Option.some.inj (hrun₂.symm.trans hrun₂')
  rw [hentry₁, hentry₂] at heq
  have hu₁ := hm₁.unseen optimization
  have hu₂ := hm₂.unseen optimization
  obtain ⟨p₁, hgeps₁, hown₁, -, hwalk₁⟩ := rewritten_eq true hu₁
  obtain ⟨p₂, hgeps₂, hown₂, -, hwalk₂⟩ := rewritten_eq true hu₂
  have hskip : ¬ (F.LeftAlone ∨ (optimization = true ∧ optimized F = true)) := by
    rintro (hleft | ⟨-, hopt⟩)
    · exact hnot.1 hleft
    · exact hnot.2 (nestedClosed_of_optimized hopt)
  rw [hwalk₁ hskip, hwalk₂ hskip] at heq
  refine visited_open (s := ⟨F, p₁, []⟩) hwf hplain hnot.2 rfl
    (alike_of_unseen hF hu₁ hu₂ hown₁ hown₂) rfl hgeps₁ (fun he => ?_)
    (congrArg Prod.snd (Option.some.inj heq))
  exact nestedGEP_geps optimization hmem (hgeps₂.symm.trans he)

/-- **Context independence.** The pass makes the same of a function in every module if it leaves the
function alone or every nested dereference stands behind a clearing call; for plain functions only
then. -/
theorem independent_iff (optimization : Bool) {F : Func} (hwf : F.WellFormed) :
    (F.LeftAlone ∨ F.NestedClosed → F.Independent optimization) ∧
      (F.Plain → (F.Independent optimization ↔ F.LeftAlone ∨ F.NestedClosed)) :=
  ⟨independent_of_closed hwf, fun hplain =>
    ⟨closed_of_independent hwf hplain, independent_of_closed hwf⟩⟩

theorem nestedGEP_plain : (nestedGEP "second").Plain where
  checks := by
    rintro v y returned - ⟨callee, hop, -⟩
    rcases y with _ | _ | _ | _ | y
    all_goals exact absurd hop (by simp [nestedGEP, Func.ofInstrs, Instr.unused])
  names := by
    intro y _
    rcases y with _ | _ | _ | _ | y
    all_goals simp [nestedGEP, Func.ofInstrs, Instr.unused, globalVarsAvoidList]

/-- Its dereference is open. -/
theorem nestedGEP_open : ¬ ((nestedGEP "second").LeftAlone ∨ (nestedGEP "second").NestedClosed) := by
  rintro (hleft | hclosed)
  · exact absurd hleft (by simp [Func.LeftAlone, nestedGEP, Func.ofInstrs, avoidList])
  · have hmay : (nestedGEP "second").MayAsk 1 := by
      refine ⟨2, ⟨.argument "p", .ptr (.ptr (.int 32))⟩, ⟨rfl, ?_, ⟨0, rfl⟩, rfl⟩, ?_,
        Or.inl (by decide)⟩
      · exact ⟨⟨.inst 0, .ptr (.ptr (.int 32))⟩, 0, rfl, by decide +kernel, rfl, rfl⟩
      · rintro ⟨y, hs, -⟩
        cases hs with
        | self hv => cases hv
        | cast hv _ _ _ _ => cases hv
    obtain ⟨c, hc, v, hands⟩ := hclosed [0] 1 [2, 3] rfl hmay
    rw [List.mem_singleton.1 hc] at hands
    obtain ⟨callee, returned, hop⟩ := hands.op
    exact absurd hop (by simp [nestedGEP, Func.ofInstrs])

theorem not_independent : ¬ ∀ F : Func, F.WellFormed → F.Independent true := fun h =>
  nestedGEP_open (closed_of_independent (nestedGEP_wellFormed (by decide)) nestedGEP_plain
    (h (nestedGEP "second") (nestedGEP_wellFormed (by decide))))

theorem nestedGEP_independent_iff :
    ((nestedGEP "second").LeftAlone ∨ (nestedGEP "second").NestedClosed →
        (nestedGEP "second").Independent true) ∧
      ((nestedGEP "second").Plain → ((nestedGEP "second").Independent true ↔
        (nestedGEP "second").LeftAlone ∨ (nestedGEP "second").NestedClosed)) :=
  independent_iff true (nestedGEP_wellFormed (by decide))

end PTAuth.Pass
