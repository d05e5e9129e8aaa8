import PTAuth.Pass.Accesses

/-!
# What is behind an operand

Once an operand is wrapped, it is `Sealed`: behind casts a runtime call, which no handler looks
through. What a walk makes of a function has its own operands, or sealed ones in their places, and a
load that is used as at the start has its own use list (`Traced`).
-/

set_option autoImplicit false

namespace PTAuth.Pass

/-! ## Sealed values -/

section Sealed

variable {F G : Func} {v : Value} {y : Nat}

/-- The value is, behind casts, a call of a runtime function. -/
def Func.Sealed (F : Func) (v : Value) : Prop := ∃ z f, CastsTo F v z ∧ (F.instr z).op = runtimeCall f

/-- It is a cast or a runtime call. -/
theorem Func.Sealed.inst (h : F.Sealed v) :
    ∃ z, v.ref = .inst z ∧ ((F.instr z).op = .bitcast ∨ ∃ f, (F.instr z).op = runtimeCall f) := by
  obtain ⟨z, f, hcasts, hop⟩ := h
  cases hcasts with
  | self hv => exact ⟨z, hv, Or.inr ⟨f, hop⟩⟩
  | cast hv hcast _ _ => exact ⟨_, hv, Or.inl hcast⟩

/-- It is of no other class. -/
theorem Func.Sealed.dynCast (h : F.Sealed v) {is : Op → Bool} (hcast : is .bitcast = false)
    (hcall : ∀ f, is (runtimeCall f) = false) : F.dynCast is v = none := by
  obtain ⟨z, hv, hop | ⟨f, hop⟩⟩ := h.inst
  · simp [Func.dynCast, hv, hop, hcast]
  · simp [Func.dynCast, hv, hop, hcall f]

/-- Nothing is seen through the call. -/
theorem Func.Sealed.not_strips (h : F.Sealed v) (hy : (F.instr y).op = .load) : ¬ Strips F v y := by
  obtain ⟨z, f, hcasts, hop⟩ := h
  intro hs
  induction hcasts with
  | self hv =>
      cases hs with
      | self hv' =>
          obtain rfl := Ref.inst.inj (hv.symm.trans hv')
          exact absurd (hy.symm.trans hop) (by simp [runtimeCall])
      | cast hv' hc _ _ =>
          obtain rfl := Ref.inst.inj (hv.symm.trans hv')
          rw [Func.Carries, hop] at hc
          exact absurd hc (by simp [runtimeCall])
  | cast hv hcast hw _ ih =>
      cases hs with
      | self hv' =>
          obtain rfl := Ref.inst.inj (hv.symm.trans hv')
          exact absurd (hy.symm.trans hcast) (by simp)
      | cast hv' hc hw' hs' =>
          obtain rfl := Ref.inst.inj (hv.symm.trans hv')
          rw [Func.Carries, hcast] at hc
          rw [show _ = 0 from hc, hw] at hw'
          obtain rfl := Option.some.inj hw'
          exact ih hop hs'

/-- Casts and the operations of instructions are kept, so sealed values are. -/
theorem Func.Sealed.mono (h : F.Sealed v)
    (hcast : ∀ z, (F.instr z).op = .bitcast → G.instr z = F.instr z)
    (hcall : ∀ z f, (F.instr z).op = runtimeCall f → (G.instr z).op = runtimeCall f) :
    G.Sealed v := by
  obtain ⟨z, f, hcasts, hop⟩ := h
  exact ⟨z, f, hcasts.mono hcast, hcall z f hop⟩

end Sealed

/-! ## What a walk makes of a function -/

/-- `G` has the operands of `F` that are instructions, or sealed ones in their places; of loads and
GEPs it has all operands but the first, and all other instructions of `F` but direct calls; and
loads that are used as in `F` have their use lists. -/
structure Traced (tbi : Bool) (F G : Func) : Prop where
  decorated : ∃ pre, Decorated tbi F pre G
  heads : Heads F G
  operand : ∀ x k v y, F.operand x k = some v → v.ref = .inst y →
    G.operand x k = some v ∨ ∃ w, G.operand x k = some w ∧ G.Sealed w
  index : ∀ y k, (F.instr y).op = .load ∨ (F.instr y).op = .gep →
    G.operand y (k + 1) = F.operand y (k + 1)
  settled : ∀ y < F.next, (F.instr y).op ≠ .load → (F.instr y).op ≠ .gep →
    (∀ callee returned, (F.instr y).op ≠ .call (some callee) returned) → G.instr y = F.instr y
  users : ∀ l, (F.instr l).op = .load →
    (∀ x k v, F.operand x k = some v → v.ref = .inst l → G.operand x k = some v) →
    G.users l = F.users l

theorem Traced.refl (tbi : Bool) {F : Func} (hF : F.Linked) : Traced tbi F F where
  decorated := ⟨_, Decorated.refl hF⟩
  heads := Heads.refl F
  operand := fun _ _ _ _ hv _ => Or.inl hv
  index := fun _ _ _ => rfl
  settled := fun _ _ _ _ _ => rfl
  users := fun _ _ _ => rfl

section Traced

variable {tbi : Bool} {F G : Func} {s t : State} {x y k l : Nat} {f : String}

/-- A rewrite keeps what is sealed. -/
theorem Decorated.sealed_wrap {pre : Nat → List Nat} (hd : Decorated tbi F pre s.func)
    (hx : x < F.next) (hw : Wrap tbi s.func x f y k) {v : Value} (h : s.func.Sealed v) :
    (s.wrap x f y k).func.Sealed v := by
  have hstep : Steps tbi x s (s.wrap x f y k) := .wrap .refl hw
  obtain ⟨u, -, hwrapped⟩ := hd.wrapped hx hw
  apply h.mono
  · exact fun z hz => hstep.bitcast_eq hd hx hz
  · intro z g hz
    rw [← hz]
    exact hwrapped.op_eq (hd.linked.lt_of_op (by simp [hz, runtimeCall]))

theorem Steps.sealed {pre : Nat → List Nat} (h : Steps tbi x s t)
    (hd : Decorated tbi F pre s.func) (hx : x < F.next) {v : Value} (hv : s.func.Sealed v) :
    t.func.Sealed v := by
  induction h with
  | refl => exact hv
  | wrap hst hw ih =>
      obtain ⟨pre', hd', -⟩ := hst.decorated hd hx
      exact hd'.sealed_wrap hx hw ih
  | pass p _ ih => exact ih

section Wrap

variable (h : Traced tbi F s.func) (hx : x < F.next) (hw : Wrap tbi s.func x f y k)

include h hx hw

/-- The new operand is sealed if the old one is an instruction; the others stay. -/
theorem Traced.wrap_operand {x' k' z : Nat} {v : Value} (hv : F.operand x' k' = some v)
    (hz : v.ref = .inst z) :
    (s.wrap x f y k).func.operand x' k' = some v ∨
      ∃ w, (s.wrap x f y k).func.operand x' k' = some w ∧ (s.wrap x f y k).func.Sealed w := by
  obtain ⟨pre, hd⟩ := h.decorated
  obtain ⟨u, hu, hwrapped⟩ := hd.wrapped hx hw
  by_cases hsame : x' = y ∧ k' = k
  · obtain ⟨rfl, rfl⟩ := hsame
    have hsealed : ∀ {z : Nat}, u.ref = .inst z → ∃ w,
        (s.wrap x f x' k').func.operand x' k' = some w ∧ (s.wrap x f x' k').func.Sealed w := by
      intro z hz
      obtain ⟨-, w, hw', -⟩ := hwrapped.new
      obtain ⟨c, -, hcasts, hop, -⟩ := hwrapped.check z hz w hw'
      exact ⟨w, hw', c, f, hcasts, hop⟩
    apply Or.inr
    rcases h.operand x' k' v z hv hz with hsv | ⟨w, hsw, hws⟩
    · obtain rfl := Option.some.inj (hu.symm.trans hsv)
      exact hsealed hz
    · obtain rfl := Option.some.inj (hu.symm.trans hsw)
      obtain ⟨c, hc, -⟩ := hws.inst
      exact hsealed hc
  · have hlt : x' < s.func.next := Nat.lt_of_lt_of_le (hd.base.lt_of_operand hv) hd.next_le
    have hsame' : (s.wrap x f y k).func.operand x' k' = s.func.operand x' k' :=
      hwrapped.operand_eq hlt hsame
    rw [hsame']
    rcases h.operand x' k' v z hv hz with hsv | ⟨w, hsw, hws⟩
    · exact Or.inl hsv
    · exact Or.inr ⟨w, hsw, hd.sealed_wrap hx hw hws⟩

/-- Arguments of calls aside, only first operands are wrapped. -/
theorem Traced.wrap_index {z j : Nat} (hop : (F.instr z).op = .load ∨ (F.instr z).op = .gep) :
    (s.wrap x f y k).func.operand z (j + 1) = F.operand z (j + 1) := by
  obtain ⟨pre, hd⟩ := h.decorated
  obtain ⟨u, hu, hwrapped⟩ := hd.wrapped hx hw
  have hz : z < F.next := hop.elim hd.base.lt_of_load hd.base.lt_of_gep
  rw [← h.index z j hop]
  apply hwrapped.operand_eq (Nat.lt_of_lt_of_le hz hd.next_le)
  rintro ⟨rfl, rfl⟩
  cases hw with
  | xpac _ hs _ =>
      obtain ⟨-, callee, returned, hc, -⟩ := hs
      have hcall := (hd.op x hz).symm.trans hc
      rcases hop with hop | hop
      · exact absurd (hop.symm.trans hcall) (by simp)
      · exact absurd (hop.symm.trans hcall) (by simp)

/-- Only loads, GEPs and direct calls are rewritten. -/
theorem Traced.wrap_settled {z : Nat} (hz : z < F.next) (hload : (F.instr z).op ≠ .load)
    (hgep : (F.instr z).op ≠ .gep)
    (hcall : ∀ callee returned, (F.instr z).op ≠ .call (some callee) returned) :
    (s.wrap x f y k).func.instr z = F.instr z := by
  obtain ⟨pre, hd⟩ := h.decorated
  obtain ⟨u, hu, hwrapped⟩ := hd.wrapped hx hw
  rw [← h.settled z hz hload hgep hcall]
  apply hwrapped.instr z (Nat.lt_of_lt_of_le hz hd.next_le)
  rintro rfl
  have hop := hd.op z hz
  cases hw with
  | nested hl _ _ _ => exact hload (hop.symm.trans hl)
  | gep _ hg _ _ _ => exact hgep (hop.symm.trans hg)
  | xpac _ hs _ =>
      obtain ⟨-, callee, returned, hc, -⟩ := hs
      exact hcall callee returned (hop.symm.trans hc)
  | argument htake _ _ => exact hload (hop.symm.trans htake.load)

/-- The use list of a load changes only if one of its uses is rewritten. -/
theorem Traced.wrap_users (hl : (F.instr l).op = .load)
    (huses : ∀ x' k' v, F.operand x' k' = some v → v.ref = .inst l →
      (s.wrap x f y k).func.operand x' k' = some v) :
    (s.wrap x f y k).func.users l = F.users l := by
  obtain ⟨pre, hd⟩ := h.decorated
  obtain ⟨u, hu, hwrapped⟩ := hd.wrapped hx hw
  have hllt := hd.base.lt_of_load hl
  have hllt' := Nat.lt_of_lt_of_le hllt hd.next_le
  -- the rewritten operand is no use of `l`, for it is not as in `F`
  have hne : ∀ v, F.operand y k = some v → v.ref ≠ .inst l := by
    intro v hv hvl
    obtain ⟨z, w, hw', hwz, hz, -⟩ := hwrapped.new
    obtain rfl := Option.some.inj ((huses y k v hv hvl).symm.trans hw')
    obtain rfl := Ref.inst.inj (hvl.symm.trans hwz)
    exact absurd hllt' (Nat.not_lt.2 hz)
  have hul : u.ref ≠ .inst l := fun hul =>
    hne u (hd.operand_original (hd.target_lt hx hw) hu hul hllt) hul
  rw [← h.users l hl]
  · exact hwrapped.users l hllt' hul
  · intro x' k' v hv hvl
    rw [← huses x' k' v hv hvl]
    symm
    apply hwrapped.operand_eq (Nat.lt_of_lt_of_le (hd.base.lt_of_operand hv) hd.next_le)
    rintro ⟨rfl, rfl⟩
    exact hne v hv hvl

/-- **One rewrite.** -/
theorem Traced.wrap : Traced tbi F (s.wrap x f y k).func := by
  obtain ⟨pre, hd⟩ := h.decorated
  have hstep : Steps tbi x s (s.wrap x f y k) := .wrap .refl hw
  obtain ⟨pre', hd', -⟩ := hstep.decorated hd hx
  exact
    { decorated := ⟨pre', hd'⟩
      heads := hstep.heads hd hx h.heads
      operand := fun _ _ _ _ => h.wrap_operand hx hw
      index := fun _ _ => h.wrap_index hx hw
      settled := fun _ => h.wrap_settled hx hw
      users := fun _ => h.wrap_users hx hw }

end Wrap

/-- **The rewrites of a handler.** -/
theorem Steps.traced (h : Steps tbi x s t) (hs : Traced tbi F s.func) (hx : x < F.next) :
    Traced tbi F t.func := by
  induction h with
  | refl => exact hs
  | wrap _ hw ih => exact ih.wrap hx hw
  | pass p _ ih => exact ih

/-- A chain of casts of `F` is one of `G` where its operands are. -/
theorem Traced.carries (h : Traced tbi F G) (hy : y < F.next) (hc : F.Carries y k) :
    G.Carries y k := by
  obtain ⟨pre, hd⟩ := h.decorated
  have hop := hd.op y hy
  rw [Func.Carries] at hc ⊢
  rw [hop]
  cases hop₀ : (F.instr y).op with
  | gep =>
      simp only [hop₀] at hc ⊢
      refine ⟨?_, hc.2⟩
      have htail : (G.instr y).operands.tail = (F.instr y).operands.tail := by
        apply List.ext_getElem?
        intro j
        rw [← List.drop_one, ← List.drop_one, List.getElem?_drop, List.getElem?_drop, Nat.add_comm]
        exact h.index y j (Or.inr hop₀)
      rw [allZeroIndices, htail]
      exact hc.1
  | _ =>
      rw [hop₀] at hc
      exact hc

/-- The operand that strips to a load is the one of `F`. -/
theorem Traced.operand_of_strips (h : Traced tbi F G) (hx : x < F.next) {v : Value}
    (hv : G.operand x k = some v) (hl : (G.instr l).op = .load) (hs : Strips G v l) :
    F.operand x k = some v := by
  obtain ⟨pre, hd⟩ := h.decorated
  obtain ⟨v₀, b, hv₀, -, hcopy, -⟩ := hd.operand x hx k v hv
  have hs₀ := hd.strips_original hs (hd.lt_of_load hl) hv₀ hcopy
  obtain ⟨z, hz⟩ : ∃ z, v₀.ref = .inst z := by
    cases hs₀ with
    | self hz => exact ⟨_, hz⟩
    | cast hz _ _ _ => exact ⟨_, hz⟩
  rcases h.operand x k v₀ z hv₀ hz with hsame | ⟨w, hw, hsealed⟩
  · rw [hv] at hsame
    rw [Option.some.inj hsame]
    exact hv₀
  · obtain rfl := Option.some.inj (hv.symm.trans hw)
    exact absurd hs (hsealed.not_strips hl)

end Traced

/-! ## Loads -/

section Loads

variable {tbi : Bool} {F : Func} {s : State} {x l a g : Nat} {p : Value}

/-- `user_back` of `l` is the GEP `g`. -/
def Func.UserBack (F : Func) (l g : Nat) : Prop :=
  (F.instr g).op = .gep ∧ ∃ j, (F.users l).head? = some (g, j)

/-- In front of its rewrites `user_back` of a load is the original one; behind them it is no GEP. -/
theorem Traced.userBack_iff {G : Func} (h : Traced tbi F G) (hwf : F.WellFormed)
    (hl : (F.instr l).op = .load) :
    G.UserBack l g ↔ F.UserBack l g ∧
      ∀ x k v, F.operand x k = some v → v.ref = .inst l → G.operand x k = some v := by
  obtain ⟨pre, hd⟩ := h.decorated
  have hllt := hwf.lt_of_load hl
  constructor
  · rintro ⟨hg, j, hj⟩
    have hglt := hd.lt_of_gep hg
    refine ⟨⟨(hd.op g hglt).symm.trans hg, j, h.heads.head_eq hllt hj hglt⟩, fun x k v hv hvl => ?_⟩
    -- an inserted instruction would be at the head
    have husers : G.users l = F.users l := by
      rcases h.heads l hllt with heq | ⟨u, us, heq, hu⟩
      · exact heq
      · rw [heq, List.head?_cons] at hj
        rw [Option.some.inj hj] at hu
        exact absurd hglt (Nat.not_lt.2 hu)
    have huse := hwf.operand_users x k v l hv hvl
    rw [← husers] at huse
    obtain ⟨w, hw, hwl⟩ := hd.linked.users_operand x k l huse
    have hw₀ := hd.operand_original (hwf.lt_of_operand hv) hw hwl hllt
    obtain rfl := Option.some.inj (hv.symm.trans hw₀)
    exact hw
  · rintro ⟨⟨hg, j, hj⟩, huses⟩
    refine ⟨(hd.op g (hwf.lt_of_gep hg)).trans hg, j, ?_⟩
    rw [h.users l hl huses]
    exact hj

/-- Nothing happens at a load of which the address is no alloca, no GEP, and no load of a slot. -/
theorem visit_of_blocked (hop : (s.func.instr x).op = .load) (hp : s.func.operand x 0 = some p)
    (hslot : s.func.slotOf x = none) (hgep : s.func.dynCast (· == .gep) p = none)
    (hload : ∀ y, s.func.dynCast (· == .load) p = some y → s.func.slotOf y = none) :
    visit tbi s x = s := by
  have hthrough : loadThroughLoad s x = s := by
    rw [loadThroughLoad, hp, Option.bind_some]
    split
    · rfl
    · rename_i y hy
      rw [hload y hy]
  have hcheck : ∀ g, checkNestedGEP (checkGEP s x g) x g = s := by
    intro g
    rw [checkGEP, hslot]
    dsimp only
    rw [checkNestedGEP, hp, Option.bind_some, hgep]
  rw [visit_of_load hop, instrumentLoad, hp]
  dsimp only
  rw [hthrough, loadForGEP]
  split
  · split
    · split
      · exact hcheck _
      · rfl
    · rfl
  · rfl

theorem visit_of_sealed (hop : (s.func.instr x).op = .load) (hp : s.func.operand x 0 = some p)
    (hsealed : s.func.Sealed p) : visit tbi s x = s := by
  apply visit_of_blocked hop hp
  · rw [Func.slotOf, hp, Option.bind_some]
    exact hsealed.dynCast rfl fun _ => rfl
  · exact hsealed.dynCast rfl fun _ => rfl
  · intro y hy
    rw [hsealed.dynCast rfl fun _ => rfl] at hy
    exact absurd hy (by simp)

/-- **At a load of a slot** the handler checks the GEP that is `user_back`. -/
theorem visit_of_userBack (hd : ∃ pre, Decorated tbi F pre s.func) (hwf : F.WellFormed)
    (hl : s.func.LoadOf a l) (hp : s.func.operand l 0 = some p)
    (hsel : loadSelected s.func l p = true) (huse : s.func.UserBack l g) :
    visit tbi s l = checkGEP s l g := by
  obtain ⟨pre, hd⟩ := hd
  obtain ⟨hg, j, hj⟩ := huse
  have hpa : p.ref.isGlobalVariable = false := by
    obtain ⟨w, hw, hwa, -⟩ := Func.slotOf_eq_some.1 hl.2
    obtain rfl := Option.some.inj (hp.symm.trans hw)
    rw [hwa]
    rfl
  have hgl : l ≠ g := by
    rintro rfl
    exact absurd (hl.1.symm.trans hg) (by simp)
  obtain ⟨v, hv, -⟩ := hd.userBack hwf hj hg (loadSelected_ty hsel)
  have hglt : g < s.func.next := Nat.lt_of_lt_of_le (hd.lt_of_gep hg) hd.next_le
  have hllt : l < s.func.next := Nat.lt_of_lt_of_le (hd.lt_of_load hl.1) hd.next_le
  have hslot := checkGEP_slotOf hd.linked hgl hv hglt hllt hl.2
  rw [visit_of_load hl.1, instrumentLoad, hp]
  dsimp only
  rw [if_pos hsel, loadThroughLoad_of_slotOf hl.2, loadForGEP, hj, hp]
  dsimp only
  rw [if_pos ⟨hg, by simp [hpa]⟩]
  exact checkNestedGEP_of_slotOf hslot g

/-- Without one, nothing happens. -/
theorem visit_of_not_userBack (hl : s.func.LoadOf a l) (hp : s.func.operand l 0 = some p)
    (hno : loadSelected s.func l p = true → ∀ g, ¬ s.func.UserBack l g) : visit tbi s l = s := by
  rw [visit_of_load hl.1, instrumentLoad, hp]
  dsimp only
  split
  · rename_i hsel
    rw [loadThroughLoad_of_slotOf hl.2, loadForGEP]
    split
    · rename_i g j _ huse _
      rw [if_neg]
      rintro ⟨hg, -⟩
      exact hno hsel g ⟨hg, j, huse⟩
    · rfl
  · rfl

end Loads

end PTAuth.Pass
