import PTAuth.Pass.Module

/-!
# Skipped functions need no check

A walk over a function on `optimizedList` inserts no authenticating call: no call in it passes a
pointer, so no slot is ever armed, and no load through a GEP feeds a GEP (`Idle`). It leaves `GEPS`
alone, and what it does to `pointers` no later function sees. So the pass makes the same checks with
and without the optimizer (`optimizer_keeps_checks`).

`optimizer` looks at the use list of a load before anything is rewritten, the walk behind rewrites: a
rewrite only ever puts an inserted instruction at the head of the list (`Heads`).
-/

set_option autoImplicit false

namespace PTAuth.Pass

/-! ## Heads of use lists -/

/-- The use of an inserted instruction is at the head of the use list of the wrapped instruction. -/
theorem Func.wrapOperand_head {F : Func} {f : String} {x y k : Nat} {v : Value}
    (hv : F.operand y k = some v) (hvx : v.ref = .inst x) (hx : x < F.next) (hy : y < F.next) :
    ∃ u l, (F.wrapOperand f y k).users x = u :: l ∧ F.next ≤ u.1 := by
  have hset : ∀ (G : Func) (w : Value) (l : List (Nat × Nat)), G.users x = (F.next, 0) :: l →
      G.operand y k = some v → w.ref ≠ .inst x →
      ∃ u l, (G.setOperand y k w).users x = u :: l ∧ F.next ≤ u.1 := by
    intro G w l hl hold hw
    simp only [Func.setOperand, hold]
    rw [addUse_of_ne hw]
    refine ⟨(F.next, 0), l.erase (y, k), ?_, Nat.le_refl _⟩
    have hne : (F.next, 0) ≠ (y, k) := fun h => Nat.ne_of_gt hy (Prod.mk.inj h).1
    simp only [dropUse, hvx, Function.update_self, hl]
    rw [List.erase_cons_tail]
    rw [beq_iff_eq]
    exact hne
  -- the cast back is created on the call, so it is no use of `x`
  have hback : ∀ (G : Func) (w : Value), w.ref = .inst (F.next) ∨ w.ref = .inst (F.next + 1) →
      ∀ ty, F.next + 1 ≤ G.next → G.operand y k = some v →
      (∃ l, G.users x = (F.next, 0) :: l) → ∃ u l,
        ((G.createBitCast y w ty).1.setOperand y k (G.createBitCast y w ty).2).users x = u :: l ∧
          F.next ≤ u.1 := by
    rintro G w hw ty hG hold ⟨l, hl⟩
    have hwx : w.ref ≠ .inst x := by
      intro h
      rcases hw with hw | hw
      all_goals
        have := Ref.inst.inj (h.symm.trans hw)
        omega
    obtain ⟨hgrows, hfresh⟩ := grows_createBitCast G y w ty
    apply hset _ _ l
    · rw [hgrows.users x (by omega) hwx]
      exact hl
    · rw [Func.operand, hgrows.instr y (by omega)]
      exact hold
    · exact fun h => hwx (hfresh x (by omega) h)
  rw [Func.wrapOperand, hv]
  dsimp only [Func.createCall]
  rcases createBitCast_cases F y voidPtrTy hvx with h | h
  · rw [h]
    apply hback _ _ (Or.inl rfl) v.ty (Nat.le_refl _)
    · rw [Func.operand, F.create_instr_of_ne y _ v voidPtrTy (Nat.ne_of_lt hy)]
      exact hv
    · refine ⟨F.users x, ?_⟩
      simp only [Func.create, addUse, hvx, Function.update_self]
      rw [Function.update_of_ne (Nat.ne_of_lt hx)]
  · rw [h]
    have hgrows := (grows_create F y .bitcast v voidPtrTy).trans
      (grows_create (F.create y .bitcast v voidPtrTy) y (.call (some ⟨f, true⟩) none)
        ⟨.inst F.next, voidPtrTy⟩ voidPtrTy)
      fun z hz hzn => absurd (Ref.inst.inj hzn) (Nat.ne_of_gt hz)
    apply hback _ _ (Or.inr rfl) v.ty (Nat.le_succ _)
    · rw [Func.operand, hgrows.instr y hy]
      exact hv
    · refine ⟨F.users x, ?_⟩
      rw [(grows_create (F.create y .bitcast v voidPtrTy) y _ _ voidPtrTy).users x
        (Nat.lt_succ_of_lt hx) fun hzn => absurd (Ref.inst.inj hzn) (Nat.ne_of_gt hx)]
      simp only [Func.create, addUse, hvx, Function.update_self]
      rw [Function.update_of_ne (Nat.ne_of_lt hx)]

/-- Use lists of original instructions are the original ones or begin with an inserted instruction. -/
def Heads (F₀ F : Func) : Prop :=
  ∀ x < F₀.next, F.users x = F₀.users x ∨ ∃ u l, F.users x = u :: l ∧ F₀.next ≤ u.1

theorem Heads.refl (F : Func) : Heads F F := fun _ _ => Or.inl rfl

/-- An original instruction at the head of a use list was there at the start. -/
theorem Heads.head_eq {F₀ F : Func} (h : Heads F₀ F) {x : Nat} (hx : x < F₀.next) {u : Nat × Nat}
    (hu : (F.users x).head? = some u) (hlt : u.1 < F₀.next) : (F₀.users x).head? = some u := by
  rcases h x hx with heq | ⟨w, l, heq, hle⟩
  · rw [← heq]
    exact hu
  · rw [heq, List.head?_cons] at hu
    obtain rfl := Option.some.inj hu
    exact absurd hlt (Nat.not_lt.2 hle)

section Idle

variable {tbi : Bool} {F₀ : Func} {pre : Nat → List Nat} {x : Nat} {s t : State}

theorem Steps.heads (h : Steps tbi x s t) (hd : Decorated tbi F₀ pre s.func) (hx : x < F₀.next)
    (hheads : Heads F₀ s.func) : Heads F₀ t.func := by
  induction h with
  | refl => exact hheads
  | @wrap t f y k hst hw ih =>
      obtain ⟨pre', hd', -⟩ := hst.decorated hd hx
      obtain ⟨v, hv, hwrapped⟩ := hd'.wrapped hx hw
      intro z hz
      have hzlt := Nat.lt_of_lt_of_le hz hd'.next_le
      show (t.func.wrapOperand f y k).users z = _ ∨
        ∃ u l, (t.func.wrapOperand f y k).users z = u :: l ∧ _
      by_cases hvz : v.ref = .inst z
      · have hylt := Nat.lt_of_lt_of_le (hd'.target_lt hx hw) hd'.next_le
        obtain ⟨u, l, hul, hle⟩ := t.func.wrapOperand_head (f := f) hv hvz hzlt hylt
        exact Or.inr ⟨u, l, hul, Nat.le_trans hd'.next_le hle⟩
      · rw [hwrapped.users z hzlt hvz]
        exact ih z hz
  | pass p _ ih => exact ih

/-! ## A walk over a calm function -/

/-- The runtime functions that authenticate. -/
def authenticates (f : String) : Bool := f ∈ ["__loadCheck", "__GEPCheck", "__nestedGEPCheck"]

/-- The rewrites that the optimizer must not lose: authenticating calls, and with Top-Byte Ignore
the calls of `__xpac`. -/
def mustKeep (tbi : Bool) (i : Insertion) : Bool :=
  authenticates i.check || (tbi && i.check == "__xpac")

/-- No slot of the function is armed, `GEPS` is `geps`, and nothing was inserted that must be kept. -/
structure Idle (tbi : Bool) (geps : List GEPProperties) (s : State) : Prop where
  unarmed : ∀ p ∈ s.pass.pointers, p.fn = s.func.name → p.isPassedToFunctionBefore = false
  geps : s.pass.geps = geps
  inserted : ∀ i ∈ s.inserted, mustKeep tbi i = false

variable {geps : List GEPProperties}

theorem Idle.wrap (h : Idle tbi geps s) {f : String} (y k : Nat)
    (hf : mustKeep tbi ⟨x, f, y, k, s.func.wrapId y k⟩ = false) : Idle tbi geps (s.wrap x f y k) where
  unarmed := fun p hp hfn => h.unarmed p hp (hfn.trans (s.func.wrapOperand_name f y k))
  geps := h.geps
  inserted := fun i hi => by
    rcases List.mem_append.1 hi with hi | hi
    · exact h.inserted i hi
    · rw [List.mem_singleton.1 hi]
      exact hf

theorem Idle.not_armed (h : Idle tbi geps s) (a : Nat) : s.pass.pointers.any (s.isArmed a) = false := by
  rw [List.any_eq_false]
  intro p hp harmed
  have hpassed := h.unarmed p hp (State.isArmed_fn harmed)
  rw [State.isArmed, hpassed, Bool.and_false] at harmed
  exact absurd harmed (by decide)

/-- Loads through a loaded pointer get `__noCheck` only. -/
theorem loadThroughLoad_idle (h : Idle tbi geps s) : Idle tbi geps (loadThroughLoad s x) := by
  rw [loadThroughLoad]
  split
  · exact h
  · split
    · exact h
    · rename_i a _
      -- the induction is on the entries; each is unarmed if it is one of the function
      have key : ∀ (l : List PointerProperties) (t : State), Idle tbi geps t →
          (∀ p ∈ l, p.fn = t.func.name → p.isPassedToFunctionBefore = false) →
          Idle tbi geps (l.foldl (fun s p =>
            if s.isEntry a p then
              s.wrap x (if p.isPassedToFunctionBefore then "__loadCheck" else "__noCheck") x 0
            else s) t) := by
        intro l
        induction l with
        | nil => exact fun _ ht _ => ht
        | cons p l ih =>
            intro t ht hl
            rw [List.foldl_cons]
            split
            · rename_i hentry
              rw [hl p List.mem_cons_self (State.isEntry_fn hentry)]
              apply ih
              · apply ht.wrap
                cases tbi with
                | false => rfl
                | true => rfl
              · intro q hq hfn
                rw [State.wrap, Func.wrapOperand_name] at hfn
                exact hl q (List.mem_cons_of_mem p hq) hfn
            · exact ih t ht fun q hq => hl q (List.mem_cons_of_mem p hq)
      exact key _ s h h.unarmed

theorem instrumentLoad_idle (hd : Decorated tbi F₀ pre s.func) (hwf : F₀.WellFormed)
    (hheads : Heads F₀ s.func) (hcalm : F₀.Calm x) (hop : (F₀.instr x).op = .load)
    (h : Idle tbi geps s) : Idle tbi geps (instrumentLoad s x) := by
  have hx := hd.base.lt_of_load hop
  have hops := (hd.op x hx).trans hop
  have hfirst : Idle tbi geps (loadThroughLoad s x) := loadThroughLoad_idle h
  rcases instrumentLoad_cases hd hwf hops with heq | ⟨-, heq | ⟨g, j, v, huse, hgep, -, -, heq⟩⟩
  · rw [heq]
    exact h
  · rw [heq]
    exact hfirst
  · have hsteps : Steps tbi x s (loadThroughLoad s x) :=
      loadThroughLoad_steps (Nat.lt_of_lt_of_le hx hd.next_le) hops
    obtain ⟨pre', hd', -⟩ := hsteps.decorated hd hx
    have hheads' := hsteps.heads hd hx hheads
    rw [heq]
    generalize loadThroughLoad s x = t at *
    have hcheck : checkGEP t x g = t := by
      rw [checkGEP]
      split
      · rfl
      · rename_i a _
        rw [if_neg]
        simp [hfirst.not_armed a]
    -- a GEP in front of the load would be one in the original function, which is calm
    have hnested : (t.func.operand x 0).bind (t.func.dynCast (· == .gep)) = none := by
      rw [Option.eq_none_iff_forall_ne_some]
      intro g₂ hg₂
      obtain ⟨p, hp, hg₂⟩ := Option.bind_eq_some_iff.1 hg₂
      obtain ⟨hpg, hgep₂⟩ := Func.dynCast_eq_some.1 hg₂
      rw [beq_iff_eq] at hgep₂
      have hg := hd'.lt_of_gep hgep
      have hg₂lt := hd'.lt_of_gep hgep₂
      refine hcalm.nested p (g, j) g₂ hop (hd'.operand_original hx hp hpg hg₂lt)
        (hheads'.head_eq hx huse hg) ((hd'.op g hg).symm.trans hgep) ?_
      rw [Func.dynCast_eq_some, beq_iff_eq]
      exact ⟨hpg, (hd'.op g₂ hg₂lt).symm.trans hgep₂⟩
    rw [hcheck, checkNestedGEP, hnested]
    exact hfirst

/-- A call that hands over no pointer passes none. -/
theorem passArgument_of_not_hands {callee : Callee} {returned : Option Nat}
    (hop : (s.func.instr x).op = .call (some callee) returned)
    (havoid : callee.name ∉ functionsAvoidList) (hno : ∀ v, ¬ s.func.Hands x v) (i : Nat) :
    passArgument x s i = s := by
  rw [passArgument]
  split
  · rfl
  · rename_i v hv
    rw [if_neg]
    exact fun hptr => hno v ⟨callee, returned, i, hop, havoid, hv, hptr⟩

theorem instrumentCalls_idle (hd : Decorated tbi F₀ pre s.func) (hcalm : F₀.Calm x)
    (hx : x < F₀.next) {callee : Callee} {returned : Option Nat}
    (hop : (F₀.instr x).op = .call (some callee) returned) (h : Idle tbi geps s) :
    Idle tbi geps (instrumentCalls tbi s x callee) := by
  have hhands : ∀ {p : Nat → List Nat} {t : State}, Decorated tbi F₀ p t.func →
      ∀ v, ¬ t.func.Hands x v := fun ht => ht.not_hands hx hcalm.hands
  have hfirst : Steps tbi x s (externalArguments tbi s x callee) :=
    externalArguments_steps hd hx ((hd.op x hx).trans hop)
  have hidle : Steps tbi x s (externalArguments tbi s x callee) ∧
      Idle tbi geps (externalArguments tbi s x callee) := by
    apply externalArguments_keeps (P := fun t => Steps tbi x s t ∧ Idle tbi geps t) ⟨.refl, h⟩
      ⟨.pass _ .refl, h.unarmed, h.geps, h.inserted⟩
    rintro hdecl havoid t i ⟨hst, ht⟩
    obtain ⟨pre', hd', -⟩ := hst.decorated hd hx
    have hop' := (hd'.op x hx).trans hop
    refine ⟨hst.trans (xpacArgument_steps hop' hdecl havoid), ?_⟩
    cases tbi with
    | true =>
        rw [xpacArgument_of_not_hands hop' (hhands hd')]
        exact ht
    | false =>
        -- without Top-Byte Ignore `__xpac` is no insertion that counts
        rcases xpacArgument_cases false callee.name t x i with heq | ⟨-, -, -, -, heq⟩
        · rw [heq]
          exact ht
        · rw [heq]
          exact ht.wrap x i rfl
  rw [instrumentCalls]
  split
  · rename_i havoid
    obtain ⟨pre', hd', -⟩ := hfirst.decorated hd hx
    have hop' := (hd'.op x hx).trans hop
    rw [List.foldl_fixed' (passArgument_of_not_hands hop' havoid (hhands hd'))]
    exact hidle.2
  · exact hidle.2

/-- **One visit** of a calm function. -/
theorem visit_idle (hwf : F₀.WellFormed) (hd : Decorated tbi F₀ pre s.func)
    (hheads : Heads F₀ s.func) (hcalm : F₀.Calm x) (hx : x < F₀.next) (h : Idle tbi geps s) :
    (∃ pre', Decorated tbi F₀ pre' (visit tbi s x).func) ∧ Heads F₀ (visit tbi s x).func ∧
      Idle tbi geps (visit tbi s x) := by
  have hsteps := visit_steps hd hwf hx
  obtain ⟨pre', hd', -⟩ := hsteps.decorated hd hx
  refine ⟨⟨pre', hd'⟩, hsteps.heads hd hx hheads, ?_⟩
  rw [visit]
  split
  · exact ⟨fun _ hp => absurd hp List.not_mem_nil, h.geps, h.inserted⟩
  · rw [instrumentStore]
    split
    · split
      · refine ⟨fun p hp hfn => ?_, h.geps, h.inserted⟩
        rcases List.mem_append.1 hp with hp | hp
        · exact h.unarmed p hp hfn
        · rw [List.mem_singleton.1 hp]
      · exact h
    · exact h
  · rename_i hop
    exact instrumentLoad_idle hd hwf hheads hcalm ((hd.op x hx).symm.trans hop) h
  · rename_i hop
    exact instrumentCalls_idle hd hcalm hx ((hd.op x hx).symm.trans hop) h
  · exact h

/-- **A walk over a calm function inserts nothing that must be kept.** -/
theorem visited_idle (hwf : F₀.WellFormed) (hcalm : ∀ x ∈ F₀.ids, F₀.Calm x) (hs : s.func = F₀)
    (h : Idle tbi geps s) : Idle tbi geps (visited tbi s F₀.ids) := by
  have key : ∀ (xs : List Nat) (t : State), (∀ x ∈ xs, F₀.Calm x ∧ x < F₀.next) →
      (∃ pre, Decorated tbi F₀ pre t.func) → Heads F₀ t.func → Idle tbi geps t →
      Idle tbi geps (visited tbi t xs) := by
    intro xs
    induction xs with
    | nil => exact fun _ _ _ _ ht => ht
    | cons x xs ih =>
        intro t hxs ⟨pre, hd⟩ hheads ht
        obtain ⟨hcalmx, hx⟩ := hxs x List.mem_cons_self
        obtain ⟨hd', hheads', ht'⟩ := visit_idle hwf hd hheads hcalmx hx ht
        exact ih _ (fun y hy => hxs y (List.mem_cons_of_mem x hy)) hd' hheads' ht'
  apply key _ s (fun x hx => ⟨hcalm x hx, hwf.ids_lt x hx⟩)
  · refine ⟨fun _ => [], ?_⟩
    rw [hs]
    exact Decorated.refl hwf.toLinked
  · exact hs ▸ Heads.refl F₀
  · exact h

end Idle

/-! ## Two passes over a module -/

theorem visited_name {tbi : Bool} {s : State} (hwf : s.func.WellFormed) :
    (visited tbi s s.func.ids).func.name = s.func.name := by
  obtain ⟨pre, hd⟩ := visited_decorated tbi hwf
  exact hd.name

/-- The same function, with the same rewrites that must be kept. -/
def SameChecks (tbi : Bool) (p q : Func × List Insertion) : Prop :=
  p.1.name = q.1.name ∧ p.2.filter (mustKeep tbi) = q.2.filter (mustKeep tbi)

/-- If `optimizer` would list the function, none of its rewrites must be kept. -/
def KeepsNothing (tbi : Bool) (F : Func) (p : Func × List Insertion) : Prop :=
  p.1.name = F.name ∧ (optimized F = true → p.2.filter (mustKeep tbi) = [])

/-- The pass with the optimizer in state `m` and the pass without it in state `m'`, behind the
functions `gone` and in front of the functions `rest`. -/
structure Parallel (tbi : Bool) (gone rest : List Func) (m m' : ModuleState) : Prop where
  done : List.Forall₂ (SameChecks tbi) m.done m'.done
  kept : List.Forall₂ (KeepsNothing tbi) gone m'.done
  geps : m.pass.geps = m'.pass.geps
  apart : ∀ G ∈ rest, G.name ≠ "" → ∀ p ∈ m.pass.pointers, p.fn ≠ G.name
  apart' : ∀ G ∈ rest, G.name ≠ "" → ∀ p ∈ m'.pass.pointers, p.fn ≠ G.name
  listed : ∀ n ∈ m.optimizedList, n = "" ∨ ∀ G ∈ rest, G.name ≠ n
  nameless : "" ∈ m.optimizedList
  listed' : m'.optimizedList = [""]

theorem Parallel.start (tbi : Bool) (fs : List Func) :
    Parallel tbi [] fs ModuleState.start ModuleState.start where
  done := .nil
  kept := .nil
  geps := rfl
  apart := fun _ _ _ _ hp => absurd hp List.not_mem_nil
  apart' := fun _ _ _ _ hp => absurd hp List.not_mem_nil
  listed := fun _ hn => Or.inl (List.mem_singleton.1 hn)
  nameless := List.mem_singleton.2 rfl
  listed' := rfl

/-- What is left of the relation when `done` and the carried state are replaced. -/
theorem Parallel.next {tbi : Bool} {F : Func} {gone rest : List Func} {m m' : ModuleState}
    (h : Parallel tbi gone (F :: rest) m m') {p p' : PassState} {d d' : Func × List Insertion}
    {list : List String} (hlist : ∀ n ∈ list, n ∈ m.optimizedList ∨ n = "" ∨ ∀ G ∈ rest, G.name ≠ n)
    (hnameless : "" ∈ list) (hd : SameChecks tbi d d') (hkept : KeepsNothing tbi F d')
    (hgeps : p.geps = p'.geps)
    (hp : ∀ G ∈ rest, G.name ≠ "" → ∀ q ∈ p.pointers, q.fn ≠ G.name)
    (hp' : ∀ G ∈ rest, G.name ≠ "" → ∀ q ∈ p'.pointers, q.fn ≠ G.name) :
    Parallel tbi (gone ++ [F]) rest ⟨p, list, m.done ++ [d]⟩
      ⟨p', m'.optimizedList, m'.done ++ [d']⟩ where
  done := List.rel_append h.done (.cons hd .nil)
  kept := List.rel_append h.kept (.cons hkept .nil)
  geps := hgeps
  apart := hp
  apart' := hp'
  listed := fun n hn => by
    rcases hlist n hn with hn | hn
    · rcases h.listed n hn with hn | hn
      · exact Or.inl hn
      · exact Or.inr fun G hG => hn G (List.mem_cons_of_mem F hG)
    · exact hn
  nameless := hnameless
  listed' := h.listed'

/-- A walk over `F` from a state without entries of later functions leaves it without. -/
theorem visited_apart_rest {tbi : Bool} {F : Func} {rest : List Func}
    (hnames : ∀ G ∈ rest, F.name = G.name → F.name = "") (hF : F.name ≠ "") {p : PassState}
    (hp : ∀ G ∈ rest, G.name ≠ "" → ∀ q ∈ p.pointers, q.fn ≠ G.name) :
    ∀ G ∈ rest, G.name ≠ "" → ∀ q ∈ (visited tbi ⟨F, p, []⟩ F.ids).pass.pointers,
      q.fn ≠ G.name := by
  intro G hG hne
  have hstart : State.Apart G.name ⟨F, p, []⟩ :=
    ⟨fun hname => hF (hnames G hG hname), hp G hG hne⟩
  exact (visited_apart hstart tbi F.ids).entries

section Step

variable {tbi : Bool} {F : Func} {gone rest : List Func} {m m' : ModuleState}
  (h : Parallel tbi gone (F :: rest) m m')

include h

/-- Without the optimizer only nameless functions are skipped for their names. -/
theorem Parallel.name_ne_nil (hunlisted : F.name ∉ m'.optimizedList) : F.name ≠ "" := by
  intro hname
  rw [h.listed', hname] at hunlisted
  exact hunlisted (by simp)

/-- A function that the optimizer puts on the list: it is skipped, and without the optimizer the walk
is idle. -/
theorem Parallel.step_optimized (hwf : F.WellFormed)
    (hnames : ∀ G ∈ rest, F.name = G.name → F.name = "") (hlayout : F.layout ≠ [])
    (hopt : optimized F = true) :
    Parallel tbi (gone ++ [F]) rest (instrumented true tbi m F) (instrumented false tbi m' F) := by
  have hapart : ∀ G ∈ rest, G.name ≠ "" → ∀ p ∈ m.pass.pointers, p.fn ≠ G.name :=
    fun G hG => h.apart G (List.mem_cons_of_mem F hG)
  have hapart' : ∀ G ∈ rest, G.name ≠ "" → ∀ p ∈ m'.pass.pointers, p.fn ≠ G.name :=
    fun G hG => h.apart' G (List.mem_cons_of_mem F hG)
  have hclear : (optimizerFlags F).clear = true := hopt
  have hmem : F.name ∈ (optimizer m F).optimizedList := by
    simp [optimizer, hclear]
  have hlist : ∀ n ∈ (optimizer m F).optimizedList,
      n ∈ m.optimizedList ∨ n = "" ∨ ∀ G ∈ rest, G.name ≠ n := by
    intro n hn
    simp only [optimizer, hclear, if_true, List.mem_append, List.mem_singleton] at hn
    rcases hn with hn | rfl
    · exact Or.inl hn
    · by_cases hF : F.name = ""
      · exact Or.inr (Or.inl hF)
      · exact Or.inr (Or.inr fun G hG hname => hF (hnames G hG hname.symm))
  have hnameless : "" ∈ (optimizer m F).optimizedList := by
    simp [optimizer, hclear, h.nameless]
  rw [instrumented, instrumented, if_neg hlayout, if_neg hlayout]
  simp only [if_true, Bool.false_eq_true, if_false]
  rw [if_pos (Or.inr hmem)]
  split
  · exact h.next hlist hnameless ⟨rfl, rfl⟩ ⟨rfl, fun _ => rfl⟩ h.geps hapart hapart'
  · rename_i hskip
    rw [not_or] at hskip
    have hF := h.name_ne_nil hskip.2
    have hidle : Idle tbi m'.pass.geps (visited tbi ⟨F, m'.pass, []⟩ F.ids) := by
      apply visited_idle hwf (optimized_iff.1 hopt) rfl
      refine ⟨fun p hp hfn => ?_, rfl, fun _ hi => absurd hi List.not_mem_nil⟩
      exact absurd hfn (h.apart' F List.mem_cons_self hF p hp)
    have hname : (visited tbi ⟨F, m'.pass, []⟩ F.ids).func.name = F.name :=
      visited_name (s := ⟨F, m'.pass, []⟩) hwf
    have hnone : (visited tbi ⟨F, m'.pass, []⟩ F.ids).inserted.filter (mustKeep tbi) = [] :=
      List.filter_eq_nil_iff.2 fun i hi => by simp [hidle.inserted i hi]
    exact h.next hlist hnameless ⟨hname.symm, hnone.symm⟩ ⟨hname, fun _ => hnone⟩
      (h.geps.trans hidle.geps.symm) hapart (visited_apart_rest hnames hF hapart')

/-- Any other function is skipped in both, or walked from states that are alike for it. -/
theorem Parallel.step_other (hwf : F.WellFormed)
    (hnames : ∀ G ∈ rest, F.name = G.name → F.name = "") (hlayout : F.layout ≠ [])
    (hopt : ¬ optimized F = true) :
    Parallel tbi (gone ++ [F]) rest (instrumented true tbi m F) (instrumented false tbi m' F) := by
  have hapart : ∀ G ∈ rest, G.name ≠ "" → ∀ p ∈ m.pass.pointers, p.fn ≠ G.name :=
    fun G hG => h.apart G (List.mem_cons_of_mem F hG)
  have hapart' : ∀ G ∈ rest, G.name ≠ "" → ∀ p ∈ m'.pass.pointers, p.fn ≠ G.name :=
    fun G hG => h.apart' G (List.mem_cons_of_mem F hG)
  have hclear : (optimizerFlags F).clear = false := by
    rw [← Bool.not_eq_true]
    exact hopt
  have hsame : (optimizer m F).optimizedList = m.optimizedList := by
    simp [optimizer, hclear]
  have hlist : ∀ n ∈ (optimizer m F).optimizedList,
      n ∈ m.optimizedList ∨ n = "" ∨ ∀ G ∈ rest, G.name ≠ n := by
    rw [hsame]
    exact fun _ hn => Or.inl hn
  have hnameless : "" ∈ (optimizer m F).optimizedList := by
    rw [hsame]
    exact h.nameless
  have hiff : F.name ∈ (optimizer m F).optimizedList ↔ F.name ∈ m'.optimizedList := by
    rw [hsame, h.listed', List.mem_singleton]
    constructor
    · intro hmem
      rcases h.listed _ hmem with hname | hname
      · exact hname
      · exact absurd rfl (hname F List.mem_cons_self)
    · intro hname
      rw [hname]
      exact h.nameless
  rw [instrumented, instrumented, if_neg hlayout, if_neg hlayout]
  simp only [if_true, Bool.false_eq_true, if_false]
  by_cases hskip : F.name ∈ avoidList ∨ F.name ∈ m'.optimizedList
  · rw [if_pos (hskip.imp id hiff.2), if_pos hskip]
    exact h.next hlist hnameless ⟨rfl, rfl⟩ ⟨rfl, fun _ => rfl⟩ h.geps hapart hapart'
  · rw [if_neg fun hor => hskip (hor.imp id hiff.1), if_neg hskip]
    rw [not_or] at hskip
    have hF := h.name_ne_nil hskip.2
    have hown : ∀ p : PassState, (∀ q ∈ p.pointers, q.fn ≠ F.name) →
        State.own ⟨F, p, []⟩ = [] := by
      intro p hp
      rw [State.own, List.filter_eq_nil_iff]
      exact fun q hq hfn => hp q hq (beq_iff_eq.1 hfn)
    have halike : Alike true ⟨F, (optimizer m F).pass, []⟩ ⟨F, m'.pass, []⟩ := by
      refine ⟨rfl, rfl, ?_, fun _ => h.geps⟩
      rw [hown (optimizer m F).pass (h.apart F List.mem_cons_self hF),
        hown m'.pass (h.apart' F List.mem_cons_self hF)]
    have hvisited := visited_alike halike tbi F.ids
    refine h.next hlist hnameless ⟨?_, ?_⟩ ⟨?_, fun h => absurd h hopt⟩ (hvisited.geps rfl)
      (visited_apart_rest hnames hF hapart) (visited_apart_rest hnames hF hapart')
    · rw [hvisited.func]
    · rw [hvisited.inserted]
    · exact visited_name (s := ⟨F, m'.pass, []⟩) hwf

/-- **One function.** -/
theorem Parallel.step (hwf : F.WellFormed) (hnames : ∀ G ∈ rest, F.name = G.name → F.name = "") :
    Parallel tbi (gone ++ [F]) rest (instrumented true tbi m F) (instrumented false tbi m' F) := by
  by_cases hlayout : F.layout = []
  · rw [instrumented, instrumented, if_pos hlayout, if_pos hlayout]
    apply h.next (fun _ hn => Or.inl hn) h.nameless ⟨rfl, rfl⟩ ⟨rfl, fun _ => rfl⟩ h.geps
    · exact fun G hG => h.apart G (List.mem_cons_of_mem F hG)
    · exact fun G hG => h.apart' G (List.mem_cons_of_mem F hG)
  by_cases hopt : optimized F = true
  · exact h.step_optimized hwf hnames hlayout hopt
  · exact h.step_other hwf hnames hlayout hopt

end Step

/-- **Many functions.** -/
theorem Parallel.run {tbi : Bool} :
    ∀ {fs gone : List Func} {m m' : ModuleState}, WellFormedModule fs → Parallel tbi gone fs m m' →
      Parallel tbi (gone ++ fs) [] (fs.foldl (instrumented true tbi) m)
        (fs.foldl (instrumented false tbi) m') := by
  intro fs
  induction fs with
  | nil =>
      intro gone m m' _ h
      rw [List.append_nil]
      exact h
  | cons F fs ih =>
      intro gone m m' hfs h
      obtain ⟨hnames, hnames'⟩ := List.pairwise_cons.1 hfs.names
      have hstep := h.step (hfs.wellFormed F List.mem_cons_self) hnames
      have hrun := ih ⟨fun G hG => hfs.wellFormed G (List.mem_cons_of_mem F hG), hnames'⟩ hstep
      rw [List.append_assoc] at hrun
      exact hrun

/-- **The optimizer loses no check.** With and without it the pass ends and makes the same rewrites
that must be kept, function by function; in a function that `optimizer` lists there are none. -/
theorem optimizer_keeps_checks (tbi : Bool) {fs : List Func} (hfs : WellFormedModule fs) :
    ∃ N, ∀ fuel, N ≤ fuel → ∃ on off, instrumentModule true tbi fuel fs = some on ∧
      instrumentModule false tbi fuel fs = some off ∧
      List.Forall₂ (SameChecks tbi) on.done off.done ∧
        List.Forall₂ (KeepsNothing tbi) fs off.done := by
  obtain ⟨N, hN⟩ := instrumentModule_eq true tbi ModuleState.start hfs.wellFormed
  obtain ⟨M, hM⟩ := instrumentModule_eq false tbi ModuleState.start hfs.wellFormed
  have hrun := (Parallel.start tbi fs).run hfs
  refine ⟨N + M, fun fuel hfuel => ⟨_, _, hN fuel (by omega), hM fuel (by omega), hrun.done, ?_⟩⟩
  exact hrun.kept

/-- `q = p; **q`, and a function that the optimizer does not list -/
def peekModule : List Func :=
  [Func.ofInstrs "peek" [[0, 1, 2, 3, 4]]
    [⟨.alloca (.ptr (.ptr (.int 32))), [], .ptr (.ptr (.ptr (.int 32))), "q"⟩,
      ⟨.store, [⟨.argument "p", .ptr (.ptr (.int 32))⟩, ⟨.inst 0, .ptr (.ptr (.ptr (.int 32)))⟩],
        .other "void", ""⟩,
      ⟨.load, [⟨.inst 0, .ptr (.ptr (.ptr (.int 32)))⟩], .ptr (.ptr (.int 32)), ""⟩,
      ⟨.load, [⟨.inst 2, .ptr (.ptr (.int 32))⟩], .ptr (.int 32), ""⟩,
      ⟨.ret, [], .other "void", ""⟩],
    Func.ofInstrs "main" [[0, 1, 2, 3, 4, 5]]
    [⟨.alloca (.ptr (.int 32)), [], .ptr (.ptr (.int 32)), "p"⟩,
      ⟨.store, [⟨.argument "q", .ptr (.int 32)⟩, ⟨.inst 0, .ptr (.ptr (.int 32))⟩], .other "void", ""⟩,
      ⟨.load, [⟨.inst 0, .ptr (.ptr (.int 32))⟩], .ptr (.int 32), ""⟩,
      ⟨.call (some ⟨"use", false⟩) none, [⟨.inst 2, .ptr (.int 32)⟩], .other "void", ""⟩,
      ⟨.load, [⟨.inst 0, .ptr (.ptr (.int 32))⟩], .ptr (.int 32), ""⟩,
      ⟨.ret, [], .other "void", ""⟩]]

theorem peekModule_wellFormed : WellFormedModule peekModule where
  wellFormed := by
    intro F hF
    simp only [peekModule, List.mem_cons, List.not_mem_nil, or_false] at hF
    rcases hF with rfl | rfl
    · exact Func.wellFormed_ofInstrs (by decide) (by decide) (by decide)
    · exact Func.wellFormed_ofInstrs (by decide) (by decide) (by decide)
  names := by decide

theorem peekModule_keeps_checks :
    peekModule.map optimized = [true, false] ∧
      ∃ N, ∀ fuel, N ≤ fuel → ∃ on off, instrumentModule true true fuel peekModule = some on ∧
        instrumentModule false true fuel peekModule = some off ∧
        List.Forall₂ (SameChecks true) on.done off.done ∧
          List.Forall₂ (KeepsNothing true) peekModule off.done :=
  ⟨by decide +kernel, optimizer_keeps_checks true peekModule_wellFormed⟩

end PTAuth.Pass
