import PTAuth.Pass.Sealing

/-!
# Events about a slot

Stores to a slot, loads of it, loads through these, and the GEPs and direct calls that use them are
the events about the slot; returns are about every slot. What a run has done about a slot is which
operands it rewrote because of the slot, the flags of the slot and the decisions about its loads:
instructions that are no events leave this alone (`Traced.visit_quiet`). At an event the handlers
come down to closed forms that only look at the slot.
-/

set_option autoImplicit false

namespace PTAuth.Pass

/-! ## What is about a slot -/

instance (F : Func) (a l : Nat) : Decidable (F.LoadOf a l) := inferInstanceAs (Decidable (_ ∧ _))

/-- `x` is a load through a load of the slot. -/
def Func.LoadThrough (F : Func) (a x : Nat) : Prop :=
  (F.instr x).op = .load ∧ ∃ v l, F.operand x 0 = some v ∧ v.ref = .inst l ∧ F.LoadOf a l

/-- The value is, behind casts, a load of the slot or a load through one. -/
def Func.ComesFrom (F : Func) (a : Nat) (v : Value) : Prop :=
  (∃ l, F.LoadOf a l ∧ Strips F v l) ∨ ∃ y, F.LoadThrough a y ∧ CastsTo F v y

/-- `x` is a GEP or a direct call, and its operand `k` comes from the slot. -/
def Func.UsesSlot (F : Func) (a x k : Nat) : Prop :=
  ((F.instr x).op = .gep ∨ ∃ callee returned, (F.instr x).op = .call (some callee) returned) ∧
    ∃ v, F.operand x k = some v ∧ F.ComesFrom a v

/-- Returns, and the events about the slot. -/
def Func.Event (F : Func) (a x : Nat) : Prop :=
  (F.instr x).op = .ret ∨ F.StoresTo a x ∨ F.LoadOf a x ∨ F.LoadThrough a x ∨ ∃ k, F.UsesSlot a x k

theorem Func.StoresTo.event {F : Func} {a x : Nat} (h : F.StoresTo a x) : F.Event a x :=
  Or.inr (Or.inl h)

theorem Func.LoadOf.event {F : Func} {a l : Nat} (h : F.LoadOf a l) : F.Event a l :=
  Or.inr (Or.inr (Or.inl h))

theorem Func.LoadThrough.event {F : Func} {a x : Nat} (h : F.LoadThrough a x) : F.Event a x :=
  Or.inr (Or.inr (Or.inr (Or.inl h)))

theorem Func.UsesSlot.event {F : Func} {a x k : Nat} (h : F.UsesSlot a x k) : F.Event a x :=
  Or.inr (Or.inr (Or.inr (Or.inr ⟨k, h⟩)))

/-- The rewrite is a `__GEPCheck` of a load of the slot, or a `__loadCheck` of its address at a
call. -/
def Func.Decides (F : Func) (a : Nat) (i : Insertion) : Prop :=
  (i.check = "__GEPCheck" ∧ F.LoadOf a i.site) ∨ (i.check = "__loadCheck" ∧ F.LoadOf a i.target)

instance (F : Func) (a : Nat) (i : Insertion) : Decidable (F.Decides a i) :=
  inferInstanceAs (Decidable (_ ∨ _))

/-- A rewrite but for the number of the inserted call. -/
def Insertion.decision (i : Insertion) : Nat × String × Nat × Nat :=
  (i.site, i.check, i.target, i.index)

/-- The decisions about the loads of a slot of `F`. -/
def State.decisions (s : State) (F : Func) (a : Nat) : List (Nat × String × Nat × Nat) :=
  (s.inserted.filter fun i => F.Decides a i).map Insertion.decision

/-! ## What a run has done about a slot -/

/-- The operands that the pass may rewrite because of the slot: the addresses of loads of it and of
loads through these, and what GEPs and direct calls use. -/
def Func.Link (F : Func) (a y k : Nat) : Prop :=
  ((F.LoadOf a y ∨ F.LoadThrough a y) ∧ k = 0) ∨ F.UsesSlot a y k

/-- A link of `F` that is rewritten in `G`. -/
def Taken (F : Func) (a : Nat) (G : Func) (y k : Nat) : Prop :=
  F.Link a y k ∧ G.operand y k ≠ F.operand y k

section Links

variable {tbi : Bool} {F G : Func} {s : State} {a x y k z j l : Nat} {f : String} {v : Value}

theorem Func.Link.event (h : F.Link a y k) : F.Event a y := by
  rcases h with ⟨hload | hload, -⟩ | huse
  · exact hload.event
  · exact hload.event
  · exact huse.event

theorem Func.ComesFrom.inst {v : Value} (h : F.ComesFrom a v) : ∃ z, v.ref = .inst z := by
  rcases h with ⟨l, -, hs⟩ | ⟨y, -, hs⟩
  · cases hs with
    | self hv => exact ⟨_, hv⟩
    | cast hv _ _ _ => exact ⟨_, hv⟩
  · cases hs with
    | self hv => exact ⟨_, hv⟩
    | cast hv _ _ _ => exact ⟨_, hv⟩

/-- A link is an instruction. -/
theorem Func.Link.inst (h : F.Link a y k) : ∃ v z, F.operand y k = some v ∧ v.ref = .inst z := by
  rcases h with ⟨hload | hload, rfl⟩ | ⟨-, v, hv, hfrom⟩
  · obtain ⟨v, hv, hva, -⟩ := Func.slotOf_eq_some.1 hload.2
    exact ⟨v, a, hv, hva⟩
  · obtain ⟨-, v, l, hv, hvl, -⟩ := hload
    exact ⟨v, l, hv, hvl⟩
  · obtain ⟨z, hz⟩ := hfrom.inst
    exact ⟨v, z, hv, hz⟩

/-- A link at a load is its address. -/
theorem Func.Link.of_load (h : F.Link a y k) (hop : (F.instr y).op = .load) :
    (F.LoadOf a y ∨ F.LoadThrough a y) ∧ k = 0 := by
  rcases h with h | ⟨hgep | ⟨callee, returned, hcall⟩, -⟩
  · exact h
  · exact absurd (hop.symm.trans hgep) (by simp)
  · exact absurd (hop.symm.trans hcall) (by simp)

/-- A link elsewhere comes from the slot. -/
theorem Func.Link.comesFrom (h : F.Link a y k) (hop : (F.instr y).op ≠ .load) :
    ∃ v, F.operand y k = some v ∧ F.ComesFrom a v := by
  rcases h with ⟨hload | hload, -⟩ | ⟨-, huse⟩
  · exact absurd hload.1 hop
  · exact absurd hload.1 hop
  · exact huse

/-- A load of a slot is no load through a load. -/
theorem Func.LoadThrough.slotOf (h : F.LoadThrough a x) : F.slotOf x = none := by
  obtain ⟨-, v, l, hv, hvl, hl⟩ := h
  rw [Func.slotOf, hv, Option.bind_some, Func.dynCast, hvl]
  simp [hl.1, Op.isAlloca]

/-- A load comes from the slot only as a load of it or through one. -/
theorem Func.ComesFrom.of_load (h : F.ComesFrom a v) (hv : v.ref = .inst x)
    (hop : (F.instr x).op = .load) : F.LoadOf a x ∨ F.LoadThrough a x := by
  rcases h with ⟨l, hl, hs⟩ | ⟨y, hy, hs⟩
  · cases hs with
    | self hvl =>
        obtain rfl := Ref.inst.inj (hv.symm.trans hvl)
        exact Or.inl hl
    | cast hvz hc _ _ =>
        obtain rfl := Ref.inst.inj (hv.symm.trans hvz)
        rw [Func.Carries, hop] at hc
        exact absurd hc id
  · cases hs with
    | self hvy =>
        obtain rfl := Ref.inst.inj (hv.symm.trans hvy)
        exact Or.inr hy
    | cast hvz hcast _ _ =>
        obtain rfl := Ref.inst.inj (hv.symm.trans hvz)
        exact absurd (hop.symm.trans hcast) (by simp)

/-- A call that takes a load of the slot uses it. -/
theorem Func.MayTake.usesSlot (h : F.MayTake x l) (hl : F.LoadOf a l) : ∃ i, F.UsesSlot a x i := by
  rcases h with ⟨-, v, ⟨callee, returned, i, hcall, -, hv, -⟩, hs⟩ |
    ⟨-, v, y, w, ⟨callee, returned, i, hcall, -, hv, -⟩, hs, hy, hw, hwl⟩
  · exact ⟨i, Or.inr ⟨callee, returned, hcall⟩, v, hv, Or.inl ⟨l, hl, hs⟩⟩
  · exact ⟨i, Or.inr ⟨callee, returned, hcall⟩, v, hv, Or.inr ⟨y, ⟨hy, w, l, hw, hwl, hl⟩, hs⟩⟩

theorem Decorated.mayTake_original {pre : Nat → List Nat} (hd : Decorated tbi F pre G)
    (hx : x < F.next) (h : G.MayTake x l) : F.MayTake x l :=
  h.imp (hd.mayPass_original hx) (hd.mayNest_original hx)

/-- **What a rewrite takes.** -/
theorem Traced.taken_wrap (h : Traced tbi F s.func) (hx : x < F.next)
    (hw : Wrap tbi s.func x f y k) :
    Taken F a (s.wrap x f y k).func z j ↔
      Taken F a s.func z j ∨ (F.Link a y k ∧ z = y ∧ j = k) := by
  obtain ⟨pre, hd⟩ := h.decorated
  obtain ⟨u, -, hwrapped⟩ := hd.wrapped hx hw
  by_cases hsame : z = y ∧ j = k
  · obtain ⟨rfl, rfl⟩ := hsame
    -- an inserted instruction is no operand of `F`
    have hne : (s.wrap x f z j).func.operand z j ≠ F.operand z j := by
      intro heq
      obtain ⟨n, w, hw', hwn, hn, -⟩ := hwrapped.new
      have hw₀ : F.operand z j = some w := heq.symm.trans hw'
      have hlt := hd.base.operand_lt z j w n hw₀ hwn
      exact absurd (Nat.lt_of_lt_of_le hlt hd.next_le) (Nat.not_lt.2 hn)
    constructor
    · exact fun htaken => Or.inr ⟨htaken.1, rfl, rfl⟩
    · rintro (htaken | ⟨hlink, -⟩)
      · exact ⟨htaken.1, hne⟩
      · exact ⟨hlink, hne⟩
  · rw [or_iff_left fun h => hsame h.2]
    apply and_congr_right
    intro hlink
    have hz : z < s.func.next := by
      obtain ⟨v, hv⟩ : ∃ v, F.operand z j = some v := by
        rcases hlink with ⟨hload | hload, rfl⟩ | ⟨-, v, hv, -⟩
        · obtain ⟨v, hv, -⟩ := Func.slotOf_eq_some.1 hload.2
          exact ⟨v, hv⟩
        · obtain ⟨-, v, -, hv, -⟩ := hload
          exact ⟨v, hv⟩
        · exact ⟨v, hv⟩
      exact Nat.lt_of_lt_of_le (hd.base.lt_of_operand hv) hd.next_le
    have heq : (s.wrap x f y k).func.operand z j = s.func.operand z j :=
      hwrapped.operand_eq hz hsame
    rw [heq]

theorem State.decisions_wrap (s : State) (F : Func) (a x : Nat) (f : String) (y k : Nat) :
    (s.wrap x f y k).decisions F a =
      s.decisions F a ++ if F.Decides a ⟨x, f, y, k, 0⟩ then [(x, f, y, k)] else [] := by
  have hiff : F.Decides a ⟨x, f, y, k, s.func.wrapId y k⟩ ↔ F.Decides a ⟨x, f, y, k, 0⟩ := Iff.rfl
  rw [State.decisions, State.wrap, List.filter_append, List.map_append, List.filter_singleton,
    decide_eq_decide.2 hiff]
  congr 1
  by_cases hdec : F.Decides a ⟨x, f, y, k, 0⟩
  · rw [if_pos hdec, decide_eq_true hdec]
    rfl
  · rw [if_neg hdec, decide_eq_false hdec]
    rfl

end Links

/-! ### Quiet steps -/

/-- Nothing about the slot happened. -/
structure Quiet (F : Func) (a : Nat) (s t : State) : Prop where
  taken : ∀ y k, Taken F a t.func y k ↔ Taken F a s.func y k
  flags : ∀ f, s.SlotFlags a f → t.SlotFlags a f
  decisions : t.decisions F a = s.decisions F a

theorem Quiet.refl (F : Func) (a : Nat) (s : State) : Quiet F a s s where
  taken := fun _ _ => Iff.rfl
  flags := fun _ hf => hf
  decisions := rfl

theorem Quiet.trans {F : Func} {a : Nat} {s t u : State} (h : Quiet F a s t) (h' : Quiet F a t u) :
    Quiet F a s u where
  taken := fun y k => (h'.taken y k).trans (h.taken y k)
  flags := fun f hf => h'.flags f (h.flags f hf)
  decisions := h'.decisions.trans h.decisions

section Quiet

variable {tbi : Bool} {F : Func} {s t : State} {a x y k l : Nat} {f : String} {v : Value}

/-- A rewrite that is not about the slot. -/
theorem Traced.quiet_wrap (h : Traced tbi F s.func) (hx : x < F.next)
    (hw : Wrap tbi s.func x f y k) (hlink : ¬ F.Link a y k)
    (hdec : ¬ F.Decides a ⟨x, f, y, k, 0⟩) : Quiet F a s (s.wrap x f y k) where
  taken := fun z j => by rw [h.taken_wrap hx hw, or_iff_left fun h => hlink h.1]
  flags := fun g hg => hg.wrap x f y k
  decisions := by rw [State.decisions_wrap, if_neg hdec, List.append_nil]

/-- The handler of an instruction that is not about the slot makes no rewrite that is. -/
theorem Traced.wrap_quiet (h : Traced tbi F s.func) (hx : x < F.next) (hno : ¬ F.Event a x)
    (hw : Wrap tbi s.func x f y k) : Quiet F a s (s.wrap x f y k) := by
  obtain ⟨pre, hd⟩ := h.decorated
  have hload : (s.func.instr x).op = .load → (F.instr x).op = .load := fun hop =>
    (hd.op x hx).symm.trans hop
  have hloadOf : ¬ F.LoadOf a x := fun hl => hno hl.event
  have hthrough : ¬ F.LoadThrough a x := fun hl => hno hl.event
  have hlinks : ∀ k, ¬ F.Link a x k := fun k hlink => hno hlink.event
  have hlink : ¬ F.Link a y k := by
    intro hlink
    cases hw with
    | nested _ _ _ _ => exact hlinks 0 hlink
    | gep hop hg hv hvx _ =>
        have hglt := hd.lt_of_gep hg
        have hg₀ := (hd.op y hglt).symm.trans hg
        obtain ⟨w, hw, hfrom⟩ := hlink.comesFrom (by simp [hg₀])
        obtain rfl := Option.some.inj (hw.symm.trans (hd.operand_original hglt hv hvx hx))
        exact (hfrom.of_load hvx (hload hop)).elim hloadOf hthrough
    | xpac _ _ _ => exact hlinks k hlink
    | argument htake hslot _ =>
        have hlt := hd.lt_of_load htake.load
        rcases (hlink.of_load ((hd.op y hlt).symm.trans htake.load)).1 with hl | hl
        · obtain ⟨i, huse⟩ := (hd.mayTake_original hx htake).usesSlot hl
          exact hlinks i (Or.inr huse)
        · have hslot₀ := hd.slotOf_original hlt hslot
          rw [hl.slotOf] at hslot₀
          exact absurd hslot₀ (by simp)
  apply h.quiet_wrap hx hw hlink
  rintro (⟨-, hl⟩ | ⟨-, hl⟩)
  · exact hloadOf hl
  · cases hw with
    | nested _ _ _ _ => exact hloadOf hl
    | gep _ hg _ _ _ =>
        exact absurd (hl.1.symm.trans ((hd.op y (hd.lt_of_gep hg)).symm.trans hg)) (by simp)
    | xpac _ _ _ => exact hloadOf hl
    | argument _ _ _ => exact hlink (Or.inl ⟨Or.inl hl, rfl⟩)

end Quiet

section Visits

variable {tbi : Bool} {F : Func} {s t : State} {a x : Nat}

/-- Rewrites of such a handler take no link and decide nothing. -/
theorem Steps.quiet (h : Steps tbi x s t) (hs : Traced tbi F s.func) (hx : x < F.next)
    (hno : ¬ F.Event a x) :
    (∀ y k, Taken F a t.func y k ↔ Taken F a s.func y k) ∧ t.decisions F a = s.decisions F a := by
  induction h with
  | refl => exact ⟨fun _ _ => Iff.rfl, rfl⟩
  | wrap hst hw ih =>
      have hquiet := (hst.traced hs hx).wrap_quiet hx hno hw
      exact ⟨fun y k => (hquiet.taken y k).trans (ih.1 y k), hquiet.decisions.trans ih.2⟩
  | pass p _ ih => exact ih

theorem Moved.of_no_event {ok : SlotEvent → Prop} {f g : Option Flags} (h : Moved ok f g)
    (hno : ∀ e, ¬ ok e) : g = f := by
  cases h with
  | refl => rfl
  | event _ he => exact absurd he (hno _)

/-- **An instruction that is not about the slot.** -/
theorem Traced.visit_quiet (h : Traced tbi F s.func) (hwf : F.WellFormed) (hx : x < F.next)
    (hno : ¬ F.Event a x) : Quiet F a s (visit tbi s x) := by
  obtain ⟨pre, hd⟩ := h.decorated
  obtain ⟨htaken, hdecisions⟩ := (visit_steps hd hwf hx).quiet h hx hno
  refine ⟨htaken, fun f hf => ?_, hdecisions⟩
  have hop := hd.op x hx
  by_cases hret : (s.func.instr x).op = .ret
  · exact absurd (Or.inl (hop.symm.trans hret)) hno
  by_cases hstore : (s.func.instr x).op = .store
  · rcases visit_store tbi hstore hf with ⟨hst, -⟩ | ⟨-, hf'⟩
    · exact absurd (hd.storesTo_original hx hst).event hno
    · exact hf'
  by_cases hload : (s.func.instr x).op = .load
  · rcases visit_load hd hwf hload hf with ⟨hfeeds, -⟩ | hf'
    · exact absurd hfeeds.1.event hno
    · exact hf'
  by_cases hcall : ∃ callee returned, (s.func.instr x).op = .call (some callee) returned
  · obtain ⟨callee, returned, hcall⟩ := hcall
    obtain ⟨f', hf', hmoved⟩ := visit_call hd hx hcall hf
    have hnone : ∀ e, ¬ F.CallEvent a x e := by
      intro e he
      obtain ⟨l, hl, htake⟩ : ∃ l, F.LoadOf a l ∧ F.MayTake x l := by
        rcases he with ⟨-, l, hl, hpass⟩ | ⟨-, l, hl, hnest⟩
        · exact ⟨l, hl, Or.inl hpass⟩
        · exact ⟨l, hl, Or.inr hnest⟩
      obtain ⟨i, huse⟩ := htake.usesSlot hl
      exact hno huse.event
    rw [hmoved.of_no_event hnone] at hf'
    exact hf'
  · rw [visit_other hret hstore hload fun callee returned hop => hcall ⟨callee, returned, hop⟩]
    exact hf

end Visits

/-! ### Returns, stores and loads -/

/-- The filter of `instrumentLoad` looks at the type of the load, and at the address. -/
theorem loadSelected_congr {F G : Func} {x : Nat} {p : Value}
    (hty : (G.instr x).ty = (F.instr x).ty) (hname : G.nameOf p = F.nameOf p) :
    loadSelected G x p = loadSelected F x p := by
  rw [loadSelected, loadSelected, hty, hname]

theorem instrumentStore_pass (s : State) (x : Nat) :
    instrumentStore s x = { s with pass := (instrumentStore s x).pass } := by
  rw [instrumentStore]
  split
  · split
    · rfl
    · rfl
  · rfl

section Traced

variable {tbi : Bool} {F G : Func} {a x k l : Nat} {v : Value}

/-- A store to the slot is as at the start. -/
theorem Traced.storesTo (h : Traced tbi F G) (hx : F.StoresTo a x) : G.StoresTo a x := by
  obtain ⟨pre, hd⟩ := h.decorated
  obtain ⟨hop, v, w, hv, hptr, hw, hcast⟩ := hx
  obtain ⟨hwa, halloca⟩ := Func.dynCast_eq_some.1 hcast
  have hinstr : G.instr x = F.instr x :=
    h.settled x (hd.base.lt_of_operand hv) (by simp [hop]) (by simp [hop]) (by simp [hop])
  refine ⟨hinstr ▸ hop, v, w, ?_, hptr, ?_, Func.dynCast_eq_some.2 ⟨hwa, ?_⟩⟩
  · rw [Func.operand, hinstr]
    exact hv
  · rw [Func.operand, hinstr]
    exact hw
  · rw [hd.op a (hd.base.operand_lt x 1 w a hw hwa)]
    exact halloca

/-- Where its address is not rewritten, a load of the slot is one still. -/
theorem Traced.loadOf (h : Traced tbi F G) (hl : F.LoadOf a l)
    (hp : G.operand l 0 = F.operand l 0) : G.LoadOf a l := by
  obtain ⟨pre, hd⟩ := h.decorated
  obtain ⟨v, hv, hva, halloca⟩ := Func.slotOf_eq_some.1 hl.2
  refine ⟨(hd.op l (hd.base.lt_of_load hl.1)).trans hl.1, Func.slotOf_eq_some.2 ⟨v, ?_, hva, ?_⟩⟩
  · rw [hp]
    exact hv
  · rw [hd.op a (hd.base.operand_lt l 0 v a hv hva)]
    exact halloca

/-- A load of the slot is rewritten at links only. -/
theorem Traced.operand_of_not_link (h : Traced tbi F G) (hv : F.operand x k = some v)
    (hvl : v.ref = .inst l) (hl : F.LoadOf a l) (hno : ¬ F.Link a x k) :
    G.operand x k = some v := by
  obtain ⟨pre, hd⟩ := h.decorated
  have hx := hd.base.lt_of_operand hv
  have huses : ¬ ((F.instr x).op = .gep ∨
      ∃ callee returned, (F.instr x).op = .call (some callee) returned) := fun hop =>
    hno (Or.inr ⟨hop, v, hv, Or.inl ⟨l, hl, .self hvl⟩⟩)
  rw [not_or] at huses
  by_cases hload : (F.instr x).op = .load
  · cases k with
    | zero => exact absurd (Or.inl ⟨Or.inr ⟨hload, v, l, hv, hvl, hl⟩, rfl⟩) hno
    | succ k =>
        rw [h.index x k (Or.inl hload)]
        exact hv
  · have hcall : ∀ callee returned, (F.instr x).op ≠ .call (some callee) returned :=
      fun callee returned hop => huses.2 ⟨callee, returned, hop⟩
    rw [Func.operand, h.settled x hx hload huses.1 hcall]
    exact hv

/-- Wrapping a link once more is quiet. -/
theorem Traced.wraps_quiet (hx : F.LoadThrough a x) :
    ∀ {fs : List String} {s : State}, (∀ f ∈ fs, f ∈ ["__loadCheck", "__noCheck"]) →
      Traced tbi F s.func → Taken F a s.func x 0 →
      Traced tbi F (wraps x s fs).func ∧ Quiet F a s (wraps x s fs) := by
  intro fs
  induction fs with
  | nil => exact fun _ h _ => ⟨h, Quiet.refl F a _⟩
  | cons f fs ih =>
      intro s hfs h htaken
      obtain ⟨pre, hd⟩ := h.decorated
      have hxlt := hd.base.lt_of_load hx.1
      obtain ⟨v, z, hv, hz⟩ := htaken.1.inst
      obtain ⟨w, hw, -⟩ := (h.operand x 0 v z hv hz).resolve_left fun heq =>
        htaken.2 (heq.trans hv.symm)
      have hwrap : Wrap tbi s.func x f x 0 :=
        .nested ((hd.op x hxlt).trans hx.1) hw (hd.slotOf_none hxlt hx.slotOf)
          (hfs f List.mem_cons_self)
      have hq : Quiet F a s (s.wrap x f x 0) := by
        refine ⟨fun y k => ?_, fun g hg => hg.wrap x f x 0, ?_⟩
        · rw [h.taken_wrap hxlt hwrap]
          constructor
          · rintro (ht | ⟨-, rfl, rfl⟩)
            · exact ht
            · exact htaken
          · exact Or.inl
        · rw [State.decisions_wrap, if_neg, List.append_nil]
          have hno : ¬ F.LoadOf a x := fun hl => absurd (hx.slotOf.symm.trans hl.2) (by simp)
          rintro (⟨-, hl⟩ | ⟨-, hl⟩)
          · exact hno hl
          · exact hno hl
      obtain ⟨htraced, hrest⟩ := ih (fun g hg => hfs g (List.mem_cons_of_mem f hg))
        (h.wrap hxlt hwrap) ((hq.taken x 0).2 htaken)
      exact ⟨htraced, hq.trans hrest⟩

end Traced

/-! ### Calls -/

/-- The value is a bitcast of a load through the load `l`. -/
def Func.NestsTo (F : Func) (v : Value) (l : Nat) : Prop :=
  ∃ b u y w, v.ref = .inst b ∧ (F.instr b).op = .bitcast ∧ F.operand b 0 = some u ∧
    u.ref = .inst y ∧ (F.instr y).op = .load ∧ F.operand y 0 = some w ∧ w.ref = .inst l

section Arguments

variable {tbi : Bool} {F G : Func} {a b x k l i : Nat} {s : State} {v : Value}

/-- A GEP that comes from the slot is over no alloca. -/
theorem Func.ComesFrom.slotOf (h : F.ComesFrom a v) (hv : v.ref = .inst x)
    (hop : (F.instr x).op = .gep) : F.slotOf x = none := by
  rcases h with ⟨l, hl, hs⟩ | ⟨y, hy, hs⟩
  · cases hs with
    | self hvl =>
        obtain rfl := Ref.inst.inj (hv.symm.trans hvl)
        exact absurd (hop.symm.trans hl.1) (by simp)
    | cast hvz hc hw hs =>
        obtain rfl := Ref.inst.inj (hv.symm.trans hvz)
        rw [Func.Carries, hop] at hc
        obtain ⟨-, rfl⟩ := hc
        rw [Func.slotOf, hw, Option.bind_some]
        apply Option.eq_none_iff_forall_ne_some.2
        intro b hb
        obtain ⟨hwb, halloca⟩ := Func.dynCast_eq_some.1 hb
        -- the base strips to a load
        cases hs with
        | self hwl =>
            obtain rfl := Ref.inst.inj (hwb.symm.trans hwl)
            rw [hl.1] at halloca
            exact absurd halloca (by decide)
        | cast hwu hc' _ _ =>
            obtain rfl := Ref.inst.inj (hwb.symm.trans hwu)
            rw [Func.Carries] at hc'
            split at hc'
            · rename_i hop'
              exact absurd (hop' ▸ halloca) (by decide)
            · rename_i hop'
              exact absurd (hop' ▸ halloca) (by decide)
            · rename_i hop'
              exact absurd (hop' ▸ halloca) (by simp [Op.isAlloca])
            · exact hc'
  · cases hs with
    | self hvy =>
        obtain rfl := Ref.inst.inj (hv.symm.trans hvy)
        exact absurd (hop.symm.trans hy.1) (by simp)
    | cast hvz hcast _ _ =>
        obtain rfl := Ref.inst.inj (hv.symm.trans hvz)
        exact absurd (hop.symm.trans hcast) (by simp)

/-- An operand behind which a load of the slot is found comes from the slot. -/
theorem Traced.comesFrom_of_strips (h : Traced tbi F G) (hx : x < F.next)
    (hv : G.operand x i = some v) (hl : G.LoadOf a l) (hs : Strips G v l) :
    F.operand x i = some v ∧ F.ComesFrom a v := by
  obtain ⟨pre, hd⟩ := h.decorated
  have hv₀ := h.operand_of_strips hx hv hl.1 hs
  have hs₀ : Strips F v l := hd.strips_original hs (hd.lt_of_load hl.1) hv₀ .self
  exact ⟨hv₀, Or.inl ⟨l, hd.loadOf_original hl, hs₀⟩⟩

theorem Traced.comesFrom_of_nestsTo (h : Traced tbi F G) (hx : x < F.next)
    (hv : G.operand x i = some v) (hl : G.LoadOf a l) (hn : G.NestsTo v l) :
    F.operand x i = some v ∧ F.ComesFrom a v := by
  obtain ⟨pre, hd⟩ := h.decorated
  obtain ⟨b, u, y, w, hvb, hb, hu, huy, hy, hw, hwl⟩ := hn
  have hcasts : CastsTo G v y := .cast hvb hb hu (.self huy)
  have hv₀ := h.operand_of_strips hx hv hy hcasts.strips
  have hcasts₀ : CastsTo F v y := hd.castsTo_original hcasts hy hv₀ .self
  have hylt := hd.lt_of_load hy
  have hw₀ := hd.operand_original hylt hw hwl (hd.lt_of_load hl.1)
  exact ⟨hv₀, Or.inr ⟨y, ⟨(hd.op y hylt).symm.trans hy, w, l, hw₀, hwl, hd.loadOf_original hl⟩,
    hcasts₀⟩⟩

/-- What strips to a load of a slot is passed, unless the slot was checked. -/
theorem passLoad_of_strips (hF : s.func.Linked) (hl : s.func.LoadOf a l) (hs : Strips s.func v l) :
    passLoad x s v =
      if s.pass.pointers.any (s.isChecked a) then s
      else markPassed (s.wrap x "__loadCheck" l 0) a fun p =>
        { p with isPassedToFunctionBefore := true, isCheckedBefore := false } := by
  have hcast : s.func.dynCast (· == .load) (s.func.stripPointerCasts s.func.next v) = some l :=
    Func.dynCast_eq_some.2 ⟨hs.stripPointerCasts hF hl.1, beq_iff_eq.2 hl.1⟩
  rw [passLoad, hcast]
  simp only [hl.2]

theorem passNestedLoad_of_nestsTo (hl : s.func.LoadOf a l) (hn : s.func.NestsTo v l) :
    passNestedLoad x s v =
      markPassed (s.wrap x "__loadCheck" l 0) a fun p =>
        { p with isPassedToFunctionBefore := true } := by
  obtain ⟨b, u, y, w, hvb, hb, hu, huy, hy, hw, hwl⟩ := hn
  have hcast : s.func.dynCast (· == .bitcast) v = some b :=
    Func.dynCast_eq_some.2 ⟨hvb, beq_iff_eq.2 hb⟩
  have hload : s.func.dynCast (· == .load) u = some y :=
    Func.dynCast_eq_some.2 ⟨huy, beq_iff_eq.2 hy⟩
  have hinner : s.func.dynCast (· == .load) w = some l :=
    Func.dynCast_eq_some.2 ⟨hwl, beq_iff_eq.2 hl.1⟩
  rw [passNestedLoad, hcast, Option.bind_some, hu, Option.bind_some, hload, Option.bind_some, hw]
  dsimp only
  rw [hinner]
  simp only [hl.2]

/-- The call that hands over the value takes the load. -/
theorem Func.NestsTo.mayTake (h : F.NestsTo v l) (hands : F.Hands x v)
    (hl : (F.instr l).op = .load) : F.MayTake x l := by
  obtain ⟨b, u, y, w, hvb, hb, hu, huy, hy, hw, hwl⟩ := h
  exact Or.inr ⟨hl, v, y, w, hands, .cast hvb hb hu (.self huy), hy, hw, hwl⟩

/-- Passing a load of another slot. -/
theorem Traced.quiet_pass (h : Traced tbi F s.func) (hx : x < F.next)
    (hw : Wrap tbi s.func x "__loadCheck" l 0) (hop : (s.func.instr l).op = .load)
    (hb : s.func.slotOf l = some b) (hba : b ≠ a) {f : PointerProperties → PointerProperties}
    {g : Flags → Flags} (hf : ∀ p, (f p).fn = p.fn ∧ (f p).operand1 = p.operand1)
    (hg : ∀ p, (f p).flags = g p.flags) :
    Quiet F a s (markPassed (s.wrap x "__loadCheck" l 0) b f) := by
  obtain ⟨pre, hd⟩ := h.decorated
  have hlt := hd.lt_of_load hop
  have hb₀ := hd.slotOf_original hlt hb
  have hload : ¬ F.LoadOf a l := fun hl => hba (Option.some.inj (hb₀.symm.trans hl.2))
  have hwrap : Quiet F a s (s.wrap x "__loadCheck" l 0) := by
    apply h.quiet_wrap hx hw
    · intro hlink
      rcases (hlink.of_load ((hd.op l hlt).symm.trans hop)).1 with hl | hl
      · exact hload hl
      · exact absurd (hl.slotOf.symm.trans hb₀) (by simp)
    · rintro (⟨hcheck, -⟩ | ⟨-, hl⟩)
      · exact absurd hcheck (by simp)
      · exact hload hl
  refine ⟨hwrap.taken, fun flags hflags => ?_, hwrap.decisions⟩
  have hmark := markPassed_flags (b := b) (hwrap.flags flags hflags) hf hg
  rw [if_neg hba] at hmark
  exact hmark

theorem Traced.passLoad_quiet (h : Traced tbi F s.func) (hx : x < F.next)
    (hands : s.func.Hands x v) (hno : ∀ l, s.func.LoadOf a l → ¬ Strips s.func v l) :
    Quiet F a s (passLoad x s v) := by
  rw [passLoad]
  split
  · exact Quiet.refl F a s
  · rename_i l hl
    obtain ⟨href, hload⟩ := Func.dynCast_eq_some.1 hl
    rw [beq_iff_eq] at hload
    have hs := Func.strips_of_stripPointerCasts _ v href
    split
    · exact Quiet.refl F a s
    · rename_i b hb
      split
      · exact Quiet.refl F a s
      · have hba : b ≠ a := by
          rintro rfl
          exact hno l ⟨hload, hb⟩ hs
        exact h.quiet_pass hx (.argument (Or.inl ⟨hload, v, hands, hs⟩) hb rfl) hload hb hba
          (g := fun _ => ⟨true, false⟩) (fun _ => ⟨rfl, rfl⟩) fun _ => rfl

theorem Traced.passNestedLoad_quiet (h : Traced tbi F s.func) (hx : x < F.next)
    (hands : s.func.Hands x v) (hno : ∀ l, s.func.LoadOf a l → ¬ s.func.NestsTo v l) :
    Quiet F a s (passNestedLoad x s v) := by
  rw [passNestedLoad]
  split
  · exact Quiet.refl F a s
  · rename_i w hw
    obtain ⟨y, hy, hw⟩ := Option.bind_eq_some_iff.1 hw
    obtain ⟨u, hu, hy⟩ := Option.bind_eq_some_iff.1 hy
    obtain ⟨c, hc, hu⟩ := Option.bind_eq_some_iff.1 hu
    obtain ⟨hvc, hcast⟩ := Func.dynCast_eq_some.1 hc
    obtain ⟨huy, hload⟩ := Func.dynCast_eq_some.1 hy
    rw [beq_iff_eq] at hcast hload
    split
    · exact Quiet.refl F a s
    · rename_i l hl
      obtain ⟨hwl, hinner⟩ := Func.dynCast_eq_some.1 hl
      rw [beq_iff_eq] at hinner
      split
      · exact Quiet.refl F a s
      · rename_i b hb
        have hba : b ≠ a := by
          rintro rfl
          exact hno l ⟨hinner, hb⟩ ⟨c, u, y, w, hvc, hcast, hu, huy, hload, hw, hwl⟩
        have htake : s.func.MayTake x l :=
          Func.NestsTo.mayTake ⟨c, u, y, w, hvc, hcast, hu, huy, hload, hw, hwl⟩ hands hinner
        exact h.quiet_pass hx (.argument htake hb rfl) hinner hb hba
          (g := fun g => ⟨true, g.checked⟩) (fun _ => ⟨rfl, rfl⟩) fun _ => rfl

end Arguments

section Calls

variable {tbi : Bool} {F : Func} {a x i : Nat} {s : State} {v : Value}
  {callee : Callee} {returned : Option Nat}

/-- An argument that comes from the slot is no constant and no GEP over an alloca, sealed or not. -/
theorem Traced.argument (h : Traced tbi F s.func)
    (hop : (F.instr x).op = .call (some callee) returned) (hv : F.operand x i = some v)
    (hfrom : F.ComesFrom a v) :
    ∃ w, s.func.operand x i = some w ∧ w.ty = v.ty ∧ w.ref.isConstant = false ∧
      (s.func.dynCast (· == .gep) w).bind s.func.slotOf = none := by
  obtain ⟨pre, hd⟩ := h.decorated
  have hx := hd.base.lt_of_call hop
  obtain ⟨z, hz⟩ := hfrom.inst
  rcases h.operand x i v z hv hz with hs | ⟨w, hw, hsealed⟩
  · refine ⟨v, hs, rfl, ?_, ?_⟩
    · rw [hz]
      rfl
    · apply Option.eq_none_iff_forall_ne_some.2
      intro b hb
      obtain ⟨g, hg, hb⟩ := Option.bind_eq_some_iff.1 hb
      obtain ⟨hvg, hgop⟩ := Func.dynCast_eq_some.1 hg
      rw [beq_iff_eq] at hgop
      have hglt := hd.lt_of_gep hgop
      have hnone := hd.slotOf_none hglt (hfrom.slotOf hvg ((hd.op g hglt).symm.trans hgop))
      exact absurd (hnone.symm.trans hb) (by simp)
  · obtain ⟨c, hc, -⟩ := hsealed.inst
    obtain ⟨v₀, -, hv₀, hty, -⟩ := hd.operand x hx i w hw
    obtain rfl := Option.some.inj (hv.symm.trans hv₀)
    refine ⟨w, hw, hty, ?_, ?_⟩
    · rw [hc]
      rfl
    · rw [hsealed.dynCast rfl fun _ => rfl, Option.bind_none]

/-- So it is stripped as it would be at the start. -/
theorem Traced.xpacArgument_eq (h : Traced tbi F s.func)
    (hop : (F.instr x).op = .call (some callee) returned) (hv : F.operand x i = some v)
    (hfrom : F.ComesFrom a v) :
    xpacArgument tbi callee.name x s i =
      if (pointerArgument v && (!tbi || decide (callee.name ∈ xpacedList))) = true then
        s.wrap x "__xpac" x i
      else s := by
  obtain ⟨w, hw, hty, hconst, hgep⟩ := h.argument hop hv hfrom
  have hptr : pointerArgument v = pointerArgument w := by
    rw [pointerArgument, pointerArgument, hty]
  rw [hptr, xpacArgument, hw]
  dsimp only
  rw [hconst, hgep]
  simp only [Bool.not_false, Option.isSome_none, Bool.and_true]

/-- And stripping it is a rewrite of the pass. -/
theorem Traced.wrap_argument (h : Traced tbi F s.func)
    (hop : (F.instr x).op = .call (some callee) returned) (hdecl : callee.isDeclaration = true)
    (havoid : callee.name ∉ localAvoidList) (hv : F.operand x i = some v)
    (hfrom : F.ComesFrom a v)
    (hcond : (pointerArgument v && (!tbi || decide (callee.name ∈ xpacedList))) = true) :
    Wrap tbi s.func x "__xpac" x i := by
  obtain ⟨pre, hd⟩ := h.decorated
  obtain ⟨w, hw, hty, hconst, hgep⟩ := h.argument hop hv hfrom
  have hops := (hd.op x (hd.base.lt_of_call hop)).trans hop
  rw [Bool.and_eq_true, Bool.or_eq_true, decide_eq_true_eq] at hcond
  refine .xpac hw ⟨?_, callee, returned, hops, hdecl, havoid, ?_⟩ rfl
  · refine Func.stripsArgument_iff.2 ⟨?_, hconst, hgep⟩
    rw [pointerArgument, hty]
    exact hcond.1
  · rintro rfl
    exact hcond.2.resolve_left (by decide)

/-- An argument that does not come from the slot. -/
theorem Traced.xpacArgument_quiet (h : Traced tbi F s.func)
    (hop : (F.instr x).op = .call (some callee) returned) (hdecl : callee.isDeclaration = true)
    (havoid : callee.name ∉ localAvoidList) (hno : ¬ F.UsesSlot a x i) :
    Traced tbi F (xpacArgument tbi callee.name x s i).func ∧
      Quiet F a s (xpacArgument tbi callee.name x s i) := by
  obtain ⟨pre, hd⟩ := h.decorated
  have hx := hd.base.lt_of_call hop
  have hops := (hd.op x hx).trans hop
  refine ⟨(xpacArgument_steps hops hdecl havoid).traced h hx, ?_⟩
  rcases xpacArgument_cases tbi callee.name s x i with heq | ⟨v, hv, hstrips, hlist, heq⟩
  · rw [heq]
    exact Quiet.refl F a s
  · rw [heq]
    have hload : ¬ F.LoadOf a x := fun hl => absurd (hop.symm.trans hl.1) (by simp)
    apply h.quiet_wrap hx (.xpac hv ⟨hstrips, callee, returned, hops, hdecl, havoid, hlist⟩ rfl)
    · rintro (⟨hl | hl, -⟩ | huse)
      · exact hload hl
      · exact absurd (hop.symm.trans hl.1) (by simp)
      · exact hno huse
    · rintro (⟨-, hl⟩ | ⟨-, hl⟩)
      · exact hload hl
      · exact hload hl

/-- Behind `passLoad` the argument is still handed over. -/
theorem Traced.hands_passLoad (h : Traced tbi F s.func) (hx : x < F.next)
    (hands : s.func.Hands x v) : (passLoad x s v).func.Hands x v := by
  obtain ⟨pre, hd⟩ := h.decorated
  obtain ⟨callee, returned, i, hop, havoid, hv, hptr⟩ := hands
  apply hands_of_operand hop havoid hv hptr
  exact passLoad_instr hd (Nat.lt_of_lt_of_le hx hd.next_le) (by simp [hop]) v

/-- An argument that does not come from the slot, or is sealed. -/
theorem Traced.passArgument_quiet (h : Traced tbi F s.func)
    (hop : (F.instr x).op = .call (some callee) returned)
    (havoid : callee.name ∉ functionsAvoidList)
    (hno : ¬ F.UsesSlot a x i ∨ ∃ w, s.func.operand x i = some w ∧ s.func.Sealed w) :
    Traced tbi F (passArgument x s i).func ∧ Quiet F a s (passArgument x s i) := by
  obtain ⟨pre, hd⟩ := h.decorated
  have hx := hd.base.lt_of_call hop
  have hops := (hd.op x hx).trans hop
  refine ⟨(passArgument_steps hd hx hops havoid).traced h hx, ?_⟩
  rw [passArgument]
  split
  · exact Quiet.refl F a s
  · rename_i v hv
    -- no load of the slot is found behind the argument, neither before nor after `passLoad`
    have key : ∀ u, Steps tbi x s u → u.func.operand x i = some v → ∀ l, u.func.LoadOf a l →
        ¬ Strips u.func v l ∧ ¬ u.func.NestsTo v l := by
      intro u hu huv l hl
      rcases hno with hno | ⟨w, hw, hsealed⟩
      · have htraced := hu.traced h hx
        refine ⟨fun hs => hno ⟨Or.inr ⟨callee, returned, hop⟩, v, ?_⟩,
          fun hn => hno ⟨Or.inr ⟨callee, returned, hop⟩, v, ?_⟩⟩
        · exact htraced.comesFrom_of_strips hx huv hl hs
        · exact htraced.comesFrom_of_nestsTo hx huv hl hn
      · obtain rfl := Option.some.inj (hv.symm.trans hw)
        have hsealed' := hu.sealed hd hx hsealed
        refine ⟨hsealed'.not_strips hl.1, ?_⟩
        rintro ⟨b, c, y, -, hvb, hb, hc, hcy, hy, -⟩
        have hcasts : CastsTo u.func v y := .cast hvb hb hc (.self hcy)
        exact hsealed'.not_strips hy hcasts.strips
    split
    · rename_i hptr
      generalize hs₁ :
        ({ s with pass := { s.pass with internalCall := true, geps := [] } } : State) = s₁
      have hfunc : s₁.func = s.func := by rw [← hs₁]
      have hfirst : Steps tbi x s s₁ := by
        rw [← hs₁]
        exact .pass _ .refl
      have hquiet : Quiet F a s s₁ := by
        rw [← hs₁]
        exact ⟨fun _ _ => Iff.rfl, fun g hg => hg.congr rfl rfl, rfl⟩
      obtain ⟨pre₁, hd₁, -⟩ := hfirst.decorated hd hx
      have hinstr : (passLoad x s₁ v).func.instr x = s₁.func.instr x :=
        passLoad_instr hd₁ (Nat.lt_of_lt_of_le hx hd₁.next_le) (by simp [hfunc, hops]) v
      have hands : s₁.func.Hands x v :=
        hands_of_operand hops havoid hv hptr (congrArg (fun G => G.instr x) hfunc)
      have hsecond : Steps tbi x s (passLoad x s₁ v) := hfirst.trans (passLoad_steps hands)
      have hv' : (passLoad x s₁ v).func.operand x i = some v := by
        rw [Func.operand, hinstr, hfunc]
        exact hv
      apply (hquiet.trans ((hfirst.traced h hx).passLoad_quiet hx hands _)).trans
      · apply (hsecond.traced h hx).passNestedLoad_quiet hx
          ((hfirst.traced h hx).hands_passLoad hx hands)
        exact fun l hl => (key _ hsecond hv' l hl).2
      · exact fun l hl => (key s₁ hfirst (hfunc ▸ hv) l hl).1
    · exact Quiet.refl F a s

end Calls

end PTAuth.Pass
