import PTAuth.Library.Simulation
import PTAuth.Pass.SlotEvents

/-!
# Two runs that agree on a slot

`Agree` relates a state of the walk over one function to a state of the walk over another one with
the same events about a slot: of the operands that the pass may rewrite because of the slot the same
are rewritten, the flags of the slot are the same, and so are the decisions about its loads. Each
event keeps this (`Agree.event`), with one lemma for each kind of event.
-/

set_option autoImplicit false

namespace PTAuth.Pass

/-! ## Functions with the same events -/

def Func.CastOf (F : Func) (a z : Nat) : Prop :=
  ∃ k v, F.Carries z k ∧ F.operand z k = some v ∧ F.ComesFrom a v

/-- The two functions have the slot, its events and the casts between them in common. -/
structure SameInstrs (F G : Func) (a : Nat) : Prop where
  slot : F.instr a = G.instr a
  left : ∀ x, F.Event a x ∨ F.CastOf a x → F.instr x = G.instr x
  right : ∀ x, G.Event a x ∨ G.CastOf a x → F.instr x = G.instr x

/-- The loads of the slot have the same GEPs as `user_back`. -/
def SameUserBack (F G : Func) (a : Nat) : Prop :=
  ∀ l, F.LoadOf a l → ∀ g, F.UserBack l g ↔ G.UserBack l g

section Same

variable {F G : Func} {a x y k l : Nat} {v : Value}

theorem SameInstrs.symm (h : SameInstrs F G a) : SameInstrs G F a where
  slot := h.slot.symm
  left := fun x hx => (h.right x hx).symm
  right := fun x hx => (h.left x hx).symm

theorem SameInstrs.event_eq (h : SameInstrs F G a) (hx : F.Event a x) : F.instr x = G.instr x :=
  h.left x (Or.inl hx)

theorem SameInstrs.operand_eq (h : SameInstrs F G a) (hx : F.Event a x ∨ F.CastOf a x) (k : Nat) :
    G.operand x k = F.operand x k := by
  rw [Func.operand, ← h.left x hx]
  rfl

theorem SameInstrs.loadOf (h : SameInstrs F G a) (hl : F.LoadOf a l) : G.LoadOf a l := by
  have hevent := hl.event
  have heq := h.event_eq hevent
  obtain ⟨hop, hslot⟩ := hl
  obtain ⟨v, hv, hva, halloca⟩ := Func.slotOf_eq_some.1 hslot
  refine ⟨heq ▸ hop, Func.slotOf_eq_some.2 ⟨v, ?_, hva, h.slot ▸ halloca⟩⟩
  rw [h.operand_eq (Or.inl hevent)]
  exact hv

theorem SameInstrs.loadThrough (h : SameInstrs F G a) (hx : F.LoadThrough a x) :
    G.LoadThrough a x := by
  have hevent := hx.event
  have heq := h.event_eq hevent
  obtain ⟨hop, v, l, hv, hvl, hl⟩ := hx
  refine ⟨heq ▸ hop, v, l, ?_, hvl, h.loadOf hl⟩
  rw [h.operand_eq (Or.inl hevent)]
  exact hv

theorem Func.Carries.congr (hc : F.Carries y k) (h : F.instr y = G.instr y) : G.Carries y k := by
  rw [Func.Carries] at hc ⊢
  rw [← h]
  exact hc

theorem SameInstrs.strips (h : SameInstrs F G a) (hl : F.LoadOf a l) (hs : Strips F v l) :
    Strips G v l := by
  induction hs with
  | self hv => exact .self hv
  | cast hv hc hw hs ih =>
      have hcast : F.CastOf a _ := ⟨_, _, hc, hw, Or.inl ⟨_, hl, hs⟩⟩
      refine .cast hv (hc.congr (h.left _ (Or.inr hcast))) ?_ (ih hl)
      rw [h.operand_eq (Or.inr hcast)]
      exact hw

theorem SameInstrs.castsTo (h : SameInstrs F G a) (hy : F.LoadThrough a y) (hs : CastsTo F v y) :
    CastsTo G v y := by
  induction hs with
  | self hv => exact .self hv
  | @cast v w z y hv hop hw hs ih =>
      have hc : F.Carries z 0 := by
        rw [Func.Carries, hop]
      have hcast : F.CastOf a z := ⟨0, w, hc, hw, Or.inr ⟨y, hy, hs⟩⟩
      refine .cast hv (h.left _ (Or.inr hcast) ▸ hop) ?_ (ih hy)
      rw [h.operand_eq (Or.inr hcast)]
      exact hw

theorem SameInstrs.comesFrom (h : SameInstrs F G a) (hv : F.ComesFrom a v) : G.ComesFrom a v := by
  rcases hv with ⟨l, hl, hs⟩ | ⟨y, hy, hs⟩
  · exact Or.inl ⟨l, h.loadOf hl, h.strips hl hs⟩
  · exact Or.inr ⟨y, h.loadThrough hy, h.castsTo hy hs⟩

theorem SameInstrs.usesSlot (h : SameInstrs F G a) (hx : F.UsesSlot a x k) : G.UsesSlot a x k := by
  have hevent := hx.event
  have heq := h.event_eq hevent
  obtain ⟨hop, v, hv, hfrom⟩ := hx
  refine ⟨heq ▸ hop, v, ?_, h.comesFrom hfrom⟩
  rw [h.operand_eq (Or.inl hevent)]
  exact hv

theorem SameInstrs.storesTo (h : SameInstrs F G a) (hx : F.StoresTo a x) : G.StoresTo a x := by
  have hevent := hx.event
  have heq := h.event_eq hevent
  obtain ⟨hop, v, w, hv, hptr, hw, hcast⟩ := hx
  obtain ⟨hwa, halloca⟩ := Func.dynCast_eq_some.1 hcast
  refine ⟨heq ▸ hop, v, w, ?_, hptr, ?_, Func.dynCast_eq_some.2 ⟨hwa, h.slot ▸ halloca⟩⟩
  · rw [h.operand_eq (Or.inl hevent)]
    exact hv
  · rw [h.operand_eq (Or.inl hevent)]
    exact hw

/-- **The functions have the same events.** -/
theorem SameInstrs.event (h : SameInstrs F G a) (hx : F.Event a x) : G.Event a x := by
  have heq := h.event_eq hx
  rcases hx with hret | hstore | hload | hthrough | ⟨k, huse⟩
  · exact Or.inl (heq ▸ hret)
  · exact (h.storesTo hstore).event
  · exact (h.loadOf hload).event
  · exact (h.loadThrough hthrough).event
  · exact (h.usesSlot huse).event

theorem SameInstrs.loadOf_iff (h : SameInstrs F G a) : F.LoadOf a l ↔ G.LoadOf a l :=
  ⟨h.loadOf, h.symm.loadOf⟩

theorem SameInstrs.decides_iff (h : SameInstrs F G a) {i i' : Insertion}
    (hcheck : i.check = i'.check) (hsite : i.site = i'.site) (htarget : i.target = i'.target) :
    F.Decides a i ↔ G.Decides a i' := by
  rw [Func.Decides, Func.Decides, hcheck, hsite, htarget, h.loadOf_iff, h.loadOf_iff]

theorem SameInstrs.link (h : SameInstrs F G a) (hlink : F.Link a y k) : G.Link a y k := by
  rcases hlink with ⟨hload | hload, hk⟩ | huse
  · exact Or.inl ⟨Or.inl (h.loadOf hload), hk⟩
  · exact Or.inl ⟨Or.inr (h.loadThrough hload), hk⟩
  · exact Or.inr (h.usesSlot huse)

end Same

/-! ## Agreement -/

/-- The walks over `F` and `G` agree on the slot, of which the flags are `f`. -/
structure Agree (tbi : Bool) (F G : Func) (a : Nat) (f : Option Flags) (s t : State) : Prop where
  left : Traced tbi F s.func
  right : Traced tbi G t.func
  taken : ∀ y k, Taken F a s.func y k ↔ Taken G a t.func y k
  leftFlags : s.SlotFlags a f
  rightFlags : t.SlotFlags a f
  decisions : s.decisions F a = t.decisions G a

section Agree

variable {tbi : Bool} {F G : Func} {a x y k l : Nat} {f : Option Flags} {s s' t t' : State}
  {v : Value}

theorem Agree.symm (h : Agree tbi F G a f s t) : Agree tbi G F a f t s where
  left := h.right
  right := h.left
  taken := fun y k => (h.taken y k).symm
  leftFlags := h.rightFlags
  rightFlags := h.leftFlags
  decisions := h.decisions.symm

/-- A quiet step of one run. -/
theorem Agree.quiet (h : Agree tbi F G a f s t) (hs : Traced tbi F s'.func) (hq : Quiet F a s s') :
    Agree tbi F G a f s' t where
  left := hs
  right := h.right
  taken := fun y k => (hq.taken y k).trans (h.taken y k)
  leftFlags := hq.flags f h.leftFlags
  rightFlags := h.rightFlags
  decisions := hq.decisions.trans h.decisions

/-- Quiet steps of both. -/
theorem Agree.quiets (h : Agree tbi F G a f s t) (hs : Traced tbi F s'.func) (hq : Quiet F a s s')
    (ht : Traced tbi G t'.func) (hq' : Quiet G a t t') : Agree tbi F G a f s' t' :=
  ((h.quiet hs hq).symm.quiet ht hq').symm

/-- The same rewrite in both runs. -/
theorem Agree.wrap (h : Agree tbi F G a f s t) (hsame : SameInstrs F G a) {g : String}
    (hxF : x < F.next) (hxG : x < G.next) (hs : Wrap tbi s.func x g y k)
    (ht : Wrap tbi t.func x g y k) : Agree tbi F G a f (s.wrap x g y k) (t.wrap x g y k) where
  left := h.left.wrap hxF hs
  right := h.right.wrap hxG ht
  taken := by
    intro z j
    rw [h.left.taken_wrap hxF hs, h.right.taken_wrap hxG ht, h.taken z j]
    rw [show F.Link a y k ↔ G.Link a y k from ⟨hsame.link, hsame.symm.link⟩]
  leftFlags := h.leftFlags.wrap x g y k
  rightFlags := h.rightFlags.wrap x g y k
  decisions := by
    have hiff : F.Decides a ⟨x, g, y, k, 0⟩ ↔ G.Decides a ⟨x, g, y, k, 0⟩ :=
      hsame.decides_iff rfl rfl rfl
    rw [State.decisions_wrap, State.decisions_wrap, h.decisions]
    simp only [hiff]

/-- Changes of the flags. -/
theorem Agree.pass (h : Agree tbi F G a f s t) {p q : PassState} {g : Option Flags}
    (hs : State.SlotFlags { s with pass := p } a g)
    (ht : State.SlotFlags { t with pass := q } a g) :
    Agree tbi F G a g { s with pass := p } { t with pass := q } where
  left := h.left
  right := h.right
  taken := h.taken
  leftFlags := hs
  rightFlags := ht
  decisions := h.decisions

section Operands

variable (h : Agree tbi F G a f s t) (hsame : SameInstrs F G a)

include h hsame

/-- **At a link** both runs have the original operand, or both have sealed it. -/
theorem Agree.link_cases (hlink : F.Link a y k) :
    ∃ v, F.operand y k = some v ∧ G.operand y k = some v ∧
      ((s.func.operand y k = some v ∧ t.func.operand y k = some v) ∨
        ((∃ w, s.func.operand y k = some w ∧ s.func.Sealed w) ∧
          ∃ w, t.func.operand y k = some w ∧ t.func.Sealed w)) := by
  obtain ⟨v, z, hv, hz⟩ := hlink.inst
  have hv' : G.operand y k = some v := by
    rw [hsame.operand_eq (Or.inl hlink.event)]
    exact hv
  refine ⟨v, hv, hv', ?_⟩
  by_cases htaken : Taken F a s.func y k
  · have htaken' := (h.taken y k).1 htaken
    refine Or.inr ⟨?_, ?_⟩
    · exact (h.left.operand y k v z hv hz).resolve_left fun heq => htaken.2 (heq.trans hv.symm)
    · exact (h.right.operand y k v z hv' hz).resolve_left fun heq => htaken'.2 (heq.trans hv'.symm)
  · have htaken' : ¬ Taken G a t.func y k := fun ht => htaken ((h.taken y k).2 ht)
    refine Or.inl ⟨?_, ?_⟩
    · by_contra hne
      exact htaken ⟨hlink, fun heq => hne (heq.trans hv)⟩
    · by_contra hne
      exact htaken' ⟨hsame.link hlink, fun heq => hne (heq.trans hv')⟩

/-- A load of the slot in one run is one in the other. -/
theorem Agree.loadOf (hl : s.func.LoadOf a l) : t.func.LoadOf a l := by
  obtain ⟨pre, hd⟩ := h.left.decorated
  obtain ⟨pre', hd'⟩ := h.right.decorated
  have hl₀ := hd.loadOf_original hl
  have hl₁ := hsame.loadOf hl₀
  obtain ⟨v, -, hv', ⟨-, ht⟩ | ⟨⟨w, hw, hsealed⟩, -⟩⟩ :=
    h.link_cases hsame (Or.inl ⟨Or.inl hl₀, rfl⟩)
  · obtain ⟨u, hu, hua, halloca⟩ := Func.slotOf_eq_some.1 hl₁.2
    obtain rfl := Option.some.inj (hv'.symm.trans hu)
    have hop := (hd'.op l (hd'.base.lt_of_load hl₁.1)).trans hl₁.1
    refine ⟨hop, Func.slotOf_eq_some.2 ⟨v, ht, hua, ?_⟩⟩
    rw [hd'.op a (hd'.base.operand_lt l 0 v a hu hua)]
    exact halloca
  · have hslot := hl.2
    rw [Func.slotOf, hw, Option.bind_some, hsealed.dynCast rfl fun _ => rfl] at hslot
    exact absurd hslot (by simp)

/-- A chain of casts to a load of the slot in one run is one in the other. -/
theorem Agree.strips (hl : s.func.LoadOf a l) (hs : Strips s.func v l)
    (hv : ∀ z, v.ref = .inst z → z < F.next) : Strips t.func v l ∧ Strips F v l := by
  obtain ⟨pre, hd⟩ := h.left.decorated
  obtain ⟨pre', hd'⟩ := h.right.decorated
  induction hs with
  | self hvl => exact ⟨.self hvl, .self hvl⟩
  | @cast v w z k l hvz hc hw hs ih =>
      have hz := hv z hvz
      have hw₀ := h.left.operand_of_strips hz hw hl.1 hs
      obtain ⟨ht, hF⟩ := ih hl fun u hu => hd.base.operand_lt z k w u hw₀ hu
      have hc₀ := hd.carries_original hz hc
      have hcast : F.CastOf a z := ⟨k, w, hc₀, hw₀, Or.inl ⟨l, hd.loadOf_original hl, hF⟩⟩
      have heq := hsame.left z (Or.inr hcast)
      have hw₁ : G.operand z k = some w := by
        rw [hsame.operand_eq (Or.inr hcast)]
        exact hw₀
      have hzG := hd'.base.lt_of_operand hw₁
      refine ⟨.cast hvz (h.right.carries hzG (hc₀.congr heq)) ?_ ht, .cast hvz hc₀ hw₀ hF⟩
      by_cases huses : (F.instr z).op = .gep ∨
          ∃ callee returned, (F.instr z).op = .call (some callee) returned
      · -- the cast is a link; it is not sealed, for it strips to a load
        have hfrom : F.ComesFrom a w := Or.inl ⟨l, hd.loadOf_original hl, hF⟩
        obtain ⟨u, hu, -, ⟨-, ht'⟩ | ⟨⟨w', hw', hsealed⟩, -⟩⟩ :=
          h.link_cases hsame (Or.inr ⟨huses, w, hw₀, hfrom⟩)
        · obtain rfl := Option.some.inj (hu.symm.trans hw₀)
          exact ht'
        · obtain rfl := Option.some.inj (hw.symm.trans hw')
          exact absurd hs (hsealed.not_strips hl.1)
      · rw [not_or] at huses
        rw [Func.operand, h.right.settled z hzG]
        · exact hw₁
        · rw [← heq]
          intro hload
          rw [Func.Carries, hload] at hc₀
          exact hc₀
        · rw [← heq]
          exact huses.1
        · rw [← heq]
          exact fun callee returned hop => huses.2 ⟨callee, returned, hop⟩

end Operands

end Agree

/-! ### Returns, stores and loads -/

section Events

variable {tbi : Bool} {F G : Func} {a x l g : Nat} {f : Option Flags} {s t : State}
  (h : Agree tbi F G a f s t) (hsame : SameInstrs F G a)

include h hsame

theorem Agree.event_ret (hop : (F.instr x).op = .ret) :
    Agree tbi F G a none (visit tbi s x) (visit tbi t x) := by
  obtain ⟨pre, hd⟩ := h.left.decorated
  obtain ⟨pre', hd'⟩ := h.right.decorated
  have hop' : (G.instr x).op = .ret := hsame.event_eq (Or.inl hop) ▸ hop
  have hs := (hd.op x (hd.base.lt_of_op (by simp [hop]))).trans hop
  have ht := (hd'.op x (hd'.base.lt_of_op (by simp [hop']))).trans hop'
  rw [visit, hs, visit, ht]
  exact h.pass instrumentReturn_flags instrumentReturn_flags

theorem Agree.event_store (hx : F.StoresTo a x) :
    Agree tbi F G a (SlotEvent.store.apply f) (visit tbi s x) (visit tbi t x) := by
  have hs := h.left.storesTo hx
  have ht := h.right.storesTo (hsame.storesTo hx)
  have hvisit : ∀ {u : State}, u.func.StoresTo a x →
      visit tbi u x = { u with pass := (instrumentStore u x).pass } := by
    intro u hu
    rw [visit, hu.1]
    exact instrumentStore_pass u x
  have hflags : ∀ {u : State}, u.func.StoresTo a x → u.SlotFlags a f →
      (visit tbi u x).SlotFlags a (SlotEvent.store.apply f) := by
    intro u hu hf
    exact (visit_store tbi hu.1 hf).elim And.right fun hno => absurd hu hno.1
  have hs' := hflags hs h.leftFlags
  have ht' := hflags ht h.rightFlags
  rw [hvisit hs] at hs' ⊢
  rw [hvisit ht] at ht' ⊢
  exact h.pass hs' ht'

/-- Both runs have rewritten a use of a load of the slot, or neither has. -/
theorem Agree.uses (hl : F.LoadOf a l)
    (huses : ∀ x k v, F.operand x k = some v → v.ref = .inst l → s.func.operand x k = some v) :
    ∀ x k v, G.operand x k = some v → v.ref = .inst l → t.func.operand x k = some v := by
  intro x k v hv hvl
  by_cases hlink : G.Link a x k
  · obtain ⟨w, hw, hw', ⟨-, ht⟩ | ⟨⟨u, hu, hsealed⟩, -⟩⟩ :=
      h.link_cases hsame (hsame.symm.link hlink)
    · obtain rfl := Option.some.inj (hv.symm.trans hw')
      exact ht
    · -- a sealed value is no load
      obtain rfl := Option.some.inj (hv.symm.trans hw')
      obtain rfl := Option.some.inj (hu.symm.trans (huses x k v hw hvl))
      obtain ⟨pre, hd⟩ := h.left.decorated
      have hop := (hd.op l (hd.base.lt_of_load hl.1)).trans hl.1
      exact absurd (.self hvl) (hsealed.not_strips hop)
  · exact h.right.operand_of_not_link hv hvl (hsame.loadOf hl) hlink

/-- Both runs see the same GEP at a load of the slot. -/
theorem Agree.userBack (hwf : F.WellFormed) (hwf' : G.WellFormed) (hback : SameUserBack F G a)
    (hl : F.LoadOf a l) (huse : s.func.UserBack l g) : t.func.UserBack l g := by
  obtain ⟨huse₀, huses⟩ := (h.left.userBack_iff hwf hl.1).1 huse
  apply (h.right.userBack_iff hwf' (hsame.loadOf hl).1).2
  exact ⟨(hback l hl g).1 huse₀, h.uses hsame hl huses⟩

/-- The check of the GEP in both runs. -/
theorem Agree.checkGEP (hwf : F.WellFormed) (hwf' : G.WellFormed) (hs : s.func.LoadOf a l)
    (ht : t.func.LoadOf a l) (hty : (s.func.instr l).ty.isPointerTy = true)
    (huse : s.func.UserBack l g) (huse' : t.func.UserBack l g) :
    Agree tbi F G a (SlotEvent.feed.apply f) (checkGEP s l g) (checkGEP t l g) := by
  obtain ⟨pre, hd⟩ := h.left.decorated
  obtain ⟨pre', hd'⟩ := h.right.decorated
  have hlF := hd.lt_of_load hs.1
  have hlG := hd'.lt_of_load ht.1
  have hl := hd.loadOf_original hs
  have hty' : (t.func.instr l).ty.isPointerTy = true := by
    rw [hd'.ty l hlG, ← hsame.event_eq hl.event, ← hd.ty l hlF]
    exact hty
  have hws : Wrap tbi s.func l "__GEPCheck" g 0 := by
    obtain ⟨hg, j, hj⟩ := huse
    obtain ⟨v, hv, hvl⟩ := hd.userBack hwf hj hg hty
    exact .gep hs.1 hg hv hvl (by decide)
  have hwt : Wrap tbi t.func l "__GEPCheck" g 0 := by
    obtain ⟨hg, j, hj⟩ := huse'
    obtain ⟨v, hv, hvl⟩ := hd'.userBack hwf' hj hg hty'
    exact .gep ht.1 hg hv hvl (by decide)
  have hflags : ∀ {u : State}, u.func.LoadOf a l → u.SlotFlags a f →
      (PTAuth.Pass.checkGEP u l g).SlotFlags a (SlotEvent.feed.apply f) := fun hu hf =>
    (checkGEP_flags hf g).elim And.right fun hno => absurd hu.2 hno.1
  have hsf := hflags hs h.leftFlags
  have htf := hflags ht h.rightFlags
  rw [PTAuth.Pass.checkGEP, hs.2] at hsf ⊢
  rw [PTAuth.Pass.checkGEP, ht.2] at htf ⊢
  dsimp only at hsf htf ⊢
  -- both slots are armed, or neither is
  rw [h.leftFlags.any_isArmed] at hsf ⊢
  rw [h.rightFlags.any_isArmed] at htf ⊢
  split
  · rename_i harmed
    rw [if_pos harmed] at hsf htf
    exact (h.wrap hsame hlF hlG hws hwt).pass hsf htf
  · rename_i harmed
    rw [if_neg harmed] at hsf htf
    exact ⟨h.left, h.right, h.taken, hsf, htf, h.decisions⟩

/-- **At a load of the slot** both runs check the same GEP, or none. -/
theorem Agree.event_load (hwf : F.WellFormed) (hwf' : G.WellFormed) (hback : SameUserBack F G a)
    (hl : F.LoadOf a l) : ∃ f', Agree tbi F G a f' (visit tbi s l) (visit tbi t l) := by
  obtain ⟨pre, hd⟩ := h.left.decorated
  obtain ⟨pre', hd'⟩ := h.right.decorated
  have hl' := hsame.loadOf hl
  have hlF := hwf.lt_of_load hl.1
  have hlG := hwf'.lt_of_load hl'.1
  obtain ⟨v, hv, hv', ⟨hs, ht⟩ | ⟨⟨w, hw, hsealed⟩, w', hw', hsealed'⟩⟩ :=
    h.link_cases hsame (Or.inl ⟨Or.inl hl, rfl⟩)
  · have hsl : s.func.LoadOf a l := h.left.loadOf hl (hs.trans hv.symm)
    have htl : t.func.LoadOf a l := h.right.loadOf hl' (ht.trans hv'.symm)
    -- the filters look at the same
    have hsel : loadSelected t.func l v = loadSelected s.func l v := by
      obtain ⟨u, hu, hua, -⟩ := Func.slotOf_eq_some.1 hl.2
      obtain rfl := Option.some.inj (hv.symm.trans hu)
      have haF := hd.base.operand_lt l 0 v a hv hua
      have haG := hd'.base.operand_lt l 0 v a hv' hua
      apply loadSelected_congr
      · rw [hd.ty l hlF, hd'.ty l hlG, hsame.event_eq hl.event]
      · rw [Func.nameOf, Func.nameOf, hua]
        dsimp only
        rw [hd.instrName a haF, hd'.instrName a haG, hsame.slot]
    by_cases hcheck : loadSelected s.func l v = true ∧ ∃ g, s.func.UserBack l g
    · obtain ⟨hselected, g, huse⟩ := hcheck
      have huse' := h.userBack hsame hwf hwf' hback hl huse
      rw [visit_of_userBack h.left.decorated hwf hsl hs hselected huse,
        visit_of_userBack h.right.decorated hwf' htl ht (hsel.trans hselected) huse']
      exact ⟨_, h.checkGEP hsame hwf hwf' hsl htl (loadSelected_ty hselected) huse huse'⟩
    · have hback' : SameUserBack G F a := fun l hl g => (hback l (hsame.symm.loadOf hl) g).symm
      refine ⟨f, ?_⟩
      rw [visit_of_not_userBack hsl hs fun hselected g huse => hcheck ⟨hselected, g, huse⟩,
        visit_of_not_userBack htl ht fun hselected g huse => hcheck ⟨hsel ▸ hselected, g,
          h.symm.userBack hsame.symm hwf' hwf hback' hl' huse⟩]
      exact h
  · refine ⟨f, ?_⟩
    rw [visit_of_sealed ((hd.op l hlF).trans hl.1) hw hsealed,
      visit_of_sealed ((hd'.op l hlG).trans hl'.1) hw' hsealed']
    exact h

end Events

section Through

variable {tbi : Bool} {F G : Func} {a x : Nat} {f : Option Flags} {s t : State}
  (h : Agree tbi F G a f s t) (hsame : SameInstrs F G a)

include h hsame

/-- The loop of `instrumentLoad` in both runs. -/
theorem Agree.wraps (hx : F.LoadThrough a x) {p q : Value} (hs : s.func.operand x 0 = some p)
    (ht : t.func.operand x 0 = some q) :
    Agree tbi F G a f (wraps x s ((s.entries a).map PointerProperties.check))
      (wraps x t ((t.entries a).map PointerProperties.check)) := by
  obtain ⟨pre, hd⟩ := h.left.decorated
  obtain ⟨pre', hd'⟩ := h.right.decorated
  have hx' := hsame.loadThrough hx
  have hxF := hd.base.lt_of_load hx.1
  have hxG := hd'.base.lt_of_load hx'.1
  have hmem : ∀ (es : List PointerProperties), ∀ g ∈ es.map PointerProperties.check,
      g ∈ ["__loadCheck", "__noCheck"] := by
    intro es g hg
    obtain ⟨e, -, rfl⟩ := List.mem_map.1 hg
    exact e.check_mem
  rcases h.leftFlags.entries with ⟨rfl, hes⟩ | ⟨e, es, hes, rfl⟩
  · rcases h.rightFlags.entries with ⟨-, hes'⟩ | ⟨e', es', -, hf⟩
    · rw [hes, hes']
      exact h
    · exact absurd hf (by simp)
  · rcases h.rightFlags.entries with ⟨hf, -⟩ | ⟨e', es', hes', hf⟩
    · exact absurd hf (by simp)
    · -- the first wraps are the same, and those of further entries do not matter
      have hcheck : e'.check = e.check := PointerProperties.check_congr (Option.some.inj hf).symm
      have hws : Wrap tbi s.func x e.check x 0 :=
        .nested ((hd.op x hxF).trans hx.1) hs (hd.slotOf_none hxF hx.slotOf) e.check_mem
      have hwt : Wrap tbi t.func x e.check x 0 :=
        .nested ((hd'.op x hxG).trans hx'.1) ht (hd'.slotOf_none hxG hx'.slotOf) e.check_mem
      have hfirst := h.wrap hsame hxF hxG hws hwt
      have htaken : Taken F a (s.wrap x e.check x 0).func x 0 :=
        (h.left.taken_wrap hxF hws).2 (Or.inr ⟨Or.inl ⟨Or.inr hx, rfl⟩, rfl, rfl⟩)
      obtain ⟨htraced, hquiet⟩ := Traced.wraps_quiet hx (hmem es) hfirst.left htaken
      obtain ⟨htraced', hquiet'⟩ := Traced.wraps_quiet hx' (hmem es') hfirst.right
        ((hfirst.taken x 0).1 htaken)
      rw [hes, hes', List.map_cons, List.map_cons, hcheck]
      exact hfirst.quiets htraced hquiet htraced' hquiet'

/-- **At a load through a load of the slot** both runs wrap the address, or neither does. -/
theorem Agree.event_through (hx : F.LoadThrough a x) :
    Agree tbi F G a f (visit tbi s x) (visit tbi t x) := by
  obtain ⟨pre, hd⟩ := h.left.decorated
  obtain ⟨pre', hd'⟩ := h.right.decorated
  have hx' := hsame.loadThrough hx
  have hxF := hd.base.lt_of_load hx.1
  have hxG := hd'.base.lt_of_load hx'.1
  have hops := (hd.op x hxF).trans hx.1
  have hopt := (hd'.op x hxG).trans hx'.1
  obtain ⟨v, hv, hv', ⟨hs, ht⟩ | ⟨⟨w, hw, hsealed⟩, w', hw', hsealed'⟩⟩ :=
    h.link_cases hsame (Or.inl ⟨Or.inr hx, rfl⟩)
  · obtain ⟨-, u, l, hu, hvl, hl⟩ := id hx
    obtain rfl := Option.some.inj (hv.symm.trans hu)
    have hl' := hsame.loadOf hl
    have hlF := hd.base.lt_of_load hl.1
    have hlG := hd'.base.lt_of_load hl'.1
    by_cases hsl : s.func.LoadOf a l
    · have hsel : loadSelected t.func x v = loadSelected s.func x v := by
        apply loadSelected_congr
        · rw [hd.ty x hxF, hd'.ty x hxG, hsame.event_eq hx.event]
        · rw [Func.nameOf, Func.nameOf, hvl]
          dsimp only
          rw [hd.instrName l hlF, hd'.instrName l hlG, hsame.event_eq hl.event]
      rw [visit_through hd hx.1 hx.slotOf hs hvl hsl,
        visit_through hd' hx'.1 hx'.slotOf ht hvl (h.loadOf hsame hsl), hsel]
      split
      · exact h.wraps hsame hx hs ht
      · exact h
    · -- the address of the inner load is sealed
      have hblocked : ∀ {H : Func} {u : State} {p : Nat → List Nat}, Decorated tbi H p u.func →
          H.LoadThrough a x → H.LoadOf a l → ¬ u.func.LoadOf a l →
          u.func.operand x 0 = some v → visit tbi u x = u := by
        intro H u p hH hthrough hload hno hop
        have hxH := hH.base.lt_of_load hthrough.1
        have hlH := hH.base.lt_of_load hload.1
        have hlop := (hH.op l hlH).trans hload.1
        apply visit_of_blocked ((hH.op x hxH).trans hthrough.1) hop
          (hH.slotOf_none hxH hthrough.slotOf)
        · simp [Func.dynCast, hvl, hlop]
        · intro y hy
          obtain ⟨hvy, -⟩ := Func.dynCast_eq_some.1 hy
          obtain rfl := Ref.inst.inj (hvl.symm.trans hvy)
          apply Option.eq_none_iff_forall_ne_some.2
          intro b hb
          have hb₀ := hH.slotOf_original hlH hb
          obtain rfl := Option.some.inj (hload.2.symm.trans hb₀)
          exact hno ⟨hlop, hb⟩
      rw [hblocked hd hx hl hsl hs,
        hblocked hd' hx' hl' (fun htl => hsl (h.symm.loadOf hsame.symm htl)) ht]
      exact h
  · rw [visit_of_sealed hops hw hsealed, visit_of_sealed hopt hw' hsealed']
    exact h

end Through

/-! ### Calls -/

section Calls

variable {tbi : Bool} {F G : Func} {a x i l : Nat} {f : Option Flags} {s t : State} {v : Value}
  {callee : Callee} {returned : Option Nat}

/-- The first entry of the slot is marked in both runs. -/
theorem Agree.markPassed (h : Agree tbi F G a f s t) {m : PointerProperties → PointerProperties}
    {g : Flags → Flags} (hm : ∀ p, (m p).fn = p.fn ∧ (m p).operand1 = p.operand1)
    (hg : ∀ p, (m p).flags = g p.flags) :
    Agree tbi F G a (f.map g) (markPassed s a m) (markPassed t a m) := by
  have hs := markPassed_flags (b := a) h.leftFlags hm hg
  have ht := markPassed_flags (b := a) h.rightFlags hm hg
  rw [if_pos rfl] at hs ht
  exact ⟨h.left, h.right, h.taken, hs, ht, h.decisions⟩

variable (h : Agree tbi F G a f s t) (hsame : SameInstrs F G a)

include h hsame

theorem Agree.xpacArgument (hop : (F.instr x).op = .call (some callee) returned)
    (hop' : (G.instr x).op = .call (some callee) returned) (hdecl : callee.isDeclaration = true)
    (havoid : callee.name ∉ localAvoidList) (i : Nat) :
    Agree tbi F G a f (xpacArgument tbi callee.name x s i)
      (xpacArgument tbi callee.name x t i) := by
  obtain ⟨pre, hd⟩ := h.left.decorated
  obtain ⟨pre', hd'⟩ := h.right.decorated
  have hxF := hd.base.lt_of_call hop
  have hxG := hd'.base.lt_of_call hop'
  by_cases huse : F.UsesSlot a x i
  · obtain ⟨-, v, hv, hfrom⟩ := id huse
    obtain ⟨-, v', hv', hfrom'⟩ := hsame.usesSlot huse
    obtain rfl : v' = v := by
      rw [hsame.operand_eq (Or.inl huse.event), hv] at hv'
      exact (Option.some.inj hv').symm
    rw [h.left.xpacArgument_eq hop hv hfrom, h.right.xpacArgument_eq hop' hv' hfrom']
    split
    · rename_i hcond
      exact h.wrap hsame hxF hxG (h.left.wrap_argument hop hdecl havoid hv hfrom hcond)
        (h.right.wrap_argument hop' hdecl havoid hv' hfrom' hcond)
    · exact h
  · obtain ⟨htraced, hquiet⟩ := h.left.xpacArgument_quiet hop hdecl havoid huse
    obtain ⟨htraced', hquiet'⟩ := h.right.xpacArgument_quiet hop' hdecl havoid
      fun huse' => huse (hsame.symm.usesSlot huse')
    exact h.quiets htraced hquiet htraced' hquiet'

theorem Agree.externalArguments (hop : (F.instr x).op = .call (some callee) returned)
    (hop' : (G.instr x).op = .call (some callee) returned) (hinstr : F.instr x = G.instr x) :
    Agree tbi F G a f (externalArguments tbi s x callee) (externalArguments tbi t x callee) := by
  obtain ⟨pre, hd⟩ := h.left.decorated
  obtain ⟨pre', hd'⟩ := h.right.decorated
  have hxF := hd.base.lt_of_call hop
  have hxG := hd'.base.lt_of_call hop'
  have hlen : (t.func.instr x).operands.length = (s.func.instr x).operands.length := by
    rw [hd.operands_length x hxF, hd'.operands_length x hxG, hinstr]
  have hfirst : Agree tbi F G a f
      (if callee.name = "__ptauth_free" then { s with pass.flagFreeCalled := true } else s)
      (if callee.name = "__ptauth_free" then { t with pass.flagFreeCalled := true } else t) := by
    split
    · exact h.pass (h.leftFlags.congr rfl rfl) (h.rightFlags.congr rfl rfl)
    · exact h
  rw [PTAuth.Pass.externalArguments, PTAuth.Pass.externalArguments]
  dsimp only
  rw [hlen]
  split
  · rename_i hdecl
    apply Library.foldl_related_self (R := Agree tbi F G a f) _ hfirst
    exact fun i _ u w huw => huw.xpacArgument hsame hop hop' hdecl.1 hdecl.2 i
  · exact hfirst

/-- A bitcast of a load through a load of the slot in one run is one in the other. -/
theorem Agree.nestsTo (hl : s.func.LoadOf a l) (hv : F.operand x i = some v)
    (hn : s.func.NestsTo v l) : t.func.NestsTo v l := by
  obtain ⟨pre, hd⟩ := h.left.decorated
  obtain ⟨pre', hd'⟩ := h.right.decorated
  obtain ⟨b, u, y, w, hvb, hb, hu, huy, hy, hw, hwl⟩ := hn
  have hbF := hd.base.operand_lt x i v b hv hvb
  have hyF := hd.lt_of_load hy
  have hb₀ := (hd.op b hbF).symm.trans hb
  have hu₀ : F.operand b 0 = some u := by
    rw [Func.operand, ← h.left.settled b hbF (by simp [hb₀]) (by simp [hb₀]) (by simp [hb₀])]
    exact hu
  have hw₀ := hd.operand_original hyF hw hwl (hd.lt_of_load hl.1)
  have hthrough : F.LoadThrough a y :=
    ⟨(hd.op y hyF).symm.trans hy, w, l, hw₀, hwl, hd.loadOf_original hl⟩
  have hcarries : F.Carries b 0 := by
    rw [Func.Carries, hb₀]
  have hcast : F.CastOf a b := ⟨0, u, hcarries, hu₀, Or.inr ⟨y, hthrough, .self huy⟩⟩
  have hu₁ : G.operand b 0 = some u := by
    rw [hsame.operand_eq (Or.inr hcast)]
    exact hu₀
  have hb₁ : (G.instr b).op = .bitcast := hsame.left b (Or.inr hcast) ▸ hb₀
  have hinstr := h.right.settled b (hd'.base.lt_of_operand hu₁) (by simp [hb₁]) (by simp [hb₁])
    (by simp [hb₁])
  have hy₁ := (hsame.loadThrough hthrough).1
  -- the inner address is a link, and not sealed
  obtain ⟨w', hw', -, ⟨-, ht⟩ | ⟨⟨c, hc, hsealed⟩, -⟩⟩ :=
    h.link_cases hsame (Or.inl ⟨Or.inr hthrough, rfl⟩)
  · obtain rfl := Option.some.inj (hw₀.symm.trans hw')
    refine ⟨b, u, y, w, hvb, ?_, ?_, huy, (hd'.op y (hd'.base.lt_of_load hy₁)).trans hy₁, ht, hwl⟩
    · rw [hinstr]
      exact hb₁
    · rw [Func.operand, hinstr]
      exact hu₁
  · obtain rfl := Option.some.inj (hw.symm.trans hc)
    exact absurd (.self hwl) (hsealed.not_strips hl.1)

/-- **A pointer argument that is a load of the slot** is passed in both runs, or in neither. -/
theorem Agree.passLoad (hands : s.func.Hands x v) (hands' : t.func.Hands x v)
    (hv : F.operand x i = some v) (hv' : G.operand x i = some v) :
    ∃ f', Agree tbi F G a f' (passLoad x s v) (passLoad x t v) := by
  obtain ⟨pre, hd⟩ := h.left.decorated
  obtain ⟨pre', hd'⟩ := h.right.decorated
  have hxF := hd.base.lt_of_operand hv
  have hxG := hd'.base.lt_of_operand hv'
  by_cases hex : ∃ l, s.func.LoadOf a l ∧ Strips s.func v l
  · obtain ⟨l, hl, hs⟩ := hex
    have hl' := h.loadOf hsame hl
    have hs' := (h.strips hsame hl hs fun z hz => hd.base.operand_lt x i v z hv hz).1
    rw [passLoad_of_strips hd.linked hl hs, passLoad_of_strips hd'.linked hl' hs',
      h.leftFlags.any_isChecked, h.rightFlags.any_isChecked]
    split
    · exact ⟨f, h⟩
    · have hwrap := h.wrap hsame hxF hxG (.argument (Or.inl ⟨hl.1, v, hands, hs⟩) hl.2 rfl)
        (.argument (Or.inl ⟨hl'.1, v, hands', hs'⟩) hl'.2 rfl)
      exact ⟨_, hwrap.markPassed (g := fun _ => ⟨true, false⟩) (fun _ => ⟨rfl, rfl⟩) fun _ => rfl⟩
  · have hquiet := h.left.passLoad_quiet hxF hands fun l hl hs => hex ⟨l, hl, hs⟩
    have hquiet' : Quiet G a t (PTAuth.Pass.passLoad x t v) := by
      apply h.right.passLoad_quiet hxG hands'
      intro l hl hs
      refine hex ⟨l, h.symm.loadOf hsame.symm hl, ?_⟩
      exact (h.symm.strips hsame.symm hl hs fun z hz => hd'.base.operand_lt x i v z hv' hz).1
    exact ⟨f, h.quiets ((passLoad_steps hands).traced h.left hxF) hquiet
      ((passLoad_steps hands').traced h.right hxG) hquiet'⟩

/-- **A load through a load of the slot** likewise. -/
theorem Agree.passNestedLoad (hands : s.func.Hands x v) (hands' : t.func.Hands x v)
    (hv : F.operand x i = some v) (hv' : G.operand x i = some v) :
    ∃ f', Agree tbi F G a f' (passNestedLoad x s v) (passNestedLoad x t v) := by
  obtain ⟨pre, hd⟩ := h.left.decorated
  obtain ⟨pre', hd'⟩ := h.right.decorated
  have hxF := hd.base.lt_of_operand hv
  have hxG := hd'.base.lt_of_operand hv'
  by_cases hex : ∃ l, s.func.LoadOf a l ∧ s.func.NestsTo v l
  · obtain ⟨l, hl, hn⟩ := hex
    have hl' := h.loadOf hsame hl
    have hn' := h.nestsTo hsame hl hv hn
    have hwrap := h.wrap hsame hxF hxG (.argument (hn.mayTake hands hl.1) hl.2 rfl)
      (.argument (hn'.mayTake hands' hl'.1) hl'.2 rfl)
    rw [passNestedLoad_of_nestsTo hl hn, passNestedLoad_of_nestsTo hl' hn']
    exact ⟨_, hwrap.markPassed (g := fun g => ⟨true, g.checked⟩) (fun _ => ⟨rfl, rfl⟩) fun _ => rfl⟩
  · have hquiet := h.left.passNestedLoad_quiet hxF hands fun l hl hn => hex ⟨l, hl, hn⟩
    have hquiet' : Quiet G a t (PTAuth.Pass.passNestedLoad x t v) := by
      apply h.right.passNestedLoad_quiet hxG hands'
      intro l hl hn
      exact hex ⟨l, h.symm.loadOf hsame.symm hl, h.symm.nestsTo hsame.symm hl hv' hn⟩
    exact ⟨f, h.quiets ((passNestedLoad_steps hands).traced h.left hxF) hquiet
      ((passNestedLoad_steps hands').traced h.right hxG) hquiet'⟩

/-- **One argument** in both runs. -/
theorem Agree.passArgument (hop : (F.instr x).op = .call (some callee) returned)
    (hop' : (G.instr x).op = .call (some callee) returned)
    (havoid : callee.name ∉ functionsAvoidList) (i : Nat) :
    ∃ f', Agree tbi F G a f' (passArgument x s i) (passArgument x t i) := by
  obtain ⟨pre, hd⟩ := h.left.decorated
  obtain ⟨pre', hd'⟩ := h.right.decorated
  have hxF := hd.base.lt_of_call hop
  have hxG := hd'.base.lt_of_call hop'
  have hops := (hd.op x hxF).trans hop
  have hopt := (hd'.op x hxG).trans hop'
  have hquiet : (¬ F.UsesSlot a x i ∨ ∃ w, s.func.operand x i = some w ∧ s.func.Sealed w) →
      (¬ G.UsesSlot a x i ∨ ∃ w, t.func.operand x i = some w ∧ t.func.Sealed w) →
      ∃ f', Agree tbi F G a f' (PTAuth.Pass.passArgument x s i)
        (PTAuth.Pass.passArgument x t i) := by
    intro hs ht
    obtain ⟨htraced, hq⟩ := h.left.passArgument_quiet hop havoid hs
    obtain ⟨htraced', hq'⟩ := h.right.passArgument_quiet hop' havoid ht
    exact ⟨f, h.quiets htraced hq htraced' hq'⟩
  by_cases huse : F.UsesSlot a x i
  · obtain ⟨v, hv, hv', ⟨hs, ht⟩ | ⟨hs, ht⟩⟩ := h.link_cases hsame (Or.inr huse)
    · rw [PTAuth.Pass.passArgument, hs, PTAuth.Pass.passArgument, ht]
      dsimp only
      split
      · rename_i hptr
        generalize hs₁ :
          ({ s with pass := { s.pass with internalCall := true, geps := [] } } : State) = s₁
        generalize ht₁ :
          ({ t with pass := { t.pass with internalCall := true, geps := [] } } : State) = t₁
        have hfirst : Agree tbi F G a f s₁ t₁ := by
          rw [← hs₁, ← ht₁]
          exact h.pass (h.leftFlags.congr rfl rfl) (h.rightFlags.congr rfl rfl)
        have hands : s₁.func.Hands x v := by
          rw [← hs₁]
          exact hands_of_operand hops havoid hs hptr rfl
        have hands' : t₁.func.Hands x v := by
          rw [← ht₁]
          exact hands_of_operand hopt havoid ht hptr rfl
        obtain ⟨f', hsecond⟩ := hfirst.passLoad hsame hands hands' hv hv'
        have hnext := hfirst.left.hands_passLoad hxF hands
        have hnext' := hfirst.right.hands_passLoad hxG hands'
        exact hsecond.passNestedLoad hsame hnext hnext' hv hv'
      · exact ⟨f, h⟩
    · exact hquiet (Or.inr hs) (Or.inr ht)
  · exact hquiet (Or.inl huse) (Or.inl fun huse' => huse (hsame.symm.usesSlot huse'))

/-- **A call that uses loads of the slot** does the same for it in both runs. -/
theorem Agree.event_call (hop : (F.instr x).op = .call (some callee) returned)
    (hinstr : F.instr x = G.instr x) :
    ∃ f', Agree tbi F G a f' (visit tbi s x) (visit tbi t x) := by
  obtain ⟨pre, hd⟩ := h.left.decorated
  obtain ⟨pre', hd'⟩ := h.right.decorated
  have hop' : (G.instr x).op = .call (some callee) returned := hinstr ▸ hop
  have hxF := hd.base.lt_of_call hop
  have hxG := hd'.base.lt_of_call hop'
  have hlen : (t.func.instr x).operands.length = (s.func.instr x).operands.length := by
    rw [hd.operands_length x hxF, hd'.operands_length x hxG, hinstr]
  have hfirst := h.externalArguments hsame hop hop' hinstr
  rw [visit_of_call ((hd.op x hxF).trans hop), visit_of_call ((hd'.op x hxG).trans hop'),
    instrumentCalls, instrumentCalls, hlen]
  split
  · rename_i havoid
    apply Library.foldl_related_self (R := fun u w => ∃ f', Agree tbi F G a f' u w) _ ⟨f, hfirst⟩
    rintro i - u w ⟨f', huw⟩
    exact huw.passArgument hsame hop hop' havoid i
  · exact ⟨f, hfirst⟩

/-- **An event** does the same in both runs. -/
theorem Agree.event (hwf : F.WellFormed) (hwf' : G.WellFormed) (hback : SameUserBack F G a)
    (hx : F.Event a x) : ∃ f', Agree tbi F G a f' (visit tbi s x) (visit tbi t x) := by
  have hinstr := hsame.event_eq hx
  rcases hx with hret | hstore | hload | hthrough | ⟨k, hgep | ⟨callee, returned, hcall⟩, -⟩
  · exact ⟨_, h.event_ret hsame hret⟩
  · exact ⟨_, h.event_store hsame hstore⟩
  · exact h.event_load hsame hwf hwf' hback hload
  · exact ⟨_, h.event_through hsame hthrough⟩
  · -- the handler of GEPs does nothing
    obtain ⟨pre, hd⟩ := h.left.decorated
    obtain ⟨pre', hd'⟩ := h.right.decorated
    have hgep' : (G.instr x).op = .gep := hinstr ▸ hgep
    have hs := (hd.op x (hwf.lt_of_gep hgep)).trans hgep
    have ht := (hd'.op x (hwf'.lt_of_gep hgep')).trans hgep'
    rw [visit, hs, visit, ht]
    exact ⟨f, h⟩
  · exact h.event_call hsame hcall hinstr

end Calls

end PTAuth.Pass
