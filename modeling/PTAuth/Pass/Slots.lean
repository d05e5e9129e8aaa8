import PTAuth.Pass.Walk

/-!
# What the pass knows of a slot

The pass remembers of a slot (an alloca that pointers are stored to) two flags, in the first entry
of the slot in `pointers`; further entries never carry a flag (`Tracks`). A visit changes the flags
by a few events: a return clears them, a store opens an entry, a call that takes a load of the slot
arms it, and a load that feeds a GEP uses an armed entry up. Which events a visit can make is read
off the original function (`visit_store`, `visit_load`, `visit_call`).
-/

set_option autoImplicit false

namespace PTAuth.Pass

/-! ## The flags of a slot -/

/-- The two flags of an entry. -/
structure Flags where
  passed : Bool
  checked : Bool
  deriving DecidableEq, Repr

/-- A new entry carries no flag. -/
def Flags.clean : Flags := ⟨false, false⟩

/-- The flags of an entry. -/
def PointerProperties.flags (p : PointerProperties) : Flags :=
  ⟨p.isPassedToFunctionBefore, p.isCheckedBefore⟩

/-- What happens to a slot: a store to it, a load of it passed to a call, a load through a load of it
passed to a call, a load of it that feeds a GEP. -/
inductive SlotEvent where
  | store
  | pass
  | nested
  | feed
  deriving DecidableEq, Repr

/-- The effect on the flags; without an entry, only a store has one. -/
def SlotEvent.apply : SlotEvent → Option Flags → Option Flags
  | .store, none => some Flags.clean
  | .pass, some ⟨_, false⟩ => some ⟨true, false⟩
  | .nested, some ⟨_, checked⟩ => some ⟨true, checked⟩
  | .feed, some ⟨true, _⟩ => some ⟨false, true⟩
  | _, flags => flags

/-- The entries of a slot carry the flags `flags`, in the first of them. -/
inductive Tracks : List PointerProperties → Option Flags → Prop where
  | empty : Tracks [] none
  | first {p : PointerProperties} {l : List PointerProperties} :
      (∀ q ∈ l, q.flags = Flags.clean) → Tracks (p :: l) (some p.flags)

theorem Tracks.any {l : List PointerProperties} {flags : Option Flags} (h : Tracks l flags)
    {t : Flags → Bool} (ht : t Flags.clean = false) :
    (l.any fun p => t p.flags) = flags.any t := by
  cases h with
  | empty => rfl
  | @first p l hl =>
      have hrest : (l.any fun q => t q.flags) = false := by
        rw [List.any_eq_false]
        intro q hq
        rw [hl q hq, ht]
        decide
      rw [List.any_cons, hrest, Bool.or_false]
      rfl

theorem Tracks.unique {l : List PointerProperties} {f g : Option Flags} (hf : Tracks l f)
    (hg : Tracks l g) : f = g := by
  cases hf with
  | empty =>
      cases hg
      rfl
  | first _ =>
      cases hg
      rfl

/-- A further entry is clean. -/
theorem Tracks.append {l : List PointerProperties} {flags : Option Flags} (h : Tracks l flags)
    {p : PointerProperties} (hp : p.flags = Flags.clean) :
    Tracks (l ++ [p]) (SlotEvent.store.apply flags) := by
  cases h with
  | empty =>
      show Tracks [p] (some Flags.clean)
      rw [← hp]
      exact .first fun q hq => absurd hq List.not_mem_nil
  | first hl =>
      refine .first fun q hq => ?_
      rcases List.mem_append.1 hq with hq | hq
      · exact hl q hq
      · rw [List.mem_singleton.1 hq]
        exact hp

/-- A change of the first entry. -/
theorem Tracks.update {l : List PointerProperties} {g : Flags} (h : Tracks l (some g))
    {t : PointerProperties → Bool} {f : PointerProperties → PointerProperties} {g' : Flags}
    (ht : ∀ p, p.flags = g → t p = true) (hf : ∀ p, p.flags = g → (f p).flags = g') :
    Tracks (updateFirst t f l) (some g') := by
  generalize hfl : some g = flags at h
  cases h with
  | empty => exact absurd hfl (by simp)
  | first hl =>
      have hg := Option.some.inj hfl
      rw [updateFirst, if_pos (ht _ hg.symm), ← hf _ hg.symm]
      exact .first hl

theorem filter_updateFirst_of_disjoint {α : Type} {e e' : α → Bool} {f : α → α}
    (h : ∀ p, e' p = true → e p = false ∧ e (f p) = false) (l : List α) :
    (updateFirst e' f l).filter e = l.filter e := by
  induction l with
  | nil => rfl
  | cons p l ih =>
      rw [updateFirst]
      split
      · rename_i hp
        simp [h p hp]
      · rw [List.filter_cons, List.filter_cons, ih]

theorem filter_updateFirst_self {α : Type} {e t : α → Bool} {f : α → α}
    (h : ∀ p, e p = true → e (f p) = true) (l : List α) :
    (updateFirst (fun p => e p && t p) f l).filter e = updateFirst t f (l.filter e) := by
  induction l with
  | nil => rfl
  | cons p l ih =>
      by_cases hp : e p = true
      · by_cases ht : t p = true
        · simp [updateFirst, hp, ht, h p hp]
        · simp [updateFirst, hp, ht, ih]
      · simp [updateFirst, hp, ih]

/-- The entries of slot `a`. -/
def State.entries (s : State) (a : Nat) : List PointerProperties :=
  s.pass.pointers.filter (s.isEntry a)

/-- The flags of slot `a`. -/
def State.SlotFlags (s : State) (a : Nat) (flags : Option Flags) : Prop := Tracks (s.entries a) flags

/-- The flags depend on the name of the function and the entries only. -/
theorem State.slotFlags_of_tracks {s t : State} {a : Nat} {flags : Option Flags}
    (hname : t.func.name = s.func.name)
    (h : Tracks (t.pass.pointers.filter (s.isEntry a)) flags) : t.SlotFlags a flags := by
  have hentry : t.isEntry a = s.isEntry a := by
    funext p
    rw [State.isEntry, State.isEntry, hname]
  rw [State.SlotFlags, State.entries, hentry]
  exact h

theorem State.SlotFlags.congr {s t : State} {a : Nat} {flags : Option Flags}
    (h : s.SlotFlags a flags) (hname : t.func.name = s.func.name)
    (hpointers : t.pass.pointers = s.pass.pointers) : t.SlotFlags a flags := by
  apply State.slotFlags_of_tracks hname
  rw [hpointers]
  exact h

theorem State.SlotFlags.any {s : State} {a : Nat} {flags : Option Flags} (h : s.SlotFlags a flags)
    {t : Flags → Bool} (ht : t Flags.clean = false) :
    (s.pass.pointers.any fun p => s.isEntry a p && t p.flags) = flags.any t := by
  rw [← List.any_filter]
  exact Tracks.any h ht

/-- Whether some entry of the slot is armed is whether the slot is. -/
theorem State.SlotFlags.any_isArmed {s : State} {a : Nat} {flags : Option Flags}
    (h : s.SlotFlags a flags) : s.pass.pointers.any (s.isArmed a) = flags.any Flags.passed :=
  h.any (t := Flags.passed) rfl

theorem State.SlotFlags.any_isChecked {s : State} {a : Nat} {flags : Option Flags}
    (h : s.SlotFlags a flags) : s.pass.pointers.any (s.isChecked a) = flags.any Flags.checked :=
  h.any (t := Flags.checked) rfl

/-- The flags of a slot are those of its first entry. -/
theorem State.SlotFlags.entries {s : State} {a : Nat} {flags : Option Flags}
    (h : s.SlotFlags a flags) :
    (flags = none ∧ s.entries a = []) ∨
      ∃ p ps, s.entries a = p :: ps ∧ flags = some p.flags := by
  rw [State.SlotFlags] at h
  generalize s.entries a = es at h
  cases h with
  | empty => exact Or.inl ⟨rfl, rfl⟩
  | @first p ps _ => exact Or.inr ⟨p, ps, rfl, rfl⟩

theorem isEntry_of_ne {s : State} {a b : Nat} (hab : b ≠ a) {p : PointerProperties}
    (hp : s.isEntry b p = true) : s.isEntry a p = false := by
  simp only [State.isEntry, Bool.and_eq_true, beq_iff_eq] at hp ⊢
  simp only [hp.1, hp.2, Bool.and_eq_false_iff, beq_eq_false_iff_ne]
  exact Or.inr hab

/-- A change of an entry of another slot. -/
theorem State.SlotFlags.update_other {s : State} {a b : Nat} {flags : Option Flags}
    (h : s.SlotFlags a flags) (hab : b ≠ a) {t : PointerProperties → Bool}
    {f : PointerProperties → PointerProperties}
    (hf : ∀ p, (f p).fn = p.fn ∧ (f p).operand1 = p.operand1) :
    Tracks ((updateFirst (fun p => s.isEntry b p && t p) f s.pass.pointers).filter (s.isEntry a))
      flags := by
  rw [filter_updateFirst_of_disjoint]
  · exact h
  -- the change keeps the slot of the entry, which is `b` before and after
  · intro p hp
    rw [Bool.and_eq_true] at hp
    refine ⟨isEntry_of_ne hab hp.1, isEntry_of_ne hab ?_⟩
    simp only [State.isEntry, hf p]
    exact hp.1

/-- A change of the first entry of the slot. -/
theorem State.SlotFlags.update_self {s : State} {a : Nat} {g g' : Flags}
    (h : s.SlotFlags a (some g)) {t : PointerProperties → Bool}
    {f : PointerProperties → PointerProperties}
    (hf : ∀ p, (f p).fn = p.fn ∧ (f p).operand1 = p.operand1)
    (ht : ∀ p, p.flags = g → t p = true) (hg : ∀ p, p.flags = g → (f p).flags = g') :
    Tracks ((updateFirst (fun p => s.isEntry a p && t p) f s.pass.pointers).filter (s.isEntry a))
      (some g') := by
  rw [filter_updateFirst_self]
  · exact Tracks.update h ht hg
  · intro p hp
    simp only [State.isEntry, hf p]
    exact hp

/-! ## What a function does with a slot -/

/-- `l` is a load of the slot `a`. -/
def Func.LoadOf (F : Func) (a l : Nat) : Prop := (F.instr l).op = .load ∧ F.slotOf l = some a

/-- `x` stores a pointer to the slot `a`. -/
def Func.StoresTo (F : Func) (a x : Nat) : Prop :=
  (F.instr x).op = .store ∧ ∃ v w, F.operand x 0 = some v ∧ pointerArgument v = true ∧
    F.operand x 1 = some w ∧ F.dynCast Op.isAlloca w = some a

/-- `l` is a load of the slot `a` that is the base of a GEP. -/
def Func.Feeds (F : Func) (a l : Nat) : Prop :=
  F.LoadOf a l ∧ ∃ g v, (F.instr g).op = .gep ∧ F.operand g 0 = some v ∧ v.ref = .inst l

/-! ### Original facts behind a decoration -/

/-- A copy that is no inserted instruction is the value itself. -/
theorem Copy.eq_self {F : Func} {pre : List Nat} {v₀ v : Value} {b : Bool} {y : Nat}
    (h : Copy F pre v₀ v b) (hv : v.ref = .inst y) (hy : y ∉ pre) : v = v₀ := by
  cases h with
  | self => rfl
  | fold ty _ _ => exact absurd hv (by simp)
  | cast ty hz _ _ =>
      obtain rfl := Ref.inst.inj hv
      exact absurd hz hy
  | call _ hz _ _ =>
      obtain rfl := Ref.inst.inj hv
      exact absurd hz hy

namespace Decorated

variable {tbi : Bool} {F₀ F : Func} {pre : Nat → List Nat}

theorem operand_original (h : Decorated tbi F₀ pre F) {x k y : Nat} {v : Value} (hx : x < F₀.next)
    (hv : F.operand x k = some v) (hy : v.ref = .inst y) (hlt : y < F₀.next) :
    F₀.operand x k = some v := by
  obtain ⟨v₀, b, hv₀, -, hcopy, -⟩ := h.operand x hx k v hv
  rw [hcopy.eq_self hy (h.not_mem_pre hlt)]
  exact hv₀

theorem dynCast_original (h : Decorated tbi F₀ pre F) {v : Value} {a : Nat}
    (ha : F.dynCast Op.isAlloca v = some a) : a < F₀.next ∧ F₀.dynCast Op.isAlloca v = some a := by
  obtain ⟨hva, halloca⟩ := Func.dynCast_eq_some.1 ha
  have hlt : a < F₀.next := by
    refine h.lt_of_op (fun hop => ?_) (fun f hop => ?_) fun hop => ?_
    all_goals
      rw [hop] at halloca
      exact absurd halloca (by simp [Op.isAlloca, runtimeCall])
  refine ⟨hlt, Func.dynCast_eq_some.2 ⟨hva, ?_⟩⟩
  rw [← h.op a hlt]
  exact halloca

theorem slotOf_original (h : Decorated tbi F₀ pre F) {x a : Nat} (hx : x < F₀.next)
    (ha : F.slotOf x = some a) : F₀.slotOf x = some a := by
  obtain ⟨v, hv, hcast⟩ := Option.bind_eq_some_iff.1 ha
  obtain ⟨hlt, hcast₀⟩ := h.dynCast_original hcast
  rw [Func.slotOf, h.operand_original hx hv (Func.dynCast_eq_some.1 hcast).1 hlt]
  exact hcast₀

/-- What is no load of a slot does not become one. -/
theorem slotOf_none (h : Decorated tbi F₀ pre F) {x : Nat} (hx : x < F₀.next)
    (hslot : F₀.slotOf x = none) : F.slotOf x = none := by
  apply Option.eq_none_iff_forall_ne_some.2
  intro a ha
  rw [h.slotOf_original hx ha] at hslot
  exact absurd hslot (by simp)

theorem loadOf_original (h : Decorated tbi F₀ pre F) {a l : Nat} (hl : F.LoadOf a l) :
    F₀.LoadOf a l := by
  have hlt := h.lt_of_load hl.1
  refine ⟨?_, h.slotOf_original hlt hl.2⟩
  rw [← h.op l hlt]
  exact hl.1

theorem storesTo_original (h : Decorated tbi F₀ pre F) {a x : Nat} (hx : x < F₀.next)
    (hs : F.StoresTo a x) : F₀.StoresTo a x := by
  obtain ⟨hop, v, w, hv, hptr, hw, ha⟩ := hs
  obtain ⟨v₀, -, hv₀, hty, -⟩ := h.operand x hx 0 v hv
  obtain ⟨hlt, ha₀⟩ := h.dynCast_original ha
  refine ⟨?_, v₀, w, hv₀, ?_, ?_, ha₀⟩
  · rw [← h.op x hx]
    exact hop
  · rw [pointerArgument, ← hty]
    exact hptr
  · exact h.operand_original hx hw (Func.dynCast_eq_some.1 ha).1 hlt

theorem carries_original (h : Decorated tbi F₀ pre F) {y k : Nat} (hy : y < F₀.next)
    (hc : F.Carries y k) : F₀.Carries y k := by
  have hop := h.op y hy
  rw [Func.Carries] at hc ⊢
  rw [hop] at hc
  cases hop₀ : (F₀.instr y).op with
  | gep =>
      rw [hop₀] at hc
      refine ⟨?_, hc.2⟩
      -- the index operands of the original are constants: a constant zero is no copy of another
      have hzero := hc.1
      simp only [allZeroIndices, List.all_eq_true, ← List.drop_one] at hzero ⊢
      intro v₀ hv₀
      obtain ⟨j, hj⟩ := List.mem_iff_getElem?.1 hv₀
      rw [List.getElem?_drop] at hj
      have hlen := h.operands_length y hy
      obtain ⟨hlt, -⟩ := List.getElem?_eq_some_iff.1 hj
      have hv := List.getElem?_eq_getElem (hlen ▸ hlt : 1 + j < (F.instr y).operands.length)
      obtain ⟨w₀, b, hw₀, -, hcopy, -⟩ := h.operand y hy (1 + j) _ hv
      obtain rfl := Option.some.inj (hj.symm.trans hw₀)
      have hmem : (F.instr y).operands[1 + j] ∈ (F.instr y).operands.drop 1 := by
        refine List.mem_iff_getElem?.2 ⟨j, ?_⟩
        rw [List.getElem?_drop]
        exact hv
      have href := hzero _ hmem
      rw [beq_iff_eq] at href
      generalize (F.instr y).operands[1 + j] = v at hcopy href
      cases hcopy with
      | self => rw [href]; decide
      | fold ty _ _ => exact absurd href (by simp)
      | cast ty _ _ _ => exact absurd href (by simp)
      | call _ _ _ _ => exact absurd href (by simp)
  | _ =>
      rw [hop₀] at hc
      exact hc

/-- What a copy carries is carried by the original value, or is itself a copy of it. -/
theorem carried_original (h : Decorated tbi F₀ pre F) {x k z j : Nat} {v₀ v w : Value} {b : Bool}
    (h₀ : F₀.operand x k = some v₀) (hcopy : Copy F (pre x) v₀ v b) (hv : v.ref = .inst z)
    (hc : F.Carries z j) (hw : F.operand z j = some w) :
    (v₀.ref = .inst z ∧ z < F₀.next ∧ F₀.Carries z j ∧
      ∃ w₀ c, F₀.operand z j = some w₀ ∧ Copy F (pre z) w₀ w c) ∨
    ∃ c, Copy F (pre x) v₀ w c := by
  cases hcopy with
  | self =>
      have hz := h.base.operand_lt x k v₀ z h₀ hv
      obtain ⟨w₀, c, hw₀, -, hcopy', -⟩ := h.operand z hz j w hw
      exact Or.inl ⟨hv, hz, h.carries_original hz hc, w₀, c, hw₀, hcopy'⟩
  | fold ty _ _ => exact absurd hv (by simp)
  -- an inserted cast carries its operand
  | @cast u v' c ty _ hi hcopy' =>
      obtain rfl := Ref.inst.inj hv
      rw [Func.Carries, hi] at hc
      rw [Func.operand, hi, show j = 0 from hc] at hw
      obtain rfl := Option.some.inj hw
      exact Or.inr ⟨_, hcopy'⟩
  -- a call of the runtime library returns none of its arguments
  | @call u v' c f _ _ hi _ =>
      obtain rfl := Ref.inst.inj hv
      rw [Func.Carries, hi] at hc
      exact absurd hc (by simp [runtimeCall])

/-- A value that strips to an original instruction carries an original one that does. -/
theorem strips_original (h : Decorated tbi F₀ pre F) {v : Value} {l : Nat} (hs : Strips F v l)
    (hl : l < F₀.next) : ∀ {x k : Nat} {v₀ : Value} {b : Bool},
      F₀.operand x k = some v₀ → Copy F (pre x) v₀ v b → Strips F₀ v₀ l := by
  induction hs with
  | self hv =>
      intro x k v₀ b _ hcopy
      have := hcopy.eq_self hv (h.not_mem_pre hl)
      exact .self (this ▸ hv)
  | cast hv hc hw _ ih =>
      intro x k v₀ b h₀ hcopy
      rcases h.carried_original h₀ hcopy hv hc hw with
        ⟨hv₀, -, hc₀, w₀, c, hw₀, hcopy'⟩ | ⟨c, hcopy'⟩
      · exact .cast hv₀ hc₀ hw₀ (ih hl hw₀ hcopy')
      · exact ih hl h₀ hcopy'

/-- A value that casts to a load carries an original one that does. -/
theorem castsTo_original (h : Decorated tbi F₀ pre F) {v : Value} {l : Nat} (hs : CastsTo F v l)
    (hl : (F.instr l).op = .load) : ∀ {x k : Nat} {v₀ : Value} {b : Bool},
      F₀.operand x k = some v₀ → Copy F (pre x) v₀ v b → CastsTo F₀ v₀ l := by
  induction hs with
  | self hv =>
      intro x k v₀ b _ hcopy
      have := hcopy.eq_self hv (h.not_mem_pre (h.lt_of_load hl))
      exact .self (this ▸ hv)
  | @cast v w z y hv hop hw _ ih =>
      intro x k v₀ b h₀ hcopy
      have hc : F.Carries z 0 := by rw [Func.Carries, hop]
      rcases h.carried_original h₀ hcopy hv hc hw with
        ⟨hv₀, hz, -, w₀, c, hw₀, hcopy'⟩ | ⟨c, hcopy'⟩
      · exact .cast hv₀ ((h.op z hz).symm.trans hop) hw₀ (ih hl hw₀ hcopy')
      · exact ih hl h₀ hcopy'

theorem hands_original (h : Decorated tbi F₀ pre F) {x : Nat} {v : Value} (hx : x < F₀.next)
    (hv : F.Hands x v) : ∃ v₀ k b, F₀.Hands x v₀ ∧ F₀.operand x k = some v₀ ∧
      Copy F (pre x) v₀ v b := by
  obtain ⟨callee, returned, i, hop, havoid, hi, hptr⟩ := hv
  obtain ⟨v₀, b, h₀, hty, hcopy, -⟩ := h.operand x hx i v hi
  refine ⟨v₀, i, b, ⟨callee, returned, i, (h.op x hx).symm.trans hop, havoid, h₀, ?_⟩, h₀, hcopy⟩
  rw [pointerArgument, ← hty]
  exact hptr

theorem not_hands (h : Decorated tbi F₀ pre F) {x : Nat} (hx : x < F₀.next)
    (hno : ∀ v, ¬ F₀.Hands x v) : ∀ v, ¬ F.Hands x v := by
  intro v hv
  obtain ⟨v₀, -, -, hv₀, -⟩ := h.hands_original hx hv
  exact hno v₀ hv₀

theorem mayPass_original (h : Decorated tbi F₀ pre F) {x l : Nat} (hx : x < F₀.next)
    (hp : F.MayPass x l) : F₀.MayPass x l := by
  obtain ⟨hl, v, hv, hs⟩ := hp
  obtain ⟨v₀, k, b, hv₀, h₀, hcopy⟩ := h.hands_original hx hv
  refine ⟨?_, v₀, hv₀, h.strips_original hs (h.lt_of_load hl) h₀ hcopy⟩
  rw [← h.op l (h.lt_of_load hl)]
  exact hl

theorem mayNest_original (h : Decorated tbi F₀ pre F) {x l : Nat} (hx : x < F₀.next)
    (hp : F.MayNest x l) : F₀.MayNest x l := by
  obtain ⟨hl, v, y, w, hv, hs, hy, hw, hwl⟩ := hp
  obtain ⟨v₀, k, b, hv₀, h₀, hcopy⟩ := h.hands_original hx hv
  have hylt := h.lt_of_load hy
  have hllt := h.lt_of_load hl
  refine ⟨(h.op l hllt).symm.trans hl, v₀, y, w, hv₀, h.castsTo_original hs hy h₀ hcopy, ?_,
    h.operand_original hylt hw hwl hllt, hwl⟩
  exact (h.op y hylt).symm.trans hy

end Decorated

/-! ### What a visit leaves alone -/

section Frame

variable {tbi : Bool} {F₀ : Func} {pre : Nat → List Nat}

/-- A visit changes no operand that its rewrites do not name. -/
theorem Steps.operand_eq {x : Nat} {s t : State} (h : Steps tbi x s t)
    (hd : Decorated tbi F₀ pre s.func) (hx : x < F₀.next) {y k : Nat} (hy : y < F₀.next)
    (hno : ∀ (G : Func) (f : String), (∃ p, Decorated tbi F₀ p G) → G.operand y k = s.func.operand y k →
      ¬ Wrap tbi G x f y k) : t.func.operand y k = s.func.operand y k := by
  induction h with
  | refl => rfl
  | @wrap t f u j hst hw ih =>
      obtain ⟨pre', hd', -⟩ := hst.decorated hd hx
      obtain ⟨v, hv, hwrapped⟩ := hd'.wrapped hx hw
      show (t.func.wrapOperand f u j).operand y k = _
      by_cases hu : y = u
      · subst hu
        by_cases hk : k = j
        · subst hk
          exact absurd hw (hno t.func f ⟨pre', hd'⟩ ih)
        · rw [hwrapped.operand k hk]
          exact ih
      · have hlt : y < t.func.next := Nat.lt_of_lt_of_le hy hd'.next_le
        rw [Func.operand, hwrapped.instr y hlt hu]
        exact ih
  | pass p _ ih => exact ih

/-- A visit leaves everything but loads, GEPs and the visited call alone. -/
theorem Steps.instr_eq {x : Nat} {s t : State} (h : Steps tbi x s t)
    (hd : Decorated tbi F₀ pre s.func) (hx : x < F₀.next) {y : Nat} (hy : y < F₀.next)
    (hload : (F₀.instr y).op ≠ .load) (hgep : (F₀.instr y).op ≠ .gep)
    (hcall : y = x → ∀ callee returned, (F₀.instr y).op ≠ .call callee returned) :
    t.func.instr y = s.func.instr y := by
  induction h with
  | refl => rfl
  | @wrap t f u j hst hw ih =>
      obtain ⟨pre', hd', -⟩ := hst.decorated hd hx
      obtain ⟨v, hv, hwrapped⟩ := hd'.wrapped hx hw
      show (t.func.wrapOperand f u j).instr y = _
      rw [hwrapped.instr y (Nat.lt_of_lt_of_le hy hd'.next_le)]
      · exact ih
      · rintro rfl
        rcases hw.op_cases with hop | hop | ⟨rfl, callee, returned, hop⟩
        · exact hload ((hd'.op y hy).symm.trans hop)
        · exact hgep ((hd'.op y hy).symm.trans hop)
        · exact hcall rfl callee returned ((hd'.op y hy).symm.trans hop)
  | pass p _ ih => exact ih

/-- After the visits `done`: everything but loads, GEPs and visited calls is as it was. -/
def Settled (F₀ : Func) (done : List Nat) (F : Func) : Prop :=
  ∀ y < F₀.next, (F₀.instr y).op ≠ .load → (F₀.instr y).op ≠ .gep →
    (y ∈ done → ∀ callee returned, (F₀.instr y).op ≠ .call callee returned) →
    F.instr y = F₀.instr y

theorem Settled.refl (F₀ : Func) : Settled F₀ [] F₀ := fun _ _ _ _ _ => rfl

theorem Settled.steps {done : List Nat} {x : Nat} {s t : State} (h : Settled F₀ done s.func)
    (hst : Steps tbi x s t) (hd : Decorated tbi F₀ pre s.func) (hx : x < F₀.next) :
    Settled F₀ (done ++ [x]) t.func := by
  intro y hy hload hgep hcall
  rw [hst.instr_eq hd hx hy hload hgep fun hyx => hcall (by simp [hyx])]
  exact h y hy hload hgep fun hmem => hcall (List.mem_append_left _ hmem)

end Frame

/-! ## The events of a visit -/

theorem Func.createBitCast_name (F : Func) (x : Nat) (v : Value) (ty : Ty) :
    (F.createBitCast x v ty).1.name = F.name :=
  (grows_createBitCast F x v ty).1.name

theorem Func.wrapOperand_name (F : Func) (f : String) (x k : Nat) :
    (F.wrapOperand f x k).name = F.name := by
  rw [Func.wrapOperand]
  split
  · rfl
  · exact (Func.createBitCast_name _ _ _ _).trans (Func.createBitCast_name _ _ _ _)

theorem State.SlotFlags.wrap {s : State} {a : Nat} {flags : Option Flags} (h : s.SlotFlags a flags)
    (x : Nat) (f : String) (y k : Nat) : (s.wrap x f y k).SlotFlags a flags :=
  h.congr (s.func.wrapOperand_name f y k) rfl

section Events

variable {tbi : Bool} {F₀ : Func} {pre : Nat → List Nat} {s : State} {x a : Nat}
  {flags : Option Flags}

theorem instrumentReturn_flags : (instrumentReturn s).SlotFlags a none := Tracks.empty

theorem instrumentStore_flags (hop : (s.func.instr x).op = .store) (h : s.SlotFlags a flags) :
    (s.func.StoresTo a x ∧ (instrumentStore s x).SlotFlags a (SlotEvent.store.apply flags)) ∨
      (¬ s.func.StoresTo a x ∧ (instrumentStore s x).SlotFlags a flags) := by
  rw [instrumentStore]
  split
  · rename_i v b hv hb
    obtain ⟨w, hw, hcast⟩ := Option.bind_eq_some_iff.1 hb
    split
    · rename_i hptr
      by_cases hba : b = a
      -- a new entry behind those of the slot
      · subst hba
        refine Or.inl ⟨⟨hop, v, w, hv, hptr, hw, hcast⟩, ?_⟩
        rw [State.SlotFlags, State.entries, List.filter_append]
        have hentry : s.isEntry b ⟨s.func.name, b, false, false⟩ = true := by simp [State.isEntry]
        show Tracks (s.entries b ++ List.filter (s.isEntry b) [⟨s.func.name, b, false, false⟩]) _
        rw [List.filter_cons_of_pos hentry]
        exact Tracks.append h rfl
      -- an entry of another slot, and `x` has one address only
      · refine Or.inr ⟨?_, ?_⟩
        · rintro ⟨-, -, w', -, -, hw', hcast'⟩
          rw [hw] at hw'
          obtain rfl := Option.some.inj hw'
          rw [hcast] at hcast'
          exact hba (Option.some.inj hcast')
        · rw [State.SlotFlags, State.entries, List.filter_append]
          have hentry : s.isEntry a ⟨s.func.name, b, false, false⟩ ≠ true := by
            simp [State.isEntry, hba]
          show Tracks (s.entries a ++ List.filter (s.isEntry a) [⟨s.func.name, b, false, false⟩]) _
          rw [List.filter_cons_of_neg hentry, List.filter_nil, List.append_nil]
          exact h
    · rename_i hptr
      refine Or.inr ⟨?_, h⟩
      rintro ⟨-, v', -, hv', hptr', -⟩
      rw [hv] at hv'
      obtain rfl := Option.some.inj hv'
      exact hptr hptr'
  · rename_i hnone
    refine Or.inr ⟨?_, h⟩
    rintro ⟨-, v, w, hv, -, hw, hcast⟩
    exact hnone v a hv (by rw [hw]; exact hcast)

/-- The check of a GEP uses up an armed entry of the slot that `x` loads. -/
theorem checkGEP_flags (h : s.SlotFlags a flags) (g : Nat) :
    (s.func.slotOf x = some a ∧ (checkGEP s x g).SlotFlags a (SlotEvent.feed.apply flags)) ∨
      (s.func.slotOf x ≠ some a ∧ (checkGEP s x g).SlotFlags a flags) := by
  have hname := s.func.wrapOperand_name "__GEPCheck" g 0
  rw [checkGEP]
  split
  · rename_i hnone
    exact Or.inr ⟨by simp [hnone], h⟩
  · rename_i b hb
    by_cases hba : b = a
    · subst hba
      refine Or.inl ⟨hb, ?_⟩
      rw [h.any_isArmed]
      -- no entry; an entry that was not passed; an armed entry, which is used up
      rcases flags with _ | ⟨_ | _, _⟩
      · exact h
      · exact h
      · apply State.slotFlags_of_tracks hname
        exact h.update_self (t := PointerProperties.isPassedToFunctionBefore)
          (fun _ => ⟨rfl, rfl⟩) (fun p hp => congrArg Flags.passed hp) fun _ _ => rfl
    · refine Or.inr ⟨by simp [hb, hba], ?_⟩
      split
      · apply State.slotFlags_of_tracks hname
        exact h.update_other hba (t := PointerProperties.isPassedToFunctionBefore)
          fun _ => ⟨rfl, rfl⟩
      · exact h

theorem checkNestedGEP_flags (h : s.SlotFlags a flags) (g : Nat) :
    (checkNestedGEP s x g).SlotFlags a flags := by
  rw [checkNestedGEP]
  split
  · exact h
  · split
    · exact h
    · split
      · split
        · exact (h.wrap x "__nestedGEPCheck" g 0).congr rfl rfl
        · split
          · exact h
          · exact h.congr rfl rfl
      · exact h

theorem loadThroughLoad_flags (h : s.SlotFlags a flags) : (loadThroughLoad s x).SlotFlags a flags := by
  rcases loadThroughLoad_cases s x with heq | ⟨-, hrec⟩
  · rw [heq]
    exact h
  · exact hrec (fun t => t.SlotFlags a flags) h fun t f _ ht => ht.wrap x f x 0

theorem markPassed_flags {b : Nat} {f : PointerProperties → PointerProperties} {g : Flags → Flags}
    (h : s.SlotFlags a flags) (hf : ∀ p, (f p).fn = p.fn ∧ (f p).operand1 = p.operand1)
    (hg : ∀ p, (f p).flags = g p.flags) :
    (markPassed s b f).SlotFlags a (if b = a then flags.map g else flags) := by
  have hpred : s.isEntry b = fun p => s.isEntry b p && true := by
    funext p
    rw [Bool.and_true]
  refine State.slotFlags_of_tracks (s := s) rfl ?_
  show Tracks ((updateFirst (s.isEntry b) f s.pass.pointers).filter (s.isEntry a)) _
  rw [hpred]
  split
  · rename_i hba
    subst hba
    cases hfl : flags with
    | none =>
        rw [filter_updateFirst_self]
        · rw [hfl] at h
          generalize hl : s.pass.pointers.filter (s.isEntry b) = l
          rw [State.SlotFlags, State.entries, hl] at h
          cases h
          exact Tracks.empty
        · intro p hp
          simp only [State.isEntry, hf p]
          exact hp
    | some f' =>
        rw [hfl] at h
        exact h.update_self hf (fun _ _ => rfl) fun p hp => by rw [hg, hp]
  · rename_i hba
    exact h.update_other hba hf

/-! ### Calls -/

/-- The flags after some events. -/
inductive Moved (ok : SlotEvent → Prop) (flags : Option Flags) : Option Flags → Prop where
  | refl : Moved ok flags flags
  | event {e : SlotEvent} {flags' : Option Flags} :
      Moved ok flags flags' → ok e → Moved ok flags (e.apply flags')

theorem Moved.trans {ok : SlotEvent → Prop} {f g h : Option Flags} (hfg : Moved ok f g)
    (hgh : Moved ok g h) : Moved ok f h := by
  induction hgh with
  | refl => exact hfg
  | event _ he ih => exact ih.event he

/-- What a call may do to a slot. -/
def Func.CallEvent (F : Func) (a x : Nat) (e : SlotEvent) : Prop :=
  (e = .pass ∧ ∃ l, F.LoadOf a l ∧ F.MayPass x l) ∨
    (e = .nested ∧ ∃ l, F.LoadOf a l ∧ F.MayNest x l)

theorem Decorated.callEvent_original {F : Func} (hd : Decorated tbi F₀ pre F) (hx : x < F₀.next)
    {e : SlotEvent} (h : F.CallEvent a x e) : F₀.CallEvent a x e := by
  rcases h with ⟨he, l, hl, hp⟩ | ⟨he, l, hl, hp⟩
  · exact Or.inl ⟨he, l, hd.loadOf_original hl, hd.mayPass_original hx hp⟩
  · exact Or.inr ⟨he, l, hd.loadOf_original hl, hd.mayNest_original hx hp⟩

/-- The part of `instrumentCalls` for external functions touches no entry. -/
theorem externalArguments_flags (h : s.SlotFlags a flags) (callee : Callee) :
    (externalArguments tbi s x callee).SlotFlags a flags := by
  apply externalArguments_keeps (P := fun t => t.SlotFlags a flags) h (h.congr rfl rfl)
  intro _ _ t i ht
  rcases xpacArgument_cases tbi callee.name t x i with heq | ⟨-, -, -, -, heq⟩
  · rw [heq]
    exact ht
  · rw [heq]
    exact ht.wrap x "__xpac" x i

/-- Wrapping the address of a load leaves the loads of other slots alone. -/
theorem Decorated.slotOf_of_ne (hd : Decorated tbi F₀ pre s.func) {l b : Nat}
    (hload : (s.func.instr l).op = .load) (hb : s.func.slotOf l = some b) (hba : b ≠ a)
    {f : String} (l' : Nat) (hl' : s.func.LoadOf a l') :
    (s.func.wrapOperand f l 0).slotOf l' = some a := by
  obtain ⟨w, hw, -⟩ := Func.slotOf_eq_some.1 hb
  have hlt := Nat.lt_of_lt_of_le (hd.lt_of_load hload) hd.next_le
  have hlt' := Nat.lt_of_lt_of_le (hd.lt_of_load hl'.1) hd.next_le
  rw [(s.func.wrapped_wrapOperand f hlt hw).slotOf_eq hd.linked hlt']
  · exact hl'.2
  · rintro rfl
    exact hba (Option.some.inj (hb.symm.trans hl'.2))

/-- A load passed to a call arms its slot, unless the slot was checked. -/
theorem passLoad_pass (h : s.SlotFlags a flags) {v : Value} {l : Nat}
    (hl : s.func.dynCast (· == .load) (s.func.stripPointerCasts s.func.next v) = some l)
    (ha : s.func.slotOf l = some a) :
    (passLoad x s v).SlotFlags a (SlotEvent.pass.apply flags) := by
  have hmark := markPassed_flags (b := a) (h.wrap x "__loadCheck" l 0)
    (f := fun p => { p with isPassedToFunctionBefore := true, isCheckedBefore := false })
    (g := fun _ => ⟨true, false⟩) (fun _ => ⟨rfl, rfl⟩) fun _ => rfl
  rw [if_pos rfl] at hmark
  rw [passLoad, hl]
  simp only [ha, h.any_isChecked]
  -- a checked entry is the one that `instrumentCalls` leaves alone
  rcases flags with _ | ⟨_, _ | _⟩
  · exact hmark
  · exact hmark
  · exact h

theorem passLoad_flags (hd : Decorated tbi F₀ pre s.func) (h : s.SlotFlags a flags) (v : Value) :
    (∃ l, Strips s.func v l ∧ s.func.LoadOf a l ∧
        (passLoad x s v).SlotFlags a (SlotEvent.pass.apply flags)) ∨
      ((passLoad x s v).SlotFlags a flags ∧
        ∀ l, s.func.LoadOf a l → (passLoad x s v).func.slotOf l = some a) := by
  rw [passLoad]
  split
  · exact Or.inr ⟨h, fun l hl => hl.2⟩
  · rename_i l hl
    obtain ⟨href, hload⟩ := Func.dynCast_eq_some.1 hl
    split
    · exact Or.inr ⟨h, fun l hl => hl.2⟩
    · rename_i b hb
      by_cases hba : b = a
      · subst hba
        refine Or.inl ⟨l, Func.strips_of_stripPointerCasts _ v href, ⟨beq_iff_eq.1 hload, hb⟩, ?_⟩
        have hpass := passLoad_pass (x := x) h hl hb
        rw [passLoad, hl] at hpass
        simp only [hb] at hpass
        exact hpass
      · apply Or.inr
        split
        · exact ⟨h, fun l hl => hl.2⟩
        · have hmark := markPassed_flags (b := b) (h.wrap x "__loadCheck" l 0)
            (f := fun p => { p with isPassedToFunctionBefore := true, isCheckedBefore := false })
            (g := fun _ => ⟨true, false⟩) (fun _ => ⟨rfl, rfl⟩) fun _ => rfl
          rw [if_neg hba] at hmark
          exact ⟨hmark, hd.slotOf_of_ne (beq_iff_eq.1 hload) hb hba⟩

/-- A load through a load passed to a call arms the slot of the inner load. -/
theorem passNestedLoad_flags (hd : Decorated tbi F₀ pre s.func) (h : s.SlotFlags a flags)
    (v : Value) :
    (∃ y w l, CastsTo s.func v y ∧ (s.func.instr y).op = .load ∧ s.func.operand y 0 = some w ∧
        w.ref = .inst l ∧ s.func.LoadOf a l ∧
        (passNestedLoad x s v).SlotFlags a (SlotEvent.nested.apply flags)) ∨
      ((passNestedLoad x s v).SlotFlags a flags ∧
        ∀ l, s.func.LoadOf a l → (passNestedLoad x s v).func.slotOf l = some a) := by
  rw [passNestedLoad]
  split
  · exact Or.inr ⟨h, fun l hl => hl.2⟩
  · rename_i w hw
    obtain ⟨y, hy, hw⟩ := Option.bind_eq_some_iff.1 hw
    obtain ⟨u, hu, hy⟩ := Option.bind_eq_some_iff.1 hy
    obtain ⟨z, hz, hu⟩ := Option.bind_eq_some_iff.1 hu
    obtain ⟨hvz, hcast⟩ := Func.dynCast_eq_some.1 hz
    obtain ⟨huy, hload⟩ := Func.dynCast_eq_some.1 hy
    split
    · exact Or.inr ⟨h, fun l hl => hl.2⟩
    · rename_i l hl
      obtain ⟨hwl, hload'⟩ := Func.dynCast_eq_some.1 hl
      split
      · exact Or.inr ⟨h, fun l hl => hl.2⟩
      · rename_i b hb
        have hmark := markPassed_flags (b := b) (h.wrap x "__loadCheck" l 0)
          (f := fun p => { p with isPassedToFunctionBefore := true })
          (g := fun g => ⟨true, g.checked⟩) (fun _ => ⟨rfl, rfl⟩) fun _ => rfl
        by_cases hba : b = a
        · subst hba
          rw [if_pos rfl] at hmark
          refine Or.inl ⟨y, w, l, .cast hvz (beq_iff_eq.1 hcast) hu (.self huy),
            beq_iff_eq.1 hload, hw, hwl, ⟨beq_iff_eq.1 hload', hb⟩, ?_⟩
          cases flags with
          | none => exact hmark
          | some _ => exact hmark
        · rw [if_neg hba] at hmark
          exact Or.inr ⟨hmark, hd.slotOf_of_ne (beq_iff_eq.1 hload') hb hba⟩

theorem passArgument_flags (hd : Decorated tbi F₀ pre s.func) (hx : x < F₀.next) {callee : Callee}
    {returned : Option Nat} (hop : (s.func.instr x).op = .call (some callee) returned)
    (havoid : callee.name ∉ functionsAvoidList) (h : s.SlotFlags a flags) (i : Nat) :
    ∃ flags', (passArgument x s i).SlotFlags a flags' ∧ Moved (F₀.CallEvent a x) flags flags' := by
  rcases passArgument_cases (i := i) hd hx hop havoid with heq | ⟨v, t, hands, hands', hsteps, ht, heq⟩
  · rw [heq]
    exact ⟨flags, h, .refl⟩
  · obtain ⟨pre', hd', -⟩ := hsteps.decorated hd hx
    have hfirst := passLoad_flags (x := x)
      (s := { s with pass := { s.pass with internalCall := true, geps := [] } }) hd
      (h.congr rfl rfl) v
    rw [← ht] at hfirst
    -- the flags after the first rewrite, and then after the second
    obtain ⟨flags₁, h₁, hmoved⟩ : ∃ flags₁, t.SlotFlags a flags₁ ∧
        Moved (F₀.CallEvent a x) flags flags₁ := by
      rcases hfirst with ⟨l, hs, hl, ht⟩ | ⟨ht, -⟩
      · refine ⟨_, ht, Moved.refl.event ?_⟩
        exact hd.callEvent_original hx (Or.inl ⟨rfl, l, hl, hl.1, v, hands, hs⟩)
      · exact ⟨flags, ht, .refl⟩
    rw [heq]
    rcases passNestedLoad_flags (x := x) hd' h₁ v with
      ⟨y, w, l, hs, hy, hw, hwl, hl, ht⟩ | ⟨ht, -⟩
    · refine ⟨_, ht, hmoved.event ?_⟩
      exact hd'.callEvent_original hx (Or.inr ⟨rfl, l, hl, hl.1, v, y, w, hands', hs, hy, hw, hwl⟩)
    · exact ⟨flags₁, ht, hmoved⟩

/-- The arguments of a call, one after the other. -/
theorem passArguments_flags (hd : Decorated tbi F₀ pre s.func) (hx : x < F₀.next) {callee : Callee}
    {returned : Option Nat} (hop : (s.func.instr x).op = .call (some callee) returned)
    (havoid : callee.name ∉ functionsAvoidList) (h : s.SlotFlags a flags) (l : List Nat) :
    ∃ flags', (l.foldl (passArgument x) s).SlotFlags a flags' ∧
      Moved (F₀.CallEvent a x) flags flags' := by
  have key := List.foldlRecOn (motive := fun t : State => Steps tbi x s t ∧
      ∃ flags', t.SlotFlags a flags' ∧ Moved (F₀.CallEvent a x) flags flags') l (passArgument x)
      ⟨.refl, flags, h, .refl⟩ fun t ht i _ => by
    obtain ⟨hst, flags₁, h₁, hmoved₁⟩ := ht
    obtain ⟨pre', hd', -⟩ := hst.decorated hd hx
    have hop' := (hst.op_eq hd hx hx).trans hop
    obtain ⟨flags₂, h₂, hmoved₂⟩ := passArgument_flags hd' hx hop' havoid h₁ i
    exact ⟨hst.trans (passArgument_steps hd' hx hop' havoid), flags₂, h₂, hmoved₁.trans hmoved₂⟩
  exact key.2

/-! ### Visits -/

theorem visit_of_load (hop : (s.func.instr x).op = .load) : visit tbi s x = instrumentLoad s x := by
  rw [visit, hop]

theorem visit_of_call {callee : Callee} {returned : Option Nat}
    (hop : (s.func.instr x).op = .call (some callee) returned) :
    visit tbi s x = instrumentCalls tbi s x callee := by
  rw [visit, hop]

theorem visit_return (tbi : Bool) (hop : (s.func.instr x).op = .ret) : (visit tbi s x).SlotFlags a none := by
  rw [visit, hop]
  exact instrumentReturn_flags

theorem visit_store (tbi : Bool) (hop : (s.func.instr x).op = .store) (h : s.SlotFlags a flags) :
    (s.func.StoresTo a x ∧ (visit tbi s x).SlotFlags a (SlotEvent.store.apply flags)) ∨
      (¬ s.func.StoresTo a x ∧ (visit tbi s x).SlotFlags a flags) := by
  rw [visit, hop]
  exact instrumentStore_flags hop h

theorem visit_load (hd : Decorated tbi F₀ pre s.func) (hwf : F₀.WellFormed)
    (hop : (s.func.instr x).op = .load) (h : s.SlotFlags a flags) :
    (F₀.Feeds a x ∧ (visit tbi s x).SlotFlags a (SlotEvent.feed.apply flags)) ∨
      (visit tbi s x).SlotFlags a flags := by
  have hx := hd.lt_of_load hop
  have h' := loadThroughLoad_flags (x := x) h
  rw [visit_of_load hop]
  rcases instrumentLoad_cases hd hwf hop with heq | ⟨-, heq | ⟨g, j, v, -, hg, hv, hvx, heq⟩⟩
  · rw [heq]
    exact Or.inr h
  · rw [heq]
    exact Or.inr h'
  · have hsteps : Steps tbi x s (loadThroughLoad s x) :=
      loadThroughLoad_steps (Nat.lt_of_lt_of_le hx hd.next_le) hop
    obtain ⟨pre', hd', -⟩ := hsteps.decorated hd hx
    have hop' := (hsteps.op_eq hd hx hx).trans hop
    rw [heq]
    rcases checkGEP_flags (x := x) h' g with ⟨ha, ht⟩ | ⟨-, ht⟩
    · refine Or.inl ⟨⟨hd'.loadOf_original ⟨hop', ha⟩, g, v, ?_, ?_, hvx⟩,
        checkNestedGEP_flags ht g⟩
      · rw [← hd'.op g (hd'.lt_of_gep hg)]
        exact hg
      · exact hd'.operand_original (hd'.lt_of_gep hg) hv hvx hx
    · exact Or.inr (checkNestedGEP_flags ht g)

theorem visit_call (hd : Decorated tbi F₀ pre s.func) (hx : x < F₀.next) {callee : Callee}
    {returned : Option Nat} (hop : (s.func.instr x).op = .call (some callee) returned)
    (h : s.SlotFlags a flags) :
    ∃ flags', (visit tbi s x).SlotFlags a flags' ∧ Moved (F₀.CallEvent a x) flags flags' := by
  have hfirst : (externalArguments tbi s x callee).SlotFlags a flags :=
    externalArguments_flags h callee
  have hsteps : Steps tbi x s (externalArguments tbi s x callee) :=
    externalArguments_steps hd hx hop
  obtain ⟨pre', hd', -⟩ := hsteps.decorated hd hx
  have hop' := (hsteps.op_eq hd hx hx).trans hop
  rw [visit_of_call hop, instrumentCalls]
  split
  · rename_i havoid
    exact passArguments_flags hd' hx hop' havoid hfirst _
  · exact ⟨flags, hfirst, .refl⟩

/-- Other instructions do nothing. -/
theorem visit_other (hret : (s.func.instr x).op ≠ .ret) (hstore : (s.func.instr x).op ≠ .store)
    (hload : (s.func.instr x).op ≠ .load)
    (hcall : ∀ callee returned, (s.func.instr x).op ≠ .call (some callee) returned) :
    visit tbi s x = s := by
  rw [visit]
  split
  · rename_i hop; exact absurd hop hret
  · rename_i hop; exact absurd hop hstore
  · rename_i hop; exact absurd hop hload
  · rename_i callee returned hop; exact absurd hop (hcall callee returned)
  · rfl

end Events

end PTAuth.Pass
