import PTAuth.Library.Simulation
import PTAuth.Pass.Arming

/-!
# The pass over a module

`instrumentModule` is the last loop of `runOnModule`: it walks the functions of a module in order and
carries `pointers` and `GEPS` from one to the next. `optimizer` looks at a function once, before it
is walked, and puts it on `optimizedList` when nothing in it asks for a check; functions on the list
are skipped.

What a walk makes of a function depends on the carried state only through `GEPS` and the entries of
the function itself (`Alike`, `Alike.visited`), and entries of functions still to come never exist
(`visited_apart`).
-/

set_option autoImplicit false

namespace PTAuth.Pass

/-! ## `optimizer` -/

/-- The functions that `runOnModule` leaves alone. -/
def avoidList : List String :=
  ["mainQSort3", "mainSort", "price_out_impl", "primal_bea_mpp", "read_min", "getopt_internal",
    "writeSyntaxElement_fixed"]

/-- `InternalCall`, `GlobalPointer`, `NestedPointer`, `FlagFreeCalled`. -/
structure OptimizerFlags where
  internalCall : Bool
  globalPointer : Bool
  nestedPointer : Bool
  flagFreeCalled : Bool
  deriving DecidableEq, Repr

/-- The condition of `optimizer` for putting a function on the list. -/
def OptimizerFlags.clear (flags : OptimizerFlags) : Bool :=
  !flags.internalCall && !flags.globalPointer && !flags.nestedPointer && !flags.flagFreeCalled

/-- The body of the loop of `optimizer`. -/
def inspect (F : Func) (flags : OptimizerFlags) (x : Nat) : OptimizerFlags :=
  match (F.instr x).op with
  | .call (some callee) _ =>
      { flags with
        flagFreeCalled := flags.flagFreeCalled || callee.name == "__ptauth_free"
        internalCall := flags.internalCall ||
          (decide (callee.name ∉ functionsAvoidList) && (F.instr x).operands.any pointerArgument) }
  | .load =>
      match F.operand x 0 with
      | none => flags
      | some p =>
          { flags with
            globalPointer := flags.globalPointer ||
              ((F.instr x).ty.isPointerTy && !isFile p.ty && p.ref.isGlobalVariable)
            nestedPointer := flags.nestedPointer ||
              ((F.users x).head?.any (fun u => (F.instr u.1).op == .gep) &&
                (F.dynCast (· == .gep) p).isSome) }
  | _ => flags

/-- The flags after the loop of `optimizer`. -/
def optimizerFlags (F : Func) : OptimizerFlags :=
  F.ids.foldl (inspect F) ⟨false, false, false, false⟩

/-- `optimizer` puts the function on the list. -/
def optimized (F : Func) : Bool := (optimizerFlags F).clear

/-! ## `runOnModule` -/

/-- The state of the pass between functions, and the rewritten functions so far with the rewrites
made in each. -/
structure ModuleState where
  pass : PassState
  optimizedList : List String
  done : List (Func × List Insertion)

/-- `optimizer`. -/
def optimizer (m : ModuleState) (F : Func) : ModuleState :=
  let flags := optimizerFlags F
  { m with
    pass.internalCall := flags.internalCall
    pass.flagFreeCalled := flags.flagFreeCalled
    optimizedList := if flags.clear then m.optimizedList ++ [F.name] else m.optimizedList }

/-- The body of the loop over the functions. `optimization` is `OPTIMIZATION`; a function without
blocks is a declaration. -/
def instrumentFunction (optimization tbi : Bool) (fuel : Nat) (m : ModuleState) (F : Func) :
    Option ModuleState :=
  if F.layout = [] then some { m with done := m.done ++ [(F, [])] }
  else
    let m := if optimization then optimizer m F else m
    if F.name ∈ avoidList ∨ F.name ∈ m.optimizedList then
      some { m with done := m.done ++ [(F, [])] }
    else
      (walk tbi fuel ⟨F, m.pass, []⟩).map fun s =>
        { m with pass := s.pass, done := m.done ++ [(s.func, s.inserted)] }

/-- The globals of the pass at its start. -/
def ModuleState.start : ModuleState := ⟨⟨[], [], false, false⟩, [""], []⟩

/-- The loop over the functions. -/
def instrumentModule (optimization tbi : Bool) (fuel : Nat) (fs : List Func) : Option ModuleState :=
  fs.foldlM (instrumentFunction optimization tbi fuel) ModuleState.start

/-- The functions of a module: well-formed, with names of their own where they have one. -/
structure WellFormedModule (fs : List Func) : Prop where
  wellFormed : ∀ F ∈ fs, F.WellFormed
  names : fs.Pairwise fun F G => F.name = G.name → F.name = ""

/-! ## What `optimizer` sees -/

/-- Nothing at `x` sets a flag of `optimizer`. -/
structure Func.Calm (F : Func) (x : Nat) : Prop where
  free : ∀ callee returned, (F.instr x).op = .call (some callee) returned →
    callee.name ≠ "__ptauth_free"
  hands : ∀ v, ¬ F.Hands x v
  global : ∀ p, (F.instr x).op = .load → F.operand x 0 = some p → (F.instr x).ty.isPointerTy = true →
    isFile p.ty = false → p.ref.isGlobalVariable = false
  nested : ∀ p u g, (F.instr x).op = .load → F.operand x 0 = some p →
    (F.users x).head? = some u → (F.instr u.1).op = .gep → F.dynCast (· == .gep) p ≠ some g

/-- A direct call hands over a pointer exactly if it sets `InternalCall`. -/
theorem Func.hands_iff {F : Func} {x : Nat} {callee : Callee} {returned : Option Nat}
    (hop : (F.instr x).op = .call (some callee) returned) :
    (∃ v, F.Hands x v) ↔
      callee.name ∉ functionsAvoidList ∧ (F.instr x).operands.any pointerArgument = true := by
  constructor
  · rintro ⟨v, callee', returned', i, hop', havoid, hv, hptr⟩
    rw [hop] at hop'
    simp only [Op.call.injEq, Option.some.injEq] at hop'
    obtain ⟨rfl, -⟩ := hop'
    exact ⟨havoid, List.any_eq_true.2 ⟨v, List.mem_of_getElem? hv, hptr⟩⟩
  · rintro ⟨havoid, hany⟩
    obtain ⟨v, hv, hptr⟩ := List.any_eq_true.1 hany
    obtain ⟨i, hi⟩ := List.mem_iff_getElem?.1 hv
    exact ⟨v, callee, returned, i, hop, havoid, hi, hptr⟩

/-- Only direct calls hand over pointers. -/
theorem Func.Hands.op {F : Func} {x : Nat} {v : Value} (h : F.Hands x v) :
    ∃ callee returned, (F.instr x).op = .call (some callee) returned := by
  obtain ⟨callee, returned, -, hop, -⟩ := h
  exact ⟨callee, returned, hop⟩

theorem inspect_clear {F : Func} {flags : OptimizerFlags} {x : Nat} :
    (inspect F flags x).clear = true ↔ flags.clear = true ∧ F.Calm x := by
  rw [inspect]
  split
  -- a direct call
  · rename_i callee returned hop
    have hcalm : F.Calm x ↔ callee.name ≠ "__ptauth_free" ∧
        ¬ (callee.name ∉ functionsAvoidList ∧
          (F.instr x).operands.any pointerArgument = true) := by
      rw [← Func.hands_iff hop]
      constructor
      · exact fun h => ⟨h.free callee returned hop, fun ⟨v, hv⟩ => h.hands v hv⟩
      · rintro ⟨hfree, hhands⟩
        refine ⟨fun callee' returned' hop' => ?_, fun v hv => hhands ⟨v, hv⟩,
          fun _ hload => absurd (hop.symm.trans hload) (by simp),
          fun _ _ _ hload => absurd (hop.symm.trans hload) (by simp)⟩
        rw [hop] at hop'
        simp only [Op.call.injEq, Option.some.injEq] at hop'
        rw [← hop'.1]
        exact hfree
    rw [hcalm]
    simp only [OptimizerFlags.clear, Bool.and_eq_true, Bool.not_eq_true', Bool.or_eq_false_iff,
      Bool.and_eq_false_imp, decide_eq_true_eq, beq_eq_false_iff_ne, not_and, Bool.not_eq_true]
    constructor
    · rintro ⟨⟨⟨⟨hi, hcall⟩, hg⟩, hn⟩, hf, hfree⟩
      exact ⟨⟨⟨⟨hi, hg⟩, hn⟩, hf⟩, hfree, hcall⟩
    · rintro ⟨⟨⟨⟨hi, hg⟩, hn⟩, hf⟩, hfree, hcall⟩
      exact ⟨⟨⟨⟨hi, hcall⟩, hg⟩, hn⟩, hf, hfree⟩
  -- a load
  · rename_i hop
    have hcall : ∀ callee returned, (F.instr x).op ≠ .call (some callee) returned := by simp [hop]
    have hhands : ∀ v, ¬ F.Hands x v := fun v hv => by
      obtain ⟨callee, returned, hop'⟩ := hv.op
      exact hcall callee returned hop'
    cases hp : F.operand x 0 with
    | none =>
        refine ⟨fun h => ⟨h, ?_⟩, fun h => h.1⟩
        exact ⟨fun callee returned hop' => absurd hop' (hcall callee returned), hhands,
          fun p _ hp' => absurd (hp.symm.trans hp') (by simp),
          fun p _ _ _ hp' => absurd (hp.symm.trans hp') (by simp)⟩
    | some p =>
        have hcalm : F.Calm x ↔
            ((F.instr x).ty.isPointerTy = true → isFile p.ty = false →
              p.ref.isGlobalVariable = false) ∧
            (((F.users x).head?.any fun u => (F.instr u.1).op == .gep) = true →
              (F.dynCast (· == .gep) p).isSome = false) := by
          constructor
          · refine fun h => ⟨h.global p hop hp, fun hhead => ?_⟩
            obtain ⟨u, hu, hgep⟩ := (Option.any_eq_true _ _).1 hhead
            rw [Bool.eq_false_iff, ne_eq, Option.isSome_iff_exists]
            rintro ⟨g, hg⟩
            exact h.nested p u g hop hp hu (beq_iff_eq.1 hgep) hg
          · rintro ⟨hglobal, hnested⟩
            refine ⟨fun callee returned hop' => absurd hop' (hcall callee returned), hhands,
              fun q _ hq => ?_, fun q u g _ hq hu hgep hg => ?_⟩
            · obtain rfl := Option.some.inj (hp.symm.trans hq)
              exact hglobal
            · obtain rfl := Option.some.inj (hp.symm.trans hq)
              have := hnested ((Option.any_eq_true _ _).2 ⟨u, hu, beq_iff_eq.2 hgep⟩)
              rw [hg] at this
              exact absurd this (by simp)
        rw [hcalm]
        simp only [OptimizerFlags.clear, Bool.and_eq_true, Bool.not_eq_true', Bool.or_eq_false_iff,
          Bool.and_eq_false_imp, and_imp]
        constructor
        · rintro ⟨⟨⟨hi, hg, hglobal⟩, hn, hnested⟩, hf⟩
          exact ⟨⟨⟨⟨hi, hg⟩, hn⟩, hf⟩, hglobal, hnested⟩
        · rintro ⟨⟨⟨⟨hi, hg⟩, hn⟩, hf⟩, hglobal, hnested⟩
          exact ⟨⟨⟨hi, hg, hglobal⟩, hn, hnested⟩, hf⟩
  -- other instructions set no flag
  · rename_i hcall hload
    refine ⟨fun h => ⟨h, ?_⟩, fun h => h.1⟩
    exact ⟨fun callee returned hop => absurd hop (hcall callee returned), fun v hv => by
        obtain ⟨callee, returned, hop⟩ := hv.op
        exact hcall callee returned hop,
      fun _ hop => absurd hop hload, fun _ _ _ hop => absurd hop hload⟩

/-- `optimizer` lists a function exactly if nothing in it sets a flag. -/
theorem optimized_iff {F : Func} : optimized F = true ↔ ∀ x ∈ F.ids, F.Calm x := by
  have key : ∀ (l : List Nat) (flags : OptimizerFlags),
      (l.foldl (inspect F) flags).clear = true ↔ flags.clear = true ∧ ∀ x ∈ l, F.Calm x := by
    intro l
    induction l with
    | nil => simp
    | cons x l ih =>
        intro flags
        rw [List.foldl_cons, ih, inspect_clear, List.forall_mem_cons, and_assoc]
  rw [optimized, optimizerFlags, key]
  exact ⟨fun h => h.2, fun h => ⟨rfl, h⟩⟩

/-! ## What a walk depends on -/

/-- The function has its own entries in `pointers`. -/
def State.own (s : State) : List PointerProperties :=
  s.pass.pointers.filter fun p => p.fn == s.func.name

/-- Two states that a walk of the function cannot tell apart. With the flag, they also agree on
`GEPS`. -/
structure Alike (b : Bool) (s t : State) : Prop where
  func : s.func = t.func
  inserted : s.inserted = t.inserted
  own : s.own = t.own
  geps : b = true → s.pass.geps = t.pass.geps

theorem Alike.refl (b : Bool) (s : State) : Alike b s s := ⟨rfl, rfl, rfl, fun _ => rfl⟩

/-- A test for entries of the function sees its own entries only. -/
theorem any_own {s : State} {e : PointerProperties → Bool}
    (h : ∀ p, e p = true → p.fn = s.func.name) : s.pass.pointers.any e = s.own.any e := by
  rw [State.own, List.any_filter]
  congr 1
  funext p
  cases hp : e p with
  | false => rw [Bool.and_false]
  | true => rw [h p hp, beq_self_eq_true, Bool.and_true]

theorem State.isEntry_fn {s : State} {a : Nat} {p : PointerProperties} (h : s.isEntry a p = true) :
    p.fn = s.func.name := by
  rw [State.isEntry, Bool.and_eq_true, beq_iff_eq] at h
  exact h.1

section Alike

variable {b : Bool} {s t : State}

theorem Alike.isEntry (h : Alike b s t) (a : Nat) : s.isEntry a = t.isEntry a := by
  funext p
  rw [State.isEntry, State.isEntry, h.func]

theorem Alike.wrap (h : Alike b s t) (x : Nat) (f : String) (y k : Nat) :
    Alike b (s.wrap x f y k) (t.wrap x f y k) where
  func := by rw [State.wrap, State.wrap, h.func]
  inserted := by rw [State.wrap, State.wrap, h.func, h.inserted]
  own := by
    rw [State.own, State.own]
    simp only [State.wrap, Func.wrapOperand_name]
    exact h.own
  geps := h.geps

/-- A change of entries of the function. -/
theorem Alike.update (h : Alike b s t) {e : PointerProperties → Bool}
    {f : PointerProperties → PointerProperties} (he : ∀ p, e p = true → p.fn = s.func.name)
    (hf : ∀ p, (f p).fn = p.fn) :
    Alike b { s with pass.pointers := updateFirst e f s.pass.pointers }
      { t with pass.pointers := updateFirst e f t.pass.pointers } := by
  -- the first entry that changes is the first one among the function's own
  have key : ∀ u : State, u.func.name = s.func.name →
      (updateFirst e f u.pass.pointers).filter (fun p => p.fn == s.func.name) =
        updateFirst e f (u.pass.pointers.filter fun p => p.fn == s.func.name) := by
    intro u hu
    have hsplit : e = fun p => (p.fn == s.func.name) && e p := by
      funext p
      cases hp : e p with
      | false => rw [Bool.and_false]
      | true => rw [he p hp, beq_self_eq_true, Bool.and_true]
    conv_lhs => rw [hsplit]
    refine filter_updateFirst_self (fun p hp => ?_) _
    rw [hf]
    exact hp
  have hown := h.own
  rw [State.own, State.own, ← h.func] at hown
  refine ⟨h.func, h.inserted, ?_, h.geps⟩
  show (updateFirst e f s.pass.pointers).filter (fun p => p.fn == s.func.name) =
    (updateFirst e f t.pass.pointers).filter (fun p => p.fn == t.func.name)
  rw [← h.func, key s rfl, key t (by rw [h.func]), hown]

theorem instrumentReturn_alike (h : Alike b s t) : Alike b (instrumentReturn s) (instrumentReturn t) :=
  ⟨h.func, h.inserted, rfl, h.geps⟩

theorem instrumentStore_alike (h : Alike b s t) (x : Nat) :
    Alike b (instrumentStore s x) (instrumentStore t x) := by
  rw [instrumentStore, instrumentStore, ← h.func]
  split
  · split
    · refine ⟨rfl, h.inserted, ?_, h.geps⟩
      have hown := h.own
      simp only [State.own, ← h.func, List.filter_append] at hown ⊢
      rw [hown]
    · exact h
  · exact h

/-- A load through a loaded pointer is wrapped once for every entry of the function's own that is one
of the slot. -/
theorem foldl_own {a : Nat} {f : PointerProperties → String} {x : Nat} :
    ∀ (l : List PointerProperties) (s : State),
      (l.foldl (fun s p => if s.isEntry a p then s.wrap x (f p) x 0 else s) s) =
        (l.filter fun p => p.fn == s.func.name).foldl
          (fun s p => if s.isEntry a p then s.wrap x (f p) x 0 else s) s := by
  intro l
  induction l with
  | nil => exact fun _ => rfl
  | cons p l ih =>
      intro s
      rw [List.foldl_cons, ih, List.filter_cons]
      -- a wrap keeps the name, so the filter is the same behind it
      have hname : (if s.isEntry a p then s.wrap x (f p) x 0 else s).func.name = s.func.name := by
        split
        · exact s.func.wrapOperand_name (f p) x 0
        · rfl
      rw [hname]
      by_cases hp : (p.fn == s.func.name) = true
      · rw [if_pos hp, List.foldl_cons]
      · rw [if_neg hp, if_neg]
        exact fun hentry => hp (beq_iff_eq.2 (State.isEntry_fn hentry))

theorem Alike.foldl {α : Type} {f : State → α → State}
    (hf : ∀ s t i, Alike b s t → Alike b (f s i) (f t i)) (l : List α) (h : Alike b s t) :
    Alike b (l.foldl f s) (l.foldl f t) :=
  Library.foldl_related_self (R := Alike b) (fun i _ s t huw => hf s t i huw) h

theorem loadThroughLoad_alike (h : Alike b s t) (x : Nat) :
    Alike b (loadThroughLoad s x) (loadThroughLoad t x) := by
  rw [loadThroughLoad, loadThroughLoad, ← h.func]
  split
  · exact h
  · split
    · exact h
    · have hown := h.own
      rw [State.own, State.own] at hown
      rw [foldl_own s.pass.pointers s, foldl_own t.pass.pointers t, hown]
      refine Alike.foldl (fun u w p huw => ?_) _ h
      rw [huw.isEntry]
      split
      · exact huw.wrap x _ x 0
      · exact huw

theorem State.isArmed_fn {a : Nat} {p : PointerProperties} (h : s.isArmed a p = true) :
    p.fn = s.func.name := by
  rw [State.isArmed, Bool.and_eq_true] at h
  exact State.isEntry_fn h.1

theorem State.isChecked_fn {a : Nat} {p : PointerProperties} (h : s.isChecked a p = true) :
    p.fn = s.func.name := by
  rw [State.isChecked, Bool.and_eq_true] at h
  exact State.isEntry_fn h.1

theorem Alike.isArmed (h : Alike b s t) (a : Nat) : s.isArmed a = t.isArmed a := by
  funext p
  rw [State.isArmed, State.isArmed, h.isEntry]

theorem Alike.isChecked (h : Alike b s t) (a : Nat) : s.isChecked a = t.isChecked a := by
  funext p
  rw [State.isChecked, State.isChecked, h.isEntry]

theorem checkGEP_alike (h : Alike b s t) (x g : Nat) : Alike b (checkGEP s x g) (checkGEP t x g) := by
  rw [checkGEP, checkGEP, ← h.func]
  split
  · exact h
  · rename_i a _
    rw [any_own (s := s) (fun p => State.isArmed_fn), any_own (s := t) (fun p => State.isArmed_fn),
      ← h.isArmed a, h.own]
    split
    · exact (h.wrap x "__GEPCheck" g 0).update (e := s.isArmed a)
        (fun p hp => (State.isArmed_fn hp).trans (s.func.wrapOperand_name _ _ _).symm)
        (fun _ => rfl)
    · exact h

theorem markPassed_alike (h : Alike b s t) (a : Nat) {f : PointerProperties → PointerProperties}
    (hf : ∀ p, (f p).fn = p.fn) : Alike b (markPassed s a f) (markPassed t a f) := by
  rw [markPassed, markPassed, ← h.isEntry a]
  exact h.update (fun p => State.isEntry_fn) hf

theorem passLoad_alike (h : Alike b s t) (x : Nat) (v : Value) :
    Alike b (passLoad x s v) (passLoad x t v) := by
  rw [passLoad, passLoad, ← h.func]
  split
  · exact h
  · split
    · exact h
    · rename_i a _
      rw [any_own (s := s) (fun p => State.isChecked_fn), any_own (s := t) (fun p => State.isChecked_fn),
        ← h.isChecked a, h.own]
      split
      · exact h
      · exact markPassed_alike (h.wrap x "__loadCheck" _ 0) a fun _ => rfl

theorem passNestedLoad_alike (h : Alike b s t) (x : Nat) (v : Value) :
    Alike b (passNestedLoad x s v) (passNestedLoad x t v) := by
  rw [passNestedLoad, passNestedLoad, ← h.func]
  split
  · exact h
  · split
    · exact h
    · split
      · exact h
      · exact markPassed_alike (h.wrap x "__loadCheck" _ 0) _ fun _ => rfl

/-- At a pointer argument `GEPS` is cleared. -/
theorem passPointer_alike (h : Alike b s t) (x : Nat) (v : Value) :
    Alike true (passNestedLoad x (passLoad x
        { s with pass.internalCall := true, pass.geps := [] } v) v)
      (passNestedLoad x (passLoad x
        { t with pass.internalCall := true, pass.geps := [] } v) v) := by
  refine passNestedLoad_alike (passLoad_alike ?_ x v) x v
  exact ⟨h.func, h.inserted, h.own, fun _ => rfl⟩

theorem Alike.weaken (h : Alike true s t) : Alike b s t :=
  ⟨h.func, h.inserted, h.own, fun _ => h.geps rfl⟩

theorem passArgument_alike (h : Alike b s t) (x i : Nat) :
    Alike b (passArgument x s i) (passArgument x t i) := by
  rw [passArgument, passArgument, show t.func.operand x i = s.func.operand x i by rw [h.func]]
  split
  · exact h
  · rename_i v _
    split
    · exact (passPointer_alike h x v).weaken
    · exact h

theorem xpacArgument_alike (h : Alike b s t) (tbi : Bool) (name : String) (x i : Nat) :
    Alike b (xpacArgument tbi name x s i) (xpacArgument tbi name x t i) := by
  rw [xpacArgument, xpacArgument, ← h.func]
  split
  · exact h
  · split
    · exact h.wrap x "__xpac" x i
    · exact h

theorem externalArguments_alike (h : Alike b s t) (tbi : Bool) (x : Nat) (callee : Callee) :
    Alike b (externalArguments tbi s x callee) (externalArguments tbi t x callee) := by
  have hflag : Alike b
      (if callee.name = "__ptauth_free" then { s with pass.flagFreeCalled := true } else s)
      (if callee.name = "__ptauth_free" then { t with pass.flagFreeCalled := true } else t) := by
    split
    · exact ⟨h.func, h.inserted, h.own, h.geps⟩
    · exact h
  rw [externalArguments, externalArguments, congrArg Func.instr h.func]
  split
  · exact Alike.foldl (fun _ _ i huw => xpacArgument_alike huw tbi callee.name x i) _ hflag
  · exact hflag

theorem instrumentCalls_alike (h : Alike b s t) (tbi : Bool) (x : Nat) (callee : Callee) :
    Alike b (instrumentCalls tbi s x callee) (instrumentCalls tbi t x callee) := by
  have hfirst := externalArguments_alike h tbi x callee
  rw [instrumentCalls, instrumentCalls, congrArg Func.instr h.func]
  split
  · exact Alike.foldl (fun _ _ i huw => passArgument_alike huw x i) _ hfirst
  · exact hfirst

theorem checkNestedGEP_alike (h : Alike true s t) (x g : Nat) :
    Alike true (checkNestedGEP s x g) (checkNestedGEP t x g) := by
  have hgeps := h.geps rfl
  obtain ⟨F, p, l⟩ := s
  obtain ⟨G, q, m⟩ := t
  obtain rfl : F = G := h.func
  -- the branch taken depends on the function and on `GEPS`, and the two agree
  rw [checkNestedGEP, checkNestedGEP]
  dsimp only at hgeps ⊢
  rw [← hgeps]
  split
  · exact h
  · split
    · exact h
    · split
      · split
        · have hw := h.wrap x "__nestedGEPCheck" g 0
          exact ⟨hw.func, hw.inserted, hw.own, fun _ => rfl⟩
        · split
          · exact h
          · exact ⟨h.func, h.inserted, h.own, fun _ => rfl⟩
      · exact h

theorem loadForGEP_alike (h : Alike true s t) (x : Nat) :
    Alike true (loadForGEP s x) (loadForGEP t x) := by
  rw [loadForGEP, loadForGEP, ← h.func]
  split
  · split
    · exact checkNestedGEP_alike (checkGEP_alike h x _) x _
    · exact h
  · exact h

theorem instrumentLoad_alike (h : Alike true s t) (x : Nat) :
    Alike true (instrumentLoad s x) (instrumentLoad t x) := by
  rw [instrumentLoad, instrumentLoad, ← h.func]
  split
  · exact h
  · split
    · exact loadForGEP_alike (loadThroughLoad_alike h x) x
    · exact h

/-- Visits treat alike states alike, where loads do. -/
theorem visit_alike (h : Alike b s t) (tbi : Bool) (x : Nat)
    (hload : (s.func.instr x).op = .load → Alike b (instrumentLoad s x) (instrumentLoad t x)) :
    Alike b (visit tbi s x) (visit tbi t x) := by
  -- both visits dispatch on the same instruction
  rw [visit, visit, congrArg Func.instr h.func]
  rw [h.func] at hload
  split
  · exact instrumentReturn_alike h
  · exact instrumentStore_alike h x
  · rename_i hop
    exact hload hop
  · exact instrumentCalls_alike h tbi x _
  · exact h

theorem visited_alike (h : Alike true s t) (tbi : Bool) (xs : List Nat) :
    Alike true (visited tbi s xs) (visited tbi t xs) :=
  Alike.foldl (fun _ _ x huw => visit_alike huw tbi x fun _ => instrumentLoad_alike huw x) xs h

end Alike

/-! ## Entries of other functions -/

/-- The function under rewriting is not `n`, and `pointers` has no entry of `n`. -/
structure State.Apart (n : String) (s : State) : Prop where
  name : s.func.name ≠ n
  entries : ∀ p ∈ s.pass.pointers, p.fn ≠ n

section Apart

variable {n : String} {s : State}

theorem mem_updateFirst {α : Type} {e : α → Bool} {f : α → α} {l : List α} {p : α}
    (h : p ∈ updateFirst e f l) : p ∈ l ∨ ∃ q ∈ l, p = f q := by
  induction l with
  | nil => exact Or.inl h
  | cons q l ih =>
      rw [updateFirst] at h
      split at h
      · rcases List.mem_cons.1 h with rfl | h
        · exact Or.inr ⟨q, List.mem_cons_self, rfl⟩
        · exact Or.inl (List.mem_cons_of_mem q h)
      · rcases List.mem_cons.1 h with rfl | h
        · exact Or.inl List.mem_cons_self
        · rcases ih h with h | ⟨r, hr, hp⟩
          · exact Or.inl (List.mem_cons_of_mem q h)
          · exact Or.inr ⟨r, List.mem_cons_of_mem q hr, hp⟩

theorem State.Apart.wrap (h : s.Apart n) (x : Nat) (f : String) (y k : Nat) :
    (s.wrap x f y k).Apart n where
  name := by
    rw [State.wrap, Func.wrapOperand_name]
    exact h.name
  entries := h.entries

theorem State.Apart.update (h : s.Apart n) {e : PointerProperties → Bool}
    {f : PointerProperties → PointerProperties} (hf : ∀ p, (f p).fn = p.fn) :
    State.Apart n { s with pass.pointers := updateFirst e f s.pass.pointers } where
  name := h.name
  entries := fun p hp => by
    rcases mem_updateFirst hp with hp | ⟨q, hq, rfl⟩
    · exact h.entries p hp
    · rw [hf q]
      exact h.entries q hq

theorem State.Apart.foldl {α : Type} {f : State → α → State}
    (hf : ∀ (s : State) i, s.Apart n → (f s i).Apart n) (l : List α) (h : s.Apart n) :
    (l.foldl f s).Apart n := by
  induction l generalizing s with
  | nil => exact h
  | cons i l ih => exact ih (hf s i h)

theorem loadThroughLoad_apart (h : s.Apart n) (x : Nat) : (loadThroughLoad s x).Apart n := by
  rcases loadThroughLoad_cases s x with heq | ⟨-, hrec⟩
  · rw [heq]
    exact h
  · exact hrec (State.Apart n) h fun t f _ ht => ht.wrap x f x 0

theorem loadForGEP_apart (h : s.Apart n) (x : Nat) : (loadForGEP s x).Apart n := by
  have hcheck : ∀ g, (checkGEP s x g).Apart n := by
    intro g
    rw [checkGEP]
    split
    · exact h
    · split
      · exact (h.wrap x "__GEPCheck" g 0).update fun _ => rfl
      · exact h
  have hnested : ∀ (s : State) (g : Nat), s.Apart n → (checkNestedGEP s x g).Apart n := by
    intro s g h
    rw [checkNestedGEP]
    split
    · exact h
    · split
      · exact h
      · split
        · split
          · exact ⟨(h.wrap x "__nestedGEPCheck" g 0).name, h.entries⟩
          · split
            · exact h
            · exact ⟨h.name, h.entries⟩
        · exact h
  rw [loadForGEP]
  split
  · split
    · exact hnested _ _ (hcheck _)
    · exact h
  · exact h

theorem passArgument_apart (h : s.Apart n) (x i : Nat) : (passArgument x s i).Apart n := by
  have hload : ∀ (s : State) (v : Value), s.Apart n → (passLoad x s v).Apart n := by
    intro s v h
    rw [passLoad]
    split
    · exact h
    · split
      · exact h
      · split
        · exact h
        · exact (h.wrap x "__loadCheck" _ 0).update fun _ => rfl
  have hnested : ∀ (s : State) (v : Value), s.Apart n → (passNestedLoad x s v).Apart n := by
    intro s v h
    rw [passNestedLoad]
    split
    · exact h
    · split
      · exact h
      · split
        · exact h
        · exact (h.wrap x "__loadCheck" _ 0).update fun _ => rfl
  rw [passArgument]
  split
  · exact h
  · split
    · exact hnested _ _ (hload _ _ ⟨h.name, h.entries⟩)
    · exact h

theorem externalArguments_apart (h : s.Apart n) (tbi : Bool) (x : Nat) (callee : Callee) :
    (externalArguments tbi s x callee).Apart n := by
  apply externalArguments_keeps (P := fun t => t.Apart n) h ⟨h.name, h.entries⟩
  intro _ _ t i ht
  rcases xpacArgument_cases tbi callee.name t x i with heq | ⟨-, -, -, -, heq⟩
  · rw [heq]
    exact ht
  · rw [heq]
    exact ht.wrap x "__xpac" x i

theorem visit_apart (h : s.Apart n) (tbi : Bool) (x : Nat) : (visit tbi s x).Apart n := by
  rw [visit]
  split
  · exact ⟨h.name, fun _ hp => absurd hp List.not_mem_nil⟩
  · rw [instrumentStore]
    split
    · split
      -- the new entry is one of the function under rewriting
      · refine ⟨h.name, fun p hp => ?_⟩
        rcases List.mem_append.1 hp with hp | hp
        · exact h.entries p hp
        · rw [List.mem_singleton.1 hp]
          exact h.name
      · exact h
    · exact h
  · rw [instrumentLoad]
    split
    · exact h
    · split
      · exact loadForGEP_apart (loadThroughLoad_apart h x) x
      · exact h
  · rw [instrumentCalls]
    have hfirst := externalArguments_apart h tbi x
    split
    · exact State.Apart.foldl (fun _ i hs => passArgument_apart hs x i) _ (hfirst _)
    · exact hfirst _
  · exact h

/-- **No entry of another function appears.** -/
theorem visited_apart (h : s.Apart n) (tbi : Bool) (xs : List Nat) : (visited tbi s xs).Apart n :=
  State.Apart.foldl (fun _ x hs => visit_apart hs tbi x) xs h

end Apart

/-! ## The loop over the functions -/

/-- What the body of the loop does, the walk being the fold over the instructions. -/
def instrumented (optimization tbi : Bool) (m : ModuleState) (F : Func) : ModuleState :=
  if F.layout = [] then { m with done := m.done ++ [(F, [])] }
  else
    let m := if optimization then optimizer m F else m
    if F.name ∈ avoidList ∨ F.name ∈ m.optimizedList then { m with done := m.done ++ [(F, [])] }
    else
      let s := visited tbi ⟨F, m.pass, []⟩ F.ids
      { m with pass := s.pass, done := m.done ++ [(s.func, s.inserted)] }

theorem instrumentFunction_eq (optimization tbi : Bool) (m : ModuleState) {F : Func}
    (hwf : F.WellLinked) :
    ∃ N, ∀ fuel, N ≤ fuel →
      instrumentFunction optimization tbi fuel m F = some (instrumented optimization tbi m F) := by
  obtain ⟨N, hN⟩ :=
    hwf.walk_eq (s := ⟨F, (if optimization then optimizer m F else m).pass, []⟩) tbi
  refine ⟨N, fun fuel hfuel => ?_⟩
  rw [instrumentFunction, instrumented]
  dsimp only
  -- both loops go on from the same state behind `optimizer`
  generalize (if optimization then optimizer m F else m) = m₁ at hN ⊢
  rw [hN fuel hfuel]
  split
  · rfl
  · split
    · rfl
    · rfl

/-- **The loop over the functions ends.** -/
theorem instrumentModule_ends (optimization tbi : Bool) :
    ∀ {fs : List Func} (m : ModuleState), (∀ F ∈ fs, F.WellLinked) →
      ∃ N, ∀ fuel, N ≤ fuel →
        fs.foldlM (instrumentFunction optimization tbi fuel) m =
          some (fs.foldl (instrumented optimization tbi) m) := by
  intro fs
  induction fs with
  | nil => exact fun m _ => ⟨0, fun _ _ => rfl⟩
  | cons F fs ih =>
      intro m hwf
      obtain ⟨N, hN⟩ := instrumentFunction_eq optimization tbi m (hwf F List.mem_cons_self)
      obtain ⟨M, hM⟩ := ih (instrumented optimization tbi m F) fun G hG =>
        hwf G (List.mem_cons_of_mem F hG)
      refine ⟨N + M, fun fuel hfuel => ?_⟩
      rw [List.foldlM_cons, hN fuel (by omega), List.foldl_cons]
      exact hM fuel (by omega)

theorem instrumentModule_eq (optimization tbi : Bool) {fs : List Func} (m : ModuleState)
    (hwf : ∀ F ∈ fs, F.WellFormed) :
    ∃ N, ∀ fuel, N ≤ fuel →
      fs.foldlM (instrumentFunction optimization tbi fuel) m =
        some (fs.foldl (instrumented optimization tbi) m) :=
  instrumentModule_ends optimization tbi m fun F hF => hwf F hF

end PTAuth.Pass
