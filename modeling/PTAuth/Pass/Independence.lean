import PTAuth.Pass.Agreement

/-!
# Slots are tracked independently

What the pass decides for the loads of a slot, which GEPs over them get a `__GEPCheck` and which of
them get a `__loadCheck` at a call, depends on what happens to the slot: stores to it, loads of it,
loads through these, the GEPs and direct calls that use them, and returns. Instructions that are
about other slots only may be inserted, deleted and moved, and entries of other slots may be there
or not (`slots_independent`), as long as no load of the slot gets another `user_back`.
-/

set_option autoImplicit false

namespace PTAuth.Pass

open Classical in
/-- The same events, in the same order. -/
structure SameEvents (F G : Func) (a : Nat) : Prop extends SameInstrs F G a where
  order : F.ids.filter (fun x => decide (F.Event a x)) = G.ids.filter fun x => decide (G.Event a x)

/-- **The runs over functions with the same events agree.** -/
theorem Agree.run {tbi : Bool} {F G : Func} {a : Nat} {f : Option Flags} {s t : State}
    (h : Agree tbi F G a f s t) (hsame : SameEvents F G a) (hwf : F.WellFormed)
    (hwf' : G.WellFormed) (hback : SameUserBack F G a) :
    ∃ f', Agree tbi F G a f' (visited tbi s F.ids) (visited tbi t G.ids) := by
  classical
  rw [visited, visited]
  apply Library.foldl_related (R := fun u w => ∃ f', Agree tbi F G a f' u w) hsame.order
  · rintro x hx hno u w ⟨f', huw⟩
    have hlt := hwf.ids_lt x hx
    obtain ⟨pre, hd⟩ := huw.left.decorated
    exact ⟨f', huw.quiet ((visit_steps hd hwf hlt).traced huw.left hlt)
      (huw.left.visit_quiet hwf hlt (of_decide_eq_false hno))⟩
  · rintro x hx hno u w ⟨f', huw⟩
    have hlt := hwf'.ids_lt x hx
    obtain ⟨pre, hd⟩ := huw.right.decorated
    exact ⟨f', (huw.symm.quiet ((visit_steps hd hwf' hlt).traced huw.right hlt)
      (huw.right.visit_quiet hwf' hlt (of_decide_eq_false hno))).symm⟩
  · rintro x - - hevent u w ⟨f', huw⟩
    exact huw.event hsame.toSameInstrs hwf hwf' hback (of_decide_eq_true hevent)
  · exact ⟨f, h⟩

/-- **Slots are tracked independently.** The walks over two functions with the same events about a
slot, of which the loads have the same GEPs as `user_back`, make the same decisions about the loads
of the slot, from all states in which the slot has the same flags: whatever entries of other slots
there are, and however many further entries of the slot. -/
theorem slots_independent (tbi : Bool) {s t : State} (hwf : s.func.WellFormed)
    (hwf' : t.func.WellFormed) {a : Nat} (hsame : SameEvents s.func t.func a)
    (hback : SameUserBack s.func t.func a) {f : Option Flags} (hs : s.SlotFlags a f)
    (ht : t.SlotFlags a f) (hstart : s.inserted = []) (hstart' : t.inserted = []) :
    ∃ N, ∀ fuel, N ≤ fuel → ∃ s' t', walk tbi fuel s = some s' ∧ walk tbi fuel t = some t' ∧
      s'.decisions s.func a = t'.decisions t.func a := by
  have hagree : Agree tbi s.func t.func a f s t := by
    refine ⟨Traced.refl tbi hwf.toLinked, Traced.refl tbi hwf'.toLinked, fun y k => ?_, hs, ht, ?_⟩
    · exact iff_of_false (fun h => h.2 rfl) fun h => h.2 rfl
    · rw [State.decisions, State.decisions, hstart, hstart']
      rfl
  obtain ⟨f', hrun⟩ := hagree.run hsame hwf hwf' hback
  obtain ⟨N, hN⟩ := walk_eq tbi hwf
  obtain ⟨M, hM⟩ := walk_eq tbi hwf'
  exact ⟨N + M, fun fuel hfuel => ⟨_, _, hN fuel (by omega), hM fuel (by omega), hrun.decisions⟩⟩

/-! ### A store to another slot -/

/-- `p = q; use(p); p[1];`, and `extra` with the number 7. -/
def indexWith (extra : Instr) (rest : List Nat) : Func :=
  Func.ofInstrs "main" [[0, 1, 2, 3, 4, 5, 6] ++ rest]
    [⟨.alloca (.ptr (.int 32)), [], .ptr (.ptr (.int 32)), "p"⟩,
      ⟨.alloca (.ptr (.int 32)), [], .ptr (.ptr (.int 32)), "r"⟩,
      ⟨.store, [⟨.argument "q", .ptr (.int 32)⟩, ⟨.inst 0, .ptr (.ptr (.int 32))⟩],
        .other "void", ""⟩,
      ⟨.load, [⟨.inst 0, .ptr (.ptr (.int 32))⟩], .ptr (.int 32), ""⟩,
      ⟨.call (some ⟨"use", false⟩) none, [⟨.inst 3, .ptr (.int 32)⟩], .other "void", ""⟩,
      ⟨.load, [⟨.inst 0, .ptr (.ptr (.int 32))⟩], .ptr (.int 32), ""⟩,
      ⟨.gep, [⟨.inst 5, .ptr (.int 32)⟩, ⟨.constantInt 1, .int 64⟩], .ptr (.int 32), ""⟩,
      extra,
      ⟨.ret, [], .other "void", ""⟩]

/-- The function without a further instruction. -/
def indexAlone : Func := indexWith Instr.unused [8]

/-- The function with `r = v;` at its end. -/
def indexThenStore (v : Value) : Func :=
  indexWith ⟨.store, [v, ⟨.inst 1, .ptr (.ptr (.int 32))⟩], .other "void", ""⟩ [7, 8]

theorem indexWith_instr {i j : Instr} {is js : List Nat} {x : Nat} (hx : x ≠ 7) :
    (indexWith i is).instr x = (indexWith j js).instr x := by
  rcases x with _ | _ | _ | _ | _ | _ | _ | _ | _ | x
  all_goals first | rfl | exact absurd rfl hx

theorem indexAlone_wellFormed : indexAlone.WellFormed :=
  Func.wellFormed_ofInstrs (by decide) (by decide) (by decide)

/-- Stores to other slots are no events, and nor is what is unused. -/
theorem Func.not_about {F : Func} {a x : Nat} (hstore : ¬ F.StoresTo a x)
    (hop : (F.instr x).op = .store ∨ (F.instr x).op = .other "") :
    ¬ (F.Event a x ∨ F.CastOf a x) := by
  have hno : ∀ op, op ≠ .store → op ≠ .other "" → (F.instr x).op ≠ op := by
    rintro op h h' rfl
    exact hop.elim h h'
  rintro ((hret | hst | hload | hthrough | ⟨k, hgep | ⟨callee, returned, hcall⟩, -⟩) |
    ⟨k, v, hc, -⟩)
  · exact hno .ret (by simp) (by simp) hret
  · exact hstore hst
  · exact hno .load (by simp) (by simp) hload.1
  · exact hno .load (by simp) (by simp) hthrough.1
  · exact hno .gep (by simp) (by simp) hgep
  · exact hno (.call (some callee) returned) (by simp) (by simp) hcall
  · rw [Func.Carries] at hc
    rcases hop with hop | hop
    · rw [hop] at hc
      exact hc
    · rw [hop] at hc
      exact hc

/-- The store to `r` is not about `p`. -/
theorem indexThenStore_events (v : Value) : SameEvents indexAlone (indexThenStore v) 0 := by
  have hleft : ¬ (indexAlone.Event 0 7 ∨ indexAlone.CastOf 0 7) := by
    apply Func.not_about _ (Or.inr rfl)
    rintro ⟨hop, -⟩
    exact absurd hop (by decide)
  have hright : ¬ ((indexThenStore v).Event 0 7 ∨ (indexThenStore v).CastOf 0 7) := by
    apply Func.not_about _ (Or.inl rfl)
    rintro ⟨-, u, w, -, -, hw, hcast⟩
    obtain rfl := Option.some.inj hw
    exact absurd (Func.dynCast_eq_some.1 hcast).1 (by decide)
  have hsame : SameInstrs indexAlone (indexThenStore v) 0 := by
    refine ⟨rfl, fun x hx => indexWith_instr ?_, fun x hx => indexWith_instr ?_⟩
    · rintro rfl
      exact hleft hx
    · rintro rfl
      exact hright hx
  classical
  have hevents : (fun x => decide (indexAlone.Event 0 x)) =
      fun x => decide ((indexThenStore v).Event 0 x) := by
    funext x
    exact decide_eq_decide.2 ⟨hsame.event, hsame.symm.event⟩
  refine ⟨hsame, ?_⟩
  have hskip : ∀ P : Nat → Bool, P 7 = false →
      ([0, 1, 2, 3, 4, 5, 6] ++ [8]).filter P = ([0, 1, 2, 3, 4, 5, 6] ++ 7 :: [8]).filter P := by
    intro P hP
    rw [List.filter_append, List.filter_append, List.filter_cons_of_neg (Bool.eq_false_iff.1 hP)]
  rw [hevents]
  exact hskip _ (decide_eq_false fun h => hright (Or.inl h))

/-- **A store of the loaded pointer hides the GEP**: it is `user_back` of the load. -/
theorem slots_not_independent :
    ¬ ∀ (s t : State) (a : Nat) (f : Option Flags), s.func.WellFormed → t.func.WellFormed →
      SameEvents s.func t.func a → s.SlotFlags a f → t.SlotFlags a f → s.inserted = [] →
      t.inserted = [] → ∃ N, ∀ fuel, N ≤ fuel → ∃ s' t', walk true fuel s = some s' ∧
        walk true fuel t = some t' ∧ s'.decisions s.func a = t'.decisions t.func a := by
  intro h
  have hwf : (indexThenStore ⟨.inst 5, .ptr (.int 32)⟩).WellFormed :=
    Func.wellFormed_ofInstrs (by decide) (by decide) (by decide)
  obtain ⟨N, hN⟩ := h (State.start indexAlone)
    (State.start (indexThenStore ⟨.inst 5, .ptr (.int 32)⟩)) 0 none indexAlone_wellFormed hwf
    (indexThenStore_events _) .empty .empty rfl rfl
  obtain ⟨M, hM⟩ := walk_eq true (s := State.start indexAlone) indexAlone_wellFormed
  obtain ⟨K, hK⟩ :=
    walk_eq true (s := State.start (indexThenStore ⟨.inst 5, .ptr (.int 32)⟩)) hwf
  obtain ⟨s', t', hs, ht, heq⟩ := hN (N + M + K) (by omega)
  rw [hM _ (by omega)] at hs
  rw [hK _ (by omega)] at ht
  obtain rfl := Option.some.inj hs
  obtain rfl := Option.some.inj ht
  exact absurd heq (by decide +kernel)

/-- The statement of `slots_independent` for a store of something else, behind functions that left
entries of `r` behind. -/
theorem indexThenStore_independent :
    ∃ N, ∀ fuel, N ≤ fuel → ∃ s' t',
      walk true fuel ⟨indexAlone, ⟨[⟨"main", 0, true, false⟩], [], false, false⟩, []⟩ = some s' ∧
      walk true fuel ⟨indexThenStore ⟨.argument "q", .ptr (.int 32)⟩,
        ⟨[⟨"main", 1, true, false⟩, ⟨"main", 0, true, false⟩, ⟨"main", 1, true, true⟩,
          ⟨"main", 0, false, false⟩], [], false, false⟩, []⟩ = some t' ∧
      s'.decisions indexAlone 0 =
        t'.decisions (indexThenStore ⟨.argument "q", .ptr (.int 32)⟩) 0 := by
  have hback : SameUserBack indexAlone (indexThenStore ⟨.argument "q", .ptr (.int 32)⟩) 0 := by
    intro l hl g
    have hloads : ∀ l < 9, (indexAlone.instr l).op = .load → l = 3 ∨ l = 5 := by decide
    have husers :
        (indexThenStore ⟨.argument "q", .ptr (.int 32)⟩).users l = indexAlone.users l := by
      rcases hloads l (indexAlone_wellFormed.lt_of_load hl.1) hl.1 with rfl | rfl
      · decide
      · decide
    rw [Func.UserBack, Func.UserBack, husers]
    by_cases hg : g = 7
    · subst hg
      exact iff_of_false (fun h => absurd h.1 (by decide)) fun h => absurd h.1 (by decide)
    · rw [indexAlone, indexThenStore, indexWith_instr hg]
  have hflags : ∀ {s : State} {p : PointerProperties} {l : List PointerProperties},
      s.entries 0 = p :: l → (∀ q ∈ l, q.flags = Flags.clean) → s.SlotFlags 0 (some p.flags) := by
    intro s p l hentries hclean
    rw [State.SlotFlags, hentries]
    exact .first hclean
  apply slots_independent true (f := some ⟨true, false⟩) indexAlone_wellFormed _
    (indexThenStore_events _) hback _ _ rfl rfl
  · exact Func.wellFormed_ofInstrs (by decide) (by decide) (by decide)
  · exact hflags (p := ⟨"main", 0, true, false⟩) (l := []) (by decide) (by decide)
  · exact hflags (p := ⟨"main", 0, true, false⟩) (l := [⟨"main", 0, false, false⟩]) (by decide)
      (by decide)

end PTAuth.Pass
