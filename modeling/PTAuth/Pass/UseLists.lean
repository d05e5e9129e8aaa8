import PTAuth.Pass.ReplacementPhase

/-!
# Use lists through the replacement phase

`replaceFuncionWith` puts a call in front of another one, moves the use list of the old call to the
new one and erases the old call. Each of the three keeps use lists exact: they list the uses, each
once (`Func.UseLists`). So a replaced call leaves its function linked
(`Func.WellLinked.replaceCall`), and the whole phase leaves every function linked
(`Module.Consistent.phase_wellLinked`).
-/

set_option autoImplicit false

namespace PTAuth.Pass

/-! ## Many uses at once -/

section Fold

variable {n y : Nat} {w : Nat × Nat}

theorem mem_foldl_addUse (l : List (Value × Nat)) (users : Nat → List (Nat × Nat)) :
    w ∈ l.foldl (fun users p => addUse users p.1 (n, p.2)) users y ↔
      (∃ p ∈ l, p.1.ref = .inst y ∧ w = (n, p.2)) ∨ w ∈ users y := by
  induction l generalizing users with
  | nil => simp
  | cons p l ih =>
      rw [List.foldl_cons, ih, mem_addUse, List.exists_mem_cons_iff, or_left_comm, or_assoc]

theorem nodup_foldl_addUse {l : List (Value × Nat)} {users : Nat → List (Nat × Nat)}
    (hl : (l.map Prod.snd).Nodup) (hnd : (users y).Nodup) (hfresh : ∀ k, (n, k) ∉ users y) :
    (l.foldl (fun users p => addUse users p.1 (n, p.2)) users y).Nodup := by
  -- the places of the operands still to come are not in the list
  have key : ∀ (l : List (Value × Nat)) (users : Nat → List (Nat × Nat)),
      (l.map Prod.snd).Nodup → (users y).Nodup → (∀ p ∈ l, (n, p.2) ∉ users y) →
        (l.foldl (fun users p => addUse users p.1 (n, p.2)) users y).Nodup := by
    intro l
    induction l with
    | nil => exact fun _ _ hnd _ => hnd
    | cons p l ih =>
        intro users hl hnd hfresh
        obtain ⟨hp, hl⟩ := List.nodup_cons.1 hl
        refine ih _ hl (nodup_addUse hnd fun _ => hfresh p List.mem_cons_self) ?_
        intro q hq hmem
        rcases mem_addUse.1 hmem with ⟨-, heq⟩ | hmem
        · exact hp ((Prod.mk.inj heq).2 ▸ List.mem_map_of_mem hq)
        · exact hfresh q (List.mem_cons_of_mem p hq) hmem
  exact key l users hl hnd fun p _ => hfresh p.2

theorem nodup_foldl_dropUse (l : List (Value × Nat)) {users : Nat → List (Nat × Nat)}
    (hnd : (users y).Nodup) :
    (l.foldl (fun users p => dropUse users p.1 (n, p.2)) users y).Nodup := by
  induction l generalizing users with
  | nil => exact hnd
  | cons p l ih => exact ih (nodup_dropUse hnd)

theorem mem_foldl_dropUse (l : List (Value × Nat)) {users : Nat → List (Nat × Nat)}
    (hnd : (users y).Nodup) :
    w ∈ l.foldl (fun users p => dropUse users p.1 (n, p.2)) users y ↔
      w ∈ users y ∧ ∀ p ∈ l, ¬ (p.1.ref = .inst y ∧ w = (n, p.2)) := by
  induction l generalizing users with
  | nil => simp
  | cons p l ih =>
      rw [List.foldl_cons, ih (nodup_dropUse hnd), mem_dropUse hnd, List.forall_mem_cons, and_assoc]

end Fold

/-! ## Exact use lists -/

/-- Use lists list the uses, each once. -/
structure Func.UseLists (F : Func) : Prop where
  mem_iff : ∀ x k y, (x, k) ∈ F.users y ↔ ∃ v, F.operand x k = some v ∧ v.ref = .inst y
  nodup : ∀ y, (F.users y).Nodup

theorem Func.WellLinked.useLists {F : Func} (h : F.WellLinked) : F.UseLists where
  mem_iff x k y := by
    constructor
    · exact h.users_operand x k y
    · rintro ⟨v, hv, hy⟩
      exact h.operand_users x k v y hv hy
  nodup := h.users_nodup

theorem Value.rename_inst {σ : Nat → Nat} {v : Value} {y : Nat} :
    (v.rename σ).ref = .inst y ↔ ∃ z, v.ref = .inst z ∧ σ z = y := by
  cases h : v.ref with
  | inst z => simp [Value.rename, h]
  | _ => simp [Value.rename, h]

theorem Value.rename_ty (σ : Nat → Nat) (v : Value) : (v.rename σ).ty = v.ty := by
  rw [Value.rename]
  split
  · rfl
  · rfl

section Stages

variable {F : Func} {x : Nat} {callee : Callee} {returned : Option Nat} {args : List Value} {ty : Ty}

/-- `CallInst::Create`. -/
theorem Func.UseLists.createCallOf (h : F.UseLists) (hF : F.Linked) :
    (F.createCallOf x callee returned args ty).UseLists := by
  have hfresh : ∀ k y, (F.next, k) ∉ F.users y := by
    intro k y hmem
    obtain ⟨v, hv, -⟩ := (h.mem_iff _ _ _).1 hmem
    exact absurd (hF.lt_of_operand hv) (Nat.lt_irrefl _)
  have hkeep : ∀ {z y k}, (z, k) ∈ Function.update F.users F.next [] y ↔ (z, k) ∈ F.users y := by
    intro z y k
    by_cases hy : y = F.next
    · subst hy
      rw [Function.update_self]
      constructor
      · exact fun hmem => absurd hmem List.not_mem_nil
      · intro hmem
        obtain ⟨v, hv, href⟩ := (h.mem_iff _ _ _).1 hmem
        exact absurd (hF.operand_lt z k v _ hv href) (Nat.lt_irrefl _)
    · rw [Function.update_of_ne hy]
  refine ⟨fun z k y => ?_, fun y => ?_⟩
  · show (z, k) ∈ args.zipIdx.foldl (fun users p => addUse users p.1 (F.next, p.2))
        (Function.update F.users F.next []) y ↔
      ∃ v, (Function.update F.instr F.next _ z).operands[k]? = some v ∧ v.ref = .inst y
    rw [mem_foldl_addUse, hkeep, h.mem_iff]
    by_cases hz : z = F.next
    · subst hz
      rw [Function.update_self]
      constructor
      · rintro (⟨p, hp, href, heq⟩ | ⟨v, hv, -⟩)
        · obtain rfl := (Prod.mk.inj heq).2
          exact ⟨p.1, List.mk_mem_zipIdx_iff_getElem?.1 hp, href⟩
        · exact absurd (hF.lt_of_operand hv) (Nat.lt_irrefl _)
      · rintro ⟨v, hv, href⟩
        exact Or.inl ⟨(v, k), List.mk_mem_zipIdx_iff_getElem?.2 hv, href, rfl⟩
    · rw [Function.update_of_ne hz]
      constructor
      · rintro (⟨p, -, -, heq⟩ | huse)
        · exact absurd (Prod.mk.inj heq).1 hz
        · exact huse
      · exact Or.inr
  · refine nodup_foldl_addUse ?_ ?_ fun k hmem => hfresh k y (hkeep.1 hmem)
    · rw [List.zipIdx_map_snd]
      exact List.nodup_range'
    · by_cases hy : y = F.next
      · rw [hy, Function.update_self]
        exact List.nodup_nil
      · rw [Function.update_of_ne hy]
        exact h.nodup y

/-- `replaceAllUsesWith`. -/
theorem Func.UseLists.replaceAllUsesWith (h : F.UseLists) {n : Nat} (hx : n ≠ x) :
    (F.replaceAllUsesWith x n).UseLists := by
  have hoperand : ∀ z k y, (∃ v, (F.replaceAllUsesWith x n).operand z k = some v ∧ v.ref = .inst y) ↔
      ∃ w, (z, k) ∈ F.users w ∧ renumber x n w = y := by
    intro z k y
    show (∃ v, (List.map _ (F.instr z).operands)[k]? = some v ∧ _) ↔ _
    rw [List.getElem?_map]
    constructor
    · rintro ⟨v, hv, href⟩
      obtain ⟨v₀, hv₀, rfl⟩ := Option.map_eq_some_iff.1 hv
      obtain ⟨w, hw, hwy⟩ := Value.rename_inst.1 href
      exact ⟨w, (h.mem_iff z k w).2 ⟨v₀, hv₀, hw⟩, hwy⟩
    · rintro ⟨w, hmem, hwy⟩
      obtain ⟨v, hv, hw⟩ := (h.mem_iff z k w).1 hmem
      exact ⟨_, Option.map_eq_some_iff.2 ⟨v, hv, rfl⟩, Value.rename_inst.2 ⟨w, hw, hwy⟩⟩
  -- an operand has one value, so no use is in both lists
  have hone : ∀ u ∈ F.users x, u ∉ F.users n := by
    rintro ⟨z, k⟩ hux hun
    obtain ⟨v, hv, hvx⟩ := (h.mem_iff z k x).1 hux
    obtain ⟨w, hw, hwn⟩ := (h.mem_iff z k n).1 hun
    rw [hv] at hw
    obtain rfl := Option.some.inj hw
    exact hx (Ref.inst.inj (hwn.symm.trans hvx))
  have husers : ∀ y, (F.replaceAllUsesWith x n).users y =
      if y = x then [] else if y = n then (F.users x).reverse ++ F.users n else F.users y := by
    intro y
    show Function.update (Function.update F.users n _) x [] y = _
    by_cases hyx : y = x
    · rw [if_pos hyx, hyx, Function.update_self]
    · rw [if_neg hyx, Function.update_of_ne hyx]
      by_cases hyn : y = n
      · rw [if_pos hyn, hyn, Function.update_self]
      · rw [if_neg hyn, Function.update_of_ne hyn]
  refine ⟨fun z k y => ?_, fun y => ?_⟩
  · rw [hoperand, husers]
    split
    · rename_i hyx
      constructor
      · exact fun hmem => absurd hmem List.not_mem_nil
      · rintro ⟨w, -, hwy⟩
        by_cases hwx : w = x
        · rw [hwx, renumber_self] at hwy
          exact absurd (hwy.trans hyx) hx
        · rw [renumber_of_ne hwx] at hwy
          exact absurd (hwy.trans hyx) hwx
    · rename_i hyx
      split
      · rename_i hyn
        rw [List.mem_append, List.mem_reverse]
        constructor
        · rintro (hmem | hmem)
          · exact ⟨x, hmem, (renumber_self x n).trans hyn.symm⟩
          · exact ⟨n, hmem, (renumber_of_ne hx).trans hyn.symm⟩
        · rintro ⟨w, hmem, hwy⟩
          by_cases hwx : w = x
          · exact Or.inl (hwx ▸ hmem)
          · rw [renumber_of_ne hwx] at hwy
            exact Or.inr (hwy.trans hyn ▸ hmem)
      · rename_i hyn
        constructor
        · exact fun hmem => ⟨y, hmem, renumber_of_ne hyx⟩
        · rintro ⟨w, hmem, hwy⟩
          by_cases hwx : w = x
          · rw [hwx, renumber_self] at hwy
            exact absurd hwy.symm hyn
          · rw [renumber_of_ne hwx] at hwy
            exact hwy ▸ hmem
  · rw [husers]
    split
    · exact List.nodup_nil
    · split
      · refine List.Nodup.append (List.nodup_reverse.2 (h.nodup x)) (h.nodup n) ?_
        exact fun u hux hun => hone u (List.mem_reverse.1 hux) hun
      · exact h.nodup y

/-- `erase`. -/
theorem Func.UseLists.erase (h : F.UseLists) (x : Nat) : (F.erase x).UseLists := by
  refine ⟨fun z k y => ?_, fun y => nodup_foldl_dropUse _ (h.nodup y)⟩
  show (z, k) ∈ (F.instr x).operands.zipIdx.foldl _ F.users y ↔
    ∃ v, (Function.update F.instr x Instr.unused z).operands[k]? = some v ∧ v.ref = .inst y
  rw [mem_foldl_dropUse _ (h.nodup y), h.mem_iff]
  by_cases hz : z = x
  · subst hz
    rw [Function.update_self]
    constructor
    · rintro ⟨⟨v, hv, href⟩, hnot⟩
      exact absurd ⟨href, rfl⟩ (hnot (v, k) (List.mk_mem_zipIdx_iff_getElem?.2 hv))
    · rintro ⟨v, hv, -⟩
      cases hv
  · rw [Function.update_of_ne hz]
    constructor
    · exact fun huse => huse.1
    · exact fun huse => ⟨huse, fun p _ hp => hz (Prod.mk.inj hp.2).1⟩

theorem Func.UseLists.replaceCall (h : F.UseLists) (hF : F.Linked) (hx : x < F.next) :
    (F.replaceCall x callee returned ty).UseLists :=
  ((h.createCallOf hF).replaceAllUsesWith (Nat.ne_of_gt hx)).erase x

/-! ## A replaced call -/

theorem Func.replaceCall_erased :
    (F.replaceCall x callee returned ty).instr x = Instr.unused :=
  Function.update_self _ _ _

theorem Func.replaceCall_instr {z : Nat} (hzx : z ≠ x) (hz : z ≠ F.next) :
    (F.replaceCall x callee returned ty).instr z = (F.instr z).rename (renumber x F.next) := by
  show Function.update (fun z => (Function.update F.instr F.next _ z).rename _) x _ z = _
  rw [Function.update_of_ne hzx, Function.update_of_ne hz]
  rfl

/-- Operands are operands of the original function, renumbered. -/
theorem Func.replaceCall_operand (hx : x < F.next) {z k : Nat} {v : Value}
    (hv : (F.replaceCall x callee returned ty).operand z k = some v) :
    ∃ w v₀, F.operand w k = some v₀ ∧ v = v₀.rename (renumber x F.next) ∧
      z = renumber x F.next w := by
  rw [Func.operand] at hv
  by_cases hzx : z = x
  · rw [hzx, Func.replaceCall_erased] at hv
    cases hv
  · by_cases hz : z = F.next
    · rw [hz, Func.replaceCall_new hx, Instr.rename, List.getElem?_map] at hv
      obtain ⟨v₀, hv₀, rfl⟩ := Option.map_eq_some_iff.1 hv
      exact ⟨x, v₀, Instr.operand_of_args hv₀, rfl, hz.trans (renumber_self _ _).symm⟩
    · rw [Func.replaceCall_instr hzx hz, Instr.rename, List.getElem?_map] at hv
      obtain ⟨v₀, hv₀, rfl⟩ := Option.map_eq_some_iff.1 hv
      exact ⟨z, v₀, hv₀, rfl, (renumber_of_ne hzx).symm⟩

/-- Instructions keep their types. -/
theorem Func.replaceCall_ty (hx : x < F.next) (hty : ty = (F.instr x).ty) {w : Nat}
    (hw : w < F.next) :
    ((F.replaceCall x callee returned ty).instr (renumber x F.next w)).ty = (F.instr w).ty := by
  by_cases hwx : w = x
  · rw [hwx, renumber_self, Func.replaceCall_new hx]
    exact hty
  · rw [renumber_of_ne hwx, Func.replaceCall_other hw hwx]
    rfl

/-- GEPs are GEPs of the original function. -/
theorem Func.replaceCall_gep (hx : x < F.next) {w : Nat} (hw : w < F.next)
    (hop : ((F.replaceCall x callee returned ty).instr (renumber x F.next w)).op = .gep) :
    (F.instr w).op = .gep := by
  by_cases hwx : w = x
  · rw [hwx, renumber_self, Func.replaceCall_new hx] at hop
    cases hop
  · rw [renumber_of_ne hwx, Func.replaceCall_other hw hwx] at hop
    exact hop

/-- **A replaced call leaves its function linked.** -/
theorem Func.WellLinked.replaceCall (h : F.WellLinked) (hmem : x ∈ F.ids)
    (hty : ty = (F.instr x).ty) : (F.replaceCall x callee returned ty).WellLinked := by
  have hx := h.ids_lt x hmem
  have hnext : ∀ w < F.next, renumber x F.next w < F.next + 1 := by
    intro w hw
    by_cases hwx : w = x
    · rw [hwx, renumber_self]
      exact Nat.lt_succ_self _
    · rw [renumber_of_ne hwx]
      exact Nat.lt_succ_of_lt hw
  -- an operand that is an instruction is one of the original function, and has its type
  have hoperand : ∀ z k v y, (F.replaceCall x callee returned ty).operand z k = some v →
      v.ref = .inst y → ∃ w v₀ y₀, F.operand w k = some v₀ ∧ v₀.ref = .inst y₀ ∧ v.ty = v₀.ty ∧
        z = renumber x F.next w ∧ y = renumber x F.next y₀ := by
    intro z k v y hv hy
    obtain ⟨w, v₀, hv₀, rfl, hz⟩ := Func.replaceCall_operand hx hv
    obtain ⟨y₀, hy₀, hyy⟩ := Value.rename_inst.1 hy
    exact ⟨w, v₀, y₀, hv₀, hy₀, Value.rename_ty _ _, hz, hyy.symm⟩
  have huses : (F.replaceCall x callee returned ty).UseLists :=
    h.useLists.replaceCall h.toLinked hx
  refine { unused := ?unused, operand_lt := ?operand_lt, operand_ty := ?operand_ty,
           users_operand := fun z k y => (huses.mem_iff z k y).1, users_nodup := huses.nodup,
           ids_nodup := ?ids_nodup, ids_lt := ?ids_lt, operand_mem := ?operand_mem,
           operand_users := fun z k v y hv hy => (huses.mem_iff z k y).2 ⟨v, hv, hy⟩,
           gep_base := ?gep_base, gep_index := ?gep_index }
  case unused =>
    intro z hz
    have hz : F.next + 1 ≤ z := hz
    rw [Func.replaceCall_instr (by omega) (by omega), h.unused z (by omega)]
    rfl
  case operand_lt =>
    intro z k v y hv hy
    obtain ⟨w, v₀, y₀, hv₀, hy₀, -, -, rfl⟩ := hoperand z k v y hv hy
    exact hnext y₀ (h.operand_lt w k v₀ y₀ hv₀ hy₀)
  case operand_ty =>
    intro z k v y hv hy
    obtain ⟨w, v₀, y₀, hv₀, hy₀, hvty, -, rfl⟩ := hoperand z k v y hv hy
    rw [hvty, Func.replaceCall_ty hx hty (h.operand_lt w k v₀ y₀ hv₀ hy₀)]
    exact h.operand_ty w k v₀ y₀ hv₀ hy₀
  case ids_nodup =>
    rw [Func.replaceCall_ids hx]
    refine h.ids_nodup.map_on fun a ha b hb hab => ?_
    -- the number of the new call is none of the function
    have ha' := h.ids_lt a ha
    have hb' := h.ids_lt b hb
    by_cases hax : a = x
    · by_cases hbx : b = x
      · exact hax.trans hbx.symm
      · rw [hax, renumber_self, renumber_of_ne hbx] at hab
        omega
    · by_cases hbx : b = x
      · rw [hbx, renumber_self, renumber_of_ne hax] at hab
        omega
      · rwa [renumber_of_ne hax, renumber_of_ne hbx] at hab
  case ids_lt =>
    intro z hz
    rw [Func.replaceCall_ids hx, List.mem_map] at hz
    obtain ⟨w, hw, rfl⟩ := hz
    exact hnext w (h.ids_lt w hw)
  case operand_mem =>
    intro z hz k v y hv hy
    obtain ⟨w, v₀, y₀, hv₀, hy₀, -, rfl, rfl⟩ := hoperand z k v y hv hy
    rw [Func.mem_ids_replaceCall h.ids_lt hmem] at hz
    rw [Func.replaceCall_ids hx]
    refine List.mem_map_of_mem (h.operand_mem w ?_ k v₀ y₀ hv₀ hy₀)
    by_cases hwx : w = x
    · exact hwx ▸ hmem
    · rw [renumber_of_ne hwx] at hz
      rcases hz with hz | ⟨hz, -⟩
      · exact absurd (hz ▸ h.toLinked.lt_of_operand hv₀) (Nat.lt_irrefl _)
      · exact hz
  case gep_base =>
    intro z v hop hv
    obtain ⟨w, v₀, hv₀, rfl, rfl⟩ := Func.replaceCall_operand hx hv
    rw [Value.rename_ty]
    exact h.gep_base w v₀ (Func.replaceCall_gep hx (h.toLinked.lt_of_operand hv₀) hop) hv₀
  case gep_index =>
    intro z k v hop hv
    obtain ⟨w, v₀, hv₀, rfl, rfl⟩ := Func.replaceCall_operand hx hv
    rw [Value.rename_ty]
    exact h.gep_index w k v₀ (Func.replaceCall_gep hx (h.toLinked.lt_of_operand hv₀) hop) hv₀

end Stages

/-! ## The phase -/

/-- A function without a body. -/
theorem Func.wellLinked_declaration (name : String) :
    (⟨name, [], fun _ => Instr.unused, fun _ => [], 0⟩ : Func).WellLinked where
  unused := fun _ _ => rfl
  operand_lt := fun x k v y hv => by cases hv
  operand_ty := fun x k v y hv => by cases hv
  users_operand := fun x k y hmem => absurd hmem List.not_mem_nil
  users_nodup := fun _ => List.nodup_nil
  ids_nodup := List.nodup_nil
  ids_lt := fun x hx => absurd hx List.not_mem_nil
  operand_mem := fun x hx => absurd hx List.not_mem_nil
  operand_users := fun x k v y hv => by cases hv
  gep_base := fun x v hop => by cases hop
  gep_index := fun x k v hop => by cases hop

section Phase

variable {setName : List String → String → String} {M M' : Module}

/-- The loop keeps functions linked, as long as it replaces calls only. -/
theorem Module.Consistent.replaceUses_wellLinked {func custom : String} {fuel : Nat}
    (hM : M.Consistent) (hcustom : custom ∈ M.functions)
    (hty : M.returnTy custom = M.returnTy func)
    (h : ∀ G ∈ M.functions, (M.body G).WellLinked)
    (hres : replaceUses func custom fuel M = some M') :
    ∀ G ∈ M'.functions, (M'.body G).WellLinked := by
  -- the induction is on the fuel; a round that replaced anything else would have no end
  induction fuel generalizing M with
  | zero => exact absurd hres (by simp [replaceUses])
  | succ fuel ih =>
      have hnever := fun u (hu : u ∈ M.uses func) k (hk : u.index = some k) =>
        hM.replaceUses_never_ends hcustom hu hk (fuel + 1)
      rw [hres] at hnever
      rw [replaceUses] at hres
      split at hres
      · cases hres
        exact h
      · rename_i u us huses
        have hu : u ∈ M.uses func := by
          rw [huses]
          exact List.mem_cons_self
        have huse := hM.isUse hu
        split at hres
        · refine ih (hM.replaceUser hcustom huse.user huse.mem) hcustom hty ?_ hres
          intro G hG
          by_cases hGu : G = u.user
          · rw [hGu, Module.body_replaceUser_self]
            refine (h u.user huse.user).replaceCall huse.mem ?_
            have hat := huse.usesAt
            cases hindex : u.index with
            | none =>
                rw [hindex] at hat
                obtain ⟨callee, returned, hop, rfl⟩ := hat
                rw [hM.typed u.user huse.user u.inst huse.mem callee returned hop, hty]
            | some k => exact absurd (hnever u hu k hindex) (by simp)
          · rw [Module.body_replaceUser_of_ne hGu]
            exact h G hG
        · exact absurd hres (by simp)

/-- **The phase keeps functions linked.** -/
theorem Module.Consistent.phase_wellLinked {L : List String} {fuel : Nat} (hM : M.Consistent)
    (hN : Naming setName) (hL : ∀ f ∈ L, f ∈ M.functions)
    (h : ∀ G ∈ M.functions, (M.body G).WellLinked)
    (hres : L.foldlM (replaceFunction setName fuel) M = some M') :
    ∀ G ∈ M'.functions, (M'.body G).WellLinked := by
  induction L generalizing M with
  | nil =>
      cases hres
      exact h
  | cons f L ih =>
      rw [List.foldlM_cons] at hres
      obtain ⟨M₁, hM₁, hres⟩ := Option.bind_eq_some_iff.1 hres
      have hf := hL f List.mem_cons_self
      obtain ⟨hcons, hmem⟩ := hM.replaceFunction_some hN hf hM₁
      refine ih hcons (fun g hg => hmem g (hL g (List.mem_cons_of_mem f hg))) ?_ hres
      rw [replaceFunction] at hM₁
      split at hM₁
      · cases hM₁
        exact h
      · rename_i r _
        have hcustom := hN.not_mem_functions M r
        have hne : f ≠ setName M.names r := fun heq => hcustom (heq ▸ hf)
        refine (hM.create hf hcustom).replaceUses_wellLinked
          ((Module.mem_functions_create hf).2 (Or.inl rfl)) (Module.create_returnTy hne) ?_ hM₁
        intro G hG
        by_cases hG' : G = setName M.names r
        · rw [hG']
          show Func.WellLinked (Function.update M.body _ _ _)
          rw [Function.update_self]
          exact Func.wellLinked_declaration _
        · rw [Module.body_create_of_ne hG']
          exact h G (((Module.mem_functions_create hf).1 hG).resolve_left hG')

end Phase

end PTAuth.Pass
