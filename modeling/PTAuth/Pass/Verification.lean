import PTAuth.Pass.Preservation
import PTAuth.Pass.Sites

/-!
# The output of the pass passes the verifier

`Func.Verified` is what the verifier of the compiler asks of a function: typing rules for the
instructions that the pass reads or makes (`Rule`; those of the others are a parameter), a
terminator at the end of every block and nowhere else, no branch to the entry block, phis at the top
of the blocks only, operands that dominate their uses, and of a phi one operand for every edge into
its block, which dominates the end of the block that the edge comes from (`Func.PhiRules`). `sig`
gives the parameter and result types of the functions of the module, among them those that the pass
has declared.

Insertions at sites keep a function verified (`Instrumented.verified`) and linked
(`Instrumented.wellLinked`): casts are between pointers, every runtime call gets an `i8*`, nothing
is inserted in front of a phi or behind a terminator, and use lists stay complete.
-/

set_option autoImplicit false

namespace PTAuth.Pass

/-! ## The verifier -/

/-- `isTerminator`. -/
def Op.isTerminator : Op → Bool
  | .ret => true
  | .br _ => true
  | .other name => name == "unreachable"
  | _ => false

/-- The typing rules: `args` are the types of the operands, `ty` that of the instruction. -/
def Rule (sig : String → Option (List Ty × Ty)) (other : String → List Ty → Ty → Prop) :
    Op → List Ty → Ty → Prop
  | .alloca allocated, _, ty => ty = .ptr allocated
  | .load, args, ty => args = [.ptr ty]
  | .store, args, _ => ∃ t, args = [t, .ptr t]
  | .gep, args, ty => ty.isPointerTy = true ∧ ∃ base indices, args = base :: indices ∧
      base.isPointerTy = true ∧ ∀ t ∈ indices, t.isPointerTy = false
  | .bitcast, args, ty => ∃ t, args = [t] ∧ t.isPointerTy = ty.isPointerTy
  | .call (some callee) _, args, ty => ∀ params result,
      sig callee.name = some (params, result) → params <+: args ∧ ty = result
  | .call none _, args, ty => other "call" args ty
  | .ret, args, ty => other "ret" args ty
  | .br _, args, ty => other "br" args ty
  | .phi _, args, ty => ∀ t ∈ args, t = ty
  | .other name, args, ty => other name args ty

/-- The types of the operands. -/
def Instr.argTys (i : Instr) : List Ty := i.operands.map Value.ty

/-- The last instruction of the block `b`. -/
def Func.terminator (F : Func) (b : Nat) : Option Nat := F.layout[b]?.bind List.getLast?

/-- The blocks that `b` branches to. -/
def Func.successors (F : Func) (b : Nat) : List Nat :=
  match F.terminator b with
  | some t => (F.instr t).op.targets
  | none => []

/-- The blocks that branch to `b`, each as often as it does. -/
def Func.predecessors (F : Func) (b : Nat) : List Nat :=
  (List.range F.layout.length).flatMap fun a => List.replicate ((F.successors a).count b) a

/-- The rules for a phi of the block `b`: an operand for every edge into the block, the same for the
edges from one block, and there before control leaves the block that the edge comes from. -/
structure Func.PhiRules (F : Func) (b x : Nat) (incoming : List Nat) : Prop where
  edges : incoming.Perm (F.predecessors b)
  operands : (F.instr x).operands.length = incoming.length
  values : ∀ j k a, incoming[j]? = some a → incoming[k]? = some a → F.operand x j = F.operand x k
  dominated : ∀ k a t, incoming[k]? = some a → F.terminator a = some t → ∀ p C, F.Path p (t :: C) →
    ∀ v y, F.operand x k = some v → v.ref = .inst y → y ∈ p

/-- What the verifier asks of a function. -/
structure Func.Verified (sig : String → Option (List Ty × Ty))
    (other : String → List Ty → Ty → Prop) (F : Func) : Prop where
  typed : ∀ x ∈ F.ids, Rule sig other (F.instr x).op (F.instr x).argTys (F.instr x).ty
  terminated : ∀ B ∈ F.layout, ∃ A x, B = A ++ [x] ∧ (F.instr x).op.isTerminator = true ∧
    ∀ y ∈ A, (F.instr y).op.isTerminator = false
  entry : F.predecessors 0 = []
  phisFirst : ∀ B ∈ F.layout, B.Pairwise fun x y =>
    (F.instr y).op.isPhi = true → (F.instr x).op.isPhi = true
  phis : ∀ b B, F.layout[b]? = some B → ∀ x ∈ B, ∀ incoming, (F.instr x).op = .phi incoming →
    F.PhiRules b x incoming
  dominated : F.Dominated

/-- The runtime functions are declared as functions from `i8*` to `i8*`. -/
def DeclaresRuntime (sig : String → Option (List Ty × Ty)) : Prop :=
  ∀ f ∈ runtimeFunctions, sig f = some ([voidPtrTy], voidPtrTy)

section Verified

variable {tbi : Bool} {F₀ F : Func} {pre : Nat → List Nat}
  {sig : String → Option (List Ty × Ty)} {other : String → List Ty → Ty → Prop}

/-! ## Typing -/

/-- The operand at a site is a pointer. -/
theorem Func.Verified.site_ty (hv : F₀.Verified sig other) {x k : Nat} {f : String} {v₀ : Value}
    (hx : x ∈ F₀.ids) (hsite : F₀.Site tbi x k f) (h₀ : F₀.operand x k = some v₀) :
    v₀.ty.isPointerTy = true := by
  have hrule := hv.typed x hx
  have hget : (F₀.instr x).argTys[k]? = some v₀.ty := by
    rw [Instr.argTys, List.getElem?_map]
    show (F₀.operand x k).map Value.ty = _
    rw [h₀]
    rfl
  rcases hsite.2 with ⟨hop | ⟨hop, -⟩, rfl, -⟩ | ⟨-, w, hw, hxpac⟩
  · rw [hop] at hrule
    have hargs : (F₀.instr x).argTys = [.ptr (F₀.instr x).ty] := hrule
    rw [hargs] at hget
    rw [← Option.some.inj hget]
    rfl
  · rw [hop] at hrule
    obtain ⟨-, base, indices, hargs, hbase, -⟩ := hrule
    rw [hargs] at hget
    rw [← Option.some.inj hget]
    exact hbase
  · rw [h₀] at hw
    obtain rfl := Option.some.inj hw
    exact Func.isPointerTy_of_stripsArgument hxpac.1

/-- Both types of a cast at a site are pointer types. -/
theorem CastTy.isPointerTy {v₀ : Value} {ty : Ty} (h : CastTy v₀ ty)
    (h₀ : v₀.ty.isPointerTy = true) : ty.isPointerTy = true := by
  rcases h with rfl | rfl
  · exact h₀
  · rfl

/-- Inserted instructions are well typed. -/
theorem Linkage.typed {ps : List Nat} {v₀ : Value} {f : String} {z : Nat}
    (h : Linkage F ps v₀ f z) (h₀ : v₀.ty.isPointerTy = true) (hf : f ∈ runtimeFunctions)
    (hsig : DeclaresRuntime sig) :
    Rule sig other (F.instr z).op (F.instr z).argTys (F.instr z).ty := by
  obtain ⟨v, b, -, hvty, ⟨ty, hty, hi⟩ | ⟨hvoid, hi⟩⟩ := h
  · rw [hi]
    refine ⟨v.ty, rfl, ?_⟩
    rw [hvty.isPointerTy h₀, hty.isPointerTy h₀]
  · rw [hi]
    intro params result hparams
    rw [hsig f hf] at hparams
    obtain ⟨rfl, rfl⟩ := Prod.mk.inj (Option.some.inj hparams)
    refine ⟨?_, rfl⟩
    exact ⟨[], congrArg (fun ty => [ty]) hvoid.symm⟩

/-- The operands keep their types. -/
theorem Decorated.argTys (hd : Decorated tbi F₀ pre F) {x : Nat} (hx : x < F₀.next) :
    (F.instr x).argTys = (F₀.instr x).argTys := by
  apply List.ext_getElem?
  intro k
  have hlen := hd.operands_length x hx
  rw [Instr.argTys, Instr.argTys, List.getElem?_map, List.getElem?_map]
  show (F.operand x k).map Value.ty = (F₀.operand x k).map Value.ty
  cases hv : F.operand x k with
  | some v =>
      obtain ⟨v₀, b, hv₀, hty, -⟩ := hd.operand x hx k v hv
      rw [hv₀, Option.map_some, Option.map_some, hty]
  | none =>
      have hge : (F₀.instr x).operands.length ≤ k := by
        rw [← hlen]
        exact List.getElem?_eq_none_iff.1 hv
      rw [show F₀.operand x k = none from List.getElem?_eq_none_iff.2 hge]

/-! ## Blocks -/

/-- The instruction that something is inserted in front of is no terminator. -/
theorem Func.Site.not_terminator {x k : Nat} {f : String} (h : F₀.Site tbi x k f) :
    (F₀.instr x).op.isTerminator = false := by
  rcases h.op_cases with hop | hop | ⟨callee, returned, hop⟩
  · rw [hop]
    rfl
  · rw [hop]
    rfl
  · rw [hop]
    rfl

/-- Inserted instructions are neither phis nor terminators. -/
theorem Decorated.pre_plain (hd : Decorated tbi F₀ pre F) {x z : Nat} (hz : z ∈ pre x) :
    (F.instr z).op.isPhi = false ∧ (F.instr z).op.isTerminator = false := by
  rcases hd.pre_op hz with hop | ⟨f, -, hop⟩
  · rw [hop]
    exact ⟨rfl, rfl⟩
  · rw [hop]
    exact ⟨rfl, rfl⟩

/-- Blocks still end in their terminator. -/
theorem Decorated.terminated (hd : Decorated tbi F₀ pre F) (hs : Sited tbi F₀ pre F)
    (hids : ∀ y ∈ F₀.ids, y < F₀.next) (hv : F₀.Verified sig other) {C : List Nat}
    (hC : C ∈ F.layout) : ∃ A x, C = A ++ [x] ∧ (F.instr x).op.isTerminator = true ∧
      ∀ y ∈ A, (F.instr y).op.isTerminator = false := by
  rw [hd.layout] at hC
  obtain ⟨B, hB, rfl⟩ := List.mem_map.1 hC
  obtain ⟨A, x, rfl, hx, hA⟩ := hv.terminated B hB
  have hlt : ∀ y ∈ A ++ [x], y < F₀.next := fun y hy => hids y (List.mem_flatten.2 ⟨_, hB, hy⟩)
  -- nothing is inserted in front of the terminator
  have hnone : pre x = [] := by
    rw [List.eq_nil_iff_forall_not_mem]
    intro z hz
    obtain ⟨k, v₀, f, hsite, -⟩ := hs.site x z hz
    rw [hsite.not_terminator] at hx
    exact absurd hx (by decide)
  refine ⟨decorate pre A, x, ?_, ?_, ?_⟩
  · show decorate pre (A ++ [x]) = _
    rw [decorate_append, decorate_cons, hnone]
    rfl
  · rw [hd.op x (hlt x (by simp))]
    exact hx
  · intro z hz
    obtain ⟨y, hy, hzy | rfl⟩ := mem_decorate.1 hz
    · exact (hd.pre_plain hzy).2
    · rw [hd.op z (hlt z (List.mem_append_left _ hy))]
      exact hA z hy

/-- Phis are still at the top. -/
theorem Decorated.phisFirst (hd : Decorated tbi F₀ pre F) (hs : Sited tbi F₀ pre F) :
    ∀ {B : List Nat}, (∀ y ∈ B, y < F₀.next) →
      (B.Pairwise fun x y => (F₀.instr y).op.isPhi = true → (F₀.instr x).op.isPhi = true) →
      (decorate pre B).Pairwise fun x y =>
        (F.instr y).op.isPhi = true → (F.instr x).op.isPhi = true := by
  intro B
  induction B with
  | nil => exact fun _ _ => List.Pairwise.nil
  | cons x B ih =>
      intro hlt hB
      obtain ⟨hfront, htail⟩ := List.pairwise_cons.1 hB
      have hx := hlt x List.mem_cons_self
      have hlt' : ∀ y ∈ B, y < F₀.next := fun y hy => hlt y (List.mem_cons_of_mem x hy)
      -- a phi further on is an original one, so `x` is a phi and has nothing in front
      have hphi : ∀ z ∈ decorate pre B, (F.instr z).op.isPhi = true →
          (F₀.instr x).op.isPhi = true := by
        intro z hz hz'
        obtain ⟨y, hy, hzy | rfl⟩ := mem_decorate.1 hz
        · rw [(hd.pre_plain hzy).1] at hz'
          exact absurd hz' (by decide)
        · rw [hd.op z (hlt' z hy)] at hz'
          exact hfront z hy hz'
      rw [decorate_cons, List.pairwise_append, List.pairwise_cons]
      refine ⟨?_, ⟨fun z hz hz' => ?_, ih hlt' htail⟩, fun z hz w hw hw' => ?_⟩
      · apply List.pairwise_of_forall_mem_list
        intro z hz w hw hw'
        rw [(hd.pre_plain hw).1] at hw'
        exact absurd hw' (by decide)
      · rw [hd.op x hx]
        exact hphi z hz hz'
      · have hxphi : (F₀.instr x).op.isPhi = true := by
          rcases List.mem_cons.1 hw with rfl | hw
          · rwa [hd.op w hx] at hw'
          · exact hphi w hw hw'
        rw [hs.pre_phi hxphi] at hz
        exact absurd hz List.not_mem_nil

/-! ## Edges -/

/-- Every block ends in the same instruction. -/
theorem Decorated.terminator (hd : Decorated tbi F₀ pre F) (b : Nat) :
    F.terminator b = F₀.terminator b := by
  rw [Func.terminator, Func.terminator, hd.layout, List.getElem?_map]
  cases F₀.layout[b]? with
  | none => rfl
  | some B =>
      show (decorate pre B).getLast? = B.getLast?
      induction B using List.reverseRecOn with
      | nil => rfl
      | append_singleton A x _ =>
          have hsplit : decorate pre (A ++ [x]) = decorate pre A ++ pre x ++ [x] := by
            rw [decorate_append, decorate_cons, List.append_assoc]
            rfl
          rw [hsplit, List.getLast?_concat, List.getLast?_concat]

theorem Func.terminator_mem {F : Func} {b t : Nat} (h : F.terminator b = some t) : t ∈ F.ids := by
  obtain ⟨B, hB, ht⟩ := Option.bind_eq_some_iff.1 h
  exact F.mem_ids hB (List.mem_of_getLast? ht)

/-- Control takes the same edges. -/
theorem Decorated.predecessors (hd : Decorated tbi F₀ pre F) (hids : ∀ y ∈ F₀.ids, y < F₀.next)
    (b : Nat) : F.predecessors b = F₀.predecessors b := by
  have hsucc : ∀ a, F.successors a = F₀.successors a := by
    intro a
    rw [Func.successors, Func.successors, hd.terminator]
    cases ht : F₀.terminator a with
    | none => rfl
    | some t =>
        show (F.instr t).op.targets = _
        rw [hd.op t (hids t (Func.terminator_mem ht))]
  rw [Func.predecessors, Func.predecessors, hd.layout, List.length_map]
  simp only [hsucc]

/-- Control is at the end of a block where it is in the original function. -/
theorem Decorated.path_original (hd : Decorated tbi F₀ pre F) (hids : ∀ y ∈ F₀.ids, y < F₀.next)
    {p' C : List Nat} {t : Nat} (ht : t < F₀.next) (hpath : F.Path p' (t :: C)) :
    ∃ p B, F₀.Path p (t :: B) ∧ ∀ y ∈ p, y ∈ p' := by
  obtain ⟨p, B, hpath₀, hp, ⟨-, hC⟩ | ⟨x, B', r, q, rfl, hpre, hC, -⟩⟩ := hd.path hids hpath
  · cases hC
  · cases q with
    | nil =>
        cases hC
        exact ⟨p, B', hpath₀, hp⟩
    | cons w q =>
        cases hC
        have hmem : t ∈ pre x := by
          rw [hpre]
          exact List.mem_append_right _ List.mem_cons_self
        exact absurd hmem (hd.not_mem_pre ht)

/-- **Phis** keep their operands, their edges, and what dominates the ends of these. -/
theorem Decorated.phiRules (hd : Decorated tbi F₀ pre F) (hs : Sited tbi F₀ pre F)
    (hids : ∀ y ∈ F₀.ids, y < F₀.next) {b x : Nat} {incoming : List Nat} (hx : x < F₀.next)
    (hop : (F₀.instr x).op = .phi incoming) (h : F₀.PhiRules b x incoming) :
    F.PhiRules b x incoming := by
  have hoperand := hs.phi_operand hx (by rw [hop]; rfl)
  refine ⟨?_, (hd.operands_length x hx).trans h.operands, fun j k a hj hk => ?_,
    fun k a t hk ht p' C hpath v y hv hy => ?_⟩
  · rw [hd.predecessors hids]
    exact h.edges
  · rw [hoperand, hoperand]
    exact h.values j k a hj hk
  · rw [hd.terminator] at ht
    rw [hoperand] at hv
    obtain ⟨p, B, hpath₀, hp⟩ := hd.path_original hids (hids t (Func.terminator_mem ht)) hpath
    exact hp y (h.dominated k a t hk ht p B hpath₀ v y hv hy)

/-! ## Verified functions -/

/-- **Insertions at sites keep a function verified.** -/
theorem Instrumented.verified (h : Instrumented tbi F₀ F) (hwf : F₀.WellLinked)
    (hsig : DeclaresRuntime sig) (hv : F₀.Verified sig other) : F.Verified sig other := by
  obtain ⟨pre, hd, hs⟩ := h
  have hids := hwf.ids_lt
  refine ⟨fun z hz => ?_, fun C hC => hd.terminated hs hids hv hC,
    (hd.predecessors hids 0).trans hv.entry, fun C hC => ?_, fun b C hC x hx incoming hop => ?_,
    hd.dominated hs hids hv.dominated⟩
  · rw [hd.ids] at hz
    obtain ⟨x, hx, hzx | rfl⟩ := mem_decorate.1 hz
    · obtain ⟨k, v₀, f, hsite, hv₀, hlink⟩ := hs.site x z hzx
      exact hlink.typed (hv.site_ty hx hsite hv₀) hsite.1 hsig
    · have hlt := hids z hx
      rw [hd.op z hlt, hd.ty z hlt, hd.argTys hlt]
      exact hv.typed z hx
  · rw [hd.layout] at hC
    obtain ⟨B, hB, rfl⟩ := List.mem_map.1 hC
    exact hd.phisFirst hs (fun y hy => hids y (List.mem_flatten.2 ⟨B, hB, hy⟩)) (hv.phisFirst B hB)
  · obtain ⟨B, hB, rfl⟩ := hd.layout_getElem? hC
    obtain ⟨y, hy, hxy | rfl⟩ := mem_decorate.1 hx
    -- inserted instructions are no phis
    · have hplain := (hd.pre_plain hxy).1
      rw [hop] at hplain
      exact absurd hplain (by simp [Op.isPhi])
    · have hlt := hids x (F₀.mem_ids hB hy)
      rw [hd.op x hlt] at hop
      exact hd.phiRules hs hids hlt hop (hv.phis b B hB x hy incoming hop)

/-! ## Well-formedness -/

/-- Every instruction stands once. -/
theorem Decorated.nodup_ids (hd : Decorated tbi F₀ pre F) (hwf : F₀.WellLinked) : F.ids.Nodup := by
  rw [hd.ids, decorate, List.nodup_flatMap]
  refine ⟨fun x hx => ?_, hwf.ids_nodup.imp_of_mem fun {x y} hx hy hne z hzx hzy => ?_⟩
  · have hnot := hd.not_mem_pre (y := x) (hwf.ids_lt x hx)
    rw [List.nodup_append]
    refine ⟨(hd.pre_sorted x).imp Nat.ne_of_lt, List.nodup_singleton x, fun z hz w hw => ?_⟩
    rw [List.mem_singleton.1 hw]
    rintro rfl
    exact hnot hz
  · rcases List.mem_append.1 hzx with hzx | hzx
    · rcases List.mem_append.1 hzy with hzy | hzy
      · exact hne (hd.pre_disjoint x y z hzx hzy)
      · rw [List.mem_singleton.1 hzy] at hzx
        exact hd.not_mem_pre (hwf.ids_lt y hy) hzx
    · rw [List.mem_singleton.1 hzx] at hzy
      rcases List.mem_append.1 hzy with hzy | hzy
      · exact hd.not_mem_pre (hwf.ids_lt x hx) hzy
      · exact hne (List.mem_singleton.1 hzy)

/-- Operands of laid-out instructions are laid out. -/
theorem Instrumented.operand_mem (h : Instrumented tbi F₀ F) (hwf : F₀.WellLinked) {z k y : Nat}
    {v : Value} (hz : z ∈ F.ids) (hv : F.operand z k = some v) (hy : v.ref = .inst y) :
    y ∈ F.ids := by
  obtain ⟨pre, hd, hs⟩ := h
  rw [hd.ids] at hz ⊢
  have hof : ∀ {x j : Nat} {v₀ : Value} {b : Bool}, x ∈ F₀.ids → F₀.operand x j = some v₀ →
      Copy F (pre x) v₀ v b → y ∈ decorate pre F₀.ids := by
    intro x j v₀ b hx hv₀ hcopy
    rcases hcopy.inst hy with hy₀ | hmem
    · exact mem_decorate.2 ⟨y, hwf.operand_mem x hx j v₀ y hv₀ hy₀, Or.inr rfl⟩
    · exact mem_decorate.2 ⟨x, hx, Or.inl hmem⟩
  obtain ⟨x, hx, hzx | rfl⟩ := mem_decorate.1 hz
  · obtain ⟨j, v₀, f, -, hv₀, u, b, hcopy, -, hi⟩ := hs.site x z hzx
    have hoperands : (F.instr z).operands = [u] := by
      rcases hi with ⟨ty, -, hi⟩ | ⟨-, hi⟩ <;> rw [hi]
    have hmem := List.mem_of_getElem? hv
    rw [hoperands, List.mem_singleton] at hmem
    subst hmem
    exact hof hx hv₀ hcopy
  · obtain ⟨v₀, b, hv₀, -, hcopy, -⟩ := hd.operand z (hwf.ids_lt z hx) k v hv
    exact hof hx hv₀ hcopy

/-- **Insertions at sites keep a function linked.** -/
theorem Instrumented.wellLinked (h : Instrumented tbi F₀ F) (hwf : F₀.WellLinked) :
    F.WellLinked := by
  obtain ⟨pre, hd, hs⟩ := h
  have hbase : ∀ g k v, (F.instr g).op = .gep → F.operand g k = some v →
      ∃ v₀, (F₀.instr g).op = .gep ∧ F₀.operand g k = some v₀ ∧ v.ty = v₀.ty := by
    intro g k v hop hv
    have hg := hd.lt_of_gep hop
    obtain ⟨v₀, b, hv₀, hty, -⟩ := hd.operand g hg k v hv
    exact ⟨v₀, (hd.op g hg).symm.trans hop, hv₀, hty⟩
  refine ⟨hd.linked, hd.nodup_ids hwf, fun z hz => ?_,
    fun z hz k v y hv hy => Instrumented.operand_mem ⟨pre, hd, hs⟩ hwf hz hv hy, hs.complete,
    fun g v hop hv => ?_, fun g k v hop hv => ?_⟩
  · rw [hd.ids] at hz
    obtain ⟨x, hx, hzx | rfl⟩ := mem_decorate.1 hz
    · exact (hd.pre_range x z hzx).2
    · exact Nat.lt_of_lt_of_le (hwf.ids_lt z hx) hd.next_le
  · obtain ⟨v₀, hop₀, hv₀, hty⟩ := hbase g 0 v hop hv
    rw [hty]
    exact hwf.gep_base g v₀ hop₀ hv₀
  · obtain ⟨v₀, hop₀, hv₀, hty⟩ := hbase g (k + 1) v hop hv
    rw [hty]
    exact hwf.gep_index g k v₀ hop₀ hv₀

/-- **Insertions at sites keep a list of functions verified**, under their names. -/
theorem verified_of_instrumented {fs gs : List Func}
    (h : List.Forall₂ (fun F G => F.WellLinked ∧ Instrumented tbi F G) fs gs)
    (hsig : DeclaresRuntime sig) (hv : ∀ F ∈ fs, F.Verified sig other) :
    gs.map Func.name = fs.map Func.name ∧ ∀ G ∈ gs, G.WellLinked ∧ G.Verified sig other := by
  induction h with
  | nil => exact ⟨rfl, fun _ hG => absurd hG List.not_mem_nil⟩
  | @cons F G fs gs hFG _ ih =>
      obtain ⟨hnames, hgs⟩ := ih fun H hH => hv H (List.mem_cons_of_mem F hH)
      obtain ⟨hF, hinstrumented⟩ := hFG
      refine ⟨?_, fun H hH => ?_⟩
      · obtain ⟨pre, hd, -⟩ := hinstrumented
        rw [List.map_cons, List.map_cons, hnames, hd.name]
      · rcases List.mem_cons.1 hH with rfl | hH
        · exact ⟨hinstrumented.wellLinked hF,
            hinstrumented.verified hF hsig (hv F List.mem_cons_self)⟩
        · exact hgs H hH

end Verified

end PTAuth.Pass
