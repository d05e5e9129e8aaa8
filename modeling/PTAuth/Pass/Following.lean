import PTAuth.Library.Following
import PTAuth.Pass.Preservation

/-!
# The instrumented function follows the original one

The converse of `Preservation`: in the Top-Byte Ignore build whatever the original function does,
the rewritten one does too, unless a check that it runs on the way does not return. In front of an
original instruction `x` it runs what was inserted there, one instruction after the other
(`Stands.advance`): every operand of these has a value, since the operands of `x` have one. A call
of a check that refuses its argument is the only thing that can stop it, and the argument then is
the value of the address of a load or the base of a GEP (`Refusal`).
-/

set_option autoImplicit false

namespace PTAuth.Pass

open PTAuth.Library PTAuth.Runtime

variable {T : Hardware} {cfg : Config} {tbi : Bool} {F₀ F : Func} {pre : Nat → List Nat}
  {c c' d d' : Frame} {l : Option Event}

/-! ## Refusals -/

/-- The check does not hand `w` back, however long it runs. -/
def Refuses (cfg : Config) (m : Mem) (check : Check) (w : Word) : Prop :=
  ∀ fuel r q, check.run cfg (readWord m) fuel w = some r → r.outcome ≠ .returned q

/-- Nothing is refused of what has no bits above bit 47. -/
theorem not_refuses_of_untagged {m : Mem} {check : Check} {w : Word} (hw : w.toNat < 2 ^ 48) :
    ¬ Refuses cfg m check w := by
  intro h
  exact h 0 _ w (check.run_of_untagged cfg (readWord m) 0 ((signature_eq_zero_iff w).2 hw)) rfl

/-- `w` is the value of a pointer that `x` goes through: the address of a load, the base of a GEP.
-/
def Hardware.Through (T : Hardware) (F : Func) (d : Frame) (x : Nat) (w : Word) : Prop :=
  ((F.instr x).op = .load ∨ (F.instr x).op = .gep) ∧
    ∃ v, F.operand x 0 = some v ∧ T.eval d.regs v.ref = some w

/-- The original execution `d` stands in front of `x`, and the rewritten one, `c`, in front of the
call `z` of a check that refuses a pointer which `x` goes through. -/
structure Refusal (T : Hardware) (cfg : Config) (F₀ F : Func) (d c : Frame) (x z : Nat)
    (check : Check) (w : Word) : Prop where
  original : ∃ B, d.block = x :: B
  through : T.Through F₀ d x w
  rewritten : ∃ C, c.block = z :: C
  call : ∃ f, (f, check) ∈ runtimeChecks ∧ (F.instr z).op = runtimeCall f
  argument : ∃ v, (F.instr z).operands = [v] ∧ T.eval c.regs v.ref = some w
  mem : c.mem = d.mem
  refuses : Refuses cfg d.mem check w

/-- Some check refuses a pointer. -/
def Refused (T : Hardware) (cfg : Config) (F₀ F : Func) (d c : Frame) : Prop :=
  ∃ x z check w, Refusal T cfg F₀ F d c x z check w

/-- A call of a runtime function runs the check of that name. -/
theorem runtimeChecks_inj {f : String} {a b : Check} (ha : (f, a) ∈ runtimeChecks)
    (hb : (f, b) ∈ runtimeChecks) : a = b := by
  have hall : ∀ p ∈ runtimeChecks, ∀ q ∈ runtimeChecks, p.1 = q.1 → p.2 = q.2 := by decide
  exact hall _ ha _ hb rfl

theorem runtimeChecks_ne {f : String} {check : Check} (h : (f, check) ∈ runtimeChecks) :
    f ≠ "__noCheck" ∧ f ≠ "__xpac" := by
  have hall : ∀ p ∈ runtimeChecks, p.1 ≠ "__noCheck" ∧ p.1 ≠ "__xpac" := by decide
  exact hall _ h

/-- The runtime functions are the checks and two functions that always return. -/
theorem runtimeFunctions_cases {f : String} (h : f ∈ runtimeFunctions) :
    f = "__noCheck" ∨ f = "__xpac" ∨ ∃ check, (f, check) ∈ runtimeChecks := by
  simp only [runtimeFunctions, List.mem_cons, List.not_mem_nil, or_false] at h
  rcases h with rfl | rfl | rfl | rfl | rfl
  · exact Or.inr (Or.inr ⟨.load, by decide⟩)
  · exact Or.inr (Or.inr ⟨.gep, by decide⟩)
  · exact Or.inr (Or.inr ⟨.nestedGEP, by decide⟩)
  · exact Or.inl rfl
  · exact Or.inr (Or.inl rfl)

/-- **A refusal is a halt.** -/
theorem Refusal.stuck {x z : Nat} {check : Check} {w : Word}
    (h : Refusal T cfg F₀ F d c x z check w) : ¬ Step T cfg F c l c' := by
  obtain ⟨C, hC⟩ := h.rewritten
  obtain ⟨f, hf, hop⟩ := h.call
  obtain ⟨v, hv, hw⟩ := h.argument
  intro hstep
  cases hstep with
  | exec hy _ hexec =>
      rw [hC] at hy
      cases hy
      rw [hop] at hexec
      cases hexec with
      | compute hcompute _ =>
          rcases hcompute with hcompute | ⟨name, hcompute⟩
          · exact absurd hcompute (by simp [runtimeCall])
          · exact absurd hcompute (by simp [runtimeCall])
      | call _ _ hnot =>
          have hall : ∀ p ∈ runtimeChecks, p.1 ∈ runtimeFunctions := by decide
          exact hnot ⟨f, hall _ hf, rfl⟩
  | runtime hy hargs hcall hrun =>
      rw [hC] at hy
      cases hy
      rw [hv] at hargs
      rw [hop] at hcall
      obtain rfl := runtimeCall_inj hcall
      cases hargs with
      | cons hp _ =>
          have hval := hp.2
          rw [hw] at hval
          obtain rfl := Option.some.inj hval
          cases hrun with
          | check hg hrun ho =>
              obtain rfl := runtimeChecks_inj hf hg
              rw [h.mem] at hrun
              exact h.refuses _ _ _ hrun ho
          | noCheck => exact absurd rfl (runtimeChecks_ne hf).1
          | xpac => exact absurd rfl (runtimeChecks_ne hf).2
  | phi hy hphi _ _ _ _ =>
      rw [hC] at hy
      cases hy
      exact absurd (hphi.symm.trans hop) (by simp [runtimeCall])
  | jump hy _ hbr _ _ _ =>
      rw [hC] at hy
      cases hy
      rw [hop] at hbr
      exact absurd hbr (by simp [runtimeCall])
  | ret hy _ hret =>
      rw [hC] at hy
      cases hy
      rw [hop] at hret
      exact absurd hret (by simp [runtimeCall])

/-! ## Inserted instructions run -/

/-- The inserted instructions that a copy goes through are no younger than the copy. -/
theorem Copy.older {zs : List Nat} {v₀ v : Value} {b : Bool} {n : Nat} (h : Copy F zs v₀ v b)
    (hlt : ∀ y ∈ zs, v.ref = .inst y → y < n)
    (holder : ∀ z ∈ zs, ∀ k w y, F.operand z k = some w → w.ref = .inst y → y < z) :
    Copy F (zs.filter (· < n)) v₀ v b := by
  -- the operand of an inserted instruction is older than it
  have hnext : ∀ {z : Nat} {u : Value}, z ∈ zs → (F.instr z).operands = [u] → z < n →
      ∀ y ∈ zs, u.ref = .inst y → y < n := by
    intro z u hz hu hzn y _ hy
    have hyz := holder z hz 0 u y (by rw [Func.operand, hu]; rfl) hy
    omega
  induction h with
  | self => exact .self
  | @fold v b ty hc _ ih =>
      refine .fold ty hc (ih fun y _ hy => ?_)
      rw [hy] at hc
      exact absurd hc (by simp [Ref.isConstant])
  | cast ty hz hi _ ih =>
      have hzn := hlt _ hz rfl
      exact .cast ty (List.mem_filter.2 ⟨hz, decide_eq_true hzn⟩) hi
        (ih (hnext hz (by rw [hi]) hzn))
  | call hf hz hi _ ih =>
      have hzn := hlt _ hz rfl
      exact .call hf (List.mem_filter.2 ⟨hz, decide_eq_true hzn⟩) hi
        (ih (hnext hz (by rw [hi]) hzn))

/-- A copy of an operand that has a value has one, if what it goes through has run. -/
theorem Copy.defined {zs : List Nat} {v₀ v : Value} {b : Bool} (h : Copy F zs v₀ v b)
    (hran : ∀ y ∈ zs, Ran T cfg F c y) (h₀ : T.eval c.regs v₀.ref ≠ none) :
    T.eval c.regs v.ref ≠ none := by
  have hreg : ∀ y ∈ zs, T.eval c.regs (.inst y) ≠ none := by
    intro y hy
    obtain ⟨v, p, q, -, -, hq, -⟩ := hran y hy
    rw [show T.eval c.regs (.inst y) = some q from hq]
    simp
  induction h with
  | self => exact h₀
  | @fold v b ty hc _ ih =>
      rw [show T.eval c.regs (.bitCastExpr v.ref) = _ from T.eval_fold c.regs hc]
      exact ih
  | cast ty hz _ _ _ => exact hreg _ hz
  | call _ hz _ _ _ => exact hreg _ hz

/-- In the Top-Byte Ignore build a copy has the value of the operand, or that value stripped. -/
theorem Copy.value_eq {zs : List Nat} {v₀ v : Value} {b : Bool} (h : Copy F zs v₀ v b)
    (htbi : cfg.topByteIgnore = true) (hran : ∀ y ∈ zs, Ran T cfg F c y) {w : Word}
    (hw : T.eval c.regs v.ref = some w) :
    ∃ w₀, T.eval c.regs v₀.ref = some w₀ ∧ w = if b then Runtime.xpac w₀ else w₀ := by
  apply h.value (K := fun b w₀ w => w = if b then Runtime.xpac w₀ else w₀) hran (fun _ => rfl) _ hw
  intro b w₀ w f q validated hw hrun
  rw [hrun.returned htbi, hw]
  cases b <;> cases f == "__xpac" <;> simp [xpac_xpac]

/-- Operands of `x` have values in front of `x`. -/
def Hardware.Has (T : Hardware) (F : Func) (d : Frame) (x : Nat) : Prop :=
  ∀ k v, F.operand x k = some v → T.eval d.regs v.ref ≠ none

theorem Hardware.Has.of_forall₂ {x : Nat} {args : List (Ty × Word)}
    (h : List.Forall₂ (T.Evaluates d.regs) (F.instr x).operands args) : T.Has F d x := by
  intro k v hv
  obtain ⟨p, -, hp⟩ := forall₂_partner h (List.mem_of_getElem? hv)
  rw [hp.2]
  simp

/-- The value is the same in the rewritten execution. -/
theorem Matches.eval (hd : Decorated tbi F₀ pre F) (h : Matches T cfg F₀ F pre c d) {x k : Nat}
    {v₀ : Value} (h₀ : F₀.operand x k = some v₀) : T.eval c.regs v₀.ref = T.eval d.regs v₀.ref :=
  T.eval_congr fun y hy => h.regs y (hd.base.operand_lt x k v₀ y h₀ hy)

/-- **One inserted instruction** runs, or is a check that refuses. -/
theorem Stands.advance (hd : Decorated true F₀ pre F) (hs : Sited true F₀ pre F)
    (htbi : cfg.topByteIgnore = true) (hm : Matches T cfg F₀ F pre c d) {x z : Nat}
    {B r q : List Nat} (hblock : d.block = x :: B) (hat : Stands T cfg F pre c x B r (z :: q))
    (hhas : (F₀.instr x).op.isPhi = false → T.Has F₀ d x) :
    (∃ c', Step T cfg F c none c') ∨ ∃ check w, Refusal T cfg F₀ F d c x z check w := by
  have hz : z ∈ pre x := hat.mem_pre
  have hcblock : c.block = z :: (q ++ x :: decorate pre B) := hat.block
  obtain ⟨k, v₀, f, hsite, hv₀, v, b, hcopy, -, hi⟩ := hs.site x z hz
  have hoperands : (F.instr z).operands = [v] := by
    rcases hi with ⟨ty, -, hi⟩ | ⟨-, hi⟩ <;> rw [hi]
  -- the operand of `z` goes through instructions in front of `z`, which have run
  have hbelow : Copy F ((pre x).filter (· < z)) v₀ v b := by
    apply hcopy.older
    · intro y _ href
      exact hd.pre_operand_lt x z hz 0 v y (by rw [Func.operand, hoperands]; rfl) href
    · exact hd.pre_operand_lt x
  have hran : ∀ y ∈ (pre x).filter (· < z), Ran T cfg F c y := by
    intro y hy
    obtain ⟨hy, hlt⟩ := List.mem_filter.1 hy
    have hlt : y < z := of_decide_eq_true hlt
    have hsorted := hd.pre_sorted x
    rw [hat.split, List.pairwise_append, List.pairwise_cons] at hsorted
    rw [hat.split] at hy
    rcases List.mem_append.1 hy with hy | hy
    · exact hat.ran y hy
    · rcases List.mem_cons.1 hy with rfl | hy
      · exact absurd hlt (Nat.lt_irrefl y)
      · exact absurd (hsorted.2.1.1 y hy) (Nat.not_lt.2 (Nat.le_of_lt hlt))
  have hval : T.eval c.regs v.ref ≠ none := by
    apply hbelow.defined hran
    rw [hm.eval hd hv₀]
    exact hhas hsite.not_phi k v₀ hv₀
  obtain ⟨w, hw⟩ := Option.ne_none_iff_exists'.1 hval
  have hargs : List.Forall₂ (T.Evaluates c.regs) (F.instr z).operands [(v.ty, w)] := by
    rw [hoperands]
    exact .cons ⟨rfl, hw⟩ .nil
  rcases hi with ⟨ty, -, hi⟩ | ⟨-, hi⟩
  · refine Or.inl ⟨_, .exec (w := w) (m := c.mem) hcblock hargs ?_⟩
    rw [hi]
    exact .bitcast rfl
  · have hop : (F.instr z).op = runtimeCall f := by rw [hi]
    have hstep : ∀ q validated, RuntimeCall cfg c.mem f w q validated → ∃ c', Step T cfg F c none c' :=
      fun q validated hrun => ⟨_, .runtime hcblock hargs hop hrun⟩
    rcases runtimeFunctions_cases hsite.1 with rfl | rfl | ⟨check, hcheck⟩
    · exact Or.inl (hstep _ _ .noCheck)
    · exact Or.inl (hstep _ _ .xpac)
    · by_cases hrefuses : Refuses cfg c.mem check w
      -- what is refused has not been stripped, so it is the value of the address
      · obtain ⟨w₀, hw₀, heq⟩ := hbelow.value_eq htbi hran hw
        have hplain : w = w₀ := by
          cases b with
          | false => exact heq
          | true =>
              refine absurd hrefuses (not_refuses_of_untagged ?_)
              rw [heq]
              exact xpac_lt w₀
        subst hplain
        rw [hm.eval hd hv₀] at hw₀
        refine Or.inr ⟨check, w, ⟨B, hblock⟩, ?_, ⟨_, hcblock⟩, ⟨f, hcheck, hop⟩,
          ⟨v, hoperands, hw⟩, hm.mem, by rwa [hm.mem] at hrefuses⟩
        rcases hsite.2 with ⟨hbase, rfl, -⟩ | ⟨hxpac, -⟩
        · exact ⟨hbase.imp_right And.left, v₀, hv₀, hw₀⟩
        · exact absurd hxpac (runtimeChecks_ne hcheck).2
      · simp only [Refuses, not_forall, not_not] at hrefuses
        obtain ⟨fuel, r, q, hrun, ho⟩ := hrefuses
        exact Or.inl (hstep q r.validated (.check hcheck hrun ho))

/-- Both executions stand in front of the same original instruction. -/
structure Ready (T : Hardware) (cfg : Config) (F₀ F : Func) (pre : Nat → List Nat) (c d : Frame) :
    Prop where
  same : Matches T cfg F₀ F pre c d
  front : ∃ x B r, d.block = x :: B ∧ Stands T cfg F pre c x B r []

/-- **What is inserted in front of `x`** runs, up to a check that refuses. The induction is on what
is ahead. -/
theorem Stands.reach (hd : Decorated true F₀ pre F) (hs : Sited true F₀ pre F)
    (htbi : cfg.topByteIgnore = true) {x : Nat} {B : List Nat} (hblock : d.block = x :: B)
    (hhas : (F₀.instr x).op.isPhi = false → T.Has F₀ d x) (m : Mem) :
    ∀ {q r : List Nat} {c : Frame}, Matches T cfg F₀ F pre c d → Stands T cfg F pre c x B r q →
      ∃ u, (F.system T cfg m).Silents c u ∧
        (Refused T cfg F₀ F d u ∨ Ready T cfg F₀ F pre u d) := by
  intro q
  induction q with
  | nil => exact fun {r c} hm hat => ⟨c, .refl, Or.inr ⟨hm, x, B, r, hblock, hat⟩⟩
  | cons z q ih =>
      intro r c hm hat
      rcases hat.advance hd hs htbi hm hblock hhas with ⟨c', hstep⟩ | ⟨check, w, hrefusal⟩
      · obtain ⟨-, hm'⟩ := hm.inserted hd hblock hat hstep
        obtain ⟨-, hat', -⟩ := hat.inserted hd hstep
        obtain ⟨u, hu, hend⟩ := ih hm' hat'
        exact ⟨u, .head hstep hu, hend⟩
      · exact ⟨c, .refl, Or.inl ⟨x, z, check, w, hrefusal⟩⟩

/-! ## Original instructions -/

/-- The values of the rewritten operands. -/
theorem Decorated.carry_operands (hd : Decorated true F₀ pre F) (htbi : cfg.topByteIgnore = true)
    (hm : Matches T cfg F₀ F pre c d) {x : Nat} (hx : x < F₀.next)
    (hran : ∀ z ∈ pre x, Ran T cfg F c z) {args₀ : List (Ty × Word)}
    (hargs₀ : List.Forall₂ (T.Evaluates d.regs) (F₀.instr x).operands args₀) :
    ∃ args, List.Forall₂ (T.Evaluates c.regs) (F.instr x).operands args ∧
      List.Forall₂ (Carried (F₀.Reads x)) args args₀ := by
  have hhas : T.Has F₀ d x := .of_forall₂ hargs₀
  have hdefined : ∀ v ∈ (F.instr x).operands, ∃ p, T.Evaluates c.regs v p := by
    intro v hv
    obtain ⟨k, hk⟩ := List.mem_iff_getElem?.1 hv
    obtain ⟨v₀, b, hv₀, -, hcopy, -⟩ := hd.operand x hx k v hk
    have hval : T.eval c.regs v.ref ≠ none := by
      apply hcopy.defined hran
      rw [hm.eval hd hv₀]
      exact hhas k v₀ hv₀
    obtain ⟨w, hw⟩ := Option.ne_none_iff_exists'.1 hval
    exact ⟨(v.ty, w), rfl, hw⟩
  obtain ⟨args, hargs⟩ : ∃ args, List.Forall₂ (T.Evaluates c.regs) (F.instr x).operands args := by
    generalize (F.instr x).operands = vs at hdefined
    induction vs with
    | nil => exact ⟨[], .nil⟩
    | cons v vs ih =>
        obtain ⟨p, hp⟩ := hdefined v List.mem_cons_self
        obtain ⟨ps, hps⟩ := ih fun u hu => hdefined u (List.mem_cons_of_mem v hu)
        exact ⟨p :: ps, .cons hp hps⟩
  obtain ⟨args₁, hargs₁, hcarried⟩ := hd.carried_operands htbi hx hran hm.regs hargs
  -- operands have one value
  have hunique : Relator.RightUnique (T.Evaluates d.regs) := by
    intro v p p' hp hp'
    refine Prod.ext (hp.1.symm.trans hp'.1) (Option.some.inj ?_)
    rw [← hp.2, hp'.2]
  have hsame : args₁ = args₀ := hunique.forall₂ hargs₁ hargs₀
  exact ⟨args, hargs, hsame ▸ hcarried⟩

/-- An instruction does the same to the values that rewritten operands have. -/
theorem Exec.carry {x : Nat} {ty : Ty} {args args₀ : List (Ty × Word)} {m m' : Mem} {w : Word}
    {l₀ : Option Event} (h : Exec T ty args₀ m (F₀.instr x).op l₀ w m')
    (hargs : List.Forall₂ (Carried (F₀.Reads x)) args args₀) :
    ∃ l, Exec T ty args m (F₀.instr x).op l w m' ∧ Option.Rel Event.Agrees l l₀ := by
  by_cases hreads : F₀.Reads x
  · obtain ⟨callee, hdecl, hname, rfl, hany⟩ := h.event_of_reads hreads
    refine ⟨_, hany args, .some (.read m w m' hdecl hname ?_)⟩
    exact hargs.imp fun _ _ => Carried.of_stripped
  · rw [eq_of_carried hreads hargs]
    exact ⟨l₀, h, Event.agrees_self l₀⟩

/-- **An original instruction** runs in the rewritten function as well. -/
theorem Ready.follow (hd : Decorated true F₀ pre F) (hs : Sited true F₀ pre F)
    (htbi : cfg.topByteIgnore = true) (hids : ∀ y ∈ F₀.ids, y < F₀.next)
    (h : Ready T cfg F₀ F pre c d) {l₀ : Option Event}
    (hstep : Step T cfg F₀ d l₀ d') :
    ∃ l c', Step T cfg F c l c' ∧ Option.Rel Event.Agrees l l₀ ∧ Matches T cfg F₀ F pre c' d' := by
  obtain ⟨hm, x, B, r, hblock, hat⟩ := h
  have hx := hm.head_lt hblock
  have hB := hm.tail_lt hblock
  have hran : ∀ z ∈ pre x, Ran T cfg F c z := hat.all_ran
  have hcblock : c.block = x :: decorate pre B := hat.block
  have hop := hd.op x hx
  cases hstep with
  | exec hy hargs₀ hexec =>
      rw [hblock] at hy
      cases hy
      obtain ⟨args, hargs, hcarried⟩ := hd.carry_operands htbi hm hx hran hargs₀
      obtain ⟨l, hexec', hl⟩ := hexec.carry hcarried
      rw [← hop, ← hd.ty x hx, ← hm.mem] at hexec'
      exact ⟨l, _, .exec hcblock hargs hexec', hl,
        Matches.ofBlock rfl (hm.update x _) hm.index hm.edge hB rfl⟩
  | @runtime _ _ p f q validated hy hargs₀ hcall hrun =>
      rw [hblock] at hy
      cases hy
      obtain ⟨args, hargs, hcarried⟩ := hd.carry_operands htbi hm hx hran hargs₀
      have hnot := Func.not_reads_of_runtimeCall hcall hrun.mem_runtimeFunctions
      obtain rfl := eq_of_carried hnot hcarried
      rw [← hop] at hcall
      rw [← hm.mem] at hrun
      exact ⟨none, _, .runtime hcblock hargs hcall hrun, .none,
        Matches.ofBlock hm.mem (hm.update x _) hm.index hm.edge hB rfl⟩
  | @phi _ k _ incoming e v p hy hphi he hk hv hp =>
      rw [hblock] at hy
      cases hy
      have hv' := (hs.phi_operand hx (by rw [hphi]; rfl) k).trans hv
      have hedge := hm.edge
      rw [he] at hedge
      generalize hc : c.edge = o at hedge
      cases hedge with
      | @some e' _ hsame =>
          rw [← hsame.1] at hk
          rw [← hop] at hphi
          refine ⟨none, _, .phi hcblock hphi hc hk hv' (hp.congr fun y hy => ?_), .none,
            Matches.ofBlock hm.mem (hm.update x _) hm.index hm.edge hB rfl⟩
          exact hsame.2 y (hd.base.operand_lt x k v y hv hy)
  | @jump _ b _ C targets _ hy hargs₀ hbr htarget hb hC =>
      rw [hblock] at hy
      cases hy
      obtain ⟨args, hargs, hcarried⟩ := hd.carry_operands htbi hm hx hran hargs₀
      have hnot : ¬ F₀.Reads x := Func.not_reads_of_isCall (by rw [hbr]; rfl)
      obtain rfl := eq_of_carried hnot hcarried
      rw [← hop] at hbr
      have hC' : F.layout[b]? = some (decorate pre C) := by
        rw [hd.layout, List.getElem?_map, hC]
        rfl
      refine ⟨none, _, .jump hcblock hargs hbr htarget hb hC', .none,
        Matches.ofBlock hm.mem hm.regs rfl (.some ⟨hm.index, hm.regs⟩) ?_ rfl⟩
      exact fun y hy => hids y (F₀.mem_ids hC hy)
  | ret hy hargs₀ hret =>
      rw [hblock] at hy
      cases hy
      obtain ⟨args, hargs, hcarried⟩ := hd.carry_operands htbi hm hx hran hargs₀
      have hnot : ¬ F₀.Reads x := Func.not_reads_of_isCall (by rw [hret]; rfl)
      obtain rfl := eq_of_carried hnot hcarried
      rw [← hop] at hret
      exact ⟨_, _, .ret hcblock hargs hret, .some (.same _),
        Matches.ofBlock hm.mem hm.regs hm.index hm.edge (fun y hy => absurd hy List.not_mem_nil) rfl⟩

/-- The operands of the instruction that steps have values, unless it is a phi. -/
theorem Step.has {x : Nat} {B : List Nat} {l₀ : Option Event} (h : Step T cfg F₀ d l₀ d')
    (hblock : d.block = x :: B) (hphi : (F₀.instr x).op.isPhi = false) : T.Has F₀ d x := by
  obtain ⟨args, hargs⟩ := (h.sets hblock).args hphi
  exact .of_forall₂ hargs

/-- **In front of a step of the original function** the rewritten one gets ready for it, or halts.
-/
theorem Matches.ready (hd : Decorated true F₀ pre F) (hs : Sited true F₀ pre F)
    (htbi : cfg.topByteIgnore = true) (hm : Matches T cfg F₀ F pre c d) (m : Mem)
    {l₀ : Option Event} (hstep : Step T cfg F₀ d l₀ d') :
    ∃ u, (F.system T cfg m).Silents c u ∧
      (Refused T cfg F₀ F d u ∨ Ready T cfg F₀ F pre u d) := by
  obtain ⟨x, B, hx⟩ := hstep.block_eq
  rcases hm.block with ⟨-, hnil⟩ | ⟨y, C, r, q, hblock, hat⟩
  · rw [hnil] at hx
    cases hx
  · exact hat.reach hd hs htbi hblock (hstep.has hblock) m hm

/-- A step with an event is one of an original instruction. -/
theorem Matches.ready_of_event (hd : Decorated true F₀ pre F) (hm : Matches T cfg F₀ F pre c d)
    {e : Event} (hstep : Step T cfg F c (some e) c') : Ready T cfg F₀ F pre c d := by
  rcases hm.block with ⟨hnil, -⟩ | ⟨x, B, r, q, hblock, hat⟩
  · obtain ⟨x, B, hx⟩ := hstep.block_eq
    rw [hnil] at hx
    cases hx
  · cases q with
    | nil => exact ⟨hm, x, B, r, hblock, hat⟩
    | cons z q =>
        obtain ⟨hsilent, -⟩ := hm.inserted hd hblock hat hstep
        cases hsilent

/-! ## Preservation -/

/-- Both executions start alike, in the same memory. -/
theorem Decorated.start_of (hd : Decorated true F₀ pre F) (hwf : F₀.WellLinked) {T' : Hardware}
    {m : Mem}
    (h : (F₀.system T' cfg m).start d) :
    ∃ c, (F.system T' cfg m).start c ∧ Matches T cfg F₀ F pre c d := by
  obtain ⟨B, hB, rfl⟩ := h
  have hC : F.layout[0]? = some (decorate pre B) := by
    rw [hd.layout, List.getElem?_map, hB]
    rfl
  refine ⟨_, ⟨_, hC, rfl⟩, Matches.ofBlock rfl (fun _ _ => rfl) rfl .none ?_ rfl⟩
  exact fun y hy => hwf.ids_lt y (F₀.mem_ids hB hy)

/-- **The instrumented function follows the original one.** -/
theorem Decorated.follows (hd : Decorated true F₀ pre F) (hs : Sited true F₀ pre F)
    (htbi : cfg.topByteIgnore = true) (hwf : F₀.WellLinked) (T : Hardware) (m : Mem) :
    System.Follows (F₀.system T cfg m) (F.system T cfg m) (fun e₀ e => Event.Agrees e e₀)
      (fun d c => Matches T cfg F₀ F pre c d) (Refused T cfg F₀ F) where
  start := fun _ h => hd.start_of hwf h
  step := by
    intro d c l₀ d' hm hstep
    obtain ⟨u, hu, hrefused | hready⟩ := hm.ready hd hs htbi m hstep
    · exact ⟨u, hu, Or.inl hrefused⟩
    · obtain ⟨l, c', hstep', hl, hm'⟩ := hready.follow hd hs htbi hwf.ids_lt hstep
      refine ⟨u, hu, Or.inr ⟨l, c', hstep', ?_, hm'⟩⟩
      cases hl with
      | none => exact .none
      | some he => exact .some he

/-- `G` preserves `F`. Every execution of `G` is one of `F`, with the same events, but for the
arguments of `read`, and at every point with the same memory, registers and operands. Every execution
of `F` is one of `G`, to its end or up to a point where `G` halts, because a check refuses a pointer
that `F` goes through. -/
structure Func.Preserves (T : Hardware) (cfg : Config) (F G : Func) : Prop where
  nothing_added : ∀ m es c, (G.system T cfg m).Run es c →
    ∃ es₀ d, (F.system T cfg m).Run es₀ d ∧ List.Forall₂ Event.Agrees es es₀ ∧ F.SameAt T G c d
  nothing_omitted : ∀ m es₀ d, (F.system T cfg m).Run es₀ d → ∃ es c, (G.system T cfg m).Run es c ∧
    ((List.Forall₂ Event.Agrees es es₀ ∧ F.SameAt T G c d) ∨
      ∃ es₁ d₁, es₁ <+: es₀ ∧ (F.system T cfg m).Run es₁ d₁ ∧ (F.system T cfg m).Leads d₁ d ∧
        List.Forall₂ Event.Agrees es es₁ ∧ Refused T cfg F G d₁ c ∧ ∀ l c', ¬ Step T cfg G c l c')

/-- **Insertions at sites preserve a function.** -/
theorem Instrumented.preserves (h : Instrumented true F₀ F) (htbi : cfg.topByteIgnore = true)
    (hwf : F₀.WellLinked) (T : Hardware) : F₀.Preserves T cfg F := by
  obtain ⟨pre, hd, hs⟩ := h
  have hids := hwf.ids_lt
  refine ⟨fun m es c hrun => ?_, fun m es₀ d hrun => ?_⟩
  · obtain ⟨es₀, d, hrun₀, hes, hm⟩ := (hd.simulates hs htbi hids T m).run hrun
    exact ⟨es₀, d, hrun₀, hes, hm.sameAt hd htbi hids⟩
  · obtain ⟨es, c, hrun', ⟨hes, hm⟩ | ⟨es₁, d₁, hle, hrun₁, hleads, hes, hrefused⟩⟩ :=
      (hd.follows hs htbi hwf T m).run hrun
    · exact ⟨es, c, hrun', Or.inl ⟨hes.flip, hm.sameAt hd htbi hids⟩⟩
    · refine ⟨es, c, hrun', Or.inr ⟨es₁, d₁, hle, hrun₁, hleads, hes.flip, hrefused, ?_⟩⟩
      obtain ⟨x, z, check, w, hrefusal⟩ := hrefused
      exact fun l c' => hrefusal.stuck

/-- **Instrumentation preserves the meaning of a function**, in the Top-Byte Ignore build: the walk
ends, control reaches no instruction of its result before the operands, and its result does what the
function does as long as the checks return. -/
theorem instrumentation_preserves (T : Hardware) (htbi : cfg.topByteIgnore = true) {s : State}
    (hwf : s.func.WellFormed) (hdom : s.func.Dominated) :
    ∃ N, ∀ fuel, N ≤ fuel → ∃ t, walk true fuel s = some t ∧ t.func.Dominated ∧
      s.func.Preserves T cfg t.func := by
  obtain ⟨N, hN⟩ := walk_eq true hwf
  refine ⟨N, fun fuel hfuel => ⟨_, hN fuel hfuel, ?_⟩⟩
  have hinstrumented := visited_instrumented true hwf.wellLinked
  obtain ⟨pre, hd, hs⟩ := id hinstrumented
  exact ⟨hd.dominated hs hwf.ids_lt hdom, hinstrumented.preserves htbi hwf.wellLinked T⟩

theorem useTwice_dominated : useTwice.Dominated :=
  Func.Available.dominated (by decide : useTwice.Available fun _ => []) (by decide)

theorem useTwice_preserved :
    ∃ N, ∀ fuel, N ≤ fuel → ∃ t, walk true fuel (State.start useTwice) = some t ∧
      t.func.Dominated ∧ useTwice.Preserves wordHardware Config.shipped t.func :=
  instrumentation_preserves wordHardware rfl (s := State.start useTwice) useTwice_wellFormed
    useTwice_dominated

end PTAuth.Pass
