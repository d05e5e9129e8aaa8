import PTAuth.Pass.Coverage
import PTAuth.Pass.Semantics
import PTAuth.Pass.Sites

/-!
# The instrumented function does nothing else

An execution of a decorated function stands in front of an instruction `x` of the original, with some of
the instructions inserted in front of `x` behind it (`Stands`). Each of these has run: its register holds
what its operation gives on the value that its operand still has (`Ran`). So when control
reaches `x`, a copy of an operand of `x` has the value of the operand up to what runtime calls do
(`Copy.value`), which in the Top-Byte Ignore build is nothing, or `__xpac`.

Inserted instructions are matched by no step of the original function, and the others by themselves
(`Decorated.simulates`). Dominance carries over in the same way, along paths.
-/

set_option autoImplicit false

namespace PTAuth.Pass

open PTAuth.Library PTAuth.Runtime

variable {T : Hardware} {cfg : Config} {tbi : Bool} {F₀ F : Func} {pre : Nat → List Nat}
  {c c' d : Frame} {l : Option Event}

/-! ## Inserted instructions -/

/-- The inserted instruction `z` has run, and its operand has not changed since. -/
def Ran (T : Hardware) (cfg : Config) (F : Func) (c : Frame) (z : Nat) : Prop :=
  ∃ v p q, (F.instr z).operands = [v] ∧ T.Evaluates c.regs v p ∧ c.regs z = some q ∧
    (((F.instr z).op = .bitcast ∧ q = p.2) ∨
      ∃ f validated, (F.instr z).op = runtimeCall f ∧
        RuntimeCall cfg c.mem f p.2 q validated ∧ c.handed z = some validated)

/-- Another inserted instruction does not change what has run. -/
theorem Ran.frame {y z : Nat} (h : Ran T cfg F c y) (hyz : y ≠ z)
    (hoperand : ∀ v ∈ (F.instr y).operands, v.ref ≠ .inst z) (hmem : c'.mem = c.mem)
    (hregs : ∀ u, u ≠ z → c'.regs u = c.regs u) (hhanded : ∀ u, u ≠ z → c'.handed u = c.handed u) :
    Ran T cfg F c' y := by
  obtain ⟨v, p, q, hv, hp, hq, hop⟩ := h
  have hne : v.ref ≠ .inst z := by
    apply hoperand
    rw [hv]
    exact List.mem_singleton_self v
  refine ⟨v, p, q, hv, hp.congr fun u hu => ?_, ?_, ?_⟩
  · apply hregs
    rintro rfl
    exact hne hu
  · rw [hregs y hyz]
    exact hq
  · rw [hmem, hhanded y hyz]
    exact hop

/-- **The value of a copy** is related to that of the original operand by every relation that
runtime calls respect. The induction is on the copy. -/
theorem Copy.value {v₀ v : Value} {b : Bool} {zs : List Nat} (h : Copy F zs v₀ v b)
    (hran : ∀ z ∈ zs, Ran T cfg F c z) {K : Bool → Word → Word → Prop} (hself : ∀ w, K false w w)
    (hcall : ∀ {b w₀ w f q validated}, K b w₀ w → RuntimeCall cfg c.mem f w q validated →
      K (b || f == "__xpac") w₀ q) {w : Word} (hw : T.eval c.regs v.ref = some w) :
    ∃ w₀, T.eval c.regs v₀.ref = some w₀ ∧ K b w₀ w := by
  induction h generalizing w with
  | self => exact ⟨w, hw, hself w⟩
  | fold ty hc _ ih =>
      apply ih
      rw [← hw]
      exact (T.eval_fold c.regs hc).symm
  -- the register of an inserted cast or call holds what it made of the copy under it
  | @cast z u b ty hz hi _ ih =>
      obtain ⟨v, p, q, hv, ⟨-, heval⟩, hq, hop⟩ := hran z hz
      rw [hi] at hv
      cases hv
      rw [show T.eval c.regs (.inst z) = some q from hq] at hw
      cases hw
      rcases hop with ⟨-, rfl⟩ | ⟨f, _, hop, -⟩
      · exact ih heval
      · rw [hi] at hop
        exact absurd hop (by simp [runtimeCall])
  | @call z u b f hf hz hi _ ih =>
      obtain ⟨v, p, q, hv, ⟨-, heval⟩, hq, hop⟩ := hran z hz
      rw [hi] at hv
      cases hv
      rw [show T.eval c.regs (.inst z) = some q from hq] at hw
      cases hw
      rcases hop with ⟨hop, -⟩ | ⟨g, _, hop, hrun, -⟩
      · rw [hi] at hop
        exact absurd hop (by simp [runtimeCall])
      · rw [hi] at hop
        obtain rfl := runtimeCall_inj hop
        obtain ⟨w₀, hw₀, hK⟩ := ih heval
        exact ⟨w₀, hw₀, hcall hK hrun⟩

/-! ## Where an execution stands -/

/-- Control stands in front of `x` and then `B`; of what was inserted in front of `x`, `r` has run and `q`
is ahead. -/
structure Stands (T : Hardware) (cfg : Config) (F : Func) (pre : Nat → List Nat) (c : Frame) (x : Nat)
    (B r q : List Nat) : Prop where
  split : pre x = r ++ q
  block : c.block = q ++ x :: decorate pre B
  ran : ∀ z ∈ r, Ran T cfg F c z

section Stands

variable {x z : Nat} {B r q : List Nat}

/-- What is ahead was inserted. -/
theorem Stands.mem_pre (h : Stands T cfg F pre c x B r (z :: q)) : z ∈ pre x := by
  rw [h.split]
  exact List.mem_append_right _ List.mem_cons_self

/-- In front of `x` itself, everything inserted has run. -/
theorem Stands.all_ran (h : Stands T cfg F pre c x B r []) : ∀ y ∈ pre x, Ran T cfg F c y := by
  intro y hy
  rw [h.split, List.append_nil] at hy
  exact h.ran y hy

end Stands

theorem Stands.ofBlock {x : Nat} {B : List Nat} (h : c.block = decorate pre (x :: B)) :
    Stands T cfg F pre c x B [] (pre x) where
  split := rfl
  block := by rw [h, decorate_cons]
  ran := fun _ hz => absurd hz List.not_mem_nil

/-- The operand of an inserted instruction is older than it. -/
theorem Decorated.operand_ne (hd : Decorated tbi F₀ pre F) {x y z : Nat} (hy : y ∈ pre x)
    (hyz : y ≤ z) : ∀ v ∈ (F.instr y).operands, v.ref ≠ .inst z := by
  intro v hv href
  obtain ⟨k, hk⟩ := List.mem_iff_getElem?.1 hv
  exact absurd (hd.pre_operand_lt x y hy k v z hk href) (Nat.not_lt.2 hyz)

/-- **A step of an inserted instruction** is silent and only sets its register. -/
theorem Stands.inserted (hd : Decorated tbi F₀ pre F) {x z : Nat} {B r q : List Nat}
    (h : Stands T cfg F pre c x B r (z :: q)) (hstep : Step T cfg F c l c') :
    l = none ∧ Stands T cfg F pre c' x B (r ++ [z]) q ∧ c'.mem = c.mem ∧
      (∀ u, u ≠ z → c'.regs u = c.regs u) ∧ ∀ u, u ≠ z → c'.handed u = c.handed u := by
  have hz : z ∈ pre x := h.mem_pre
  have hblock : c.block = z :: (q ++ x :: decorate pre B) := h.block
  have hsplit : pre x = r ++ [z] ++ q := by
    rw [h.split, List.append_assoc]
    rfl
  have hlt : ∀ y ∈ r, y < z := by
    intro y hy
    have hsorted := hd.pre_sorted x
    rw [h.split, List.pairwise_append] at hsorted
    exact hsorted.2.2 y hy z List.mem_cons_self
  -- what ran before `z` is not affected, and `z` has run on an operand that it does not change
  have hold : ∀ {e : Frame}, e.mem = c.mem → (∀ u, u ≠ z → e.regs u = c.regs u) →
      (∀ u, u ≠ z → e.handed u = c.handed u) → Ran T cfg F e z → ∀ y ∈ r ++ [z], Ran T cfg F e y := by
    intro e hmem hregs hhanded hself y hy
    rcases List.mem_append.1 hy with hy | hy
    · have hyx : y ∈ pre x := by
        rw [h.split]
        exact List.mem_append_left _ hy
      exact (h.ran y hy).frame (Nat.ne_of_lt (hlt y hy))
        (hd.operand_ne hyx (Nat.le_of_lt (hlt y hy))) hmem hregs hhanded
    · rw [List.mem_singleton.1 hy]
      exact hself
  have hnew : ∀ {e : Frame} {v : Value} {p : Ty × Word}, (∀ u, u ≠ z → e.regs u = c.regs u) →
      (F.instr z).operands = [v] → T.Evaluates c.regs v p → T.Evaluates e.regs v p := by
    intro e v p hregs hv hp
    apply hp.congr
    intro u hu
    apply hregs
    rintro rfl
    refine hd.operand_ne hz (Nat.le_refl u) v ?_ hu
    rw [hv]
    exact List.mem_singleton_self v
  cases hstep with
  | @exec y C args l w m hy hargs hexec =>
      rw [hblock] at hy
      cases hy
      have hregs : ∀ u, u ≠ z → Function.update c.regs z (some w) u = c.regs u :=
        fun u hu => Function.update_of_ne hu _ _
      have hcast : (F.instr z).op = .bitcast := by
        rcases hd.pre_op hz with hop | ⟨f, hf, hop⟩
        · exact hop
        · rw [hop] at hexec
          cases hexec with
          | compute hop _ =>
              rcases hop with hop | ⟨name, hop⟩
              · exact absurd hop (by simp [runtimeCall])
              · exact absurd hop (by simp [runtimeCall])
          | call _ _ hnot => exact absurd ⟨f, hf, rfl⟩ hnot
      rw [hcast] at hexec
      cases hexec with
      | @bitcast p hp =>
          subst hp
          obtain ⟨v, hv⟩ : ∃ v, (F.instr z).operands = [v] :=
            List.length_eq_one_iff.1 hargs.length_eq
          rw [hv] at hargs
          cases hargs with
          | cons hp _ =>
              refine ⟨rfl, ⟨hsplit, rfl, ?_⟩, rfl, hregs, fun _ _ => rfl⟩
              refine hold rfl hregs (fun _ _ => rfl) ?_
              exact ⟨v, p, p.2, hv, hnew hregs hv hp, Function.update_self _ _ _, Or.inl ⟨hcast, rfl⟩⟩
      | compute hop _ =>
          rcases hop with hop | ⟨name, hop⟩
          · exact absurd hop (by simp)
          · exact absurd hop (by simp)
  | @runtime y C p f w validated hy hargs hop hrun =>
      rw [hblock] at hy
      cases hy
      have hregs : ∀ u, u ≠ z → Function.update c.regs z (some w) u = c.regs u :=
        fun u hu => Function.update_of_ne hu _ _
      have hhanded : ∀ u, u ≠ z → Function.update c.handed z (some validated) u = c.handed u :=
        fun u hu => Function.update_of_ne hu _ _
      obtain ⟨v, hv⟩ : ∃ v, (F.instr z).operands = [v] :=
        List.length_eq_one_iff.1 hargs.length_eq
      rw [hv] at hargs
      cases hargs with
      | cons hp _ =>
          refine ⟨rfl, ⟨hsplit, rfl, ?_⟩, rfl, hregs, hhanded⟩
          refine hold rfl hregs hhanded ?_
          exact ⟨v, p, w, hv, hnew hregs hv hp, Function.update_self _ _ _,
            Or.inr ⟨f, validated, hop, hrun, Function.update_self _ _ _⟩⟩
  | phi hy hop _ _ _ _ =>
      rw [hblock] at hy
      cases hy
      rcases hd.pre_op hz with hcast | ⟨f, -, hcall⟩
      · exact absurd (hop.symm.trans hcast) (by simp)
      · exact absurd (hop.symm.trans hcall) (by simp [runtimeCall])
  | @jump y b C D targets args hy _ hop _ _ _ =>
      rw [hblock] at hy
      cases hy
      exact absurd hop ((hd.pre_stays hz).1 targets)
  | @ret y C args hy _ hop =>
      rw [hblock] at hy
      cases hy
      exact absurd hop (hd.pre_stays hz).2

/-! ## Original instructions -/

/-- `x` is a call of the external function `read`. -/
def Func.Reads (F : Func) (x : Nat) : Prop :=
  ∃ callee returned, (F.instr x).op = .call (some callee) returned ∧ callee.isDeclaration = true ∧
    callee.name = "read"

/-- The value `p` that a rewritten operand has for the original value `p₀`: it is the same, or, where
`stripped` holds, a pointer without its upper 16 bits. -/
def Carried (stripped : Prop) (p p₀ : Ty × Word) : Prop :=
  p.1 = p₀.1 ∧
    (p.2 = p₀.2 ∨ stripped ∧ p₀.1.isPointerTy = true ∧ p.2 = Runtime.xpac p₀.2)

theorem Carried.of_stripped {P : Prop} {p p₀ : Ty × Word} (h : Carried P p p₀) : Carried True p p₀ := by
  obtain ⟨hty, hw | ⟨-, hptr, hw⟩⟩ := h
  · exact ⟨hty, Or.inl hw⟩
  · exact ⟨hty, Or.inr ⟨trivial, hptr, hw⟩⟩

/-- Only calls read. -/
theorem Func.not_reads_of_isCall {F : Func} {x : Nat} (hop : (F.instr x).op.isCall = false) :
    ¬ F.Reads x := by
  rintro ⟨callee, returned, hcall, -⟩
  rw [hcall] at hop
  cases hop

/-- `read` is no runtime function. -/
theorem Func.not_reads_of_runtimeCall {F : Func} {x : Nat} {f : String}
    (hop : (F.instr x).op = runtimeCall f) (hf : f ∈ runtimeFunctions) : ¬ F.Reads x := by
  rintro ⟨callee, returned, hcall, -, hname⟩
  rw [hop] at hcall
  cases hcall
  have hall : ∀ g ∈ runtimeFunctions, g ≠ "read" := by decide
  exact hall f hf hname

theorem XpacSite.reads {x : Nat} {v : Value} (h : XpacSite true F x v) : F.Reads x := by
  obtain ⟨-, callee, returned, hop, hdecl, -, hname⟩ := h
  exact ⟨callee, returned, hop, hdecl, List.mem_singleton.1 (hname rfl)⟩

theorem xpac_xpac (w : Word) : Runtime.xpac (Runtime.xpac w) = Runtime.xpac w :=
  xpac_of_lt (xpac_lt w)

/-- The value of a rewritten operand. -/
theorem Decorated.carried (hd : Decorated true F₀ pre F) (htbi : cfg.topByteIgnore = true) {x : Nat}
    (hx : x < F₀.next) (hran : ∀ z ∈ pre x, Ran T cfg F c z) {k : Nat} {v : Value}
    (hv : F.operand x k = some v) {p : Ty × Word} (hp : T.Evaluates c.regs v p) :
    ∃ v₀ p₀, F₀.operand x k = some v₀ ∧ T.Evaluates c.regs v₀ p₀ ∧ Carried (F₀.Reads x) p p₀ := by
  obtain ⟨v₀, b, hv₀, hty, hcopy, hsite, -⟩ := hd.operand x hx k v hv
  obtain ⟨w₀, hw₀, hK⟩ := hcopy.value (K := fun b w₀ w => w = if b then Runtime.xpac w₀ else w₀)
    hran (fun _ => rfl)
    (by
      intro b w₀ w f q validated hw hrun
      rw [hrun.returned htbi, hw]
      cases b <;> cases f == "__xpac" <;> simp [xpac_xpac])
    hp.2
  refine ⟨v₀, (v₀.ty, w₀), hv₀, ⟨rfl, hw₀⟩, hp.1.symm.trans hty, ?_⟩
  cases b with
  | false => exact Or.inl hK
  | true =>
      exact Or.inr ⟨(hsite rfl).reads, Func.isPointerTy_of_stripsArgument (hsite rfl).1, hK⟩

/-- The same for all operands of an instruction. -/
theorem Decorated.carried_operands (hd : Decorated true F₀ pre F) (htbi : cfg.topByteIgnore = true)
    {x : Nat} (hx : x < F₀.next) (hran : ∀ z ∈ pre x, Ran T cfg F c z)
    (hregs : ∀ y < F₀.next, c.regs y = d.regs y) {args : List (Ty × Word)}
    (hargs : List.Forall₂ (T.Evaluates c.regs) (F.instr x).operands args) :
    ∃ args₀, List.Forall₂ (T.Evaluates d.regs) (F₀.instr x).operands args₀ ∧
      List.Forall₂ (Carried (F₀.Reads x)) args args₀ := by
  have hlen := hd.operands_length x hx
  -- operands by position
  have hpos : List.Forall₂
      (fun v v₀ => ∃ k, F.operand x k = some v ∧ F₀.operand x k = some v₀)
      (F.instr x).operands (F₀.instr x).operands := by
    refine List.forall₂_iff_get.2 ⟨hlen, fun k hk hk₀ => ⟨k, ?_, ?_⟩⟩
    · exact List.getElem?_eq_getElem hk
    · exact List.getElem?_eq_getElem hk₀
  refine forall₂_meet ?_ hpos hargs
  rintro v v₀ p ⟨k, hv, hv₀⟩ hp
  obtain ⟨u₀, p₀, hu₀, hp₀, hcarried⟩ := hd.carried htbi hx hran hv hp
  rw [hv₀] at hu₀
  cases hu₀
  refine ⟨p₀, hp₀.congr fun y hy => ?_, hcarried⟩
  exact (hregs y (hd.base.operand_lt x k v₀ y hv₀ hy)).symm

/-- Instructions that do not call `read` have the same operands. -/
theorem eq_of_carried {stripped : Prop} (hnot : ¬ stripped) {args args₀ : List (Ty × Word)}
    (h : List.Forall₂ (Carried stripped) args args₀) : args = args₀ := by
  apply List.forall₂_eq_eq_eq ▸ h.imp
  rintro p p₀ ⟨hty, hw | ⟨hs, -⟩⟩
  · exact Prod.ext hty hw
  · exact absurd hs hnot

/-- Events agree if they are the same, up to pointers that a call of `read` gets without their upper 16
bits. -/
inductive Event.Agrees : Event → Event → Prop where
  | same (e : Event) : Event.Agrees e e
  | read {callee : Callee} {args args₀ : List (Ty × Word)} (m : Mem) (w : Word) (m' : Mem) :
      callee.isDeclaration = true → callee.name = "read" → List.Forall₂ (Carried True) args args₀ →
        Event.Agrees (.call (some callee) args m w m') (.call (some callee) args₀ m w m')

theorem Event.agrees_self (l : Option Event) : Option.Rel Event.Agrees l l := by
  cases l with
  | none => exact .none
  | some e => exact .some (.same e)

/-- A call of `read` makes its event, whatever its arguments are. -/
theorem Exec.event_of_reads {F : Func} {x : Nat} {ty : Ty} {args : List (Ty × Word)} {m m' : Mem}
    {w : Word} (hreads : F.Reads x) (h : Exec T ty args m (F.instr x).op l w m') :
    ∃ callee : Callee, callee.isDeclaration = true ∧ callee.name = "read" ∧
      l = some (.call (some callee) args m w m') ∧
        ∀ args', Exec T ty args' m (F.instr x).op (some (.call (some callee) args' m w m')) w m' := by
  obtain ⟨callee, returned, hop, hdecl, hname⟩ := hreads
  rw [hop] at h ⊢
  cases h with
  | compute hcompute _ =>
      rcases hcompute with hcompute | ⟨name, hcompute⟩
      · exact absurd hcompute (by simp)
      · exact absurd hcompute (by simp)
  | call w m' hnot => exact ⟨callee, hdecl, hname, rfl, fun args' => .call w m' hnot⟩

/-- An instruction does the same to carried operands. -/
theorem Exec.carried {x : Nat} {ty : Ty} {args args₀ : List (Ty × Word)} {m m' : Mem} {w : Word}
    (h : Exec T ty args m (F₀.instr x).op l w m')
    (hargs : List.Forall₂ (Carried (F₀.Reads x)) args args₀) :
    ∃ l₀, Exec T ty args₀ m (F₀.instr x).op l₀ w m' ∧ Option.Rel Event.Agrees l l₀ := by
  by_cases hreads : F₀.Reads x
  · obtain ⟨callee, hdecl, hname, rfl, hany⟩ := h.event_of_reads hreads
    refine ⟨_, hany args₀, .some (.read m w m' hdecl hname ?_)⟩
    exact hargs.imp fun _ _ => Carried.of_stripped
  -- only the arguments of `read` are stripped
  · rw [← eq_of_carried hreads hargs]
    exact ⟨l, h, Event.agrees_self l⟩

/-! ## The simulation -/

/-- Edges from the same block with the same registers of the original function. -/
def Edge.Same (F₀ : Func) (e e₀ : Edge) : Prop :=
  e.source = e₀.source ∧ ∀ y < F₀.next, e.regs y = e₀.regs y

/-- The execution `c` of the rewritten function is where the execution `d` of the original is. -/
structure Matches (T : Hardware) (cfg : Config) (F₀ F : Func) (pre : Nat → List Nat) (c d : Frame) :
    Prop where
  mem : c.mem = d.mem
  regs : ∀ y < F₀.next, c.regs y = d.regs y
  index : c.index = d.index
  edge : Option.Rel (Edge.Same F₀) c.edge d.edge
  lt : ∀ y ∈ d.block, y < F₀.next
  block : (c.block = [] ∧ d.block = []) ∨
    ∃ x B r q, d.block = x :: B ∧ Stands T cfg F pre c x B r q

/-- At the beginning of what is left of a block. -/
theorem Matches.ofBlock (hmem : c.mem = d.mem) (hregs : ∀ y < F₀.next, c.regs y = d.regs y)
    (hindex : c.index = d.index) (hedge : Option.Rel (Edge.Same F₀) c.edge d.edge)
    (hlt : ∀ y ∈ d.block, y < F₀.next) (hblock : c.block = decorate pre d.block) :
    Matches T cfg F₀ F pre c d where
  mem := hmem
  regs := hregs
  index := hindex
  edge := hedge
  lt := hlt
  block := by
    cases hd : d.block with
    | nil =>
        rw [hd] at hblock
        exact Or.inl ⟨hblock, rfl⟩
    | cons x B =>
        rw [hd] at hblock
        exact Or.inr ⟨x, B, [], pre x, rfl, Stands.ofBlock hblock⟩

theorem Matches.head_lt (h : Matches T cfg F₀ F pre c d) {x : Nat} {B : List Nat}
    (hblock : d.block = x :: B) : x < F₀.next := by
  apply h.lt
  rw [hblock]
  exact List.mem_cons_self

theorem Matches.tail_lt (h : Matches T cfg F₀ F pre c d) {x : Nat} {B : List Nat}
    (hblock : d.block = x :: B) : ∀ y ∈ B, y < F₀.next := by
  intro y hy
  apply h.lt
  rw [hblock]
  exact List.mem_cons_of_mem _ hy

/-- Both executions set a register. -/
theorem Matches.update (h : Matches T cfg F₀ F pre c d) (x : Nat) (w : Option Word) :
    ∀ y < F₀.next, Function.update c.regs x w y = Function.update d.regs x w y := by
  intro y hy
  by_cases hyx : y = x
  · rw [hyx, Function.update_self, Function.update_self]
  · rw [Function.update_of_ne hyx, Function.update_of_ne hyx]
    exact h.regs y hy

/-- A step of an inserted instruction is matched by no step. -/
theorem Matches.inserted (hd : Decorated tbi F₀ pre F) (h : Matches T cfg F₀ F pre c d) {x z : Nat}
    {B r q : List Nat} (hblock : d.block = x :: B) (hat : Stands T cfg F pre c x B r (z :: q))
    (hstep : Step T cfg F c l c') : l = none ∧ Matches T cfg F₀ F pre c' d := by
  obtain ⟨hl, hat', hmem, hregs, -⟩ := hat.inserted hd hstep
  have hz : F₀.next ≤ z := (hd.pre_range x z hat.mem_pre).1
  obtain ⟨hindex, hedge⟩ := hstep.same_block hat.block (hd.pre_stays hat.mem_pre).1
  refine ⟨hl, hmem.trans h.mem, ?_, hindex.trans h.index, hedge ▸ h.edge, h.lt,
    Or.inr ⟨x, B, r ++ [z], q, hblock, hat'⟩⟩
  intro y hy
  rw [hregs y (by omega)]
  exact h.regs y hy

theorem Decorated.layout_getElem? (hd : Decorated tbi F₀ pre F) {b : Nat} {C : List Nat}
    (hC : F.layout[b]? = some C) : ∃ B, F₀.layout[b]? = some B ∧ C = decorate pre B := by
  rw [hd.layout, List.getElem?_map] at hC
  obtain ⟨B, hB, rfl⟩ := Option.map_eq_some_iff.1 hC
  exact ⟨B, hB, rfl⟩

/-- A step of an original instruction is matched by the same instruction. -/
theorem Matches.original (hd : Decorated true F₀ pre F) (hs : Sited true F₀ pre F)
    (htbi : cfg.topByteIgnore = true) (hids : ∀ y ∈ F₀.ids, y < F₀.next)
    (h : Matches T cfg F₀ F pre c d) {x : Nat} {B r : List Nat}
    (hblock : d.block = x :: B) (hat : Stands T cfg F pre c x B r [])
    (hstep : Step T cfg F c l c') :
    ∃ l₀ d', Step T cfg F₀ d l₀ d' ∧ Option.Rel Event.Agrees l l₀ ∧ Matches T cfg F₀ F pre c' d' := by
  have hx := h.head_lt hblock
  have hB := h.tail_lt hblock
  have hran : ∀ z ∈ pre x, Ran T cfg F c z := hat.all_ran
  have hcblock : c.block = x :: decorate pre B := hat.block
  have hop := hd.op x hx
  cases hstep with
  | exec hy hargs hexec =>
      rw [hcblock] at hy
      cases hy
      obtain ⟨args₀, hargs₀, hcarried⟩ := hd.carried_operands htbi hx hran h.regs hargs
      rw [hop, hd.ty x hx] at hexec
      obtain ⟨l₀, hexec₀, hl⟩ := hexec.carried hcarried
      rw [h.mem] at hexec₀
      exact ⟨l₀, _, .exec hblock hargs₀ hexec₀, hl,
        Matches.ofBlock rfl (h.update x _) h.index h.edge hB rfl⟩
  | @runtime _ _ p f q validated hy hargs hcall hrun =>
      rw [hcblock] at hy
      cases hy
      obtain ⟨args₀, hargs₀, hcarried⟩ := hd.carried_operands htbi hx hran h.regs hargs
      rw [hop] at hcall
      have hnot := Func.not_reads_of_runtimeCall hcall hrun.mem_runtimeFunctions
      obtain rfl := eq_of_carried hnot hcarried
      rw [h.mem] at hrun
      exact ⟨none, _, .runtime hblock hargs₀ hcall hrun, .none,
        Matches.ofBlock h.mem (h.update x _) h.index h.edge hB rfl⟩
  | @phi _ k _ incoming e v p hy hphi he hk hv hp =>
      rw [hcblock] at hy
      cases hy
      rw [hop] at hphi
      -- both take the operand for the same edge, with the value that it has there
      rw [hs.phi_operand hx (by rw [hphi]; rfl)] at hv
      have hedge := h.edge
      rw [he] at hedge
      generalize hd₀ : d.edge = o at hedge
      cases hedge with
      | @some _ e₀ hsame =>
          rw [hsame.1] at hk
          refine ⟨none, _, .phi hblock hphi hd₀ hk hv (hp.congr fun y hy => ?_), .none,
            Matches.ofBlock h.mem (h.update x _) h.index h.edge hB rfl⟩
          exact (hsame.2 y (hd.base.operand_lt x k v y hv hy)).symm
  | @jump _ b _ C targets _ hy hargs hbr htarget hb hC =>
      rw [hcblock] at hy
      cases hy
      obtain ⟨args₀, hargs₀, hcarried⟩ := hd.carried_operands htbi hx hran h.regs hargs
      rw [hop] at hbr
      have hnot : ¬ F₀.Reads x := Func.not_reads_of_isCall (by rw [hbr]; rfl)
      obtain rfl := eq_of_carried hnot hcarried
      obtain ⟨D, hD, rfl⟩ := hd.layout_getElem? hC
      refine ⟨none, _, .jump hblock hargs₀ hbr htarget hb hD, .none,
        Matches.ofBlock h.mem h.regs rfl (.some ⟨h.index, h.regs⟩) ?_ rfl⟩
      exact fun y hy => hids y (F₀.mem_ids hD hy)
  | ret hy hargs hret =>
      rw [hcblock] at hy
      cases hy
      obtain ⟨args₀, hargs₀, hcarried⟩ := hd.carried_operands htbi hx hran h.regs hargs
      rw [hop] at hret
      have hnot : ¬ F₀.Reads x := Func.not_reads_of_isCall (by rw [hret]; rfl)
      obtain rfl := eq_of_carried hnot hcarried
      exact ⟨_, _, .ret hblock hargs₀ hret, .some (.same _),
        Matches.ofBlock h.mem h.regs h.index h.edge (fun y hy => absurd hy List.not_mem_nil) rfl⟩

/-- One step of the rewritten function. -/
theorem Matches.step (hd : Decorated true F₀ pre F) (hs : Sited true F₀ pre F)
    (htbi : cfg.topByteIgnore = true) (hids : ∀ y ∈ F₀.ids, y < F₀.next) (h : Matches T cfg F₀ F pre c d)
    (hstep : Step T cfg F c l c') :
    (l = none ∧ Matches T cfg F₀ F pre c' d) ∨
      ∃ l₀ d', Step T cfg F₀ d l₀ d' ∧ Option.Rel Event.Agrees l l₀ ∧
        Matches T cfg F₀ F pre c' d' := by
  rcases h.block with ⟨hnil, -⟩ | ⟨x, B, r, q, hblock, hat⟩
  · obtain ⟨y, C, hy⟩ := hstep.block_eq
    rw [hnil] at hy
    cases hy
  · cases q with
    | nil => exact Or.inr (h.original hd hs htbi hids hblock hat hstep)
    | cons z q => exact Or.inl (h.inserted hd hblock hat hstep)

/-- **The original function simulates the rewritten one.** -/
theorem Decorated.simulates (hd : Decorated true F₀ pre F) (hs : Sited true F₀ pre F)
    (htbi : cfg.topByteIgnore = true) (hids : ∀ y ∈ F₀.ids, y < F₀.next) (T : Hardware) (m : Mem) :
    (F.system T cfg m).Simulates (F₀.system T cfg m) Event.Agrees (Matches T cfg F₀ F pre) where
  start := by
    rintro c ⟨C, hC, rfl⟩
    obtain ⟨B, hB, rfl⟩ := hd.layout_getElem? hC
    refine ⟨_, ⟨B, hB, rfl⟩, Matches.ofBlock rfl (fun _ _ => rfl) rfl .none ?_ rfl⟩
    exact fun y hy => hids y (F₀.mem_ids hB hy)
  silent := by
    intro c d c' h hstep
    rcases h.step hd hs htbi hids hstep with ⟨-, h'⟩ | ⟨l₀, d', hstep₀, hl, h'⟩
    · exact ⟨d, Or.inl rfl, h'⟩
    · cases hl
      exact ⟨d', Or.inr hstep₀, h'⟩
  event := by
    intro c d e c' h hstep
    rcases h.step hd hs htbi hids hstep with ⟨hl, -⟩ | ⟨l₀, d', hstep₀, hl, h'⟩
    · cases hl
    · cases hl with
      | some he => exact ⟨_, d', he, hstep₀, h'⟩

/-! ## Dominance -/

/-- A path of the rewritten function stands where one of the original does, `x` being the next
instruction of the original. It has passed what was inserted in front of `x` but `q`. -/
theorem Decorated.path (hd : Decorated tbi F₀ pre F) (hids : ∀ y ∈ F₀.ids, y < F₀.next)
    {p' C : List Nat} (h : F.Path p' C) :
    ∃ p B, F₀.Path p B ∧ (∀ y ∈ p, y ∈ p') ∧
      ((B = [] ∧ C = []) ∨ ∃ x B' r q, B = x :: B' ∧ pre x = r ++ q ∧
        C = q ++ x :: decorate pre B' ∧ ∀ z ∈ r, z ∈ p') := by
  have hfront : ∀ {B : List Nat} (p' : List Nat), (B = [] ∧ decorate pre B = []) ∨
      ∃ x B' r q, B = x :: B' ∧ pre x = r ++ q ∧ decorate pre B = q ++ x :: decorate pre B' ∧
        ∀ z ∈ r, z ∈ p' := by
    intro B p'
    cases B with
    | nil => exact Or.inl ⟨rfl, rfl⟩
    | cons x B =>
        exact Or.inr ⟨x, B, [], pre x, rfl, rfl, decorate_cons pre x B,
          fun _ hz => absurd hz List.not_mem_nil⟩
  have hsnoc : ∀ {p p' : List Nat} {z : Nat}, (∀ y ∈ p, y ∈ p') → ∀ y ∈ p ++ [z], y ∈ p' ++ [z] := by
    intro p p' z hp y hy
    rcases List.mem_append.1 hy with hy | hy
    · exact List.mem_append_left _ (hp y hy)
    · exact List.mem_append_right _ hy
  -- the induction is on the path; a step over an inserted instruction leaves the original in place
  induction h with
  | entry hC =>
      obtain ⟨B, hB, rfl⟩ := hd.layout_getElem? hC
      exact ⟨[], B, .entry hB, fun _ hy => hy, hfront []⟩
  | @next p' C z _ ih =>
      obtain ⟨p, B, hpath, hp, ⟨-, hC⟩ | ⟨x, B', r, q, rfl, hpre, hC, hr⟩⟩ := ih
      · cases hC
      · cases q with
        | nil =>
            cases hC
            exact ⟨p ++ [z], B', hpath.next, hsnoc hp, hfront _⟩
        | cons w q =>
            cases hC
            exact ⟨p, x :: B', hpath, fun y hy => List.mem_append_left _ (hp y hy), Or.inr
              ⟨x, B', r ++ [z], q, rfl, by rw [hpre, List.append_assoc]; rfl, rfl, hsnoc hr⟩⟩
  | @jump p' C D targets z b _ hop hb hD ih =>
      obtain ⟨p, B, hpath, hp, ⟨-, hC⟩ | ⟨x, B', r, q, rfl, hpre, hC, hr⟩⟩ := ih
      · cases hC
      · cases q with
        | nil =>
            cases hC
            obtain ⟨E, hE, rfl⟩ := hd.layout_getElem? hD
            rw [hd.op z (hids z (hpath.mem z List.mem_cons_self))] at hop
            exact ⟨p ++ [z], E, hpath.jump hop hb hE, hsnoc hp, hfront _⟩
        | cons w q =>
            cases hC
            have hz : z ∈ pre x := by
              rw [hpre]
              exact List.mem_append_right _ List.mem_cons_self
            exact absurd hop ((hd.pre_stays hz).1 targets)

/-- The instruction that a copy is, is inserted or the original operand. -/
theorem Copy.inst {v₀ v : Value} {b : Bool} {zs : List Nat} (h : Copy F zs v₀ v b) {y : Nat}
    (hy : v.ref = .inst y) : v₀.ref = .inst y ∨ y ∈ zs := by
  cases h with
  | self => exact Or.inl hy
  | fold => exact absurd hy (by simp)
  | cast _ hz _ _ =>
      cases hy
      exact Or.inr hz
  | call _ hz _ _ =>
      cases hy
      exact Or.inr hz

/-- **Inserted instructions, and rewritten ones that are no phis, come after their operands.** -/
theorem Decorated.dominated (hd : Decorated tbi F₀ pre F) (hs : Sited tbi F₀ pre F)
    (hids : ∀ y ∈ F₀.ids, y < F₀.next) (h : F₀.Dominated) : F.Dominated := by
  intro p' z C hpath hphi k v y hv hy
  obtain ⟨p, B, hpath₀, hp, ⟨-, hC⟩ | ⟨x, B', r, q, rfl, hpre, hC, hr⟩⟩ := hd.path hids hpath
  · cases hC
  · cases q with
    -- control is at the original instruction `z`
    | nil =>
        cases hC
        have hx : z < F₀.next := hids z (hpath₀.mem z List.mem_cons_self)
        rw [hd.op z hx] at hphi
        obtain ⟨v₀, b, hv₀, -, hcopy, -⟩ := hd.operand z hx k v hv
        rcases hcopy.inst hy with hy₀ | hmem
        · exact hp y (h p z B' hpath₀ hphi k v₀ y hv₀ hy₀)
        · rw [hpre, List.append_nil] at hmem
          exact hr y hmem
    -- control is at the inserted instruction `z`, whose operand is a copy of one of `x`
    | cons w q =>
        cases hC
        have hz : z ∈ pre x := by
          rw [hpre]
          exact List.mem_append_right _ List.mem_cons_self
        have hlt : y < z := hd.pre_operand_lt x z hz k v y hv hy
        obtain ⟨j, v₀, f, hsite, hv₀, u, b, hcopy, -, hi⟩ := hs.site x z hz
        obtain rfl : v = u := by
          have hoperands : (F.instr z).operands = [u] := by
            rcases hi with ⟨ty, -, hi⟩ | ⟨-, hi⟩ <;> rw [hi]
          have hmem := List.mem_of_getElem? hv
          rw [hoperands] at hmem
          exact List.mem_singleton.1 hmem
        rcases hcopy.inst hy with hy₀ | hmem
        · exact hp y (h p x B' hpath₀ hsite.not_phi j v₀ y hv₀ hy₀)
        · -- `y` is older than `z`, so it is in front of it
          have hsorted := hd.pre_sorted x
          rw [hpre, List.pairwise_append, List.pairwise_cons] at hsorted
          rw [hpre] at hmem
          rcases List.mem_append.1 hmem with hmem | hmem
          · exact hr y hmem
          · rcases List.mem_cons.1 hmem with rfl | hmem
            · omega
            · have := hsorted.2.1.1 y hmem
              omega

/-! ## Where both executions are -/

/-- What the rewritten function `G` has at the point `c` of an execution in common with `F` at `d`. -/
structure Func.SameAt (T : Hardware) (F G : Func) (c d : Frame) : Prop where
  mem : c.mem = d.mem
  regs : ∀ y ∈ F.ids, c.regs y = d.regs y
  next : ∀ x B, c.block = x :: B → x ∈ F.ids → (∃ B₀, d.block = x :: B₀) ∧
    (G.instr x).op = (F.instr x).op ∧ (G.instr x).ty = (F.instr x).ty ∧
    (G.instr x).operands.length = (F.instr x).operands.length ∧
    ∀ k v p, G.operand x k = some v → T.Evaluates c.regs v p →
      ∃ v₀ p₀, F.operand x k = some v₀ ∧ v.ty = v₀.ty ∧ T.Evaluates d.regs v₀ p₀ ∧
        Carried (F.Reads x) p p₀

theorem Matches.sameAt (hd : Decorated true F₀ pre F) (htbi : cfg.topByteIgnore = true)
    (hids : ∀ y ∈ F₀.ids, y < F₀.next) (h : Matches T cfg F₀ F pre c d) : F₀.SameAt T F c d where
  mem := h.mem
  regs := fun y hy => h.regs y (hids y hy)
  next := by
    intro x B hblock hx
    have hlt := hids x hx
    rcases h.block with ⟨hnil, -⟩ | ⟨y, B', r, q, hblock₀, hat⟩
    · rw [hnil] at hblock
      cases hblock
    · have hsame := hat.block
      rw [hblock] at hsame
      cases q with
      | cons z q =>
          -- inserted instructions are not original
          cases hsame
          exact absurd hat.mem_pre (hd.not_mem_pre hlt)
      | nil =>
          cases hsame
          refine ⟨⟨B', hblock₀⟩, hd.op x hlt, hd.ty x hlt, hd.operands_length x hlt, ?_⟩
          intro k v p hv hp
          obtain ⟨v₀, p₀, hv₀, hp₀, hcarried⟩ := hd.carried htbi hlt hat.all_ran hv hp
          refine ⟨v₀, p₀, hv₀, ?_, hp₀.congr fun y hy => ?_, hcarried⟩
          · rw [hp.1, hp₀.1]
            exact hcarried.1
          · exact (h.regs y (hd.base.operand_lt x k v₀ y hv₀ hy)).symm

end PTAuth.Pass
