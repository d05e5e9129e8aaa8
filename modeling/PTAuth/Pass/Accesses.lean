import Mathlib.Data.List.Induction
import PTAuth.Pass.Context
import PTAuth.Pass.Semantics

/-!
# Accesses through loaded pointers

A pointer that was loaded from a slot is accessed by a GEP over it, by a load through it, or by a
store through it. The check of a GEP is inserted when its base is visited, the check of a load when
the load is, and only for pointers; `instrumentStore` returns before it gets to a check. So the
first access behind a call that armed the slot is checked exactly when it is one of the first two
kinds and the slot is still marked at that visit (`first_access_checked_iff`).

`Kept` says that the walk leaves an instruction alone, and nothing stands in front of it; `Checked`
that a check was inserted on a load.
-/

set_option autoImplicit false

namespace PTAuth.Pass

/-- The checks that authenticate the address of an access. -/
def authenticatingChecks : List String := ["__loadCheck", "__GEPCheck", "__storeCheck"]

/-- The operand that is the address of an access. -/
def Op.address : Op → Option Nat
  | .gep => some 0
  | .load => some 0
  | .store => some 1
  | _ => none

/-- `x` accesses memory through the single-use load `l` of the slot `a`. -/
structure Func.Accesses (F : Func) (a l x : Nat) : Prop where
  load : F.LoadOf a l
  users : ∃ k, (F.instr x).op.address = some k ∧ F.users l = [(x, k)]

/-- In front of `x` stands a check of the load `l`. -/
def Func.Authenticated (F : Func) (l x : Nat) : Prop :=
  ∃ z v callee returned, (F.instr z).op = .call (some callee) returned ∧
    callee.name ∈ authenticatingChecks ∧ F.operand z 0 = some v ∧ CastsTo F v l ∧
      [z, x].Sublist F.ids

/-- An entry of the slot is marked as passed to a function. -/
def State.Marked (s : State) (a : Nat) : Prop := s.pass.pointers.any (s.isArmed a) = true

/-- Behind the instructions `A` the slot is marked, and `x` is the first access through a single-use
load of it from there on. -/
def FirstAccess (tbi : Bool) (s : State) (a : Nat) (A : List Nat) (l x : Nat) : Prop :=
  (visited tbi s A).Marked a ∧ s.func.Accesses a l x ∧
    ∃ C D, s.func.ids = A ++ C ++ x :: D ∧ ∀ y ∈ C, ∀ l', ¬ s.func.Accesses a l' y

/-- `instrumentLoad` does not leave the load `x` out. -/
def Func.Selects (F : Func) (x : Nat) : Prop :=
  ∃ p, F.operand x 0 = some p ∧ loadSelected F x p = true

/-- The slot is marked when the walk comes to `l`, for a GEP over it, or to `x`, for a load of a
pointer through `l`. -/
def MarkedAtCheck (tbi : Bool) (s : State) (a l x : Nat) : Prop :=
  ∃ V y U, s.func.ids = V ++ y :: U ∧ (visited tbi s V).Marked a ∧
    (((s.func.instr x).op = .gep ∧ y = l) ∨
      ((s.func.instr x).op = .load ∧ s.func.Selects x ∧ y = x))

/-! ## Uses -/

/-- What strips to an instruction is it, or passes a user of it. -/
theorem Strips.use {F : Func} {v : Value} {y : Nat} (h : Strips F v y) :
    v.ref = .inst y ∨
      ∃ z k w, Strips F v z ∧ F.Carries z k ∧ F.operand z k = some w ∧ w.ref = .inst y := by
  induction h with
  | self hv => exact Or.inl hv
  | cast hv hc hw _ ih =>
      rcases ih with hwy | ⟨z', k', w', hs, hc', hw', hwy⟩
      · exact Or.inr ⟨_, _, _, .self hv, hc, hw, hwy⟩
      · exact Or.inr ⟨z', k', w', .cast hv hc hw hs, hc', hw', hwy⟩

/-- A value that casts to an instruction comes from a use of it. -/
theorem CastsTo.use {F : Func} {v : Value} {y : Nat} (h : CastsTo F v y) :
    v.ref = .inst y ∨
      ∃ z w, (F.instr z).op = .bitcast ∧ F.operand z 0 = some w ∧ w.ref = .inst y := by
  induction h with
  | self hv => exact Or.inl hv
  | cast _ hop hw _ ih =>
      rcases ih with hwy | huse
      · exact Or.inr ⟨_, _, hop, hw, hwy⟩
      · exact Or.inr huse

theorem CastsTo.strips {F : Func} {v : Value} {y : Nat} (h : CastsTo F v y) : Strips F v y := by
  induction h with
  | self hv => exact .self hv
  | cast hv hop hw _ ih =>
      apply Strips.cast hv _ hw ih
      rw [Func.Carries, hop]

section Line

variable {F : Func} {a l x : Nat} {v : Value}

/-- In a straight line, control comes to every instruction. -/
theorem Func.StraightLine.path (hline : F.StraightLine) :
    ∀ P {B : List Nat}, F.ids = P ++ B → F.Path P B := by
  obtain ⟨body, r, hlayout, -⟩ := hline
  intro P
  induction P using List.reverseRecOn with
  | nil =>
      intro B hids
      apply Func.Path.entry
      rw [hlayout]
      simpa [Func.ids, hlayout] using hids
  | append_singleton P x ih =>
      intro B hids
      apply Func.Path.next
      apply ih
      rw [hids, List.append_assoc, List.singleton_append]

/-- Operands stand in front, and so does what they strip to. -/
theorem Strips.before (hline : F.StraightLine) (hdom : F.Dominated) {y : Nat} (h : Strips F v y) :
    ∀ {P D : List Nat} {c k : Nat}, F.ids = P ++ c :: D → (F.instr c).op.isPhi = false →
      F.operand c k = some v → y ∈ P := by
  induction h with
  | self hv =>
      intro P D c k hids hphi hc
      exact hdom P c D (hline.path P hids) hphi k _ _ hc hv
  | @cast v w z k' y hv hcarries hw _ ih =>
      intro P D c k hids hphi hc
      have hz : z ∈ P := hdom P c D (hline.path P hids) hphi k _ _ hc hv
      obtain ⟨P₁, P₂, rfl⟩ := List.append_of_mem hz
      have hmem : y ∈ P₁ := ih (D := P₂ ++ c :: D) (by rw [hids]; simp) hcarries.not_phi hw
      exact List.mem_append_left _ hmem

/-- The load has no other user. -/
theorem Func.Accesses.user (h : F.Accesses a l x) (hwf : F.WellFormed) {y k : Nat}
    (hv : F.operand y k = some v) (hvl : v.ref = .inst l) :
    y = x ∧ (F.instr x).op.address = some k := by
  obtain ⟨j, hj, husers⟩ := h.users
  have huse := hwf.operand_users y k v l hv hvl
  rw [husers, List.mem_singleton] at huse
  obtain ⟨rfl, rfl⟩ := Prod.mk.inj huse
  exact ⟨rfl, hj⟩

/-- Not behind casts either. -/
theorem Func.Accesses.user_of_castsTo (h : F.Accesses a l x) (hwf : F.WellFormed) {y k : Nat}
    (hv : F.operand y k = some v) (hcasts : CastsTo F v l) : y = x := by
  rcases hcasts.use with hvl | ⟨z, w, hz, hw, hwl⟩
  · exact (h.user hwf hv hvl).1
  · obtain ⟨rfl, haddress⟩ := h.user hwf hw hwl
    rw [hz] at haddress
    exact absurd haddress (by simp [Op.address])

/-- The address is the load. -/
theorem Func.Accesses.operand (h : F.Accesses a l x) (hwf : F.WellFormed) {k : Nat}
    (hk : (F.instr x).op.address = some k) : ∃ v, F.operand x k = some v ∧ v.ref = .inst l := by
  obtain ⟨j, hj, husers⟩ := h.users
  obtain rfl := Option.some.inj (hk.symm.trans hj)
  exact hwf.users_operand x k l (by simp [husers])

/-- No call in front of the access takes the load: it would come after the access. -/
theorem Func.Accesses.not_taken (h : F.Accesses a l x) (hwf : F.WellFormed)
    (hline : F.StraightLine) (hdom : F.Dominated) {P D : List Nat} (hids : F.ids = P ++ x :: D) :
    ∀ c ∈ P, ¬ F.MayTake c l := by
  intro c hc
  obtain ⟨hfresh, -⟩ := fresh_of_split hwf hids
  obtain ⟨P₁, P₂, rfl⟩ := List.append_of_mem hc
  have hids' : F.ids = P₁ ++ c :: (P₂ ++ x :: D) := by rw [hids]; simp
  have hnot : ∀ {callee returned} i w, (F.instr c).op = .call callee returned →
      F.operand c i = some w → ¬ Strips F w x := by
    intro callee returned i w hop hw hs
    apply hfresh
    exact List.mem_append_left _ (hs.before hline hdom hids' (by rw [hop]; rfl) hw)
  rintro (⟨-, w, ⟨callee, returned, i, hop, -, hw, -⟩, hs⟩ |
    ⟨-, w, y, u, ⟨callee, returned, i, hop, -, hw, -⟩, hcasts, -, hu, hul⟩)
  · rcases hs.use with hwl | ⟨z, k, u, hz, -, hu, hul⟩
    · exact hfresh ((h.user hwf hw hwl).1 ▸ hc)
    · rw [(h.user hwf hu hul).1] at hz
      exact hnot i w hop hw hz
  · rw [(h.user hwf hu hul).1] at hcasts
    exact hnot i w hop hw hcasts.strips

end Line

/-! ## Instructions that are left alone -/

section Kept

variable {tbi : Bool} {F₀ F : Func} {pre : Nat → List Nat} {s t : State} {a l x y : Nat}

/-- `x` and what stands in front of it are as they were. -/
structure Kept (x : Nat) (pre : Nat → List Nat) (F : Func) (pre' : Nat → List Nat) (G : Func) :
    Prop where
  instr : G.instr x = F.instr x
  front : pre' x = pre x
  old : ∀ z ∈ pre x, G.instr z = F.instr z

theorem Kept.refl (x : Nat) (pre : Nat → List Nat) (F : Func) : Kept x pre F pre F where
  instr := rfl
  front := rfl
  old := fun _ _ => rfl

theorem Kept.trans {pre' pre'' : Nat → List Nat} {G H : Func} (h : Kept x pre F pre' G)
    (h' : Kept x pre' G pre'' H) : Kept x pre F pre'' H where
  instr := h'.instr.trans h.instr
  front := h'.front.trans h.front
  old := fun z hz => (h'.old z (h.front.symm ▸ hz)).trans (h.old z hz)

/-- The handler of `y` does not rewrite `x`. -/
def Spares (tbi : Bool) (F₀ : Func) (y x : Nat) : Prop :=
  ∀ G f k, (∃ pre, Decorated tbi F₀ pre G) → ¬ Wrap tbi G y f x k

theorem Steps.kept (h : Steps tbi y s t) (hd : Decorated tbi F₀ pre s.func) (hy : y < F₀.next)
    (hx : x < F₀.next) (hspares : Spares tbi F₀ y x) :
    ∃ pre', Decorated tbi F₀ pre' t.func ∧ Kept x pre s.func pre' t.func := by
  induction h with
  | refl => exact ⟨pre, hd, Kept.refl x pre s.func⟩
  | @wrap t f u k _ hw ih =>
      obtain ⟨pre₁, hd₁, hkept⟩ := ih
      have hne : x ≠ u := by
        rintro rfl
        exact hspares t.func f k ⟨pre₁, hd₁⟩ hw
      obtain ⟨pre₂, hd₂, hext⟩ := hd₁.wrapOperand hy hw
      obtain ⟨v, -, hwrapped⟩ := hd₁.wrapped hy hw
      refine ⟨pre₂, hd₂, hkept.trans ⟨?_, hext.other x hne, hext.old x⟩⟩
      exact hwrapped.instr x (Nat.lt_of_lt_of_le hx hd₁.next_le) hne
  | pass p _ ih => exact ih

theorem visited_kept (hwf : F₀.WellFormed) (hx : x < F₀.next) :
    ∀ (ys : List Nat) {pre : Nat → List Nat} {s : State},
      (∀ y ∈ ys, y < F₀.next ∧ Spares tbi F₀ y x) → Decorated tbi F₀ pre s.func →
      ∃ pre', Decorated tbi F₀ pre' (visited tbi s ys).func ∧
        Kept x pre s.func pre' (visited tbi s ys).func := by
  intro ys
  induction ys with
  | nil => exact fun _ hd => ⟨_, hd, Kept.refl x _ _⟩
  | cons y ys ih =>
      intro pre s hys hd
      obtain ⟨hy, hspares⟩ := hys y List.mem_cons_self
      obtain ⟨pre₁, hd₁, hkept⟩ := (visit_steps hd hwf hy).kept hd hy hx hspares
      obtain ⟨pre₂, hd₂, hkept'⟩ := ih (fun z hz => hys z (List.mem_cons_of_mem y hz)) hd₁
      exact ⟨pre₂, hd₂, hkept.trans hkept'⟩

/-- **Which handler rewrites an access**: that of the load, for a GEP, and its own, for a load. -/
theorem Func.Accesses.spares (h : F₀.Accesses a l x) (hwf : F₀.WellFormed)
    (hgep : (F₀.instr x).op = .gep → y ≠ l) (hload : (F₀.instr x).op = .load → y ≠ x) :
    Spares tbi F₀ y x := by
  rintro G f k ⟨pre, hd⟩ hw
  obtain ⟨j, hj, -⟩ := h.users
  have hx : x < F₀.next := by
    obtain ⟨v, hv, -⟩ := h.operand hwf hj
    exact hwf.lt_of_operand hv
  have hop := hd.op x hx
  obtain ⟨v, hv, hvl⟩ := h.operand hwf hj
  cases hw with
  | nested hl _ _ _ => exact hload (hop.symm.trans hl) rfl
  | gep hl hg hw hwy _ =>
      have hg₀ := hop.symm.trans hg
      rw [hg₀] at hj
      obtain rfl := Option.some.inj hj
      obtain ⟨v₀, b, hv₀, -, hcopy, -⟩ := hd.operand x hx 0 _ hw
      obtain rfl := Option.some.inj (hv.symm.trans hv₀)
      rw [hcopy.eq_self hwy (hd.not_mem_pre (hd.lt_of_load hl)), hvl] at hwy
      exact hgep hg₀ (Ref.inst.inj hwy).symm
  | xpac _ hs _ =>
      obtain ⟨-, callee, returned, hcall, -⟩ := hs
      rw [← hop, hcall] at hj
      exact absurd hj (by simp [Op.address])
  | argument htake ha _ =>
      have hl₀ := hop.symm.trans htake.load
      rw [hl₀] at hj
      obtain rfl := Option.some.inj hj
      -- the address of `x` is a load, and no slot
      obtain ⟨w, hw, hwa, halloca⟩ := Func.slotOf_eq_some.1 (hd.slotOf_original hx ha)
      obtain rfl := Option.some.inj (hv.symm.trans hw)
      obtain rfl := Ref.inst.inj (hvl.symm.trans hwa)
      rw [h.load.1] at halloca
      exact absurd halloca (by decide)

end Kept

/-! ## Checks of a load -/

section Checked

variable {tbi : Bool} {F₀ F : Func} {pre : Nat → List Nat} {s t : State} {a l x y : Nat}

/-- A check of the load `l` was inserted. -/
def Checked (F₀ F : Func) (l : Nat) : Prop :=
  ∃ z f v, F₀.next ≤ z ∧ f ∈ authenticatingChecks ∧ (F.instr z).op = runtimeCall f ∧
    F.operand z 0 = some v ∧ CastsTo F v l

theorem Steps.checked (h : Steps tbi y s t) (hd : Decorated tbi F₀ pre s.func) (hy : y < F₀.next)
    (hc : Checked F₀ s.func l) : Checked F₀ t.func l := by
  obtain ⟨z, f, v, hz, hf, hop, hv, hcasts⟩ := hc
  obtain ⟨pre', -, hgrown⟩ := h.decorated hd hy
  obtain ⟨u, hu⟩ := hd.pre_cover z hz (hd.linked.lt_of_operand hv)
  have hinstr := hgrown.old u z hu
  refine ⟨z, f, v, hz, hf, ?_, ?_, hcasts.mono fun w hw => h.bitcast_eq hd hy hw⟩
  · rw [hinstr]
    exact hop
  · rw [Func.operand, hinstr]
    exact hv

/-- Once inserted, a check stays. -/
theorem visited_checked (hwf : F₀.WellFormed) :
    ∀ (ys : List Nat) {pre : Nat → List Nat} {s : State}, (∀ y ∈ ys, y < F₀.next) →
      Decorated tbi F₀ pre s.func → Checked F₀ s.func l →
        Checked F₀ (visited tbi s ys).func l := by
  intro ys
  induction ys with
  | nil => exact fun _ _ hc => hc
  | cons y ys ih =>
      intro pre s hys hd hc
      have hy := hys y List.mem_cons_self
      have hsteps := visit_steps hd hwf hy
      obtain ⟨pre', hd', -⟩ := hsteps.decorated hd hy
      exact ih (fun z hz => hys z (List.mem_cons_of_mem y hz)) hd' (hsteps.checked hd hy hc)

/-- A call on a load that is accessed stands in front of the access. -/
theorem Decorated.mem_pre (hd : Decorated tbi F₀ pre F) (hwf : F₀.WellFormed)
    (h : F₀.Accesses a l x) {z : Nat} {v : Value} (hcall : (F.instr z).op.isCall = true)
    (hv : F.operand z 0 = some v) (hcasts : CastsTo F v l) : z ∈ pre x := by
  have hl := (hd.op l (hwf.lt_of_load h.load.1)).trans h.load.1
  rcases Nat.lt_or_ge z F₀.next with hlt | hge
  · -- an original call is no access
    obtain ⟨v₀, b, hv₀, -, hcopy, -⟩ := hd.operand z hlt 0 v hv
    obtain rfl := h.user_of_castsTo hwf hv₀ (hd.castsTo_original hcasts hl hv₀ hcopy)
    obtain ⟨j, hj, -⟩ := h.users
    rw [hd.op z hlt] at hcall
    cases hop : (F₀.instr z).op with
    | call callee returned =>
        rw [hop] at hj
        exact absurd hj (by simp [Op.address])
    | _ =>
        rw [hop] at hcall
        exact absurd hcall (by simp [Op.isCall])
  · -- an inserted one copies an operand of the instruction behind it
    obtain ⟨u, hu⟩ := hd.pre_cover z hge (hd.linked.lt_of_operand hv)
    obtain ⟨k, v₀, w, b, hv₀, hcopy, hi⟩ := hd.pre_copy u z hu
    have hoperands : (F.instr z).operands = [w] := by
      rcases hi with ⟨ty, hi⟩ | ⟨f, -, hi⟩
      · rw [hi]
      · rw [hi]
    rw [Func.operand, hoperands] at hv
    obtain rfl := Option.some.inj hv
    obtain rfl := h.user_of_castsTo hwf hv₀ (hd.castsTo_original hcasts hl hv₀ hcopy)
    exact hu

/-- What stands in front of an instruction is laid out before it. -/
theorem Decorated.sublist (hd : Decorated tbi F₀ pre F) (hx : x ∈ F₀.ids) {z : Nat}
    (hz : z ∈ pre x) : [z, x].Sublist F.ids := by
  obtain ⟨A, B, hids⟩ := List.append_of_mem hx
  obtain ⟨p, q, hpre⟩ := List.append_of_mem hz
  have hfront : F.ids = (decorate pre A ++ p ++ z :: q) ++ x :: decorate pre B := by
    rw [hd.ids, hids, decorate_append, decorate_cons, hpre]
    simp
  rw [hfront]
  exact sublist_of_split (by simp)

theorem Checked.authenticated (h : Checked F₀ F l) (hd : Decorated tbi F₀ pre F)
    (hwf : F₀.WellFormed) (hacc : F₀.Accesses a l x) (hx : x ∈ F₀.ids) : F.Authenticated l x := by
  obtain ⟨z, f, v, -, hf, hop, hv, hcasts⟩ := h
  refine ⟨z, v, ⟨f, true⟩, none, hop, hf, hv, hcasts, hd.sublist hx ?_⟩
  exact hd.mem_pre hwf hacc (by rw [hop]; rfl) hv hcasts

/-- Nothing authenticates in front of an access that only casts and `__noCheck` stand in front
of. -/
theorem Decorated.not_authenticated (hd : Decorated tbi F₀ pre F) (hwf : F₀.WellFormed)
    (hacc : F₀.Accesses a l x)
    (hpre : ∀ z ∈ pre x, (F.instr z).op = .bitcast ∨ (F.instr z).op = runtimeCall "__noCheck") :
    ¬ F.Authenticated l x := by
  rintro ⟨z, v, callee, returned, hop, hname, hv, hcasts, -⟩
  rcases hpre z (hd.mem_pre hwf hacc (by rw [hop]; rfl) hv hcasts) with hcast | hcall
  · exact absurd (hcast.symm.trans hop) (by simp)
  · rw [hop, runtimeCall] at hcall
    simp only [Op.call.injEq, Option.some.injEq] at hcall
    rw [hcall.1] at hname
    exact absurd hname (by decide)

end Checked

/-! ## Loads through loads -/

section Through

variable {tbi : Bool} {F₀ : Func} {pre : Nat → List Nat} {s t : State} {a l x : Nat} {p : Value}

/-- The check that an entry asks for. -/
def PointerProperties.check (p : PointerProperties) : String :=
  if p.isPassedToFunctionBefore then "__loadCheck" else "__noCheck"

theorem PointerProperties.check_mem (p : PointerProperties) :
    p.check ∈ ["__loadCheck", "__noCheck"] := by
  rw [PointerProperties.check]
  split
  · exact List.mem_cons_self
  · exact List.mem_cons_of_mem _ List.mem_cons_self

theorem PointerProperties.check_congr {p q : PointerProperties} (h : p.flags = q.flags) :
    p.check = q.check := by
  rw [PointerProperties.check, PointerProperties.check]
  rw [show p.isPassedToFunctionBefore = q.isPassedToFunctionBefore from congrArg Flags.passed h]

/-- Wrap the address of `x`, once for each name. -/
def wraps (x : Nat) (s : State) (fs : List String) : State := fs.foldl (fun t f => t.wrap x f x 0) s

/-- The loop of `instrumentLoad` wraps once for each entry of the slot. -/
theorem loadThroughLoad_eq (hp : s.func.operand x 0 = some p) (hpl : p.ref = .inst l)
    (hl : s.func.LoadOf a l) :
    loadThroughLoad s x = wraps x s ((s.entries a).map PointerProperties.check) := by
  have hcast : s.func.dynCast (· == .load) p = some l :=
    Func.dynCast_eq_some.2 ⟨hpl, beq_iff_eq.2 hl.1⟩
  rw [loadThroughLoad, hp, Option.bind_some, hcast]
  simp only [hl.2]
  rw [State.entries]
  -- a wrap keeps the name of the function, and so what the entries of the slot are
  have key : ∀ (ps : List PointerProperties) (t : State), t.func.name = s.func.name →
      ps.foldl (fun t p => if t.isEntry a p then
        t.wrap x (if p.isPassedToFunctionBefore then "__loadCheck" else "__noCheck") x 0 else t) t =
        wraps x t ((ps.filter (s.isEntry a)).map PointerProperties.check) := by
    intro ps
    induction ps with
    | nil => exact fun _ _ => rfl
    | cons q ps ih =>
        intro t ht
        have hentry : t.isEntry a q = s.isEntry a q := by rw [State.isEntry, State.isEntry, ht]
        rw [List.foldl_cons, List.filter_cons, hentry]
        split
        · apply ih
          exact (t.func.wrapOperand_name _ x 0).trans ht
        · exact ih t ht
  exact key s.pass.pointers s rfl

/-- Wraps of the address are steps. -/
theorem wraps_steps (hop : (F₀.instr x).op = .load) (hslot : F₀.slotOf x = none)
    {fs : List String} (hfs : ∀ f ∈ fs, f ∈ ["__loadCheck", "__noCheck"]) :
    ∀ {pre : Nat → List Nat} {s : State} {p : Value}, Decorated tbi F₀ pre s.func → x < F₀.next →
      s.func.operand x 0 = some p → Steps tbi x s (wraps x s fs) := by
  induction fs with
  | nil => exact fun _ _ _ => .refl
  | cons f fs ih =>
      intro pre s p hd hx hp
      have hnone := hd.slotOf_none hx hslot
      have hw : Wrap tbi s.func x f x 0 :=
        .nested ((hd.op x hx).trans hop) hp hnone (hfs f List.mem_cons_self)
      have hstep : Steps tbi x s (s.wrap x f x 0) := .wrap .refl hw
      obtain ⟨pre', hd', -⟩ := hstep.decorated hd hx
      obtain ⟨v, -, hwrapped⟩ := hd.wrapped hx hw
      obtain ⟨-, w, hw', -⟩ := hwrapped.new
      exact hstep.trans (ih (fun g hg => hfs g (List.mem_cons_of_mem f hg)) hd' hx hw')

/-- Without `__loadCheck` only casts and `__noCheck` are added. -/
theorem wraps_plain (hop : (F₀.instr x).op = .load) (hslot : F₀.slotOf x = none) (hx : x < F₀.next)
    {fs : List String} (hfs : ∀ f ∈ fs, f = "__noCheck") :
    ∀ {pre : Nat → List Nat} {s : State} {p : Value}, Decorated tbi F₀ pre s.func →
      s.func.operand x 0 = some p →
      (∀ z ∈ pre x, (s.func.instr z).op = .bitcast ∨
        (s.func.instr z).op = runtimeCall "__noCheck") →
      ∃ pre', Decorated tbi F₀ pre' (wraps x s fs).func ∧
        ∀ z ∈ pre' x, ((wraps x s fs).func.instr z).op = .bitcast ∨
          ((wraps x s fs).func.instr z).op = runtimeCall "__noCheck" := by
  induction fs with
  | nil => exact fun hd _ hplain => ⟨_, hd, hplain⟩
  | cons f fs ih =>
      intro pre s p hd hp hplain
      obtain rfl := hfs f List.mem_cons_self
      have hnone := hd.slotOf_none hx hslot
      have hw : Wrap tbi s.func x "__noCheck" x 0 :=
        .nested ((hd.op x hx).trans hop) hp hnone (by decide)
      obtain ⟨pre₁, hd₁, hext⟩ := hd.wrapOperand hx hw
      obtain ⟨v, -, hwrapped⟩ := hd.wrapped hx hw
      obtain ⟨-, w, hw', -⟩ := hwrapped.new
      refine ih (fun g hg => hfs g (List.mem_cons_of_mem _ hg)) (s := s.wrap x "__noCheck" x 0) hd₁
        hw' fun z hz => ?_
      rcases hext.new z hz with hz' | hnew
      · have hold : (s.wrap x "__noCheck" x 0).func.instr z = s.func.instr z := hext.old x z hz'
        rw [hold]
        exact hplain z hz'
      · exact hnew

/-- **At a load through a load of a slot**, the handler wraps the address once for each entry of the
slot, unless it leaves the load out. -/
theorem visit_through (hd : Decorated tbi F₀ pre s.func) (hop : (F₀.instr x).op = .load)
    (hslot : F₀.slotOf x = none) (hp : s.func.operand x 0 = some p) (hpl : p.ref = .inst l)
    (hl : s.func.LoadOf a l) :
    visit tbi s x =
      if loadSelected s.func x p then wraps x s ((s.entries a).map PointerProperties.check) else s := by
  have hx := hd.base.lt_of_load hop
  have hxlt := Nat.lt_of_lt_of_le hx hd.next_le
  have hops := (hd.op x hx).trans hop
  have hsteps : Steps tbi x s (loadThroughLoad s x) := loadThroughLoad_steps hxlt hops
  obtain ⟨pre', hd', -⟩ := hsteps.decorated hd hx
  have hnone := hd'.slotOf_none hx hslot
  -- the address is a load, or inserted; it is no GEP
  have hgep : ((loadThroughLoad s x).func.operand x 0).bind
      ((loadThroughLoad s x).func.dynCast (· == .gep)) = none := by
    apply Option.eq_none_iff_forall_ne_some.2
    intro g hg
    rw [loadThroughLoad_gep hxlt hg, hp, Option.bind_some] at hg
    obtain ⟨hpg, hop'⟩ := Func.dynCast_eq_some.1 hg
    obtain rfl := Ref.inst.inj (hpl.symm.trans hpg)
    rw [hl.1] at hop'
    exact absurd hop' (by decide)
  have hrest : loadForGEP (loadThroughLoad s x) x = loadThroughLoad s x := by
    rw [loadForGEP]
    split
    · split
      · rw [checkGEP, hnone]
        dsimp only
        rw [checkNestedGEP, hgep]
      · rfl
    · rfl
  rw [visit_of_load hops, instrumentLoad, hp]
  dsimp only
  rw [hrest, loadThroughLoad_eq hp hpl hl]

/-- An armed slot gets its check. -/
theorem wraps_checked (hd : Decorated tbi F₀ pre s.func) (hop : (F₀.instr x).op = .load)
    (hslot : F₀.slotOf x = none) (hp : s.func.operand x 0 = some p) (hpl : p.ref = .inst l)
    {c : Bool} (h : s.SlotFlags a (some ⟨true, c⟩)) :
    Checked F₀ (wraps x s ((s.entries a).map PointerProperties.check)).func l := by
  have hx := hd.base.lt_of_load hop
  -- the first entry is the armed one, so the first wrap is of the load
  obtain ⟨e, es, hentries, hpassed⟩ : ∃ e es, s.entries a = e :: es ∧
      e.isPassedToFunctionBefore = true := by
    rcases h.entries with ⟨hnone, -⟩ | ⟨e, es, hes, hflags⟩
    · exact absurd hnone (by simp)
    · exact ⟨e, es, hes, (congrArg Flags.passed (Option.some.inj hflags)).symm⟩
  have hnone := hd.slotOf_none hx hslot
  have hw : Wrap tbi s.func x "__loadCheck" x 0 :=
    .nested ((hd.op x hx).trans hop) hp hnone (by decide)
  obtain ⟨pre', hd', -⟩ := hd.wrapOperand hx hw
  have hwrapped := s.func.wrapped_wrapOperand "__loadCheck" (Nat.lt_of_lt_of_le hx hd.next_le) hp
  obtain ⟨-, w, hw', -⟩ := hwrapped.new
  obtain ⟨z, hz, -, hcall, u, hu, hcasts⟩ := hwrapped.check l hpl w hw'
  have hchecked : Checked F₀ (s.wrap x "__loadCheck" x 0).func l :=
    ⟨z, "__loadCheck", u, Nat.le_trans hd.next_le hz, by decide, hcall, hu, hcasts⟩
  have hfirst : e.check = "__loadCheck" := by rw [PointerProperties.check, if_pos hpassed]
  rw [hentries, List.map_cons, hfirst]
  have hrest : Steps tbi x (s.wrap x "__loadCheck" x 0)
      (wraps x (s.wrap x "__loadCheck" x 0) (es.map PointerProperties.check)) := by
    refine wraps_steps hop hslot (fun f hf => ?_) hd' hx hw'
    obtain ⟨q, -, rfl⟩ := List.mem_map.1 hf
    exact q.check_mem
  exact hrest.checked hd' hx hchecked

end Through

/-! ## First accesses -/

section First

variable {tbi : Bool} {s : State} {a l x : Nat}

theorem State.SlotFlags.marked_iff {f : Option Flags} (h : s.SlotFlags a f) :
    s.Marked a ↔ ∃ c, f = some ⟨true, c⟩ := by
  rw [State.Marked, h.any_isArmed]
  rcases f with _ | ⟨passed, checked⟩
  · simp
  · simp

/-- The entries of a slot that is not marked ask for nothing. -/
theorem State.check_of_unmarked (h : ¬ s.Marked a) {e : PointerProperties} (he : e ∈ s.entries a) :
    e.check = "__noCheck" := by
  obtain ⟨hmem, hentry⟩ := List.mem_filter.1 he
  rw [PointerProperties.check, if_neg]
  intro hpassed
  apply h
  rw [State.Marked, List.any_eq_true]
  exact ⟨e, hmem, by rw [State.isArmed, hentry, hpassed]; rfl⟩

/-- What `instrumentLoad` selects, for a load with a known address. -/
theorem Func.selects_iff {F : Func} {p : Value} (hp : F.operand x 0 = some p) :
    F.Selects x ↔ loadSelected F x p = true := by
  constructor
  · rintro ⟨q, hq, h⟩
    obtain rfl := Option.some.inj (hp.symm.trans hq)
    exact h
  · exact fun h => ⟨p, hp, h⟩

/-- In front of every instruction the slot has flags. -/
theorem exists_flags (hwf : s.func.WellFormed)
    (hclean : ∀ p ∈ s.pass.pointers, p.fn ≠ s.func.name) {V B : List Nat}
    (hids : s.func.ids = V ++ B) : ∃ f, (visited tbi s V).SlotFlags a f := by
  apply visited_flags hwf (Behind.refl hwf rfl) (State.slotFlags_of_clean hclean a) V
  intro y hy
  exact hwf.ids_lt y (by simp [hids, hy])

/-- The instructions in front of one are determined by it. -/
theorem front_unique {F : Func} (hwf : F.WellFormed) {V U V' U' : List Nat} {y : Nat}
    (h : F.ids = V ++ y :: U) (h' : F.ids = V' ++ y :: U') : V = V' := by
  obtain ⟨hyV, hyU⟩ := fresh_of_split hwf h
  exact ((List.append_cons_inj_of_notMem hyV hyU).1 (h.symm.trans h')).1

variable (hwf : s.func.WellFormed) (hacc : s.func.Accesses a l x)

include hwf hacc

/-- A store is never checked. -/
theorem Func.Accesses.not_authenticated_of_store (hstore : (s.func.instr x).op = .store) :
    ¬ (visited tbi s s.func.ids).func.Authenticated l x := by
  have hspares : ∀ y ∈ s.func.ids, y < s.func.next ∧ Spares tbi s.func y x := fun y hy =>
    ⟨hwf.ids_lt y hy, hacc.spares hwf (fun hop => absurd (hstore.symm.trans hop) (by simp))
      fun hop => absurd (hstore.symm.trans hop) (by simp)⟩
  have hx := hwf.lt_of_op (by simp [hstore] : (s.func.instr x).op ≠ .other "")
  obtain ⟨pre, hd, hkept⟩ := visited_kept hwf hx s.func.ids hspares (Decorated.refl hwf.toLinked)
  apply hd.not_authenticated hwf hacc
  rw [hkept.front]
  exact fun _ hz => absurd hz List.not_mem_nil

/-- Around the instruction whose handler rewrites the access, no handler does. -/
theorem Func.Accesses.spares_around {P D : List Nat} {c : Nat} (hids : s.func.ids = P ++ c :: D)
    (hgep : (s.func.instr x).op = .gep → l = c) (hload : (s.func.instr x).op = .load → x = c) :
    ∀ y ∈ P ++ D, y < s.func.next ∧ Spares tbi s.func y x := by
  intro y hy
  obtain ⟨hcP, hcD⟩ := fresh_of_split hwf hids
  have hne : y ≠ c := by
    rintro rfl
    exact (List.mem_append.1 hy).elim hcP hcD
  refine ⟨hwf.ids_lt y ?_, hacc.spares hwf (fun hop => ?_) fun hop => ?_⟩
  · rw [hids]
    exact List.mem_append.2 ((List.mem_append.1 hy).imp id fun h => List.mem_cons_of_mem c h)
  · rw [hgep hop]
    exact hne
  · rw [hload hop]
    exact hne

/-- A GEP is checked exactly if the slot is marked when its base is visited. -/
theorem Func.Accesses.authenticated_gep_iff (hslot : s.func.Slot a)
    (hgep : (s.func.instr x).op = .gep) (hx : x ∈ s.func.ids) {V U : List Nat}
    (hids : s.func.ids = V ++ l :: U) (hno : ∀ c ∈ V, ¬ s.func.MayTake c l) {f : Option Flags}
    (hf : (visited tbi s V).SlotFlags a f) :
    (visited tbi s s.func.ids).func.Authenticated l x ↔ (visited tbi s V).Marked a := by
  obtain ⟨k, hk, husers⟩ := hacc.users
  rw [hgep] at hk
  obtain rfl := Option.some.inj hk
  have hderef : s.func.Deref a l x := ⟨hacc.load, hgep, husers⟩
  obtain ⟨hlV, hlU⟩ := fresh_of_split hwf hids
  have hb : Behind tbi s.func V (visited tbi s V) := Behind.ofPrefix hwf rfl hids
  have ha := hb.slotOf l a hacc.load hno
  have hvisit := visit_deref hb hwf hslot hderef hlV ha
  have hl : l < s.func.next := hwf.ids_lt l (by simp [hids])
  have hspares : ∀ y ∈ V ++ U, y < s.func.next ∧ Spares tbi s.func y x :=
    hacc.spares_around hwf hids (fun _ => rfl) fun hop => absurd (hgep.symm.trans hop) (by simp)
  have hall : visited tbi s s.func.ids = visited tbi (visit tbi (visited tbi s V) l) U := by
    rw [hids, visited_append, visited_cons]
  constructor
  · intro hauth
    rw [hf.marked_iff]
    by_contra hnot
    -- the visit of `l` changes nothing, and no other one touches `x`
    rw [checkGEP_unarmed ha hf fun c hc => hnot ⟨c, hc⟩] at hvisit
    rw [hall, hvisit, ← visited_append] at hauth
    obtain ⟨pre, hd, hkept⟩ := visited_kept hwf (hwf.ids_lt x hx) (V ++ U) hspares
      (Decorated.refl hwf.toLinked)
    refine hd.not_authenticated hwf hacc ?_ hauth
    rw [hkept.front]
    exact fun _ hz => absurd hz List.not_mem_nil
  · intro hmarked
    obtain ⟨c, rfl⟩ := hf.marked_iff.1 hmarked
    obtain ⟨w, y, z, -, -, -, hz, -, hop, u, hu, hcasts⟩ := checkGEP_armed hb hwf hderef hlV ha hf
    have hb' := hb.step hwf hl
    rw [hall]
    rw [hvisit] at hb' ⊢
    have hchecked : Checked s.func (checkGEP (visited tbi s V) l x).func l :=
      ⟨z, "__GEPCheck", u, hz, by decide, hop, hu, hcasts⟩
    have hU : ∀ y ∈ U, y < s.func.next := fun y hy => (hspares y (List.mem_append_right V hy)).1
    obtain ⟨pre, hd⟩ := hb'.decorated
    obtain ⟨pre', hd'⟩ := (hb'.run hwf U hU).decorated
    exact (visited_checked hwf U hU hd hchecked).authenticated hd' hwf hacc hx

/-- A load is checked exactly if it is not left out and the slot is marked when it is visited. -/
theorem Func.Accesses.authenticated_load_iff (hload : (s.func.instr x).op = .load)
    {P D : List Nat} (hids : s.func.ids = P ++ x :: D) (hno : ∀ c ∈ P, ¬ s.func.MayTake c l)
    {f : Option Flags} (hf : (visited tbi s P).SlotFlags a f) :
    (visited tbi s s.func.ids).func.Authenticated l x ↔
      s.func.Selects x ∧ (visited tbi s P).Marked a := by
  obtain ⟨p, hp, hpl⟩ := hacc.operand (k := 0) hwf (by rw [hload]; rfl)
  have hx : x < s.func.next := hwf.ids_lt x (by simp [hids])
  have hllt := hwf.lt_of_load hacc.load.1
  have hslot : s.func.slotOf x = none := by
    rw [Func.slotOf, hp, Option.bind_some, Func.dynCast, hpl]
    simp [hacc.load.1, Op.isAlloca]
  have hspares : ∀ y ∈ P ++ D, y < s.func.next ∧ Spares tbi s.func y x :=
    hacc.spares_around hwf hids (fun hop => absurd (hload.symm.trans hop) (by simp)) fun _ => rfl
  have hb : Behind tbi s.func P (visited tbi s P) := Behind.ofPrefix hwf rfl hids
  have ha := hb.slotOf l a hacc.load hno
  obtain ⟨pre, hd, hkept⟩ := visited_kept hwf hx P
    (fun y hy => hspares y (List.mem_append_left D hy)) (Decorated.refl hwf.toLinked)
  have hp' : (visited tbi s P).func.operand x 0 = some p := by
    rw [Func.operand, hkept.instr]
    exact hp
  have hl : (visited tbi s P).func.LoadOf a l := ⟨(hd.op l hllt).trans hacc.load.1, ha⟩
  have hsel : loadSelected (visited tbi s P).func x p = true ↔ s.func.Selects x := by
    rw [Func.selects_iff hp]
    have hname : (visited tbi s P).func.nameOf p = s.func.nameOf p := by
      apply hd.nameOf_original
      intro y hy
      rw [hpl] at hy
      exact Ref.inst.inj hy ▸ hllt
    rw [loadSelected, loadSelected, hkept.instr, hname]
  have hvisit := visit_through hd hload hslot hp' hpl hl
  have hall : visited tbi s s.func.ids = visited tbi (visit tbi (visited tbi s P) x) D := by
    rw [hids, visited_append, visited_cons]
  have hD : ∀ y ∈ D, y < s.func.next := fun y hy => (hspares y (List.mem_append_right P hy)).1
  constructor
  · intro hauth
    by_contra hnot
    -- in front of `x` stand casts and `__noCheck` at most, from then on
    have hplain : ∃ pre', Decorated tbi s.func pre' (visit tbi (visited tbi s P) x).func ∧
        ∀ z ∈ pre' x, ((visit tbi (visited tbi s P) x).func.instr z).op = .bitcast ∨
          ((visit tbi (visited tbi s P) x).func.instr z).op = runtimeCall "__noCheck" := by
      have hnil : ∀ z ∈ pre x, ((visited tbi s P).func.instr z).op = .bitcast ∨
          ((visited tbi s P).func.instr z).op = runtimeCall "__noCheck" := by
        rw [hkept.front]
        exact fun _ hz => absurd hz List.not_mem_nil
      rw [hvisit]
      split
      · rename_i h
        refine wraps_plain hload hslot hx (fun f hf => ?_) hd hp' hnil
        obtain ⟨e, he, rfl⟩ := List.mem_map.1 hf
        exact State.check_of_unmarked (fun hm => hnot ⟨hsel.1 h, hm⟩) he
      · exact ⟨pre, hd, hnil⟩
    obtain ⟨pre₁, hd₁, hplain⟩ := hplain
    obtain ⟨pre₂, hd₂, hkept₂⟩ := visited_kept hwf hx D
      (fun y hy => hspares y (List.mem_append_right P hy)) hd₁
    rw [hall] at hauth
    refine hd₂.not_authenticated hwf hacc (fun z hz => ?_) hauth
    rw [hkept₂.front] at hz
    rw [hkept₂.old z hz]
    exact hplain z hz
  · rintro ⟨hselects, hmarked⟩
    obtain ⟨c, rfl⟩ := hf.marked_iff.1 hmarked
    rw [if_pos (hsel.2 hselects)] at hvisit
    have hb' := hb.step hwf hx
    rw [hall]
    rw [hvisit] at hb' ⊢
    obtain ⟨pre', hd'⟩ := hb'.decorated
    obtain ⟨pre₂, hd₂⟩ := (hb'.run hwf D hD).decorated
    have hchecked := wraps_checked hd hload hslot hp' hpl hf
    exact (visited_checked hwf D hD hd' hchecked).authenticated hd₂ hwf hacc (by simp [hids])

end First

/-- **When an access is checked.** -/
theorem access_checked_iff (tbi : Bool) {s : State} (hwf : s.func.WellFormed)
    (hline : s.func.StraightLine) (hdom : s.func.Dominated) {a : Nat} (hslot : s.func.Slot a)
    (hclean : ∀ p ∈ s.pass.pointers, p.fn ≠ s.func.name) {l x : Nat}
    (hacc : s.func.Accesses a l x) (hx : x ∈ s.func.ids) :
    (visited tbi s s.func.ids).func.Authenticated l x ↔ MarkedAtCheck tbi s a l x := by
  obtain ⟨P, D, hids⟩ := List.append_of_mem hx
  have hno := hacc.not_taken hwf hline hdom hids
  obtain ⟨k, hk, -⟩ := hacc.users
  obtain ⟨v, hv, hvl⟩ := hacc.operand hwf hk
  have hphi : (s.func.instr x).op.isPhi = false := by
    generalize (s.func.instr x).op = op at hk
    cases op with
    | phi => exact absurd hk (by simp [Op.address])
    | _ => rfl
  -- the load stands in front of the access
  have hlP : l ∈ P := hdom P x D (hline.path P hids) hphi k v l hv hvl
  obtain ⟨V, U, rfl⟩ := List.append_of_mem hlP
  have hids' : s.func.ids = V ++ l :: (U ++ x :: D) := by rw [hids]; simp
  have hcases : (s.func.instr x).op = .gep ∨ (s.func.instr x).op = .load ∨
      (s.func.instr x).op = .store := by
    generalize (s.func.instr x).op = op at hk
    cases op with
    | gep => exact Or.inl rfl
    | load => exact Or.inr (Or.inl rfl)
    | store => exact Or.inr (Or.inr rfl)
    | _ => exact absurd hk (by simp [Op.address])
  rcases hcases with hgep | hload | hstore
  · obtain ⟨f, hf⟩ := exists_flags hwf hclean hids'
    rw [hacc.authenticated_gep_iff hwf hslot hgep hx hids'
      (fun c hc => hno c (List.mem_append_left _ hc)) hf]
    constructor
    · exact fun hmarked => ⟨V, l, _, hids', hmarked, Or.inl ⟨hgep, rfl⟩⟩
    · rintro ⟨V', y, U', hsplit, hmarked, ⟨-, rfl⟩ | ⟨hop, -⟩⟩
      · rw [front_unique hwf hids' hsplit]
        exact hmarked
      · exact absurd (hgep.symm.trans hop) (by simp)
  · obtain ⟨f, hf⟩ := exists_flags hwf hclean hids
    rw [hacc.authenticated_load_iff hwf hload hids hno hf]
    constructor
    · rintro ⟨hselects, hmarked⟩
      exact ⟨_, x, D, hids, hmarked, Or.inr ⟨hload, hselects, rfl⟩⟩
    · rintro ⟨P', y, D', hsplit, hmarked, ⟨hop, -⟩ | ⟨-, hselects, rfl⟩⟩
      · exact absurd (hload.symm.trans hop) (by simp)
      · rw [front_unique hwf hids hsplit]
        exact ⟨hselects, hmarked⟩
  · apply iff_of_false (hacc.not_authenticated_of_store hwf hstore)
    rintro ⟨-, -, -, -, -, ⟨hop, -⟩ | ⟨hop, -⟩⟩
    · exact absurd (hstore.symm.trans hop) (by simp)
    · exact absurd (hstore.symm.trans hop) (by simp)

/-- **The first access through an armed slot** is checked exactly if it is a GEP and the slot is
still marked when its base is visited, or a load that `instrumentLoad` does not leave out, so of a
pointer, and the slot is marked when it is visited. Stores and other loads are never checked. -/
theorem first_access_checked_iff (tbi : Bool) {s : State} (hwf : s.func.WellFormed)
    (hline : s.func.StraightLine) (hdom : s.func.Dominated) {a : Nat} (hslot : s.func.Slot a)
    (hclean : ∀ p ∈ s.pass.pointers, p.fn ≠ s.func.name) :
    ∃ N, ∀ fuel, N ≤ fuel → ∃ t, walk tbi fuel s = some t ∧
      ∀ A l x, FirstAccess tbi s a A l x →
        (t.func.Authenticated l x ↔ MarkedAtCheck tbi s a l x) := by
  obtain ⟨N, hN⟩ := walk_eq tbi hwf
  refine ⟨N, fun fuel hfuel => ⟨_, hN fuel hfuel, ?_⟩⟩
  rintro A l x ⟨-, hacc, C, D, hids, -⟩
  exact access_checked_iff tbi hwf hline hdom hslot hclean hacc (by simp [hids])

/-! ### A store through an armed slot -/

/-- `p = q; use(p); *p = 5;` -/
def useThenStore : Func :=
  Func.ofInstrs "main" [[0, 1, 2, 3, 4, 5, 6]]
    [⟨.alloca (.ptr (.int 32)), [], .ptr (.ptr (.int 32)), "p"⟩,
      ⟨.store, [⟨.argument "q", .ptr (.int 32)⟩, ⟨.inst 0, .ptr (.ptr (.int 32))⟩], .other "void", ""⟩,
      ⟨.load, [⟨.inst 0, .ptr (.ptr (.int 32))⟩], .ptr (.int 32), ""⟩,
      ⟨.call (some ⟨"use", false⟩) none, [⟨.inst 2, .ptr (.int 32)⟩], .other "void", ""⟩,
      ⟨.load, [⟨.inst 0, .ptr (.ptr (.int 32))⟩], .ptr (.int 32), ""⟩,
      ⟨.store, [⟨.constantInt 5, .int 32⟩, ⟨.inst 4, .ptr (.int 32)⟩], .other "void", ""⟩,
      ⟨.ret, [], .other "void", ""⟩]

theorem useThenStore_wellFormed : useThenStore.WellFormed :=
  Func.wellFormed_ofInstrs (by decide) (by decide) (by decide)

theorem useThenStore_slot : useThenStore.Slot 0 :=
  Func.slot_of_intPtr rfl rfl (by decide)

theorem useThenStore_straightLine : useThenStore.StraightLine :=
  ⟨[0, 1, 2, 3, 4, 5], 6, rfl, rfl, by decide⟩

theorem useThenStore_dominated : useThenStore.Dominated :=
  Func.Available.dominated (by decide : useThenStore.Available fun _ => []) (by decide)

theorem useThenStore_accesses : useThenStore.Accesses 0 4 5 where
  load := ⟨rfl, rfl⟩
  users := ⟨1, rfl, rfl⟩

/-- The store is the first access behind the call. -/
theorem useThenStore_firstAccess :
    FirstAccess true (State.start useThenStore) 0 [0, 1, 2, 3] 4 5 := by
  refine ⟨?_, useThenStore_accesses, [4], [6], rfl, fun y hy l' hacc => ?_⟩
  · rw [State.Marked]
    decide +kernel
  · obtain rfl := List.mem_singleton.1 hy
    -- the address of the load in between is the slot
    obtain ⟨v, hv, hvl⟩ := hacc.operand useThenStore_wellFormed (k := 0) rfl
    obtain rfl := Option.some.inj hv
    obtain rfl := Ref.inst.inj hvl
    exact absurd hacc.load.1 (by decide)

/-- **The store is not checked.** -/
theorem first_access_not_checked :
    ¬ ∀ (s : State) (a : Nat), s.func.WellFormed → s.func.StraightLine → s.func.Dominated →
      s.func.Slot a → (∀ p ∈ s.pass.pointers, p.fn ≠ s.func.name) →
        ∃ N, ∀ fuel, N ≤ fuel → ∃ t, walk true fuel s = some t ∧
          ∀ A l x, FirstAccess true s a A l x → t.func.Authenticated l x := by
  intro h
  have hchecked := visited_of_walk useThenStore_wellFormed (h (State.start useThenStore) 0
    useThenStore_wellFormed useThenStore_straightLine useThenStore_dominated useThenStore_slot
    fun _ hp => absurd hp List.not_mem_nil)
  exact useThenStore_accesses.not_authenticated_of_store (s := State.start useThenStore)
    useThenStore_wellFormed rfl (hchecked [0, 1, 2, 3] 4 5 useThenStore_firstAccess)

/-- The statement of `first_access_checked_iff` at this function. -/
theorem useThenStore_checked_iff :
    ∃ N, ∀ fuel, N ≤ fuel → ∃ t, walk true fuel (State.start useThenStore) = some t ∧
      ∀ A l x, FirstAccess true (State.start useThenStore) 0 A l x →
        (t.func.Authenticated l x ↔ MarkedAtCheck true (State.start useThenStore) 0 l x) :=
  first_access_checked_iff true useThenStore_wellFormed useThenStore_straightLine
    useThenStore_dominated useThenStore_slot fun _ hp => absurd hp List.not_mem_nil

end PTAuth.Pass
