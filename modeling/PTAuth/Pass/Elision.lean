import Mathlib.Data.List.Induction
import PTAuth.Library.History
import PTAuth.Pass.Context

/-!
# Elided nested checks

At a nested dereference `instrumentLoad` inserts a `__nestedGEPCheck` only while `GEPS` is empty.
With something in `GEPS` it only records the type of the base, also a type that no check was
inserted for. So `GEPS` holds the types of all dereferences met since it was emptied last, and the
one check inserted since then is that of its first entry (`ledger_run`). An elided check has a check
of its type before it exactly as long as all these dereferences have one type
(`elisions_justified_iff`).
-/

set_option autoImplicit false

namespace PTAuth.Pass

/-- `instrumentLoad` looks into `GEPS` for the type `ty` at `x`. -/
def Func.AsksType (F : Func) (x : Nat) (ty : Ty) : Prop :=
  ∃ g base, F.Nested x g base ∧ F.nameOf base ∉ globalVarsAvoidList ∧
    isNestedGEPCheck F base = false ∧ base.ty = ty

theorem Func.asksNested_iff {F : Func} {x : Nat} : F.AsksNested x ↔ ∃ ty, F.AsksType x ty := by
  constructor
  · rintro ⟨g, base, hnested, hname, hcheck⟩
    exact ⟨base.ty, g, base, hnested, hname, hcheck, rfl⟩
  · rintro ⟨ty, g, base, hnested, hname, hcheck, -⟩
    exact ⟨g, base, hnested, hname, hcheck⟩

section Elision

variable {tbi : Bool} {F₀ : Func} {pre : Nat → List Nat} {s : State} {x : Nat} {ty ty' : Ty}

/-! ## Runs -/

/-- Behind the instructions `A`, a nested dereference of type `ty` is met at `x`. -/
def Meets (tbi : Bool) (s : State) (ty : Ty) (A : List Nat) (x : Nat) : Prop :=
  (visited tbi s A).func.AsksType x ty

/-- Behind the instructions `A`, the visit of `x` inserts a `__nestedGEPCheck`. -/
def Emits (tbi : Bool) (s : State) (A : List Nat) (x : Nat) : Prop :=
  ∃ i ∈ (visited tbi s (A ++ [x])).inserted.drop (visited tbi s A).inserted.length,
    i.check = "__nestedGEPCheck"

/-- A nested dereference of type `ty` was met since `GEPS` was emptied last. -/
def MetSince (tbi : Bool) (s : State) (ty : Ty) (A : List Nat) : Prop :=
  Since (Meets tbi s ty) s.func.Clears A

/-- A `__nestedGEPCheck` was inserted for one. -/
def EmittedSince (tbi : Bool) (s : State) (ty : Ty) (A : List Nat) : Prop :=
  Since (fun B y => Meets tbi s ty B y ∧ Emits tbi s B y) s.func.Clears A

/-- Where no check is inserted, one of the same type was. -/
def ElisionsJustified (tbi : Bool) (s : State) (xs : List Nat) : Prop :=
  ∀ A x B ty, xs = A ++ x :: B → Meets tbi s ty A x → ¬ Emits tbi s A x → EmittedSince tbi s ty A

/-- Every type that is recorded as checked has had its check inserted. -/
def RecordsJustified (tbi : Bool) (s : State) (xs : List Nat) : Prop :=
  ∀ A B, xs = A ++ B → ∀ e ∈ (visited tbi s A).pass.geps, e.isCheckedBefore = true →
    EmittedSince tbi s e.type A

/-- All nested dereferences met since `GEPS` was emptied last have one type. -/
def OneType (tbi : Bool) (s : State) (xs : List Nat) : Prop :=
  ∀ A x B ty ty', xs = A ++ x :: B → Meets tbi s ty A x → MetSince tbi s ty' A → ty' = ty

/-! ## What a visit does to `GEPS` -/

/-- The type that is looked for is that of the base. -/
theorem Func.AsksType.unique {F : Func} (h : F.AsksType x ty) (h' : F.AsksType x ty') :
    ty = ty' := by
  obtain ⟨-, base, ⟨-, ⟨p, g, hp, -, hg, hbase⟩, -, -⟩, -, -, rfl⟩ := h
  obtain ⟨-, base', ⟨-, ⟨p', g', hp', -, hg', hbase'⟩, -, -⟩, -, -, rfl⟩ := h'
  obtain rfl := Option.some.inj (hp.symm.trans hp')
  obtain rfl := Option.some.inj (hg.symm.trans hg')
  obtain rfl := Option.some.inj (hbase.symm.trans hbase')
  rfl

/-- A dereference is no call. -/
theorem Func.AsksType.not_clears (h : s.func.AsksType x ty) (hd : Decorated tbi F₀ pre s.func)
    (hx : x < F₀.next) : ¬ F₀.Clears x := by
  obtain ⟨-, -, ⟨hload, -, -, -⟩, -⟩ := h
  rintro ⟨v, callee, returned, i, hop, -⟩
  rw [hd.op x hx, hop] at hload
  exact absurd hload (by simp)

/-- With empty `GEPS` the check is inserted, and its type is recorded. -/
theorem visit_first (tbi : Bool) (h : s.func.AsksType x ty) (hempty : s.pass.geps = []) :
    (visit tbi s x).pass.geps = [⟨ty, true⟩] ∧
      ∃ i, (visit tbi s x).inserted = s.inserted ++ [i] ∧ i.check = "__nestedGEPCheck" := by
  obtain ⟨g, base, hnested, hname, hcheck, rfl⟩ := h
  rw [visit_of_nested tbi hnested hname hcheck, if_pos hempty]
  exact ⟨rfl, _, rfl, rfl⟩

/-- With something in `GEPS` no check is inserted; the type is recorded. -/
theorem visit_later (tbi : Bool) (h : s.func.AsksType x ty) (hgeps : s.pass.geps ≠ []) :
    (visit tbi s x).inserted = s.inserted ∧
      ((visit tbi s x).pass.geps = s.pass.geps ∧ (∃ e ∈ s.pass.geps, e.type = ty) ∨
        (visit tbi s x).pass.geps = s.pass.geps ++ [⟨ty, true⟩]) := by
  obtain ⟨g, base, hnested, hname, hcheck, rfl⟩ := h
  rw [visit_of_nested tbi hnested hname hcheck, if_neg hgeps]
  split
  · rename_i hany
    obtain ⟨e, he, hty⟩ := List.any_eq_true.1 hany
    exact ⟨rfl, Or.inl ⟨rfl, e, he, beq_iff_eq.1 hty⟩⟩
  · exact ⟨rfl, Or.inr rfl⟩

/-! ## The record -/

/-- What `GEPS` says of the instructions `A`: all types met, and in front the one with a check. -/
structure Ledger (tbi : Bool) (s : State) (A : List Nat) : Prop where
  front : Front tbi s.func (visited tbi s A).func
  met : ∀ ty, MetSince tbi s ty A ↔ ∃ e ∈ (visited tbi s A).pass.geps, e.type = ty
  emitted : ∀ ty, EmittedSince tbi s ty A ↔
    ∃ e, (visited tbi s A).pass.geps.head? = some e ∧ e.type = ty
  checked : ∀ e ∈ (visited tbi s A).pass.geps, e.isCheckedBefore = true

/-- The visit in front of `x` is that of the state there. -/
theorem visited_snoc (tbi : Bool) (s : State) (A : List Nat) (x : Nat) :
    visited tbi s (A ++ [x]) = visit tbi (visited tbi s A) x := by
  rw [visited_append, visited_cons, visited_nil]

/-- At a nested dereference a check is inserted exactly if `GEPS` is empty. -/
theorem emits_iff {A : List Nat} (h : Meets tbi s ty A x) :
    Emits tbi s A x ↔ (visited tbi s A).pass.geps = [] := by
  rw [Emits, visited_snoc]
  constructor
  · rintro ⟨i, hi, -⟩
    by_contra hgeps
    rw [(visit_later tbi h hgeps).1, List.drop_length] at hi
    exact absurd hi List.not_mem_nil
  · intro hempty
    obtain ⟨-, i, hinserted, hcheck⟩ := visit_first tbi h hempty
    rw [hinserted, List.drop_left]
    exact ⟨i, List.mem_singleton_self i, hcheck⟩

/-- A visit that empties nothing adds what it meets. -/
theorem metSince_snoc {A : List Nat} (hclears : ¬ s.func.Clears x) :
    MetSince tbi s ty (A ++ [x]) ↔ Meets tbi s ty A x ∨ MetSince tbi s ty A := by
  rw [MetSince, since_snoc, and_iff_left hclears, ← MetSince]

theorem emittedSince_snoc {A : List Nat} (hclears : ¬ s.func.Clears x) :
    EmittedSince tbi s ty (A ++ [x]) ↔
      (Meets tbi s ty A x ∧ Emits tbi s A x) ∨ EmittedSince tbi s ty A := by
  rw [EmittedSince, since_snoc, and_iff_left hclears, ← EmittedSince]

theorem Ledger.nil (tbi : Bool) (hwf : s.func.WellFormed) (hempty : s.pass.geps = []) :
    Ledger tbi s [] where
  front := Front.refl tbi hwf.toLinked
  met := by
    intro ty
    rw [visited_nil, hempty]
    exact ⟨fun h => absurd h not_since_nil, fun h => absurd h (by simp)⟩
  emitted := by
    intro ty
    rw [visited_nil, hempty]
    exact ⟨fun h => absurd h not_since_nil, fun h => absurd h (by simp)⟩
  checked := by
    rw [visited_nil, hempty]
    exact fun _ he => absurd he List.not_mem_nil

section Step

variable {A : List Nat} (h : Ledger tbi s A) (hwf : s.func.WellFormed) (hx : x < s.func.next)

include h hwf hx

theorem Ledger.front_step : Front tbi s.func (visited tbi s (A ++ [x])).func := by
  rw [visited_snoc]
  exact h.front.visit hwf hx

/-- A call that empties `GEPS`: nothing is recorded, and nothing counts as met. -/
theorem Ledger.step_clears (hclears : s.func.Clears x) : Ledger tbi s (A ++ [x]) := by
  obtain ⟨pre, hd⟩ := h.front.decorated
  have hgeps : (visited tbi s (A ++ [x])).pass.geps = [] := by
    rw [visited_snoc]
    exact visit_geps_of_clears hd hx hclears
  have hnot : ∀ ty, ¬ Meets tbi s ty A x := fun ty hmeets => hmeets.not_clears hd hx hclears
  refine ⟨h.front_step hwf hx, fun ty => ?_, fun ty => ?_, ?_⟩
  · rw [MetSince, since_snoc, hgeps]
    simp [hnot ty, hclears]
  · rw [EmittedSince, since_snoc, hgeps]
    simp [hnot ty, hclears]
  · rw [hgeps]
    exact fun _ he => absurd he List.not_mem_nil

/-- The first dereference: it is the only one, and has a check. -/
theorem Ledger.step_first (hclears : ¬ s.func.Clears x) (hmeets : Meets tbi s ty A x)
    (hempty : (visited tbi s A).pass.geps = []) : Ledger tbi s (A ++ [x]) := by
  have hty : ∀ ty', Meets tbi s ty' A x ↔ ty = ty' := fun ty' =>
    ⟨fun h' => hmeets.unique h', fun he => he ▸ hmeets⟩
  have hemits := emits_iff hmeets
  have hgeps : (visited tbi s (A ++ [x])).pass.geps = [⟨ty, true⟩] := by
    rw [visited_snoc]
    exact (visit_first tbi hmeets hempty).1
  refine ⟨h.front_step hwf hx, fun ty' => ?_, fun ty' => ?_, ?_⟩
  · rw [metSince_snoc hclears, h.met, hty, hempty, hgeps]
    simp
  · rw [emittedSince_snoc hclears, h.emitted, hty, hemits, hempty, hgeps]
    simp
  · rw [hgeps]
    simp

/-- A later dereference is recorded, and has none. -/
theorem Ledger.step_later (hclears : ¬ s.func.Clears x) (hmeets : Meets tbi s ty A x)
    (hempty : (visited tbi s A).pass.geps ≠ []) : Ledger tbi s (A ++ [x]) := by
  have hty : ∀ ty', Meets tbi s ty' A x ↔ ty = ty' := fun ty' =>
    ⟨fun h' => hmeets.unique h', fun he => he ▸ hmeets⟩
  have hemits := emits_iff hmeets
  obtain ⟨-, hgeps⟩ := visit_later tbi hmeets hempty
  rw [← visited_snoc] at hgeps
  have hhead : (visited tbi s (A ++ [x])).pass.geps.head? =
      (visited tbi s A).pass.geps.head? := by
    rcases hgeps with ⟨heq, -⟩ | heq
    · rw [heq]
    · rw [heq, List.head?_append_of_ne_nil _ hempty]
  refine ⟨h.front_step hwf hx, fun ty' => ?_, fun ty' => ?_, ?_⟩
  · rw [metSince_snoc hclears, h.met, hty]
    rcases hgeps with ⟨heq, hmem⟩ | heq
    · rw [heq]
      refine or_iff_right_of_imp ?_
      rintro rfl
      exact hmem
    · rw [heq]
      simp only [List.mem_append, List.mem_singleton, or_and_right, exists_or, exists_eq_left]
      exact or_comm
  · rw [emittedSince_snoc hclears, h.emitted, hemits, hhead, or_iff_right fun he => hempty he.2]
  · intro e he
    rcases hgeps with ⟨heq, -⟩ | heq
    · rw [heq] at he
      exact h.checked e he
    · rw [heq, List.mem_append, List.mem_singleton] at he
      rcases he with he | rfl
      · exact h.checked e he
      · rfl

/-- Elsewhere `GEPS` stays as it is. -/
theorem Ledger.step_blind (hclears : ¬ s.func.Clears x) (hnot : ∀ ty, ¬ Meets tbi s ty A x) :
    Ledger tbi s (A ++ [x]) := by
  obtain ⟨pre, hd⟩ := h.front.decorated
  have hgeps : (visited tbi s (A ++ [x])).pass.geps = (visited tbi s A).pass.geps := by
    rw [visited_snoc]
    apply visit_geps_of_blind hwf hd _ hclears hx
    rw [Func.asksNested_iff]
    exact not_exists.2 hnot
  refine ⟨h.front_step hwf hx, fun ty => ?_, fun ty => ?_, ?_⟩
  · rw [metSince_snoc hclears, h.met, hgeps, or_iff_right (hnot ty)]
  · rw [emittedSince_snoc hclears, h.emitted, hgeps, or_iff_right fun he => hnot ty he.1]
  · rw [hgeps]
    exact h.checked

/-- **One visit.** -/
theorem Ledger.step : Ledger tbi s (A ++ [x]) := by
  by_cases hclears : s.func.Clears x
  · exact h.step_clears hwf hx hclears
  by_cases hasks : ∃ ty, Meets tbi s ty A x
  · obtain ⟨ty, hmeets⟩ := hasks
    by_cases hempty : (visited tbi s A).pass.geps = []
    · exact h.step_first hwf hx hclears hmeets hempty
    · exact h.step_later hwf hx hclears hmeets hempty
  · exact h.step_blind hwf hx hclears (not_exists.1 hasks)

end Step

/-- **A run.** -/
theorem ledger_run (tbi : Bool) (hwf : s.func.WellFormed) (hempty : s.pass.geps = [])
    (A : List Nat) (hA : ∀ x ∈ A, x < s.func.next) : Ledger tbi s A := by
  induction A using List.reverseRecOn with
  | nil => exact Ledger.nil tbi hwf hempty
  | append_singleton A x ih =>
      apply (ih fun y hy => hA y (List.mem_append_left _ hy)).step hwf
      exact hA x (by simp)

/-! ## Justification -/

section Run

variable {xs : List Nat}

/-- A dereference empties nothing, and the instructions behind it count for those in front. -/
theorem EmittedSince.append {A B : List Nat} (h : EmittedSince tbi s ty A)
    (hA : Ledger tbi s A) (hx : x < s.func.next) (hmeets : Meets tbi s ty' A x)
    (hB : ∀ c ∈ B, ¬ s.func.Clears c) : EmittedSince tbi s ty (A ++ x :: B) := by
  obtain ⟨pre, hd⟩ := hA.front.decorated
  apply Since.append h
  intro y hy
  rcases List.mem_cons.1 hy with rfl | hy
  · exact hmeets.not_clears hd hx
  · exact hB y hy

/-- With justified elisions, every type met has its check. -/
theorem ElisionsJustified.emitted (h : ElisionsJustified tbi s xs) (hwf : s.func.WellFormed)
    (hempty : s.pass.geps = []) (hxs : ∀ x ∈ xs, x < s.func.next) {A B : List Nat}
    (hsplit : xs = A ++ B) (hmet : MetSince tbi s ty A) : EmittedSince tbi s ty A := by
  obtain ⟨V, y, W, rfl, hmeets, hW⟩ := hmet
  by_cases hemits : Emits tbi s V y
  · exact ⟨V, y, W, rfl, ⟨hmeets, hemits⟩, hW⟩
  · have hbefore := h V y (W ++ B) ty (by simp [hsplit]) hmeets hemits
    have hlt : ∀ z ∈ V ++ [y], z < s.func.next := fun z hz => hxs z (by
      rw [hsplit, List.append_assoc]
      refine List.mem_append.2 ((List.mem_append.1 hz).imp id fun hz => ?_)
      rw [List.mem_singleton.1 hz]
      exact List.mem_cons_self)
    exact hbefore.append (ledger_run tbi hwf hempty V fun z hz => hlt z (by simp [hz]))
      (hlt y (by simp)) hmeets hW

/-- The types with a check are one. -/
theorem Ledger.emitted_unique {A : List Nat} (h : Ledger tbi s A) (hty : EmittedSince tbi s ty A)
    (hty' : EmittedSince tbi s ty' A) : ty' = ty := by
  obtain ⟨e, he, rfl⟩ := (h.emitted ty).1 hty
  obtain ⟨e', he', rfl⟩ := (h.emitted ty').1 hty'
  rw [Option.some.inj (he.symm.trans he')]

variable (hwf : s.func.WellFormed) (hempty : s.pass.geps = []) (hxs : ∀ x ∈ xs, x < s.func.next)

include hwf hempty hxs

theorem ledger_of_split {A B : List Nat} (hsplit : xs = A ++ B) : Ledger tbi s A :=
  ledger_run tbi hwf hempty A fun x hx => hxs x (by simp [hsplit, hx])

/-- Two types cannot both have their check. -/
theorem ElisionsJustified.oneType (h : ElisionsJustified tbi s xs) : OneType tbi s xs := by
  intro A x B ty ty' hsplit hmeets hmet
  have hledger : Ledger tbi s A := ledger_of_split hwf hempty hxs hsplit
  obtain ⟨e, he, -⟩ := (hledger.met ty').1 hmet
  have hnot : ¬ Emits tbi s A x := by
    rw [emits_iff hmeets]
    exact List.ne_nil_of_mem he
  exact hledger.emitted_unique (h A x B ty hsplit hmeets hnot)
    (h.emitted hwf hempty hxs hsplit hmet)

theorem RecordsJustified.oneType (h : RecordsJustified tbi s xs) : OneType tbi s xs := by
  intro A x B ty ty' hsplit hmeets hmet
  have hsplit' : xs = (A ++ [x]) ++ B := by simp [hsplit]
  have hledger : Ledger tbi s (A ++ [x]) := ledger_of_split hwf hempty hxs hsplit'
  have hx : x < s.func.next := hxs x (by simp [hsplit])
  obtain ⟨pre, hd⟩ := (ledger_of_split hwf hempty hxs hsplit : Ledger tbi s A).front.decorated
  -- behind `x` both types are recorded
  have hboth : ∀ u, MetSince tbi s u (A ++ [x]) → EmittedSince tbi s u (A ++ [x]) := by
    intro u hu
    obtain ⟨e, he, rfl⟩ := (hledger.met u).1 hu
    exact h _ B hsplit' e he (hledger.checked e he)
  apply hledger.emitted_unique
  · exact hboth ty (since_snoc.2 (Or.inl hmeets))
  · exact hboth ty' (since_snoc.2 (Or.inr ⟨hmet, hmeets.not_clears hd hx⟩))

/-- With one type, the check of the first dereference is of every type met. -/
theorem OneType.elisionsJustified (h : OneType tbi s xs) : ElisionsJustified tbi s xs := by
  intro A x B ty hsplit hmeets hnot
  have hledger : Ledger tbi s A := ledger_of_split hwf hempty hxs hsplit
  rw [emits_iff hmeets] at hnot
  obtain ⟨e, l, hgeps⟩ := List.exists_cons_of_ne_nil hnot
  have hmet : MetSince tbi s e.type A := (hledger.met e.type).2 ⟨e, by simp [hgeps], rfl⟩
  exact (hledger.emitted ty).2 ⟨e, by simp [hgeps], h A x B ty e.type hsplit hmeets hmet⟩

theorem ElisionsJustified.recordsJustified (h : ElisionsJustified tbi s xs) :
    RecordsJustified tbi s xs := by
  intro A B hsplit e he _
  apply h.emitted hwf hempty hxs hsplit
  exact ((ledger_of_split hwf hempty hxs hsplit).met e.type).2 ⟨e, he, rfl⟩

end Run

/-- **When elided checks are justified**, in both readings: as long as all nested dereferences met
since `GEPS` was emptied last have one type. -/
theorem elisions_justified_iff (tbi : Bool) {s : State} (hwf : s.func.WellFormed)
    (hempty : s.pass.geps = []) {xs : List Nat} (hxs : ∀ x ∈ xs, x < s.func.next) :
    (ElisionsJustified tbi s xs ↔ OneType tbi s xs) ∧
      (RecordsJustified tbi s xs ↔ OneType tbi s xs) :=
  ⟨⟨fun h => h.oneType hwf hempty hxs, fun h => h.elisionsJustified hwf hempty hxs⟩,
    ⟨fun h => h.oneType hwf hempty hxs, fun h =>
      (h.elisionsJustified hwf hempty hxs).recordsJustified hwf hempty hxs⟩⟩

end Elision

/-! ### Two types -/

/-- `void f(int **p, char **q) { &p[1][1]; &q[1][1]; }` -/
def twoTypes : Func :=
  Func.ofInstrs "f" [[0, 1, 2, 3, 4, 5, 6]]
    [⟨.gep, [⟨.argument "p", .ptr (.ptr (.int 32))⟩, ⟨.constantInt 1, .int 64⟩],
        .ptr (.ptr (.int 32)), ""⟩,
      ⟨.load, [⟨.inst 0, .ptr (.ptr (.int 32))⟩], .ptr (.int 32), ""⟩,
      ⟨.gep, [⟨.inst 1, .ptr (.int 32)⟩, ⟨.constantInt 1, .int 64⟩], .ptr (.int 32), ""⟩,
      ⟨.gep, [⟨.argument "q", .ptr (.ptr (.int 8))⟩, ⟨.constantInt 1, .int 64⟩],
        .ptr (.ptr (.int 8)), ""⟩,
      ⟨.load, [⟨.inst 3, .ptr (.ptr (.int 8))⟩], .ptr (.int 8), ""⟩,
      ⟨.gep, [⟨.inst 4, .ptr (.int 8)⟩, ⟨.constantInt 1, .int 64⟩], .ptr (.int 8), ""⟩,
      ⟨.ret, [], .other "void", ""⟩]

theorem twoTypes_wellFormed : twoTypes.WellFormed :=
  Func.wellFormed_ofInstrs (by decide) (by decide) (by decide)

/-- The second dereference has no check, and neither has its type. -/
theorem not_elisions_justified :
    ¬ ∀ s : State, s.func.WellFormed → s.pass.geps = [] → ElisionsJustified true s s.func.ids := by
  intro h
  have hone := (h ⟨twoTypes, ⟨[], [], false, false⟩, []⟩ twoTypes_wellFormed rfl).oneType
    twoTypes_wellFormed rfl twoTypes_wellFormed.ids_lt
  have htypes := hone [0, 1, 2, 3] 4 [5, 6] (.ptr (.ptr (.int 8))) (.ptr (.ptr (.int 32))) rfl ?_
    ⟨[0], 1, [2, 3], rfl, ?_, ?_⟩
  · exact absurd htypes (by decide)
  · refine ⟨5, ⟨.argument "q", .ptr (.ptr (.int 8))⟩, ⟨?_, ?_, ⟨0, ?_⟩, ?_⟩, ?_, ?_, rfl⟩
    · decide +kernel
    · exact ⟨⟨.inst 3, .ptr (.ptr (.int 8))⟩, 3, by decide +kernel, by decide +kernel,
        by decide +kernel, by decide +kernel⟩
    · decide +kernel
    · decide +kernel
    · decide +kernel
    · decide +kernel
  · refine ⟨2, ⟨.argument "p", .ptr (.ptr (.int 32))⟩, ⟨?_, ?_, ⟨0, ?_⟩, ?_⟩, ?_, ?_, rfl⟩
    · decide +kernel
    · exact ⟨⟨.inst 0, .ptr (.ptr (.int 32))⟩, 0, by decide +kernel, by decide +kernel,
        by decide +kernel, by decide +kernel⟩
    · decide +kernel
    · decide +kernel
    · decide +kernel
    · decide +kernel
  · rintro c hc ⟨v, hands⟩
    obtain ⟨callee, returned, hop⟩ := hands.op
    simp only [List.mem_cons, List.not_mem_nil, or_false] at hc
    rcases hc with rfl | rfl
    · exact absurd hop (by simp [twoTypes, Func.ofInstrs])
    · exact absurd hop (by simp [twoTypes, Func.ofInstrs])

/-- The statement of `elisions_justified_iff` at this function. -/
theorem twoTypes_justified_iff :
    (ElisionsJustified true ⟨twoTypes, ⟨[], [], false, false⟩, []⟩ twoTypes.ids ↔
        OneType true ⟨twoTypes, ⟨[], [], false, false⟩, []⟩ twoTypes.ids) ∧
      (RecordsJustified true ⟨twoTypes, ⟨[], [], false, false⟩, []⟩ twoTypes.ids ↔
        OneType true ⟨twoTypes, ⟨[], [], false, false⟩, []⟩ twoTypes.ids) :=
  elisions_justified_iff true (s := ⟨twoTypes, ⟨[], [], false, false⟩, []⟩) twoTypes_wellFormed rfl
    twoTypes_wellFormed.ids_lt

end PTAuth.Pass
