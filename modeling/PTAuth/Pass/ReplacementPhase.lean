import Mathlib.Algebra.Order.BigOperators.Group.List
import Mathlib.Algebra.Order.Group.Nat
import PTAuth.Pass.Replacement

/-!
# What the replacement phase leaves

Every function of the module that is replaced goes through `replaceFuncionWith` once. A step of the
phase keeps what the earlier ones reached (`Progress`): the functions they replaced stay without
uses, and the names they gave out are no names of the module.
-/

set_option autoImplicit false

namespace PTAuth.Pass

/-! ## Creating a function -/

section Create

variable {M M' : Module} {func custom : String}

theorem Module.mem_functions_create (hfunc : func ∈ M.functions) {G : String} :
    G ∈ (M.create func custom).functions ↔ G = custom ∨ G ∈ M.functions := by
  show G ∈ M.functions.flatMap _ ↔ _
  rw [List.mem_flatMap]
  constructor
  · rintro ⟨g, hg, hG⟩
    split at hG
    · rcases List.mem_cons.1 hG with rfl | hG
      · exact Or.inl rfl
      · rw [List.mem_singleton.1 hG]
        exact Or.inr hg
    · rw [List.mem_singleton.1 hG]
      exact Or.inr hg
  · rintro (rfl | hG)
    · exact ⟨func, hfunc, by simp⟩
    · refine ⟨G, hG, ?_⟩
      split
      · exact List.mem_cons_of_mem _ List.mem_cons_self
      · exact List.mem_cons_self

theorem Module.functions_sublist_create : M.functions.Sublist (M.create func custom).functions := by
  show List.Sublist _ (M.functions.flatMap _)
  induction M.functions with
  | nil => exact List.Sublist.slnil
  | cons g gs ih =>
      rw [List.flatMap_cons]
      split
      · exact (ih.cons_cons g).cons custom
      · exact ih.cons_cons g

theorem Module.nodup_functions_create (hnodup : M.functions.Nodup) (hcustom : custom ∉ M.functions) :
    (M.create func custom).functions.Nodup := by
  show (M.functions.flatMap _).Nodup
  rw [List.nodup_flatMap]
  constructor
  · intro g hg
    split
    · have hne : custom ≠ g := fun h => hcustom (h ▸ hg)
      simp [hne]
    · exact List.nodup_singleton g
  · refine hnodup.imp_of_mem fun {a b} ha hb hab => ?_
    have hac : a ≠ custom := fun h => hcustom (h ▸ ha)
    have hbc : b ≠ custom := fun h => hcustom (h ▸ hb)
    intro g hga hgb
    beta_reduce at hga hgb
    split at hga <;> split at hgb <;> simp_all

theorem Module.body_create_of_ne {G : String} (h : G ≠ custom) :
    (M.create func custom).body G = M.body G :=
  Function.update_of_ne h _ _

theorem Module.ids_create_self : ((M.create func custom).body custom).ids = [] := by
  show (Function.update M.body custom _ custom).ids = []
  rw [Function.update_self]
  rfl

/-- The new function has no body, and nothing uses it. -/
theorem Module.isUse_create (hfunc : func ∈ M.functions) (hcustom : custom ∉ M.functions)
    {g : String} {u : FunctionUse} : (M.create func custom).IsUse g u ↔ M.IsUse g u := by
  constructor
  · rintro ⟨huser, hmem, huses⟩
    have hne : u.user ≠ custom := by
      intro h
      rw [h, Module.ids_create_self] at hmem
      exact List.not_mem_nil hmem
    rw [Module.body_create_of_ne hne] at hmem huses
    exact ⟨((Module.mem_functions_create hfunc).1 huser).resolve_left hne, hmem, huses⟩
  · rintro ⟨huser, hmem, huses⟩
    have hne : u.user ≠ custom := fun h => hcustom (h ▸ huser)
    refine ⟨(Module.mem_functions_create hfunc).2 (Or.inr huser), ?_, ?_⟩
    · rwa [Module.body_create_of_ne hne]
    · rwa [Module.body_create_of_ne hne]

theorem Module.Consistent.create (hM : M.Consistent) (hfunc : func ∈ M.functions)
    (hcustom : custom ∉ M.functions) : (M.create func custom).Consistent := by
  have hbody : ∀ G ∈ (M.create func custom).functions, ∀ x ∈ ((M.create func custom).body G).ids,
      G ∈ M.functions ∧ x ∈ (M.body G).ids ∧ (M.create func custom).body G = M.body G := by
    intro G hG x hx
    have hne : G ≠ custom := by
      rintro rfl
      rw [Module.ids_create_self] at hx
      exact List.not_mem_nil hx
    have hsame : (M.create func custom).body G = M.body G := Module.body_create_of_ne hne
    rw [hsame] at hx
    exact ⟨((Module.mem_functions_create hfunc).1 hG).resolve_left hne, hx, hsame⟩
  refine { names := Module.nodup_functions_create hM.names hcustom,
           ids_lt := ?lt, declared := ?declared, typed := ?typed,
           indirect := ?indirect, uses_iff := ?uses, uses_nodup := ?nodup }
  case lt =>
    intro G hG x hx
    obtain ⟨hG', hx', hsame⟩ := hbody G hG x hx
    rw [hsame]
    exact hM.ids_lt G hG' x hx'
  case declared =>
    intro g u hu
    exact (Module.mem_functions_create hfunc).2
      (Or.inr (hM.declared g u ((Module.isUse_create hfunc hcustom).1 hu)))
  case typed =>
    intro G hG x hx callee returned hop
    obtain ⟨hG', hx', hsame⟩ := hbody G hG x hx
    rw [hsame] at hop ⊢
    have hdeclared := hM.declared callee.name ⟨G, x, none⟩ ⟨hG', hx', callee, returned, hop, rfl⟩
    have hne : callee.name ≠ custom := fun h => hcustom (h ▸ hdeclared)
    rw [hM.typed G hG' x hx' callee returned hop]
    exact (Function.update_of_ne hne _ _).symm
  case indirect =>
    intro G hG x hx returned v g hop hlast
    obtain ⟨hG', hx', hsame⟩ := hbody G hG x hx
    rw [hsame] at hop hlast
    exact hM.indirect G hG' x hx' returned v g hop hlast
  case uses =>
    intro g u
    rw [Module.isUse_create hfunc hcustom, ← hM.uses_iff]
    by_cases hg : g = custom
    · subst hg
      have hnone : u ∉ M.uses g := fun hu => hcustom (hM.declared g u ((hM.uses_iff g u).1 hu))
      simp [Module.create, hnone]
    · show u ∈ Function.update M.uses custom [] g ↔ _
      rw [Function.update_of_ne hg]
  case nodup =>
    intro g
    show (Function.update M.uses custom [] g).Nodup
    by_cases hg : g = custom
    · rw [hg, Function.update_self]
      exact List.nodup_nil
    · rw [Function.update_of_ne hg]
      exact hM.uses_nodup g

theorem Module.retargets_create (T : String → String → Prop) (hfunc : func ∈ M.functions)
    (hcustom : custom ∉ M.functions) :
    Module.Retargets T (fun _ => id) M (M.create func custom) := by
  have hbody : ∀ G ∈ M.functions, (M.create func custom).body G = M.body G :=
    fun G hG => Module.body_create_of_ne fun h => hcustom (h ▸ hG)
  constructor
  · exact Module.functions_sublist_create
  · intro G hG
    rw [hbody G hG, List.map_id_fun, List.map_id_fun]
    rfl
  · exact fun _ _ => Function.injective_id.injOn
  · intro G hG x _
    rw [hbody G hG]
    exact Or.inl (Instr.rename_id _).symm
  · intro G hG hold
    rw [((Module.mem_functions_create hfunc).1 hG).resolve_right hold]
    show (Function.update M.body custom _ custom).layout = []
    rw [Function.update_self]

end Create

/-! ## A step of the phase -/

/-- What the symbol table does with the name of a new function: it keeps a free one and extends one
that is taken. -/
structure Naming (setName : List String → String → String) : Prop where
  keeps : ∀ names name, name ∉ names → setName names name = name
  fresh : ∀ names name, setName names name ∉ names
  extending : ∀ names name, ∃ suffix, setName names name = name ++ suffix

/-- What `replaceFuncionWith` leaves. -/
structure Module.Superseded (func custom : String) (M M' : Module) : Prop where
  consistent : M'.Consistent
  functions : ∀ G, G ∈ M'.functions ↔ G = custom ∨ G ∈ M.functions
  globalVariables : M'.globalVariables = M.globalVariables
  retargets : ∃ σ, Module.Retargets (Only func custom) σ M M'
  unused : M'.uses func = []

section Step

variable {setName : List String → String → String} {M M' : Module} {func replace : String}

theorem Naming.not_mem_functions (hN : Naming setName) (M : Module) (replace : String) :
    setName M.names replace ∉ M.functions :=
  fun h => hN.fresh M.names replace (List.mem_append_left _ h)

theorem Module.create_returnTy {custom : String} (hne : func ≠ custom) :
    (M.create func custom).returnTy custom = (M.create func custom).returnTy func := by
  show Function.update M.returnTy custom _ custom = Function.update M.returnTy custom _ func
  rw [Function.update_self, Function.update_of_ne hne]

theorem Module.Consistent.create_index (hM : M.Consistent) {custom : String}
    (hfunc : func ∈ M.functions) (hcustom : custom ∉ M.functions) {u : FunctionUse} :
    u ∈ (M.create func custom).uses func ↔ u ∈ M.uses func := by
  rw [(hM.create hfunc hcustom).uses_iff, Module.isUse_create hfunc hcustom, hM.uses_iff]

/-- A function that is never an argument is superseded. -/
theorem Module.Consistent.replaceFuncionWith_ends (hM : M.Consistent) (replace : String)
    (hN : Naming setName) (hfunc : func ∈ M.functions) (hcalls : ∀ u ∈ M.uses func, u.index = none) :
    ∃ M' N, Module.Superseded func (setName M.names replace) M M' ∧
      ∀ fuel, N ≤ fuel → replaceFuncionWith setName fuel M func replace = some M' := by
  have hcustom := hN.not_mem_functions M replace
  have hne : setName M.names replace ≠ func := fun h => hcustom (h ▸ hfunc)
  obtain ⟨M', hM', hend⟩ := (hM.create hfunc hcustom).replaceUses_ends
    ((Module.mem_functions_create hfunc).2 (Or.inl rfl)) hne (Module.create_returnTy hne.symm)
    (fun u hu => hcalls u ((hM.create_index hfunc hcustom).1 hu))
  obtain ⟨σ, hσ⟩ := hM'.retargets
  refine ⟨M', _, ⟨hM'.consistent, ?_, hM'.globalVariables, ⟨_,
    (Module.retargets_create _ hfunc hcustom).trans hσ (Only.not_again hne)⟩, hM'.unused⟩,
    fun fuel hfuel => hend fuel hfuel⟩
  intro G
  rw [hM'.functions, Module.mem_functions_create hfunc]

/-- A function that is an argument is replaced without end. -/
theorem Module.Consistent.replaceFuncionWith_never_ends (hM : M.Consistent) (hN : Naming setName)
    (hfunc : func ∈ M.functions) {u : FunctionUse} {k : Nat} (hu : u ∈ M.uses func)
    (hk : u.index = some k) (fuel : Nat) :
    replaceFuncionWith setName fuel M func replace = none := by
  have hcustom := hN.not_mem_functions M replace
  exact (hM.create hfunc hcustom).replaceUses_never_ends
    ((Module.mem_functions_create hfunc).2 (Or.inl rfl)) ((hM.create_index hfunc hcustom).2 hu) hk fuel

/-- More fuel does not change a result. -/
theorem replaceUses_mono {custom : String} {fuel fuel' : Nat} (hfuel : fuel ≤ fuel')
    (h : replaceUses func custom fuel M = some M') : replaceUses func custom fuel' M = some M' := by
  induction fuel generalizing M fuel' with
  | zero => exact absurd h (by simp [replaceUses])
  | succ fuel ih =>
      obtain ⟨fuel', rfl⟩ := Nat.exists_eq_succ_of_ne_zero (Nat.ne_of_gt (Nat.zero_lt_of_lt hfuel))
      rw [replaceUses] at h ⊢
      split at h
      · exact h
      · split at h
        · rename_i hcall
          simp only [hcall, if_true]
          exact ih (Nat.le_of_succ_le_succ hfuel) h
        · exact absurd h (by simp)

/-- Whenever there is a result, the function was never an argument and is superseded. -/
theorem Module.Consistent.replaceFuncionWith_some (hM : M.Consistent) (hN : Naming setName)
    (hfunc : func ∈ M.functions) {fuel : Nat}
    (h : replaceFuncionWith setName fuel M func replace = some M') :
    Module.Superseded func (setName M.names replace) M M' := by
  have hcalls : ∀ u ∈ M.uses func, u.index = none := by
    intro u hu
    cases hk : u.index with
    | none => rfl
    | some k =>
        rw [hM.replaceFuncionWith_never_ends hN hfunc hu hk fuel] at h
        exact absurd h (by simp)
  obtain ⟨M₁, N, hM₁, hend⟩ := hM.replaceFuncionWith_ends replace hN hfunc hcalls
  have hmax := replaceUses_mono (Nat.le_max_left fuel N) h
  have hmax' : replaceFuncionWith setName (max fuel N) M func replace = some M₁ :=
    hend _ (Nat.le_max_right fuel N)
  rw [replaceFuncionWith, hmax] at hmax'
  cases hmax'
  exact hM₁

/-- The uses of the other functions stay. -/
theorem Module.Superseded.use_iff {custom : String} (h : Module.Superseded func custom M M')
    (hM : M.Consistent) {g : String} (hg : g ≠ func) (hcustom : g ≠ custom)
    {index : Option Nat} :
    (∃ u ∈ M'.uses g, u.index = index) ↔ ∃ u ∈ M.uses g, u.index = index := by
  obtain ⟨σ, hσ⟩ := h.retargets
  have huse : ∀ w, M'.IsUse g w ↔ ∃ x, M.IsUse g ⟨w.user, x, w.index⟩ ∧ w.inst = σ w.user x :=
    fun w => hσ.isUse_iff (fun n hn => hg hn.1) (fun f hf => hcustom hf.2)
  constructor
  · rintro ⟨u, hu, rfl⟩
    obtain ⟨x, hx, -⟩ := (huse u).1 (h.consistent.isUse hu)
    exact ⟨_, (hM.uses_iff g _).2 hx, rfl⟩
  · rintro ⟨u, hu, rfl⟩
    exact ⟨⟨u.user, σ u.user u.inst, u.index⟩,
      (h.consistent.uses_iff g _).2 ((huse _).2 ⟨u.inst, hM.isUse hu, rfl⟩), rfl⟩

end Step

/-! ## The phase -/

theorem mem_replacements {f r : String} (h : replacements.lookup f = some r) :
    (f, r) ∈ replacements := by
  obtain ⟨l₁, l₂, hl, -⟩ := List.lookup_eq_some_iff.1 h
  rw [hl]
  exact List.mem_append_right _ List.mem_cons_self

/-- No name of a replacement extends another one. -/
theorem replacements_apart {f g r s suffix : String} (hf : replacements.lookup f = some r)
    (hg : replacements.lookup g = some s) (h : r = s ++ suffix) : f = g := by
  have hall : ∀ p ∈ replacements, ∀ q ∈ replacements, q.2.toList <+: p.2.toList → p = q := by decide
  have hlist : s.toList <+: r.toList := by
    rw [h, String.toList_append]
    exact List.prefix_append _ _
  exact congrArg Prod.fst (hall _ (mem_replacements hf) _ (mem_replacements hg) hlist)

/-- Nor does it extend into a function that is replaced. -/
theorem replacements_proper {f g r s suffix : String} (hf : replacements.lookup f = some r)
    (hg : replacements.lookup g = some s) : g ≠ r ++ suffix := by
  have hall : ∀ p ∈ replacements, ∀ q ∈ replacements, ¬ q.2.toList <+: p.1.toList := by decide
  intro h
  apply hall _ (mem_replacements hg) _ (mem_replacements hf)
  show r.toList <+: g.toList
  rw [h, String.toList_append]
  exact List.prefix_append _ _

/-- `n` is the name of the function that supersedes `f`, a function of `M`: its replacement, or a
name that extends it if that one is taken. -/
structure Assigned (M : Module) (f n : String) : Prop where
  mem : f ∈ M.functions
  extending : ∃ r suffix, replacements.lookup f = some r ∧ n = r ++ suffix
  fresh : n ∉ M.names
  keeps : ∀ r, replacements.lookup f = some r → r ∉ M.names → n = r

/-- `M` is what the phase has made of `M₀` when it has passed the functions `D`. -/
structure Progress (M₀ : Module) (D : List String) (M : Module) : Prop where
  consistent : M.Consistent
  functions : ∀ G ∈ M.functions, G ∈ M₀.functions ∨ ∃ f ∈ D, Assigned M₀ f G
  globalVariables : M.globalVariables = M₀.globalVariables
  retargets : ∃ σ, Module.Retargets (Assigned M₀) σ M₀ M
  unused : ∀ f ∈ D, (replacements.lookup f).isSome = true → M.uses f = []

section Phase

variable {setName : List String → String → String} {M₀ M M' : Module} {D L : List String}

theorem Assigned.not_again (f n m : String) (h : Assigned M₀ f n) : ¬ Assigned M₀ n m :=
  fun h' => h.fresh (List.mem_append_left _ h'.mem)

theorem Progress.start (hM : M.Consistent) : Progress M [] M :=
  ⟨hM, fun _ hG => Or.inl hG, rfl, ⟨_, Module.Retargets.refl _ M⟩,
    fun _ hf => absurd hf List.not_mem_nil⟩

theorem Progress.mem_functions (h : Progress M₀ D M) {G : String} (hG : G ∈ M₀.functions) :
    G ∈ M.functions := by
  obtain ⟨σ, hσ⟩ := h.retargets
  exact hσ.functions.subset hG

theorem Progress.mem_names (h : Progress M₀ D M) {n : String} (hn : n ∈ M₀.names) : n ∈ M.names := by
  rcases List.mem_append.1 hn with hn | hn
  · exact List.mem_append_left _ (h.mem_functions hn)
  · apply List.mem_append_right _
    rwa [h.globalVariables]

/-- The name of the next function. -/
theorem Progress.assigned (h : Progress M₀ D M) (hN : Naming setName) {f r : String}
    (hf : f ∈ M₀.functions) (hfD : f ∉ D) (hr : replacements.lookup f = some r) :
    Assigned M₀ f (setName M.names r) := by
  refine ⟨hf, ?_, fun hn => hN.fresh M.names r (h.mem_names hn), ?_⟩
  · obtain ⟨suffix, hsuffix⟩ := hN.extending M.names r
    exact ⟨r, suffix, hr, hsuffix⟩
  · intro r' hr' hfree
    rw [hr] at hr'
    cases hr'
    apply hN.keeps _ _
    intro hmem
    rcases List.mem_append.1 hmem with hmem | hmem
    · -- a name that an earlier step gave out extends another replacement
      rcases h.functions r hmem with hold | ⟨g, hg, hgr⟩
      · exact hfree (List.mem_append_left _ hold)
      · obtain ⟨s, suffix, hs, hrs⟩ := hgr.extending
        rw [replacements_apart hr hs hrs] at hfD
        exact hfD hg
    · rw [h.globalVariables] at hmem
      exact hfree (List.mem_append_right _ hmem)

/-- One step of the phase. -/
theorem Progress.step (h : Progress M₀ D M) (hN : Naming setName) {f : String}
    (hf : f ∈ M₀.functions) (hfD : f ∉ D) {fuel : Nat}
    (hres : replaceFunction setName fuel M f = some M') : Progress M₀ (D ++ [f]) M' := by
  rw [replaceFunction] at hres
  split at hres
  -- a function that is not replaced
  · rename_i hnone
    cases hres
    refine ⟨h.consistent, ?_, h.globalVariables, h.retargets, ?_⟩
    · intro G hG
      rcases h.functions G hG with hold | ⟨g, hg, hgG⟩
      · exact Or.inl hold
      · exact Or.inr ⟨g, List.mem_append_left _ hg, hgG⟩
    · intro g hg hsome
      rcases List.mem_append.1 hg with hg | hg
      · exact h.unused g hg hsome
      · rw [List.mem_singleton.1 hg, hnone] at hsome
        exact absurd hsome (by simp)
  · rename_i r hr
    have hassigned := h.assigned hN hf hfD hr
    have hM' := h.consistent.replaceFuncionWith_some hN (h.mem_functions hf) hres
    obtain ⟨σ, hσ⟩ := h.retargets
    obtain ⟨τ, hτ⟩ := hM'.retargets
    have hτ' : Module.Retargets (Assigned M₀) τ M M' := by
      apply hτ.mono
      intro g n hn
      obtain ⟨rfl, rfl⟩ := hn
      exact hassigned
    refine ⟨hM'.consistent, ?_, hM'.globalVariables.trans h.globalVariables,
      ⟨_, hσ.trans hτ' Assigned.not_again⟩, ?_⟩
    · intro G hG
      rcases (hM'.functions G).1 hG with rfl | hG
      · exact Or.inr ⟨f, List.mem_append_right _ List.mem_cons_self, hassigned⟩
      · rcases h.functions G hG with hold | ⟨g, hg, hgG⟩
        · exact Or.inl hold
        · exact Or.inr ⟨g, List.mem_append_left _ hg, hgG⟩
    · intro g hg hsome
      rcases List.mem_append.1 hg with hg | hg
      · -- the step adds uses of the new function only, and that is not `g`
        have hgf : g ≠ f := fun heq => hfD (heq ▸ hg)
        have hgn : g ≠ setName M.names r := by
          obtain ⟨s, hs⟩ := Option.isSome_iff_exists.1 hsome
          obtain ⟨r', suffix, hr', hn⟩ := hassigned.extending
          rw [hn]
          exact replacements_proper hr' hs
        apply List.eq_nil_iff_forall_not_mem.2
        intro u hu
        obtain ⟨w, hw, -⟩ := (hM'.use_iff h.consistent hgf hgn).1 ⟨u, hu, rfl⟩
        rw [h.unused g hg hsome] at hw
        exact absurd hw List.not_mem_nil
      · rw [List.mem_singleton.1 hg]
        exact hM'.unused

/-- A run of the phase. -/
theorem Progress.run (h : Progress M₀ D M) (hN : Naming setName) (hL : ∀ f ∈ L, f ∈ M₀.functions)
    (hnodup : (D ++ L).Nodup) {fuel : Nat}
    (hres : L.foldlM (replaceFunction setName fuel) M = some M') : Progress M₀ (D ++ L) M' := by
  induction L generalizing D M with
  | nil =>
      cases hres
      rwa [List.append_nil]
  | cons f L ih =>
      rw [List.foldlM_cons] at hres
      obtain ⟨M₁, hM₁, hres⟩ := Option.bind_eq_some_iff.1 hres
      have hfD : f ∉ D := fun hmem =>
        (List.nodup_append.1 hnodup).2.2 f hmem f List.mem_cons_self rfl
      have hstep := h.step hN (hL f List.mem_cons_self) hfD hM₁
      rw [List.append_cons] at hnodup ⊢
      exact ih hstep (fun g hg => hL g (List.mem_cons_of_mem _ hg)) hnodup hres

/-- A step leaves a module. -/
theorem Module.Consistent.replaceFunction_some (hM : M.Consistent) (hN : Naming setName) {f : String}
    (hf : f ∈ M.functions) {fuel : Nat} (hres : replaceFunction setName fuel M f = some M') :
    M'.Consistent ∧ ∀ G ∈ M.functions, G ∈ M'.functions := by
  rw [replaceFunction] at hres
  split at hres
  · cases hres
    exact ⟨hM, fun _ hG => hG⟩
  · have hM' := hM.replaceFuncionWith_some hN hf hres
    exact ⟨hM'.consistent, fun G hG => (hM'.functions G).2 (Or.inr hG)⟩

/-- A step keeps the uses of the functions behind it. -/
theorem Module.Consistent.replaceFunction_use_iff (hM : M.Consistent) (hN : Naming setName)
    {f g : String} (hf : f ∈ M.functions) (hg : g ∈ M.functions) (hgf : g ≠ f) {fuel : Nat}
    (hres : replaceFunction setName fuel M f = some M') (index : Option Nat) :
    (∃ u ∈ M'.uses g, u.index = index) ↔ ∃ u ∈ M.uses g, u.index = index := by
  rw [replaceFunction] at hres
  split at hres
  · cases hres
    exact Iff.rfl
  · rename_i r hr
    exact (hM.replaceFuncionWith_some hN hf hres).use_iff hM hgf
      fun h => hN.not_mem_functions M r (h ▸ hg)

/-- The phase ends if none of the functions that it replaces is an argument. -/
theorem Module.Consistent.phase_ends (hM : M.Consistent) (hN : Naming setName)
    (hL : ∀ f ∈ L, f ∈ M.functions) (hnodup : L.Nodup)
    (hcalls : ∀ f ∈ L, ∀ r, replacements.lookup f = some r → ∀ u ∈ M.uses f, u.index = none) :
    ∃ M' N, ∀ fuel, N ≤ fuel → L.foldlM (replaceFunction setName fuel) M = some M' := by
  induction L generalizing M with
  | nil => exact ⟨M, 0, fun _ _ => rfl⟩
  | cons f L ih =>
      have hf := hL f List.mem_cons_self
      have hfirst : ∃ M₁ N, ∀ fuel, N ≤ fuel → replaceFunction setName fuel M f = some M₁ := by
        cases hr : replacements.lookup f with
        | none =>
            refine ⟨M, 0, fun fuel _ => ?_⟩
            rw [replaceFunction, hr]
        | some r =>
            obtain ⟨M₁, N, -, hend⟩ := hM.replaceFuncionWith_ends r hN hf
              (hcalls f List.mem_cons_self r hr)
            refine ⟨M₁, N, fun fuel hfuel => ?_⟩
            rw [replaceFunction, hr]
            exact hend fuel hfuel
      obtain ⟨M₁, N, hM₁⟩ := hfirst
      -- the functions behind `f` are used as before, so the induction hypothesis applies
      have hres := hM₁ N (Nat.le_refl N)
      obtain ⟨hcons, hmem⟩ := hM.replaceFunction_some hN hf hres
      have hcalls' : ∀ g ∈ L, ∀ r, replacements.lookup g = some r →
          ∀ u ∈ M₁.uses g, u.index = none := by
        intro g hg r hr u hu
        have hgf : g ≠ f := by
          rintro rfl
          exact (List.nodup_cons.1 hnodup).1 hg
        obtain ⟨w, hw, hwu⟩ := (hM.replaceFunction_use_iff hN hf
          (hL g (List.mem_cons_of_mem _ hg)) hgf hres u.index).1 ⟨u, hu, rfl⟩
        rw [← hwu]
        exact hcalls g (List.mem_cons_of_mem _ hg) r hr w hw
      obtain ⟨M', N', hM'⟩ := ih hcons (fun g hg => hmem g (hL g (List.mem_cons_of_mem _ hg)))
        (List.nodup_cons.1 hnodup).2 hcalls'
      refine ⟨M', max N N', fun fuel hfuel => ?_⟩
      rw [List.foldlM_cons, hM₁ fuel (by omega)]
      exact hM' fuel (by omega)

/-- It does not if one of them is. -/
theorem Module.Consistent.phase_never_ends (hM : M.Consistent) (hN : Naming setName)
    (hL : ∀ f ∈ L, f ∈ M.functions) (hnodup : L.Nodup) {f r : String} {u : FunctionUse} {k : Nat}
    (hf : f ∈ L) (hr : replacements.lookup f = some r) (hu : u ∈ M.uses f) (hk : u.index = some k)
    (fuel : Nat) : L.foldlM (replaceFunction setName fuel) M = none := by
  induction L generalizing M u with
  | nil => exact absurd hf List.not_mem_nil
  | cons g L ih =>
      rw [List.foldlM_cons]
      by_cases hgf : f = g
      · subst hgf
        have hnone : replaceFunction setName fuel M f = none := by
          rw [replaceFunction, hr]
          exact hM.replaceFuncionWith_never_ends hN (hL f List.mem_cons_self) hu hk fuel
        rw [hnone]
        rfl
      · -- if the step of `g` ends at all, `f` is still an argument behind it
        cases hres : replaceFunction setName fuel M g with
        | none => rfl
        | some M₁ =>
            have hg := hL g List.mem_cons_self
            obtain ⟨hcons, hmem⟩ := hM.replaceFunction_some hN hg hres
            obtain ⟨w, hw, hwk⟩ :=
              (hM.replaceFunction_use_iff hN hg (hL f hf) hgf hres (some k)).2 ⟨u, hu, hk⟩
            exact ih hcons (fun G hG => hmem G (hL G (List.mem_cons_of_mem _ hG)))
              (List.nodup_cons.1 hnodup).2 ((List.mem_cons.1 hf).resolve_left hgf) hw hwk

end Phase

/-! ## Complete replacement -/

/-- The constant is `g` or an expression over it. -/
def Ref.mentions (g : String) : Ref → Bool
  | .function f => f == g
  | .bitCastExpr base => base.mentions g
  | _ => false

/-- The functions that are replaced are used by calls only, as callee or as operand. -/
def Module.CallsOnly (M : Module) : Prop :=
  ∀ f r, replacements.lookup f = some r → ∀ G ∈ M.functions, ∀ x ∈ (M.body G).ids,
    ∀ v ∈ ((M.body G).instr x).operands, v.ref.mentions f = true →
      ((M.body G).instr x).op.isCall = true ∧ v.ref = .function f

/-- The value with instructions renumbered and functions replaced. -/
def Value.replace (σ : Nat → Nat) (v : Value) : Value :=
  match v.ref with
  | .function f =>
      match replacements.lookup f with
      | some r => ⟨.function r, v.ty⟩
      | none => v
  | _ => v.rename σ

/-- `j` is `i` with its operands replaced, and a call of the replacement if `i` calls a function
that is replaced. -/
structure Instr.ReplacedBy (σ : Nat → Nat) (i j : Instr) : Prop where
  called : ∀ callee returned r, i.op = .call (some callee) returned →
    replacements.lookup callee.name = some r → ∃ returned', j.op = .call (some ⟨r, true⟩) returned'
  other : (∀ callee returned, i.op = .call (some callee) returned →
    replacements.lookup callee.name = none) → j.op = i.op ∧ j.name = i.name
  operands : j.operands = i.operands.map (Value.replace σ)
  ty : j.ty = i.ty

/-- `M'` is `M` with its allocator replaced, numbers changed by `σ`, and new functions that have no
body. -/
structure Module.ReplacedBy (σ : String → Nat → Nat) (M M' : Module) : Prop where
  functions : M.functions.Sublist M'.functions
  layout : ∀ G ∈ M.functions, (M'.body G).layout = (M.body G).layout.map (List.map (σ G))
  injOn : ∀ G ∈ M.functions, Set.InjOn (σ G) {x | x ∈ (M.body G).ids}
  instr : ∀ G ∈ M.functions, ∀ x ∈ (M.body G).ids,
    Instr.ReplacedBy (σ G) ((M.body G).instr x) ((M'.body G).instr (σ G x))
  added : ∀ G ∈ M'.functions, G ∉ M.functions → (M'.body G).layout = []
  unused : ∀ f r, replacements.lookup f = some r → M'.uses f = [] ∧
    ∀ G ∈ M'.functions, ∀ x ∈ (M'.body G).ids, ¬ ((M'.body G).instr x).UsesAt f none ∧
      ∀ v ∈ ((M'.body G).instr x).operands, v.ref.mentions f = false

/-- No function of the module that is replaced is an argument, and the name of the replacement of
one that is used is free. -/
def Module.Replaceable (M : Module) : Prop :=
  ∀ f ∈ M.functions, ∀ r, replacements.lookup f = some r →
    (∀ u ∈ M.uses f, u.index = none) ∧ (M.uses f ≠ [] → r ∉ M.names)

section Complete

variable {setName : List String → String → String} {M M' : Module}

theorem Value.mentions_rename {σ : Nat → Nat} {v : Value} {g : String} :
    (v.rename σ).ref.mentions g = v.ref.mentions g := by
  rw [Value.rename]
  split
  · rename_i hv
    rw [hv]
    rfl
  · rfl

/-- An operand that is a function is a use of it. -/
theorem Module.Consistent.mem_uses_of_operand (hM : M.Consistent) {G : String} (hG : G ∈ M.functions)
    {x : Nat} (hx : x ∈ (M.body G).ids) {v : Value} (hv : v ∈ ((M.body G).instr x).operands)
    {f : String} (href : v.ref = .function f) : ∃ k, ⟨G, x, some k⟩ ∈ M.uses f := by
  obtain ⟨k, hk⟩ := List.mem_iff_getElem?.1 hv
  exact ⟨k, (hM.uses_iff f _).2 ⟨hG, hx, v, hk, href⟩⟩

theorem Module.Replaceable.index (h : M.Replaceable) (hM : M.Consistent) {f r : String}
    (hr : replacements.lookup f = some r) : ∀ u ∈ M.uses f, u.index = none :=
  fun u hu => (h f (hM.declared f u (hM.isUse hu)) r hr).1 u hu

/-- No operand mentions a function that is replaced. -/
theorem Module.Replaceable.operand (h : M.Replaceable) (hM : M.Consistent) (hcalls : M.CallsOnly)
    {f r G : String} (hr : replacements.lookup f = some r) (hG : G ∈ M.functions) {x : Nat}
    (hx : x ∈ (M.body G).ids) {v : Value} (hv : v ∈ ((M.body G).instr x).operands) :
    v.ref.mentions f = false := by
  by_contra hmentions
  obtain ⟨-, href⟩ := hcalls f r hr G hG x hx v hv (Bool.not_eq_false _ ▸ hmentions)
  obtain ⟨k, hk⟩ := hM.mem_uses_of_operand hG hx hv href
  exact absurd (h.index hM hr _ hk) (by simp)

/-- At the end of the phase nothing uses the functions that are replaced. -/
theorem Progress.uses_eq_nil (h : Progress M M.functions M') {f r : String}
    (hr : replacements.lookup f = some r) : M'.uses f = [] := by
  by_cases hf : f ∈ M.functions
  · exact h.unused f hf (by rw [hr]; rfl)
  · apply List.eq_nil_iff_forall_not_mem.2
    intro u hu
    rcases h.functions f (h.consistent.declared f u (h.consistent.isUse hu)) with hold | ⟨g, -, hg⟩
    · exact hf hold
    · obtain ⟨s, suffix, hs, hfs⟩ := hg.extending
      exact replacements_proper hs hr hfs

/-- What the phase leaves of a module that is replaceable. -/
theorem Progress.replacedBy (h : Progress M M.functions M') (hM : M.Consistent)
    (hcalls : M.CallsOnly) (hrep : M.Replaceable) : ∃ σ, Module.ReplacedBy σ M M' := by
  obtain ⟨σ, hσ⟩ := h.retargets
  -- operands are renamed only, since none of them is a function that is replaced
  have hreplace : ∀ G ∈ M.functions, ∀ x ∈ (M.body G).ids,
      ((M.body G).instr x).operands.map (Value.replace (σ G)) =
        (((M.body G).instr x).rename (σ G)).operands := by
    intro G hG x hx
    apply List.map_congr_left
    intro v hv
    rw [Value.replace]
    split
    · rename_i f hf
      have hrename : v.rename (σ G) = v := by
        rw [Value.rename, hf]
      split
      · rename_i r hr
        have hoperand := hrep.operand hM hcalls hr hG hx hv
        rw [hf] at hoperand
        exact absurd hoperand (by simp [Ref.mentions])
      · exact hrename.symm
    · rfl
  refine ⟨σ, hσ.functions, hσ.layout, hσ.injOn, ?_, hσ.added, ?_⟩
  · intro G hG x hx
    have hi := hσ.instr G hG x hx
    have hx' : σ G x ∈ (M'.body G).ids := by
      rw [hσ.ids hG]
      exact List.mem_map_of_mem hx
    refine ⟨?_, ?_, ?_, hi.ty⟩
    · intro callee returned r hop hr
      have hused : M.uses callee.name ≠ [] := by
        refine List.ne_nil_of_mem ((hM.uses_iff callee.name ⟨G, x, none⟩).2 ⟨hG, hx, ?_⟩)
        exact ⟨callee, returned, hop, rfl⟩
      rcases hi with hi | ⟨callee', _, n, returned', hop', hn, hj, -⟩
      · -- a call that was not changed would be a use
        have huse : (⟨G, σ G x, none⟩ : FunctionUse) ∈ M'.uses callee.name := by
          refine (h.consistent.uses_iff _ _).2 ⟨hσ.functions.subset hG, hx', ?_⟩
          rw [hi]
          exact ⟨callee, returned, hop, rfl⟩
        rw [h.uses_eq_nil hr] at huse
        exact absurd huse List.not_mem_nil
      · rw [hop] at hop'
        cases hop'
        rw [hn.keeps r hr ((hrep _ hn.mem r hr).2 hused)] at hj
        exact ⟨returned', hj⟩
    -- a call that was changed is one of a function that is replaced
    · intro hother
      rcases hi with hi | ⟨callee', returned, n, returned', hop', hn, -⟩
      · rw [hi]
        exact ⟨rfl, rfl⟩
      · obtain ⟨r, suffix, hr, -⟩ := hn.extending
        rw [hother callee' returned hop'] at hr
        exact absurd hr (by simp)
    · rw [hi.operands, hreplace G hG x hx]
  · intro f r hr
    refine ⟨h.uses_eq_nil hr, ?_⟩
    intro G hG x hx
    constructor
    · intro huses
      have huse := (h.consistent.uses_iff f ⟨G, x, none⟩).2 ⟨hG, hx, huses⟩
      rw [h.uses_eq_nil hr] at huse
      exact absurd huse List.not_mem_nil
    · intro v hv
      by_cases hold : G ∈ M.functions
      · rw [hσ.ids hold, List.mem_map] at hx
        obtain ⟨y, hy, rfl⟩ := hx
        rw [(hσ.instr G hold y hy).operands] at hv
        obtain ⟨w, hw, rfl⟩ := List.mem_map.1 hv
        rw [Value.mentions_rename]
        exact hrep.operand hM hcalls hr hold hy hw
      · rw [Func.ids, hσ.added G hG hold] at hx
        exact absurd hx List.not_mem_nil

/-- A use that was a call of a function shows the name that was free. -/
theorem Progress.free_name (h : Progress M M.functions M') (hM : M.Consistent)
    {σ : String → Nat → Nat} (hσ : Module.ReplacedBy σ M M') {f r : String} {u : FunctionUse}
    (hr : replacements.lookup f = some r) (hu : u ∈ M.uses f) (hindex : u.index = none) :
    r ∉ M.names := by
  obtain ⟨τ, hτ⟩ := h.retargets
  have huse := hM.isUse hu
  have hcallee := huse.usesAt
  rw [hindex] at hcallee
  obtain ⟨callee, returned, hop, rfl⟩ := hcallee
  -- both renumberings are read off the layout
  have hids : (M.body u.user).ids.map (σ u.user) = (M.body u.user).ids.map (τ u.user) := by
    rw [← hτ.ids huse.user, Func.ids, Func.ids, hσ.layout u.user huse.user, List.map_flatten]
  have hsame : σ u.user u.inst = τ u.user u.inst := List.map_inj_left.1 hids u.inst huse.mem
  obtain ⟨returned', hj⟩ := (hσ.instr u.user huse.user u.inst huse.mem).called callee returned r hop hr
  rw [hsame] at hj
  rcases hτ.instr u.user huse.user u.inst huse.mem with hi | ⟨callee', _, n, _, hop', hn, hj', -⟩
  · rw [hi] at hj
    have hname : callee = ⟨r, true⟩ := by
      have hcall := hop.symm.trans hj
      cases hcall
      rfl
    have hext : callee.name = r ++ "" := by
      rw [hname, String.append_empty]
    exact absurd hext (replacements_proper hr hr)
  · rw [hj'] at hj
    cases hj
    rw [hop] at hop'
    exact fun hmem => hn.fresh hmem

/-- The replacement phase of a module in which `malloc`, `calloc`, `realloc` and `free` are used by
calls only ends and has replaced all of them exactly if none of them is an argument and the names of
the replacements are free. -/
theorem replacement_iff (hN : Naming setName) (hM : M.Consistent) (hcalls : M.CallsOnly) :
    (∃ N, ∀ fuel, N ≤ fuel → ∃ M', replacementPhase setName fuel M = some M' ∧
      ∃ σ, Module.ReplacedBy σ M M') ↔ M.Replaceable := by
  have hrun : ∀ {fuel M'}, replacementPhase setName fuel M = some M' →
      Progress M M.functions M' :=
    fun hres => (Progress.start hM).run hN (fun _ hf => hf) hM.names hres
  constructor
  · rintro ⟨N, hend⟩ f hf r hr
    -- one fuel is enough: with a use as argument there is no result at any
    obtain ⟨M', hres, σ, hσ⟩ := hend N (Nat.le_refl N)
    have hindex : ∀ u ∈ M.uses f, u.index = none := by
      intro u hu
      cases hk : u.index with
      | none => rfl
      | some k =>
          have hnone := hM.phase_never_ends hN (fun _ hf => hf) hM.names hf hr hu hk N
          rw [replacementPhase, hnone] at hres
          exact absurd hres (by simp)
    refine ⟨hindex, fun hused => ?_⟩
    obtain ⟨u, hu⟩ := List.exists_mem_of_ne_nil _ hused
    exact (hrun hres).free_name hM hσ hr hu (hindex u hu)
  · intro hrep
    obtain ⟨M', N, hend⟩ := hM.phase_ends hN (fun _ hf => hf) hM.names
      fun f hf r hr => (hrep f hf r hr).1
    exact ⟨N, fun fuel hfuel => ⟨M', hend fuel hfuel,
      (hrun (hend fuel hfuel)).replacedBy hM hcalls hrep⟩⟩

end Complete

/-! ### Modules with one body -/

/-- The uses of `g` by the instruction `i` with number `x`. -/
def Instr.functionUses (i : Instr) (user : String) (x : Nat) (g : String) : List FunctionUse :=
  ((List.range i.operands.length).filter fun k =>
      i.operands[k]?.map Value.ref == some (.function g)).map (⟨user, x, some ·⟩) ++
    match i.op with
    | .call (some callee) _ => if callee.name = g then [⟨user, x, none⟩] else []
    | _ => []

/-- The module with the functions `functions`, of which only `F` has a body. -/
def Module.ofBody (functions : List String) (returnTy : String → Ty) (F : Func) : Module where
  functions := functions
  globalVariables := []
  body := fun G => if G = F.name then F else ⟨G, [], fun _ => Instr.unused, fun _ => [], 0⟩
  returnTy := returnTy
  returned := fun _ => none
  uses := fun g => F.ids.flatMap fun x => (F.instr x).functionUses F.name x g

/-- What `Module.Consistent` asks of an instruction. -/
def Instr.declares (functions : List String) (returnTy : String → Ty) (i : Instr) : Bool :=
  (i.operands.all fun v =>
    match v.ref with
    | .function g => decide (g ∈ functions)
    | _ => true) &&
  match i.op with
  | .call (some callee) _ => decide (callee.name ∈ functions) && i.ty == returnTy callee.name
  | .call none _ =>
      match i.operands.getLast?.map Value.ref with
      | some (.function _) => false
      | _ => true
  | _ => true

theorem Instr.mem_functionUses {i : Instr} {user g : String} {x : Nat} {u : FunctionUse} :
    u ∈ i.functionUses user x g ↔ u.user = user ∧ u.inst = x ∧ i.UsesAt g u.index := by
  obtain ⟨G, y, index⟩ := u
  rw [functionUses, List.mem_append, List.mem_map]
  cases index with
  | none =>
      constructor
      · rintro (⟨k, -, hk⟩ | hmem)
        · exact absurd hk (by simp)
        · split at hmem
          · rename_i callee returned hop
            split at hmem
            · rename_i hname
              cases List.mem_singleton.1 hmem
              exact ⟨rfl, rfl, callee, returned, hop, hname⟩
            · exact absurd hmem List.not_mem_nil
          · exact absurd hmem List.not_mem_nil
      · rintro ⟨rfl, rfl, callee, returned, hop, rfl⟩
        apply Or.inr
        simp [hop]
  | some k =>
      constructor
      · rintro (⟨j, hj, he⟩ | hmem)
        · cases he
          obtain ⟨-, href⟩ := List.mem_filter.1 hj
          rw [beq_iff_eq, Option.map_eq_some_iff] at href
          exact ⟨rfl, rfl, href⟩
        · split at hmem
          · split at hmem
            · exact absurd (List.mem_singleton.1 hmem) (by simp)
            · exact absurd hmem List.not_mem_nil
          · exact absurd hmem List.not_mem_nil
      · rintro ⟨rfl, rfl, v, hv, href⟩
        refine Or.inl ⟨k, List.mem_filter.2 ⟨List.mem_range.2 (List.getElem?_eq_some_iff.1 hv).1, ?_⟩,
          rfl⟩
        rw [hv, beq_iff_eq, Option.map_some, href]

theorem Instr.nodup_functionUses (i : Instr) (user g : String) (x : Nat) :
    (i.functionUses user x g).Nodup := by
  rw [functionUses]
  refine List.Nodup.append ?_ ?_ ?_
  · refine List.Nodup.map (fun j k h => ?_) (List.nodup_range.filter _)
    simpa using h
  · split
    · split
      · exact List.nodup_singleton _
      · exact List.nodup_nil
    · exact List.nodup_nil
  · intro u hu hcallee
    obtain ⟨k, -, rfl⟩ := List.mem_map.1 hu
    split at hcallee
    · split at hcallee
      · exact absurd (List.mem_singleton.1 hcallee) (by simp)
      · exact absurd hcallee List.not_mem_nil
    · exact absurd hcallee List.not_mem_nil

/-- Only the body has instructions. -/
theorem Module.body_ofBody {functions : List String} {returnTy : String → Ty} {F : Func}
    {G : String} {x : Nat} (hx : x ∈ ((Module.ofBody functions returnTy F).body G).ids) :
    G = F.name ∧ (Module.ofBody functions returnTy F).body G = F ∧ x ∈ F.ids := by
  by_cases hG : G = F.name
  · have hsame : (Module.ofBody functions returnTy F).body G = F := if_pos hG
    rw [hsame] at hx
    exact ⟨hG, hsame, hx⟩
  · have hempty : (Module.ofBody functions returnTy F).body G =
        ⟨G, [], fun _ => Instr.unused, fun _ => [], 0⟩ := if_neg hG
    rw [hempty] at hx
    exact absurd hx List.not_mem_nil

/-- Consistency of a module with one body is a finite check. -/
theorem Module.consistent_ofBody {functions : List String} {returnTy : String → Ty} {F : Func}
    (hnames : functions.Nodup) (hF : F.name ∈ functions) (hnodup : F.ids.Nodup)
    (hlt : ∀ x ∈ F.ids, x < F.next)
    (hdeclares : ∀ x ∈ F.ids, (F.instr x).declares functions returnTy = true) :
    (Module.ofBody functions returnTy F).Consistent := by
  have huse : ∀ g u, (Module.ofBody functions returnTy F).IsUse g u ↔
      u.user = F.name ∧ u.inst ∈ F.ids ∧ (F.instr u.inst).UsesAt g u.index := by
    intro g u
    constructor
    · rintro ⟨-, hmem, huses⟩
      obtain ⟨huser, hsame, hmem⟩ := Module.body_ofBody hmem
      rw [hsame] at huses
      exact ⟨huser, hmem, huses⟩
    · rintro ⟨huser, hmem, huses⟩
      have hsame : (Module.ofBody functions returnTy F).body u.user = F := if_pos huser
      exact ⟨huser ▸ hF, hsame.symm ▸ hmem, hsame.symm ▸ huses⟩
  refine { names := hnames, ids_lt := ?lt, declared := ?declared, typed := ?typed,
           indirect := ?indirect, uses_iff := ?uses, uses_nodup := ?nodup }
  case lt =>
    intro G _ x hx
    obtain ⟨-, hsame, hx⟩ := Module.body_ofBody hx
    rw [hsame]
    exact hlt x hx
  case declared =>
    intro g u hu
    obtain ⟨-, hmem, huses⟩ := (huse g u).1 hu
    have h := hdeclares _ hmem
    rw [Instr.declares, Bool.and_eq_true, List.all_eq_true] at h
    cases hindex : u.index with
    | none =>
        rw [hindex] at huses
        obtain ⟨callee, returned, hop, rfl⟩ := huses
        have hcallee := h.2
        rw [hop] at hcallee
        simp only [Bool.and_eq_true, decide_eq_true_eq] at hcallee
        exact hcallee.1
    | some k =>
        rw [hindex] at huses
        obtain ⟨v, hv, href⟩ := huses
        have hoperand := h.1 v (List.mem_of_getElem? hv)
        rw [href] at hoperand
        exact of_decide_eq_true hoperand
  case typed =>
    intro G _ x hx callee returned hop
    obtain ⟨-, hsame, hx⟩ := Module.body_ofBody hx
    rw [hsame] at hop ⊢
    have h := hdeclares x hx
    rw [Instr.declares, hop, Bool.and_eq_true] at h
    simp only [Bool.and_eq_true, beq_iff_eq] at h
    exact h.2.2
  case indirect =>
    intro G _ x hx returned v g hop hlast href
    obtain ⟨-, hsame, hx⟩ := Module.body_ofBody hx
    rw [hsame] at hop hlast
    have h := hdeclares x hx
    rw [Instr.declares, hop, hlast, Option.map_some, href, Bool.and_eq_true] at h
    exact absurd h.2 (by simp)
  case uses =>
    intro g u
    rw [huse]
    show u ∈ F.ids.flatMap _ ↔ _
    rw [List.mem_flatMap]
    constructor
    · rintro ⟨x, hx, hu⟩
      obtain ⟨huser, rfl, huses⟩ := Instr.mem_functionUses.1 hu
      exact ⟨huser, hx, huses⟩
    · rintro ⟨huser, hmem, huses⟩
      exact ⟨u.inst, hmem, Instr.mem_functionUses.2 ⟨huser, rfl, huses⟩⟩
  case nodup =>
    intro g
    show (F.ids.flatMap _).Nodup
    rw [List.nodup_flatMap]
    refine ⟨fun x _ => Instr.nodup_functionUses _ _ _ _, hnodup.imp ?_⟩
    intro x y hne u hu hu'
    exact hne ((Instr.mem_functionUses.1 hu).2.1.symm.trans (Instr.mem_functionUses.1 hu').2.1)

theorem Module.callsOnly_ofBody {functions : List String} {returnTy : String → Ty} {F : Func}
    (h : ∀ x ∈ F.ids, ∀ v ∈ (F.instr x).operands, ∀ p ∈ replacements, v.ref.mentions p.1 = true →
      (F.instr x).op.isCall = true ∧ v.ref = .function p.1) :
    (Module.ofBody functions returnTy F).CallsOnly := by
  intro f r hr G _ x hx v hv hmentions
  obtain ⟨-, hsame, hx⟩ := Module.body_ofBody hx
  rw [hsame] at hv ⊢
  exact h x hx v hv _ (mem_replacements hr) hmentions

/-- A symbol table: a name that is taken gets a suffix that is longer than all names. -/
def uniqueName (names : List String) (name : String) : String :=
  if name ∈ names then name ++ ("." ++ String.join names) else name

theorem length_le_join {names : List String} {name : String} (h : name ∈ names) :
    name.length ≤ (String.join names).length := by
  rw [String.length_join]
  exact List.le_sum_of_mem (List.mem_map_of_mem h)

theorem naming_uniqueName : Naming uniqueName where
  keeps := fun names name h => if_neg h
  fresh := by
    intro names name hmem
    rw [uniqueName] at hmem
    split at hmem
    · have hle := length_le_join hmem
      simp only [String.length_append] at hle
      have hdot : ".".length = 1 := by decide
      omega
    · rename_i h
      exact h hmem
  extending := by
    intro names name
    rw [uniqueName]
    split
    · exact ⟨_, rfl⟩
    · exact ⟨"", String.append_empty.symm⟩

/-- `void *p = malloc(8); visit(p, free);` -/
def visitFree : Module :=
  Module.ofBody ["malloc", "free", "visit", "main"]
    (fun g => if g = "malloc" then voidPtrTy else .other "void")
    (Func.ofInstrs "main" [[0, 1, 2]]
      [⟨.call (some ⟨"malloc", true⟩) none, [⟨.constantInt 8, .int 64⟩], voidPtrTy, "p"⟩,
        ⟨.call (some ⟨"visit", true⟩) none,
          [⟨.inst 0, voidPtrTy⟩, ⟨.function "free", .ptr (.other "void (i8*)")⟩], .other "void", ""⟩,
        ⟨.ret, [], .other "void", ""⟩])

/-- `void *p = malloc(8); visit(p); free(p);` -/
def visitThenFree : Module :=
  Module.ofBody ["malloc", "free", "visit", "main"]
    (fun g => if g = "malloc" then voidPtrTy else .other "void")
    (Func.ofInstrs "main" [[0, 1, 2, 3]]
      [⟨.call (some ⟨"malloc", true⟩) none, [⟨.constantInt 8, .int 64⟩], voidPtrTy, "p"⟩,
        ⟨.call (some ⟨"visit", true⟩) none, [⟨.inst 0, voidPtrTy⟩], .other "void", ""⟩,
        ⟨.call (some ⟨"free", true⟩) none, [⟨.inst 0, voidPtrTy⟩], .other "void", ""⟩,
        ⟨.ret, [], .other "void", ""⟩])

theorem visitFree_consistent : visitFree.Consistent :=
  Module.consistent_ofBody (by decide) (by decide) (by decide) (by decide) (by decide)

theorem visitThenFree_consistent : visitThenFree.Consistent :=
  Module.consistent_ofBody (by decide) (by decide) (by decide) (by decide) (by decide)

theorem visitFree_callsOnly : visitFree.CallsOnly :=
  Module.callsOnly_ofBody (by decide)

theorem visitThenFree_callsOnly : visitThenFree.CallsOnly :=
  Module.callsOnly_ofBody (by decide)

theorem not_replaced :
    ¬ ∀ (setName : List String → String → String) (M : Module), Naming setName → M.Consistent →
      M.CallsOnly → ∃ N, ∀ fuel, N ≤ fuel → ∃ M', replacementPhase setName fuel M = some M' ∧
        ∃ σ, Module.ReplacedBy σ M M' := by
  intro h
  obtain ⟨N, hend⟩ := h uniqueName visitFree naming_uniqueName visitFree_consistent
    visitFree_callsOnly
  obtain ⟨M', hres, -⟩ := hend N (Nat.le_refl N)
  have hnone := visitFree_consistent.phase_never_ends naming_uniqueName (fun _ hf => hf)
    visitFree_consistent.names (f := "free") (r := "__ptauth_free") (u := ⟨"main", 1, some 1⟩)
    (by decide) (by decide) (by decide) rfl N
  rw [replacementPhase, hnone] at hres
  exact absurd hres (by simp)

theorem visitThenFree_replacement_iff :
    (∃ N, ∀ fuel, N ≤ fuel → ∃ M', replacementPhase uniqueName fuel visitThenFree = some M' ∧
      ∃ σ, Module.ReplacedBy σ visitThenFree M') ↔ visitThenFree.Replaceable :=
  replacement_iff naming_uniqueName visitThenFree_consistent visitThenFree_callsOnly

end PTAuth.Pass
