import Mathlib.Data.List.Dedup
import Mathlib.Data.List.Pairwise
import PTAuth.Pass.Optimizer

/-!
# What a skipped function may free

`optimizer` takes a function for harmless when no direct call in it is one of `__ptauth_free` or
hands over a pointer. What control may reach from the function is another matter: a call without
pointer arguments may free through a global, `__ptauth_realloc` may be given no pointer, and an
indirect call, which the criterion does not look at, may call anything. `Func.Confined` looks at the
calls of the function itself: none is indirect, none of `__ptauth_realloc`, and those of functions
with a body are of the function itself. A skipped function reaches no call that frees in whatever
module it stands exactly if it is confined (`confined_iff`).

Control is followed through `Func.Path` in every body: conditions of branches are not looked at, and
every call may return.
-/

set_option autoImplicit false

namespace PTAuth.Pass

/-- The functions that end the life of an object. -/
def freeing : List String := ["__ptauth_free", "__ptauth_realloc"]

/-- The call `x` may be one of the function `n`: it names it, or its callee is not statically known. -/
def Func.MayCall (F : Func) (x : Nat) (n : String) : Prop :=
  ∃ callee returned, (F.instr x).op = .call callee returned ∧ ∀ c ∈ callee, c.name = n

theorem Func.MayCall.direct {F : Func} {x : Nat} {callee : Callee} {returned : Option Nat}
    (hop : (F.instr x).op = .call (some callee) returned) : F.MayCall x callee.name := by
  refine ⟨some callee, returned, hop, fun c hc => ?_⟩
  rw [Option.mem_some_iff.1 hc]

/-- Control may stand in front of `x`. -/
def Func.Stands (F : Func) (x : Nat) : Prop := ∃ p B, F.Path p (x :: B)

/-- Control may stand in front of a call that frees. -/
def Func.Frees (F : Func) : Prop := ∃ x, F.Stands x ∧ ∃ n ∈ freeing, F.MayCall x n

/-- `F` may call the function `G` of the module. -/
def Calls (M : List Func) (F G : Func) : Prop :=
  G ∈ M ∧ ∃ x, F.Stands x ∧ F.MayCall x G.name

/-- An execution of the body of `F` may reach a call that frees. -/
inductive ReachesFree (M : List Func) : Func → Prop where
  | here {F : Func} : F.Frees → ReachesFree M F
  | call {F G : Func} : Calls M F G → ReachesFree M G → ReachesFree M F

/-- Control meets no indirect call in `F`, no call of `__ptauth_realloc`, and no call of a function
that has a body, but `F` itself. -/
structure Func.Confined (F : Func) : Prop where
  direct : ∀ x, F.Stands x → ∀ returned, (F.instr x).op ≠ .call none returned
  realloc : ∀ x, F.Stands x → ∀ callee returned, (F.instr x).op = .call (some callee) returned →
    callee.name ≠ "__ptauth_realloc"
  body : ∀ x, F.Stands x → ∀ callee returned, (F.instr x).op = .call (some callee) returned →
    callee.isDeclaration = true ∨ callee.name = F.name

/-- Callees of a module have names; they are declarations exactly if no function of the module with
their name has a body, and the runtime library is none of the module. -/
structure ResolvedModule (M : List Func) : Prop extends WellFormedModule M where
  named : ∀ F ∈ M, ∀ x ∈ F.ids, ∀ callee returned,
    (F.instr x).op = .call (some callee) returned → callee.name ≠ ""
  defined : ∀ F ∈ M, ∀ x ∈ F.ids, ∀ callee returned,
    (F.instr x).op = .call (some callee) returned →
      (callee.isDeclaration = false ↔ ∃ G ∈ M, G.name = callee.name ∧ G.layout ≠ [])
  runtime : ∀ F ∈ M, F.layout ≠ [] → F.name ∉ freeing

theorem Func.Stands.mem {F : Func} {x : Nat} (h : F.Stands x) : x ∈ F.ids := by
  obtain ⟨p, B, hpath⟩ := h
  exact hpath.mem x List.mem_cons_self

theorem Func.layout_ne_nil {F : Func} {x : Nat} (hx : x ∈ F.ids) : F.layout ≠ [] := by
  intro hnil
  rw [Func.ids, hnil] at hx
  exact absurd hx List.not_mem_nil

/-- A function that reaches a call that frees has a body. -/
theorem ReachesFree.layout_ne_nil {M : List Func} {F : Func} (h : ReachesFree M F) :
    F.layout ≠ [] := by
  cases h with
  | here hfree =>
      obtain ⟨x, hx, -⟩ := hfree
      exact Func.layout_ne_nil hx.mem
  | call hcall _ =>
      obtain ⟨-, x, hx, -⟩ := hcall
      exact Func.layout_ne_nil hx.mem

/-- A listed function calls `__ptauth_free` nowhere. -/
theorem name_ne_free_of_optimized {F : Func} (hopt : optimized F = true) {x : Nat} (hx : x ∈ F.ids)
    {callee : Callee} {returned : Option Nat} (hop : (F.instr x).op = .call (some callee) returned) :
    callee.name ≠ "__ptauth_free" :=
  (optimized_iff.1 hopt x hx).free callee returned hop

/-- Functions of a module with one name are the same. -/
theorem WellFormedModule.eq_of_name {M : List Func} (hM : WellFormedModule M) {F G : Func}
    (hF : F ∈ M) (hG : G ∈ M) (hname : F.name = G.name) (hne : F.name ≠ "") : F = G := by
  by_contra hdiff
  have hsymm : Std.Symm fun F G : Func => F.name = G.name → F.name = "" :=
    ⟨fun _ _ h heq => heq.trans (h heq.symm)⟩
  exact hne (hM.names.forall hF hG hdiff hname)

/-- **A confined function** that is listed reaches no call that frees, in any module. -/
theorem Func.Confined.not_reachesFree {M : List Func} {F : Func} (hconf : F.Confined)
    (hM : ResolvedModule M) (hF : F ∈ M) (hopt : optimized F = true) : ¬ ReachesFree M F := by
  intro hreach
  -- the chain of calls never leaves the function, so the induction is on the chain
  have key : ∀ G, ReachesFree M G → G ≠ F := by
    intro G h
    induction h with
    | @here G hfree =>
        rintro rfl
        obtain ⟨x, hx, n, hn, callee, returned, hop, hname⟩ := hfree
        cases callee with
        | none => exact hconf.direct x hx returned hop
        | some callee =>
            have hfn := hname callee rfl
            simp only [freeing, List.mem_cons, List.not_mem_nil, or_false] at hn
            rcases hn with rfl | rfl
            · exact name_ne_free_of_optimized hopt hx.mem hop hfn
            · exact hconf.realloc x hx callee returned hop hfn
    | @call G H hcall hnext ih =>
        rintro rfl
        obtain ⟨hH, x, hx, callee, returned, hop, hname⟩ := hcall
        cases callee with
        | none => exact hconf.direct x hx returned hop
        | some callee =>
            have hHn := hname callee rfl
            rcases hconf.body x hx callee returned hop with hdecl | hself
            · have hdef := (hM.defined G hF x hx.mem callee returned hop).2
                ⟨H, hH, hHn.symm, hnext.layout_ne_nil⟩
              rw [hdecl] at hdef
              exact absurd hdef (by decide)
            · have hne := hM.named G hF x hx.mem callee returned hop
              apply ih
              exact hM.eq_of_name hH hF (hHn.symm.trans hself) (hHn ▸ hne)
  exact key F hreach rfl

/-! ## A free through a global -/

/-- `void drop() { free(g); }` -/
def drop : Func :=
  Func.ofInstrs "drop" [[0, 1, 2]]
    [⟨.load, [⟨.globalVariable "g", .ptr (.ptr (.int 8))⟩], .ptr (.int 8), ""⟩,
      ⟨.call (some ⟨"__ptauth_free", true⟩) none, [⟨.inst 0, .ptr (.int 8)⟩], .other "void", ""⟩,
      ⟨.ret, [], .other "void", ""⟩]

/-- The same body under another name. -/
def dropAs (name : String) : Func := { drop with name := name }

theorem dropAs_wellFormed (name : String) : (dropAs name).WellFormed := by
  have h : drop.WellFormed := Func.wellFormed_ofInstrs (by decide) (by decide) (by decide)
  exact ⟨⟨h.unused, h.operand_lt, h.operand_ty, h.users_operand, h.users_nodup⟩, h.ids_nodup, h.ids_lt,
    h.operand_mem, h.operand_users, h.cast_lt, h.gep_base, h.gep_index⟩

/-- The only direct call in it is the one that frees. -/
theorem dropAs_call {name : String} {x : Nat} (hx : x ∈ (dropAs name).ids) {callee : Callee}
    {returned : Option Nat} (hop : ((dropAs name).instr x).op = .call (some callee) returned) :
    callee = ⟨"__ptauth_free", true⟩ := by
  have hall : ∀ y ∈ drop.ids, (drop.instr y).op.isCall = true →
      (drop.instr y).op = .call (some ⟨"__ptauth_free", true⟩) none := by decide
  have hcall := hall x hx (by rw [show (drop.instr x).op = _ from hop]; rfl)
  rw [show (drop.instr x).op = _ from hop] at hcall
  injection hcall with hcallee _
  exact Option.some.inj hcallee

theorem dropAs_frees (name : String) : (dropAs name).Frees := by
  have hentry : (dropAs name).Path [] [0, 1, 2] := .entry rfl
  have hcall : (dropAs name).MayCall 1 (Callee.name ⟨"__ptauth_free", true⟩) := .direct rfl
  exact ⟨1, ⟨_, _, hentry.next⟩, "__ptauth_free", by decide, hcall⟩

/-! ## A module in which everything frees -/

/-- The name of the function with a body that `x` calls. -/
def Func.definedCallee (F : Func) (x : Nat) : Option String :=
  match (F.instr x).op with
  | .call (some callee) _ => if callee.isDeclaration then none else some callee.name
  | _ => none

theorem Func.definedCallee_eq_some {F : Func} {x : Nat} {n : String} :
    F.definedCallee x = some n ↔ ∃ callee returned, (F.instr x).op = .call (some callee) returned ∧
      callee.isDeclaration = false ∧ callee.name = n := by
  rw [Func.definedCallee]
  constructor
  · intro h
    split at h
    · rename_i callee returned hop
      split at h
      · exact absurd h (by simp)
      · rename_i hdecl
        exact ⟨callee, returned, hop, Bool.eq_false_iff.2 hdecl, Option.some.inj h⟩
    · exact absurd h (by simp)
  · rintro ⟨callee, returned, hop, hdecl, rfl⟩
    simp [hop, hdecl]

/-- The other functions that `F` calls and that have a body. -/
def Func.others (F : Func) : List String :=
  (F.ids.filterMap F.definedCallee).dedup.filter fun n => n ≠ F.name

theorem Func.mem_others {F : Func} {n : String} :
    n ∈ F.others ↔ n ≠ F.name ∧ ∃ x ∈ F.ids, ∃ callee returned,
      (F.instr x).op = .call (some callee) returned ∧ callee.isDeclaration = false ∧
        callee.name = n := by
  rw [Func.others, List.mem_filter, List.mem_dedup, List.mem_filterMap, decide_eq_true_eq, and_comm]
  simp only [Func.definedCallee_eq_some]

/-- `F`, and a function that frees for every other function that it calls. -/
def Func.amongDrops (F : Func) : List Func := F :: F.others.map dropAs

theorem Func.mem_amongDrops {F G : Func} :
    G ∈ F.amongDrops ↔ G = F ∨ ∃ n ∈ F.others, G = dropAs n := by
  rw [Func.amongDrops, List.mem_cons, List.mem_map]
  exact or_congr_right (exists_congr fun _ => and_congr_right fun _ => eq_comm)

section Drops

variable {M : List Func} {F : Func} (hM : ResolvedModule M) (hF : F ∈ M)

include hM hF

/-- What `F` calls is a function of the module. -/
theorem ResolvedModule.of_others {n : String} (hn : n ∈ F.others) :
    ∃ G ∈ M, G.name = n ∧ G.layout ≠ [] := by
  obtain ⟨-, x, hx, callee, returned, hop, hdecl, rfl⟩ := Func.mem_others.1 hn
  exact (hM.defined F hF x hx callee returned hop).1 hdecl

/-- **A module for `F`** that fits its callees. -/
theorem ResolvedModule.amongDrops : ResolvedModule F.amongDrops where
  wellFormed := by
    intro G hG
    rcases Func.mem_amongDrops.1 hG with rfl | ⟨n, -, rfl⟩
    · exact hM.wellFormed G hF
    · exact dropAs_wellFormed n
  names := by
    apply List.pairwise_cons.2
    constructor
    · intro G hG hname
      obtain ⟨n, hn, rfl⟩ := List.mem_map.1 hG
      exact absurd hname.symm (Func.mem_others.1 hn).1
    · rw [List.pairwise_map]
      have hnd : F.others.Nodup := (List.nodup_dedup _).filter _
      exact hnd.imp fun hne heq => absurd heq hne
  named := by
    intro G hG x hx callee returned hop
    rcases Func.mem_amongDrops.1 hG with rfl | ⟨n, -, rfl⟩
    · exact hM.named G hF x hx callee returned hop
    · rw [dropAs_call hx hop]
      decide
  defined := by
    intro G hG x hx callee returned hop
    rcases Func.mem_amongDrops.1 hG with rfl | ⟨n, -, rfl⟩
    · constructor
      · intro hdecl
        by_cases hself : callee.name = G.name
        · exact ⟨G, hG, hself.symm, Func.layout_ne_nil hx⟩
        · have hmem := Func.mem_others.2 ⟨hself, x, hx, callee, returned, hop, hdecl, rfl⟩
          refine ⟨dropAs callee.name, Func.mem_amongDrops.2 (Or.inr ⟨_, hmem, rfl⟩), rfl, ?_⟩
          exact List.cons_ne_nil _ _
      · rintro ⟨H, hH, hname, hbody⟩
        apply (hM.defined G hF x hx callee returned hop).2
        rcases Func.mem_amongDrops.1 hH with rfl | ⟨n, hn, rfl⟩
        · exact ⟨H, hF, hname, hbody⟩
        · rw [← hname]
          exact hM.of_others hF hn
    · rw [dropAs_call hx hop]
      refine iff_of_false (by decide) ?_
      -- the runtime library is none of the module
      rintro ⟨H, hH, hname, hbody⟩
      have hfree : H.name ∈ freeing := by
        rw [hname]
        decide
      rcases Func.mem_amongDrops.1 hH with rfl | ⟨m, hm, rfl⟩
      · exact hM.runtime H hF hbody hfree
      · obtain ⟨H', hH', hname', hbody'⟩ := hM.of_others hF hm
        exact hM.runtime H' hH' hbody' (hname' ▸ hfree)
  runtime := by
    intro G hG hbody
    rcases Func.mem_amongDrops.1 hG with rfl | ⟨n, hn, rfl⟩
    · exact hM.runtime G hF hbody
    · obtain ⟨H, hH, hname, hbody'⟩ := hM.of_others hF hn
      show n ∉ freeing
      rw [← hname]
      exact hM.runtime H hH hbody'

/-- **The skip criterion.** A listed function reaches no call that frees in whatever module it stands
exactly if it is confined. -/
theorem confined_iff (hopt : optimized F = true) :
    (∀ M', ResolvedModule M' → F ∈ M' → ¬ ReachesFree M' F) ↔ F.Confined := by
  constructor
  · intro hno
    have hdrops := hno F.amongDrops (hM.amongDrops hF) List.mem_cons_self
    refine ⟨fun x hx returned hop => ?_, fun x hx callee returned hop hname => ?_,
      fun x hx callee returned hop => ?_⟩
    · apply hdrops
      refine .here ⟨x, hx, "__ptauth_free", by decide, none, returned, hop, ?_⟩
      exact fun c hc => absurd hc (by simp)
    · apply hdrops
      exact .here ⟨x, hx, callee.name, by rw [hname]; decide, .direct hop⟩
    · by_contra hnot
      rw [not_or, Bool.not_eq_true] at hnot
      have hmem := Func.mem_others.2 ⟨hnot.2, x, hx.mem, callee, returned, hop, hnot.1, rfl⟩
      apply hdrops
      refine .call (G := dropAs callee.name) ⟨?_, x, hx, .direct hop⟩ (.here (dropAs_frees _))
      exact Func.mem_amongDrops.2 (Or.inr ⟨_, hmem, rfl⟩)
  · intro hconf M' hM' hF'
    exact hconf.not_reachesFree hM' hF' hopt

end Drops

/-! ### A listed function that frees -/

/-- `int readBack(int *p) { q = p; drop(); return *q; }` -/
def readBack : Func :=
  Func.ofInstrs "readBack" [[0, 1, 2, 3, 4, 5]]
    [⟨.alloca (.ptr (.int 32)), [], .ptr (.ptr (.int 32)), "q"⟩,
      ⟨.store, [⟨.argument "p", .ptr (.int 32)⟩, ⟨.inst 0, .ptr (.ptr (.int 32))⟩], .other "void", ""⟩,
      ⟨.call (some ⟨"drop", false⟩) none, [], .other "void", ""⟩,
      ⟨.load, [⟨.inst 0, .ptr (.ptr (.int 32))⟩], .ptr (.int 32), ""⟩,
      ⟨.load, [⟨.inst 3, .ptr (.int 32)⟩], .int 32, ""⟩,
      ⟨.ret, [⟨.inst 4, .int 32⟩], .other "void", ""⟩]

/-- The function that `x` calls directly. -/
def Func.callee (F : Func) (x : Nat) : Option Callee :=
  match (F.instr x).op with
  | .call callee _ => callee
  | _ => none

theorem Func.mem_callees {F : Func} {x : Nat} (hx : x ∈ F.ids) {callee : Callee}
    {returned : Option Nat} (hop : (F.instr x).op = .call (some callee) returned) :
    callee ∈ F.ids.filterMap F.callee :=
  List.mem_filterMap.2 ⟨x, hx, by rw [Func.callee, hop]⟩

theorem drop_callees {x : Nat} (hx : x ∈ drop.ids) {callee : Callee} {returned : Option Nat}
    (hop : (drop.instr x).op = .call (some callee) returned) : callee = ⟨"__ptauth_free", true⟩ :=
  dropAs_call hx hop

theorem readBack_callees {x : Nat} (hx : x ∈ readBack.ids) {callee : Callee} {returned : Option Nat}
    (hop : (readBack.instr x).op = .call (some callee) returned) : callee = ⟨"drop", false⟩ := by
  have hall : readBack.ids.filterMap readBack.callee = [⟨"drop", false⟩] := by decide
  have hmem := Func.mem_callees hx hop
  rw [hall] at hmem
  exact List.mem_singleton.1 hmem

theorem dropModule_resolved : ResolvedModule [drop, readBack] where
  wellFormed := by
    intro F hF
    simp only [List.mem_cons, List.not_mem_nil, or_false] at hF
    rcases hF with rfl | rfl
    · exact Func.wellFormed_ofInstrs (by decide) (by decide) (by decide)
    · exact Func.wellFormed_ofInstrs (by decide) (by decide) (by decide)
  names := by decide
  named := by
    intro F hF x hx callee returned hop
    simp only [List.mem_cons, List.not_mem_nil, or_false] at hF
    rcases hF with rfl | rfl
    · rw [drop_callees hx hop]
      decide
    · rw [readBack_callees hx hop]
      decide
  defined := by
    intro F hF x hx callee returned hop
    simp only [List.mem_cons, List.not_mem_nil, or_false] at hF
    rcases hF with rfl | rfl
    · rw [drop_callees hx hop]
      simp [drop, readBack, Func.ofInstrs]
    · rw [readBack_callees hx hop]
      simp [drop, readBack, Func.ofInstrs]
  runtime := by
    intro F hF _
    simp only [List.mem_cons, List.not_mem_nil, or_false] at hF
    rcases hF with rfl | rfl
    · decide
    · decide

theorem readBack_optimized : optimized readBack = true := by decide +kernel

/-- The call of `drop` is reached, and in `drop` the call that frees. -/
theorem readBack_reachesFree : ReachesFree [drop, readBack] readBack := by
  have hentry : readBack.Path [] [0, 1, 2, 3, 4, 5] := .entry rfl
  have hcall : readBack.Stands 2 := ⟨_, _, hentry.next.next⟩
  have hentry' : drop.Path [] [0, 1, 2] := .entry rfl
  have hfree : drop.Stands 1 := ⟨_, _, hentry'.next⟩
  have hdrop : readBack.MayCall 2 (Callee.name ⟨"drop", false⟩) := .direct rfl
  have hrelease : drop.MayCall 1 (Callee.name ⟨"__ptauth_free", true⟩) := .direct rfl
  apply ReachesFree.call (G := drop)
  · exact ⟨List.mem_cons_self, 2, hcall, hdrop⟩
  · apply ReachesFree.here
    exact ⟨1, hfree, "__ptauth_free", by decide, hrelease⟩

/-- It is the call of another function with a body that keeps it from being confined. -/
theorem readBack_not_confined : ¬ readBack.Confined := by
  intro hconf
  have hentry : readBack.Path [] [0, 1, 2, 3, 4, 5] := .entry rfl
  have hcall : readBack.Stands 2 := ⟨_, _, hentry.next.next⟩
  rcases hconf.body 2 hcall ⟨"drop", false⟩ none rfl with hdecl | hself
  · exact absurd hdecl (by decide)
  · exact absurd hself (by decide)

theorem not_skipped_safe :
    ¬ ∀ (M : List Func) (F : Func), ResolvedModule M → F ∈ M → optimized F = true →
      ¬ ReachesFree M F := by
  intro h
  exact h _ readBack dropModule_resolved (by simp) readBack_optimized readBack_reachesFree

/-! ### A listed function that frees nothing -/

/-- `int roll(int n) { int r; int *q = &r; *q = n; if (rand()) roll(*q); return *q; }`: it calls a
declaration and itself. -/
def roll : Func :=
  Func.ofInstrs "roll" [[0, 1, 2, 3, 4, 5, 6, 7], [8, 9, 10, 11], [12, 13, 14]]
    [⟨.alloca (.int 32), [], .ptr (.int 32), "r"⟩,
      ⟨.alloca (.ptr (.int 32)), [], .ptr (.ptr (.int 32)), "q"⟩,
      ⟨.store, [⟨.inst 0, .ptr (.int 32)⟩, ⟨.inst 1, .ptr (.ptr (.int 32))⟩], .other "void", ""⟩,
      ⟨.load, [⟨.inst 1, .ptr (.ptr (.int 32))⟩], .ptr (.int 32), ""⟩,
      ⟨.store, [⟨.argument "n", .int 32⟩, ⟨.inst 3, .ptr (.int 32)⟩], .other "void", ""⟩,
      ⟨.call (some ⟨"rand", true⟩) none, [], .int 32, ""⟩,
      ⟨.other "icmp", [⟨.inst 5, .int 32⟩, ⟨.constantInt 0, .int 32⟩], .int 1, "tobool"⟩,
      ⟨.br [1, 2], [⟨.inst 6, .int 1⟩], .other "void", ""⟩,
      ⟨.load, [⟨.inst 1, .ptr (.ptr (.int 32))⟩], .ptr (.int 32), ""⟩,
      ⟨.load, [⟨.inst 8, .ptr (.int 32)⟩], .int 32, ""⟩,
      ⟨.call (some ⟨"roll", false⟩) none, [⟨.inst 9, .int 32⟩], .int 32, ""⟩,
      ⟨.br [2], [], .other "void", ""⟩,
      ⟨.load, [⟨.inst 1, .ptr (.ptr (.int 32))⟩], .ptr (.int 32), ""⟩,
      ⟨.load, [⟨.inst 12, .ptr (.int 32)⟩], .int 32, ""⟩,
      ⟨.ret, [⟨.inst 13, .int 32⟩], .other "void", ""⟩]

theorem roll_optimized : optimized roll = true := by decide +kernel

theorem roll_callees {x : Nat} (hx : x ∈ roll.ids) {callee : Callee} {returned : Option Nat}
    (hop : (roll.instr x).op = .call (some callee) returned) :
    callee = ⟨"rand", true⟩ ∨ callee = ⟨"roll", false⟩ := by
  have hall : roll.ids.filterMap roll.callee = [⟨"rand", true⟩, ⟨"roll", false⟩] := by decide
  have hmem := Func.mem_callees hx hop
  rw [hall] at hmem
  simpa using hmem

theorem rollModule_resolved : ResolvedModule [roll] where
  wellFormed := by
    intro F hF
    rw [List.mem_singleton.1 hF]
    exact Func.wellFormed_ofInstrs (by decide) (by decide) (by decide)
  names := by decide
  named := by
    intro F hF x hx callee returned hop
    rw [List.mem_singleton] at hF
    subst hF
    rcases roll_callees hx hop with rfl | rfl
    · decide
    · decide
  defined := by
    intro F hF x hx callee returned hop
    rw [List.mem_singleton] at hF
    subst hF
    rcases roll_callees hx hop with rfl | rfl
    · simp [roll, Func.ofInstrs]
    · simp [roll, Func.ofInstrs]
  runtime := by
    intro F hF _
    rw [List.mem_singleton.1 hF]
    decide

theorem roll_confined : roll.Confined where
  direct := by
    intro x hx returned hop
    have hall : ∀ y ∈ roll.ids, (roll.instr y).op.isCall = true → roll.callee y ≠ none := by decide
    apply hall x hx.mem (by rw [hop]; rfl)
    rw [Func.callee, hop]
  realloc := by
    intro x hx callee returned hop
    rcases roll_callees hx.mem hop with rfl | rfl
    · decide
    · decide
  body := by
    intro x hx callee returned hop
    rcases roll_callees hx.mem hop with rfl | rfl
    · exact Or.inl rfl
    · exact Or.inr rfl

/-- The criterion fails for `readBack` and is right about `roll`. -/
theorem readBack_confined_iff :
    (¬ ∀ M', ResolvedModule M' → readBack ∈ M' → ¬ ReachesFree M' readBack) ∧
      ∀ M', ResolvedModule M' → roll ∈ M' → ¬ ReachesFree M' roll := by
  constructor
  · rw [confined_iff dropModule_resolved (by simp) readBack_optimized]
    exact readBack_not_confined
  · rw [confined_iff rollModule_resolved (by simp) roll_optimized]
    exact roll_confined

end PTAuth.Pass
