import PTAuth.Pass.Following

/-!
# Whole programs

A program is a module with what its functions need to call each other: the names of their parameters
and the functions that code addresses stand for. Its executions are stacks of activations, each a
frame of a function with the values of its arguments. A call of a function that the module defines,
directly or through a pointer, pushes an activation and a return pops one; all other calls, among
them those of the allocation functions, are events.

The functions of the instrumented module call each other the same way. So what holds of one function
holds of programs: every execution of the instrumented program is one of the original
(`program_preserved`), and it follows every execution of the original program unless a check that it
makes on the way refuses (`program_followed`).
-/

set_option autoImplicit false

namespace PTAuth.Pass

open PTAuth.Library PTAuth.Runtime

/-! ## Programs and their executions -/

/-- The functions of a module, the names of their parameters, and the functions at code addresses.
-/
structure Program where
  functions : List Func
  parameters : String → List String
  resolve : Word → Option String

/-- The function of the name that has a body. -/
def Program.define (P : Program) (name : String) : Option Func :=
  P.functions.find? fun F => F.name == name && F.layout != []

/-- The function that a call enters and the values of its arguments; the function value of an
indirect call stands behind them. -/
def Program.enters (P : Program) : Option Callee → List (Ty × Word) → Option (Func × List Word)
  | some callee, args =>
      if callee.isDeclaration then none
      else (P.define callee.name).map (·, args.map Prod.snd)
  | none, args =>
      args.getLast?.bind fun f =>
        ((P.resolve f.2).bind P.define).map (·, args.dropLast.map Prod.snd)

/-- A function at work. -/
structure Activation where
  func : Func
  args : List Word
  frame : Frame

/-- Arguments have the values of the call. -/
def Hardware.bindArgs (T : Hardware) (parameters : List String) (args : List Word) : Hardware where
  constant := fun r =>
    match r with
    | .argument name => (parameters.zip args).lookup name
    | r => T.constant r
  load := T.load
  store := T.store
  compute := T.compute
  branch := T.branch

/-- What the instructions of an activation run on. -/
def Program.hardware (P : Program) (T : Hardware) (A : Activation) : Hardware :=
  T.bindArgs (P.parameters A.func.name) A.args

/-- A step of an activation that stays in its function. A return leaves the program only if no
caller is left. -/
def Program.Stays (P : Program) (callers : List Activation) : Option Event → Prop
  | some (.call callee args _ _ _) => P.enters callee args = none
  | some (.ret _) => callers = []
  | _ => True

/-- The value of a return, if there is one. -/
def Returns (values : List (Ty × Word)) (w : Word) : Prop := ∀ v, values.head? = some v → v.2 = w

/-- A step of an activation. -/
def Program.Runs (P : Program) (T : Hardware) (cfg : Config) (A : Activation) (l : Option Event)
    (c : Frame) : Prop :=
  Step (P.hardware T A) cfg A.func A.frame l c

/-- One step of a program. A caller waits in front of its call, which it makes when the function
that it entered returns, with the memory that is left. -/
inductive Program.Step (P : Program) (T : Hardware) (cfg : Config) :
    List Activation → Option Event → List Activation → Prop where
  | stay {A : Activation} {S : List Activation} {l : Option Event} {c : Frame} :
      P.Runs T cfg A l c → P.Stays S l → P.Step T cfg (A :: S) l (⟨A.func, A.args, c⟩ :: S)
  | enter {A : Activation} {S : List Activation} {callee : Option Callee} {args : List (Ty × Word)}
      {w : Word} {m : Mem} {c c₀ : Frame} {F : Func} {values : List Word} :
      P.Runs T cfg A (some (.call callee args A.frame.mem w m)) c →
        P.enters callee args = some (F, values) → (F.system T cfg A.frame.mem).start c₀ →
          P.Step T cfg (A :: S) none (⟨F, values, c₀⟩ :: A :: S)
  | leave {A B : Activation} {S : List Activation} {values : List (Ty × Word)}
      {callee : Option Callee} {args : List (Ty × Word)} {w : Word} {c c' : Frame} :
      P.Runs T cfg A (some (.ret values)) c → Returns values w →
        P.Runs T cfg B (some (.call callee args B.frame.mem w A.frame.mem)) c' →
          P.Step T cfg (A :: B :: S) none (⟨B.func, B.args, c'⟩ :: S)

/-- The executions of a program from its function `entry`, in the memory `m`. -/
def Program.system (P : Program) (T : Hardware) (cfg : Config) (entry : String) (m : Mem) :
    System (List Activation) Event where
  start S := ∃ F args c, P.define entry = some F ∧ (F.system T cfg m).start c ∧ S = [⟨F, args, c⟩]
  step := P.Step T cfg

/-! ### Invariants of activations -/

theorem Program.define_mem {P : Program} {name : String} {F : Func} (h : P.define name = some F) :
    F ∈ P.functions :=
  List.mem_of_find?_eq_some h

theorem Program.enters_mem {P : Program} {callee : Option Callee} {args : List (Ty × Word)} {F : Func}
    {values : List Word} (h : P.enters callee args = some (F, values)) : F ∈ P.functions := by
  have hvalues : ∀ (o : Option Func) (vs : List Word), o.map (·, vs) = some (F, values) →
      o = some F := by
    intro o vs ho
    obtain ⟨G, hG, hsame⟩ := Option.map_eq_some_iff.1 ho
    cases hsame
    exact hG
  cases callee with
  | some callee =>
      rw [Program.enters] at h
      split at h
      · cases h
      · exact Program.define_mem (hvalues _ _ h)
  | none =>
      rw [Program.enters] at h
      obtain ⟨f, -, h⟩ := Option.bind_eq_some_iff.1 h
      obtain ⟨name, -, hdefine⟩ := Option.bind_eq_some_iff.1 (hvalues _ _ h)
      exact Program.define_mem hdefine

/-- **The invariant rule for activations**: what holds of a function that starts, and is kept by the
steps of a function, holds of all activations at all times. -/
theorem Program.run_invariant {P : Program} {T : Hardware} {cfg : Config} {I : Activation → Prop}
    (hstart : ∀ F ∈ P.functions, ∀ args m c, (F.system T cfg m).start c → I ⟨F, args, c⟩)
    (hstep : ∀ A l c, I A → P.Runs T cfg A l c → I ⟨A.func, A.args, c⟩) {entry : String} {m : Mem}
    {es : List Event} {R : List Activation} (h : (P.system T cfg entry m).Run es R) :
    ∀ A ∈ R, I A := by
  apply h.inductionOn (P := fun _ R => ∀ A ∈ R, I A)
  · rintro R ⟨F, args, c, hF, hc, rfl⟩ A hA
    rw [List.mem_singleton.1 hA]
    exact hstart F (Program.define_mem hF) args m c hc
  · intro es R l R' _ ih hst
    cases hst with
    | @stay A S l c hrun _ =>
        intro B hB
        rcases List.mem_cons.1 hB with rfl | hB
        · exact hstep A l c (ih A List.mem_cons_self) hrun
        · exact ih B (List.mem_cons_of_mem _ hB)
    | @enter A S _ _ _ _ _ c₀ F values _ henters hc₀ =>
        intro B hB
        rcases List.mem_cons.1 hB with rfl | hB
        · exact hstart F (Program.enters_mem henters) values _ c₀ hc₀
        · exact ih B hB
    | @leave A B S _ _ _ _ _ c' _ _ hcall =>
        have hcaller := ih B (List.mem_cons_of_mem _ List.mem_cons_self)
        intro C hC
        rcases List.mem_cons.1 hC with rfl | hC
        · exact hstep B _ c' hcaller hcall
        · exact ih C (List.mem_cons_of_mem _ (List.mem_cons_of_mem _ hC))

/-! ## The instrumented program -/

/-- The programs have the same functions, those of the second with insertions of the pass. -/
structure Program.InstrumentedTo (P Q : Program) : Prop where
  functions : List.Forall₂ (fun F G => F.WellLinked ∧ Instrumented true F G) P.functions Q.functions
  parameters : Q.parameters = P.parameters
  resolve : Q.resolve = P.resolve

section InstrumentedTo

variable {P Q : Program} {T : Hardware} {cfg : Config}

/-- The programs define the same functions. -/
theorem Program.InstrumentedTo.define (h : P.InstrumentedTo Q) (name : String) :
    Option.Rel (fun F G => F.WellLinked ∧ Instrumented true F G) (P.define name) (Q.define name) := by
  rw [Program.define, Program.define]
  have hfs := h.functions
  generalize P.functions = fs at hfs
  generalize Q.functions = gs at hfs
  induction hfs with
  | nil => exact .none
  | @cons F G fs gs hFG _ ih =>
      obtain ⟨hwf, pre, hd, hs⟩ := hFG
      have hsame : (G.name == name && G.layout != []) = (F.name == name && F.layout != []) := by
        rw [hd.name, hd.layout]
        cases F.layout <;> rfl
      rw [List.find?_cons, List.find?_cons, hsame]
      split
      · exact .some ⟨hwf, pre, hd, hs⟩
      · exact ih

/-- The programs enter the same functions, with the same arguments. -/
theorem Program.InstrumentedTo.enters (h : P.InstrumentedTo Q) (callee : Option Callee)
    (args : List (Ty × Word)) :
    Option.Rel (fun p q => (p.1.WellLinked ∧ Instrumented true p.1 q.1) ∧ p.2 = q.2)
      (P.enters callee args) (Q.enters callee args) := by
  have hmap : ∀ (o o' : Option Func) (values : List Word),
      Option.Rel (fun F G => F.WellLinked ∧ Instrumented true F G) o o' →
      Option.Rel (fun p q : Func × List Word =>
        (p.1.WellLinked ∧ Instrumented true p.1 q.1) ∧ p.2 = q.2)
        (o.map (·, values)) (o'.map (·, values)) := by
    intro o o' values ho
    cases ho with
    | none => exact .none
    | some hFG => exact .some ⟨hFG, rfl⟩
  cases callee with
  | some callee =>
      rw [Program.enters, Program.enters]
      split
      · exact .none
      · exact hmap _ _ _ (h.define callee.name)
  | none =>
      rw [Program.enters, Program.enters, h.resolve]
      cases args.getLast? with
      | none => exact .none
      | some f =>
          rw [Option.bind_some, Option.bind_some]
          apply hmap
          cases P.resolve f.2 with
          | none => exact .none
          | some name => exact h.define name

/-- The activation `A` of the instrumented program is where `D` of the original is: `R` holds of
their frames. -/
def Activation.At (P : Program) (T : Hardware) (cfg : Config)
    (R : Hardware → Config → Func → Func → (Nat → List Nat) → Frame → Frame → Prop)
    (A D : Activation) : Prop :=
  D.func.WellLinked ∧ A.args = D.args ∧ ∃ pre, Decorated true D.func pre A.func ∧
    Sited true D.func pre A.func ∧ R (P.hardware T D) cfg D.func A.func pre A.frame D.frame

/-- The stacks match: the active functions, and the callers, which wait at the same calls. -/
inductive Stacks (P : Program) (T : Hardware) (cfg : Config) :
    List Activation → List Activation → Prop where
  | cons {A D : Activation} {S R : List Activation} :
      A.At P T cfg Matches D → List.Forall₂ (Activation.At P T cfg Ready) S R →
        Stacks P T cfg (A :: S) (D :: R)

/-- Activations of the same function with the same arguments run on the same hardware. -/
theorem Program.InstrumentedTo.hardware (h : P.InstrumentedTo Q) {A D : Activation}
    (hname : A.func.name = D.func.name) (hargs : A.args = D.args) :
    Q.hardware T A = P.hardware T D := by
  rw [Program.hardware, Program.hardware, h.parameters, hname, hargs]

/-- Events that agree enter the same function. -/
theorem Program.InstrumentedTo.stays (h : P.InstrumentedTo Q) {l l₀ : Option Event}
    (hl : Option.Rel Event.Agrees l l₀) {S R : List Activation} (hSR : S = [] ↔ R = []) :
    Q.Stays S l ↔ P.Stays R l₀ := by
  have hnone : ∀ callee args, P.enters callee args = none ↔ Q.enters callee args = none := by
    intro callee args
    have hrel := h.enters callee args
    generalize P.enters callee args = p at hrel
    generalize Q.enters callee args = q at hrel
    cases hrel <;> simp
  cases hl with
  | none => exact Iff.rfl
  | @some e _ he =>
      cases he with
      | same =>
          cases e with
          | alloca a => exact Iff.rfl
          | call callee args m w m' => exact (hnone callee args).symm
          | ret values => exact hSR
      | read m w m' hdecl _ _ =>
          show Q.enters _ _ = none ↔ P.enters _ _ = none
          rw [Program.enters, Program.enters, if_pos hdecl, if_pos hdecl]

theorem forall₂_nil_iff {α β : Type} {R : α → β → Prop} {as : List α} {bs : List β}
    (h : List.Forall₂ R as bs) : as = [] ↔ bs = [] := by
  cases h with
  | nil => simp
  | cons _ _ => simp

/-- A call of a defined function agrees with no other. -/
theorem Program.enters_agrees {callee : Option Callee} {args : List (Ty × Word)} {m m' : Mem}
    {w : Word} {e₀ : Event} {p : Func × List Word}
    (h : Event.Agrees (.call callee args m w m') e₀) (hp : P.enters callee args = some p) :
    e₀ = .call callee args m w m' := by
  cases h with
  | same => rfl
  | read _ _ _ hdecl _ _ =>
      rw [Program.enters, if_pos hdecl] at hp
      cases hp

/-! ## The instrumented program does nothing else -/

/-- **One step of the instrumented program.** -/
theorem Stacks.step (h : P.InstrumentedTo Q) (htbi : cfg.topByteIgnore = true)
    {S S' R : List Activation} {l : Option Event} (hSR : Stacks P T cfg S R)
    (hstep : Q.Step T cfg S l S') :
    (l = none ∧ Stacks P T cfg S' R) ∨ ∃ l₀ R', P.Step T cfg R l₀ R' ∧
      Option.Rel Event.Agrees l l₀ ∧ Stacks P T cfg S' R' := by
  cases hstep with
  | @stay A S l c hrun hstays =>
      cases hSR with
      | @cons _ D _ R hAD htail =>
          -- the active function runs inserted instructions, or makes the step too
          obtain ⟨hwf, hargs, pre, hd, hs, hm⟩ := hAD
          rw [Program.Runs, h.hardware hd.name hargs] at hrun
          rcases hm.step hd hs htbi hwf.ids_lt hrun with ⟨hl, hm'⟩ | ⟨l₀, d', hstep₀, hl, hm'⟩
          · exact Or.inl ⟨hl, .cons ⟨hwf, hargs, pre, hd, hs, hm'⟩ htail⟩
          · refine Or.inr ⟨l₀, _, .stay hstep₀ ?_, hl, .cons ⟨hwf, hargs, pre, hd, hs, hm'⟩ htail⟩
            exact (h.stays hl (forall₂_nil_iff htail)).1 hstays
  | @enter A S callee args w m c c₀ G values hrun henters hstart =>
      cases hSR with
      | @cons _ D _ R hAD htail =>
          obtain ⟨hwf, hargs, pre, hd, hs, hm⟩ := hAD
          rw [Program.Runs, h.hardware hd.name hargs] at hrun
          -- the caller stands in front of the call and waits there, the callee starts
          have hready := hm.ready_of_event hd hrun
          rcases hm.step hd hs htbi hwf.ids_lt hrun with ⟨hl, -⟩ | ⟨l₀, d', hstep₀, hl, -⟩
          · cases hl
          · cases hl with
            | some he =>
                obtain rfl := Program.enters_agrees he henters
                have hrel := h.enters callee args
                rw [henters] at hrel
                generalize hP : P.enters callee args = p at hrel
                cases hrel with
                | @some p _ hp =>
                    obtain ⟨⟨hwfG, preG, hdG, hsG⟩, hvalues⟩ := hp
                    obtain ⟨d₀, hd₀, hm₀⟩ := (hdG.simulates hsG htbi hwfG.ids_lt
                      (P.hardware T ⟨p.1, p.2, c₀⟩) A.frame.mem).start c₀ hstart
                    rw [hm.mem] at hstep₀ hd₀
                    exact Or.inr ⟨none, _, .enter hstep₀ hP hd₀, .none,
                      .cons ⟨hwfG, hvalues.symm, preG, hdG, hsG, hm₀⟩
                        (.cons ⟨hwf, hargs, pre, hd, hs, hready⟩ htail)⟩
  | @leave A B S values callee args w c c' hret hvalue hcall =>
      cases hSR with
      | @cons _ D _ R hAD htail =>
          cases htail with
          | @cons _ E _ R hBE htail =>
              obtain ⟨hwf, hargs, pre, hd, hs, hm⟩ := hAD
              obtain ⟨hwfE, hargsE, preE, hdE, hsE, hready⟩ := hBE
              rw [Program.Runs, h.hardware hd.name hargs] at hret
              rw [Program.Runs, h.hardware hdE.name hargsE] at hcall
              -- the callee returns, and its caller makes the call with the value and the memory it is given
              rcases hm.step hd hs htbi hwf.ids_lt hret with ⟨hl, -⟩ | ⟨l₀, d', hret₀, hl, -⟩
              · cases hl
              · rcases hready.same.step hdE hsE htbi hwfE.ids_lt hcall with
                  ⟨hl', -⟩ | ⟨l₁, e', hcall₀, hl', hm'⟩
                · cases hl'
                · have hnew : Stacks P T cfg (⟨B.func, B.args, c'⟩ :: S) (⟨E.func, E.args, e'⟩ :: R) :=
                    .cons ⟨hwfE, hargsE, preE, hdE, hsE, hm'⟩ htail
                  cases hl with
                  | some he =>
                      cases he with
                      | same =>
                          cases hl' with
                          | some he' =>
                              rw [hready.same.mem, hm.mem] at he'
                              cases he' with
                              | same =>
                                  exact Or.inr ⟨none, _, .leave hret₀ hvalue hcall₀, .none, hnew⟩
                              | read =>
                                  exact Or.inr ⟨none, _, .leave hret₀ hvalue hcall₀, .none, hnew⟩

/-- **The original program simulates the instrumented one.** -/
theorem Program.InstrumentedTo.simulates (h : P.InstrumentedTo Q) (htbi : cfg.topByteIgnore = true)
    (entry : String) (m : Mem) :
    (Q.system T cfg entry m).Simulates (P.system T cfg entry m) Event.Agrees
      (Stacks P T cfg) where
  start := by
    rintro S ⟨G, args, c, hG, hc, rfl⟩
    have hrel := h.define entry
    rw [hG] at hrel
    generalize hF : P.define entry = o at hrel
    cases hrel with
    | @some F _ hFG =>
        obtain ⟨hwf, pre, hd, hs⟩ := hFG
        obtain ⟨d, hdstart, hm⟩ :=
          (hd.simulates hs htbi hwf.ids_lt (P.hardware T ⟨F, args, c⟩) m).start c hc
        exact ⟨_, ⟨F, args, d, hF, hdstart, rfl⟩, .cons ⟨hwf, rfl, pre, hd, hs, hm⟩ .nil⟩
  silent := by
    intro S R S' hSR hstep
    rcases hSR.step h htbi hstep with ⟨-, hSR'⟩ | ⟨l₀, R', hstep₀, hl, hSR'⟩
    · exact ⟨R, Or.inl rfl, hSR'⟩
    · cases hl
      exact ⟨R', Or.inr hstep₀, hSR'⟩
  event := by
    intro S R e S' hSR hstep
    rcases hSR.step h htbi hstep with ⟨hl, -⟩ | ⟨l₀, R', hstep₀, hl, hSR'⟩
    · cases hl
    · cases hl with
      | some he => exact ⟨_, R', he, hstep₀, hSR'⟩

/-- The activation `A` of the instrumented program and `D` of the original one are at the same point
of the same function, with the same arguments. -/
structure Activation.Same (P : Program) (T : Hardware) (A D : Activation) : Prop where
  name : A.func.name = D.func.name
  args : A.args = D.args
  frame : D.func.SameAt (P.hardware T D) A.func A.frame D.frame

/-- Matching stacks are the same. -/
theorem Stacks.same (htbi : cfg.topByteIgnore = true) {S R : List Activation}
    (h : Stacks P T cfg S R) : List.Forall₂ (Activation.Same P T) S R := by
  cases h with
  | cons hAD htail =>
      obtain ⟨hwf, hargs, pre, hd, hs, hm⟩ := hAD
      refine .cons ⟨hd.name, hargs, hm.sameAt hd htbi hwf.ids_lt⟩ (htail.imp ?_)
      rintro B E ⟨hwf, hargs, pre, hd, hs, hready⟩
      exact ⟨hd.name, hargs, hready.same.sameAt hd htbi hwf.ids_lt⟩

/-! ## The instrumented program does as much -/

/-- A function goes on silently without leaving its activation. -/
theorem Program.silents (A : Activation) (S : List Activation) (entry : String) {m m' : Mem} {u : Frame}
    (h : (A.func.system (Q.hardware T A) cfg m').Silents A.frame u) :
    (Q.system T cfg entry m).Silents (A :: S) (⟨A.func, A.args, u⟩ :: S) := by
  induction h with
  | refl => exact .refl
  | tail _ hstep ih => exact ih.tail (.stay hstep trivial)

/-- The active function of the instrumented program is in front of a check that refuses a pointer
which the original one goes through. -/
def Program.Refused (P : Program) (T : Hardware) (cfg : Config) (R S : List Activation) : Prop :=
  ∃ D R' A S', R = D :: R' ∧ S = A :: S' ∧ A.func.name = D.func.name ∧ A.args = D.args ∧
    Pass.Refused (P.hardware T D) cfg D.func A.func D.frame A.frame

/-- There it halts. -/
theorem Program.Refused.stuck (h : P.InstrumentedTo Q) {R S S' : List Activation} {l : Option Event}
    (hrefused : P.Refused T cfg R S) : ¬ Q.Step T cfg S l S' := by
  obtain ⟨D, R', A, S', rfl, rfl, hname, hargs, x, z, check, w, hrefusal⟩ := hrefused
  rw [← h.hardware hname hargs] at hrefusal
  intro hstep
  cases hstep with
  | stay hrun _ => exact hrefusal.stuck hrun
  | enter hrun _ _ => exact hrefusal.stuck hrun
  | leave hrun _ _ => exact hrefusal.stuck hrun

/-- A call that agrees with one of a defined function is the same. -/
theorem Program.enters_agreed {callee : Option Callee} {args : List (Ty × Word)} {m m' : Mem}
    {w : Word} {e : Event} {p : Func × List Word}
    (h : Event.Agrees e (.call callee args m w m')) (hp : P.enters callee args = some p) :
    e = .call callee args m w m' := by
  cases h with
  | same => rfl
  | read _ _ _ hdecl _ _ =>
      rw [Program.enters, if_pos hdecl] at hp
      cases hp

/-- **One step of the original program.** -/
theorem Stacks.follow (h : P.InstrumentedTo Q) (htbi : cfg.topByteIgnore = true)
    {R R' S : List Activation} {l : Option Event} (entry : String) (m : Mem)
    (hSR : Stacks P T cfg S R) (hstep : P.Step T cfg R l R') :
    ∃ U, (Q.system T cfg entry m).Silents S U ∧ (P.Refused T cfg R U ∨
      ∃ l' S', Q.Step T cfg U l' S' ∧ Option.Rel (fun e₀ e => Event.Agrees e e₀) l l' ∧
        Stacks P T cfg S' R') := by
  have hswap : ∀ {l l₀ : Option Event}, Option.Rel Event.Agrees l l₀ →
      Option.Rel (fun e₀ e => Event.Agrees e e₀) l₀ l := by
    intro l l₀ hl
    cases hl with
    | none => exact .none
    | some he => exact .some he
  cases hSR with
  | @cons A D S R hAD htail =>
      obtain ⟨hwf, hargs, pre, hd, hs, hm⟩ := hAD
      have hhw : Q.hardware T A = P.hardware T D := h.hardware hd.name hargs
      -- the active function gets ready for its step, or is refused
      have hready : ∀ {l₀ : Option Event} {d' : Frame}, P.Runs T cfg D l₀ d' → ∃ u,
          (Q.system T cfg entry m).Silents (A :: S) (⟨A.func, A.args, u⟩ :: S) ∧
          (P.Refused T cfg (D :: R) (⟨A.func, A.args, u⟩ :: S) ∨
            Ready (P.hardware T D) cfg D.func A.func pre u D.frame) := by
        intro l₀ d' hrun
        obtain ⟨u, hu, hrefused | hready⟩ := hm.ready hd hs htbi m hrun
        · rw [← hhw] at hu
          exact ⟨u, Program.silents A S entry hu, Or.inl ⟨D, R, _, S, rfl, rfl, hd.name, hargs, hrefused⟩⟩
        · rw [← hhw] at hu
          exact ⟨u, Program.silents A S entry hu, Or.inr hready⟩
      cases hstep with
      | stay hrun hstays =>
          obtain ⟨u, hu, hrefused | hready⟩ := hready hrun
          · exact ⟨_, hu, Or.inl hrefused⟩
          · obtain ⟨l', c', hstep', hl, hm'⟩ := hready.follow hd hs htbi hwf.ids_lt hrun
            rw [← hhw] at hstep'
            refine ⟨_, hu, Or.inr ⟨l', _, .stay hstep' ?_, hswap hl,
              .cons ⟨hwf, hargs, pre, hd, hs, hm'⟩ htail⟩⟩
            -- it enters or leaves no function, since the original does not
            exact (h.stays hl (forall₂_nil_iff htail)).2 hstays
      | @enter _ _ callee args w m₁ d' d₀ F values hrun henters hstart =>
          obtain ⟨u, hu, hrefused | hready⟩ := hready hrun
          · exact ⟨_, hu, Or.inl hrefused⟩
          · obtain ⟨l', c', hstep', hl, -⟩ := hready.follow hd hs htbi hwf.ids_lt hrun
            rw [← hhw] at hstep'
            cases hl with
            | some he =>
                rw [← hready.same.mem] at he
                obtain rfl := Program.enters_agreed he henters
                -- the call enters the instrumented callee
                have hrel := h.enters callee args
                rw [henters] at hrel
                generalize hQ : Q.enters callee args = q at hrel
                cases hrel with
                | @some _ q hq =>
                    obtain ⟨⟨hwfF, preF, hdF, hsF⟩, hvalues⟩ := hq
                    obtain ⟨c₀, hc₀, hm₀⟩ :=
                      hdF.start_of (T := P.hardware T ⟨F, values, d₀⟩) hwfF hstart
                    rw [← hready.same.mem] at hc₀
                    exact ⟨_, hu, Or.inr ⟨none, _, .enter hstep' hQ hc₀, .none,
                      .cons ⟨hwfF, hvalues.symm, preF, hdF, hsF, hm₀⟩
                        (.cons ⟨hwf, hargs, pre, hd, hs, hready⟩ htail)⟩⟩
      | @leave _ E _ values callee args w d' e' hret hvalue hcall =>
          cases htail with
          | @cons B _ S _ hBE htail =>
              obtain ⟨hwfE, hargsE, preE, hdE, hsE, hreadyE⟩ := hBE
              obtain ⟨u, hu, hrefused | hready⟩ := hready hret
              · exact ⟨_, hu, Or.inl hrefused⟩
              · obtain ⟨l', c', hret', hl, -⟩ := hready.follow hd hs htbi hwf.ids_lt hret
                -- the waiting caller is ready for its call, with nothing inserted left to run
                obtain ⟨l'', b', hcall', hl', hm'⟩ := hreadyE.follow hdE hsE htbi hwfE.ids_lt hcall
                rw [← hhw] at hret'
                rw [← h.hardware hdE.name hargsE] at hcall'
                have hnew : Stacks P T cfg (⟨B.func, B.args, b'⟩ :: S) (⟨E.func, E.args, e'⟩ :: _) :=
                  .cons ⟨hwfE, hargsE, preE, hdE, hsE, hm'⟩ htail
                cases hl with
                | some he =>
                    cases he with
                    | same =>
                        cases hl' with
                        | some he' =>
                            rw [← hreadyE.same.mem, ← hready.same.mem] at he'
                            cases he' with
                            | same =>
                                exact ⟨_, hu, Or.inr ⟨none, _, .leave hret' hvalue hcall', .none, hnew⟩⟩
                            | read =>
                                exact ⟨_, hu, Or.inr ⟨none, _, .leave hret' hvalue hcall', .none, hnew⟩⟩

/-- **The instrumented program follows the original one.** -/
theorem Program.InstrumentedTo.follows (h : P.InstrumentedTo Q) (htbi : cfg.topByteIgnore = true)
    (entry : String) (m : Mem) :
    System.Follows (P.system T cfg entry m) (Q.system T cfg entry m)
      (fun e₀ e => Event.Agrees e e₀) (fun R S => Stacks P T cfg S R) (P.Refused T cfg) where
  start := by
    rintro R ⟨F, args, d, hF, hd, rfl⟩
    have hrel := h.define entry
    rw [hF] at hrel
    generalize hG : Q.define entry = o at hrel
    cases hrel with
    | @some _ G hFG =>
        obtain ⟨hwf, pre, hdec, hs⟩ := hFG
        obtain ⟨c, hc, hm⟩ := hdec.start_of (T := P.hardware T ⟨F, args, d⟩) hwf hd
        exact ⟨_, ⟨G, args, c, hG, hc, rfl⟩, .cons ⟨hwf, rfl, pre, hdec, hs, hm⟩ .nil⟩
  step := fun _ _ _ _ hSR hstep => hSR.follow h htbi entry m hstep

end InstrumentedTo

/-! ## The pass over a program -/

/-- The program with the functions that the pass leaves. -/
def Program.rewrite (P : Program) (m : ModuleState) : Program :=
  { P with functions := m.done.map Prod.fst }

/-- The pass ends, and instruments the program. -/
theorem Program.rewrite_instrumentedTo (optimization : Bool) {P : Program}
    (hwf : ∀ F ∈ P.functions, F.WellLinked) :
    ∃ N, ∀ fuel, N ≤ fuel → ∃ M, instrumentModule optimization true fuel P.functions = some M ∧
      P.InstrumentedTo (P.rewrite M) := by
  obtain ⟨N, hN⟩ := instrumentModule_instrumented optimization true hwf
  refine ⟨N, fun fuel hfuel => ?_⟩
  obtain ⟨M, hM, hfs⟩ := hN fuel hfuel
  refine ⟨M, hM, ?_, rfl, rfl⟩
  have hboth := (List.forall₂_and_left (p := fun F : Func => F.WellLinked) _ _).2 ⟨hwf, hfs⟩
  exact hboth

/-- **The instrumented program does nothing that the original does not**, in the Top-Byte Ignore
build: every execution is one of the original program, across calls and returns, with the same
events, but for the arguments of `read`, and at every point with the same stack. -/
theorem program_preserved (optimization : Bool) (T : Hardware) {cfg : Config}
    (htbi : cfg.topByteIgnore = true) {P : Program} (hwf : ∀ F ∈ P.functions, F.WellLinked) :
    ∃ N, ∀ fuel, N ≤ fuel → ∃ M, instrumentModule optimization true fuel P.functions = some M ∧
      ∀ entry m es S, ((P.rewrite M).system T cfg entry m).Run es S →
        ∃ es₀ R, (P.system T cfg entry m).Run es₀ R ∧ List.Forall₂ Event.Agrees es es₀ ∧
          List.Forall₂ (Activation.Same P T) S R := by
  obtain ⟨N, hN⟩ := P.rewrite_instrumentedTo optimization hwf
  refine ⟨N, fun fuel hfuel => ?_⟩
  obtain ⟨M, hM, hinstrumented⟩ := hN fuel hfuel
  refine ⟨M, hM, fun entry m es S hrun => ?_⟩
  obtain ⟨es₀, R, hrun₀, hes, hSR⟩ := (hinstrumented.simulates htbi entry m).run hrun
  exact ⟨es₀, R, hrun₀, hes, hSR.same htbi⟩

/-- **The instrumented program does all that the original does, up to a check that refuses**: every
execution of the original program is followed to its end, or up to a point that it passes, where the
instrumented program halts in front of a check, and the check refuses a pointer that the original
goes through. -/
theorem program_followed (optimization : Bool) (T : Hardware) {cfg : Config}
    (htbi : cfg.topByteIgnore = true) {P : Program} (hwf : ∀ F ∈ P.functions, F.WellLinked) :
    ∃ N, ∀ fuel, N ≤ fuel → ∃ M, instrumentModule optimization true fuel P.functions = some M ∧
      ∀ entry m es₀ R, (P.system T cfg entry m).Run es₀ R →
        ∃ es S, ((P.rewrite M).system T cfg entry m).Run es S ∧
          ((List.Forall₂ Event.Agrees es es₀ ∧ List.Forall₂ (Activation.Same P T) S R) ∨
            ∃ es₁ R₁, es₁ <+: es₀ ∧ (P.system T cfg entry m).Run es₁ R₁ ∧
              (P.system T cfg entry m).Leads R₁ R ∧ List.Forall₂ Event.Agrees es es₁ ∧
              P.Refused T cfg R₁ S ∧ ∀ l S', ¬ (P.rewrite M).Step T cfg S l S') := by
  obtain ⟨N, hN⟩ := P.rewrite_instrumentedTo optimization hwf
  refine ⟨N, fun fuel hfuel => ?_⟩
  obtain ⟨M, hM, hinstrumented⟩ := hN fuel hfuel
  refine ⟨M, hM, fun entry m es₀ R hrun => ?_⟩
  obtain ⟨es, S, hrun', ⟨hes, hSR⟩ | ⟨es₁, R₁, hle, hrun₁, hleads, hes, hrefused⟩⟩ :=
    (hinstrumented.follows htbi entry m).run hrun
  · exact ⟨es, S, hrun', Or.inl ⟨hes.flip, hSR.same htbi⟩⟩
  · refine ⟨es, S, hrun', Or.inr ⟨es₁, R₁, hle, hrun₁, hleads, hes.flip, hrefused, ?_⟩⟩
    exact fun l S' => hrefused.stuck hinstrumented

/-! ### A program of two functions -/

/-- `void use(int *p) { p && p[1]; }` -/
def indexOnce : Func :=
  Func.ofInstrs "use" [[0, 1, 2, 3, 4], [5, 6, 7, 8, 9], [10, 11]]
    [⟨.alloca (.ptr (.int 32)), [], .ptr (.ptr (.int 32)), "p.addr"⟩,
      ⟨.store, [⟨.argument "p", .ptr (.int 32)⟩, ⟨.inst 0, .ptr (.ptr (.int 32))⟩], .other "void", ""⟩,
      ⟨.load, [⟨.inst 0, .ptr (.ptr (.int 32))⟩], .ptr (.int 32), ""⟩,
      ⟨.other "icmp", [⟨.inst 2, .ptr (.int 32)⟩, ⟨.constant "null", .ptr (.int 32)⟩], .int 1,
        "tobool"⟩,
      ⟨.br [1, 2], [⟨.inst 3, .int 1⟩], .other "void", ""⟩,
      ⟨.load, [⟨.inst 0, .ptr (.ptr (.int 32))⟩], .ptr (.int 32), ""⟩,
      ⟨.gep, [⟨.inst 5, .ptr (.int 32)⟩, ⟨.constantInt 1, .int 64⟩], .ptr (.int 32), ""⟩,
      ⟨.load, [⟨.inst 6, .ptr (.int 32)⟩], .int 32, ""⟩,
      ⟨.other "icmp", [⟨.inst 7, .int 32⟩, ⟨.constantInt 0, .int 32⟩], .int 1, "tobool1"⟩,
      ⟨.br [2], [], .other "void", ""⟩,
      ⟨.phi [0, 1], [⟨.constantInt 0, .int 1⟩, ⟨.inst 8, .int 1⟩], .int 1, ""⟩,
      ⟨.ret, [], .other "void", ""⟩]

/-- `useTwice` and the function that it calls. -/
def useProgram : Program where
  functions := [useTwice, indexOnce]
  parameters := fun name => if name == "use" then ["p"] else ["q"]
  resolve := fun _ => none

theorem useProgram_wellLinked : ∀ F ∈ useProgram.functions, F.WellLinked := by
  have honce : indexOnce.WellFormed := Func.wellFormed_ofInstrs (by decide) (by decide) (by decide)
  intro F hF
  rcases List.mem_cons.1 hF with rfl | hF
  · exact useTwice_wellFormed.wellLinked
  · rw [List.mem_singleton.1 hF]
    exact honce.wellLinked

/-- The call of `useTwice` enters `indexOnce`. -/
example : (useProgram.enters (some ⟨"use", false⟩) [(.ptr (.int 32), 8)]).map
    (fun p => (p.1.name, p.2)) = some ("use", [8]) := by decide

theorem useProgram_preserved :
    ∃ N, ∀ fuel, N ≤ fuel → ∃ M, instrumentModule true true fuel useProgram.functions = some M ∧
      ∀ entry m es S, ((useProgram.rewrite M).system wordHardware Config.shipped entry m).Run es S →
        ∃ es₀ R, (useProgram.system wordHardware Config.shipped entry m).Run es₀ R ∧
          List.Forall₂ Event.Agrees es es₀ ∧
          List.Forall₂ (Activation.Same useProgram wordHardware) S R :=
  program_preserved true wordHardware rfl useProgram_wellLinked

theorem useProgram_followed :
    ∃ N, ∀ fuel, N ≤ fuel → ∃ M, instrumentModule true true fuel useProgram.functions = some M ∧
      ∀ entry m es₀ R, (useProgram.system wordHardware Config.shipped entry m).Run es₀ R →
        ∃ es S, ((useProgram.rewrite M).system wordHardware Config.shipped entry m).Run es S ∧
          ((List.Forall₂ Event.Agrees es es₀ ∧
              List.Forall₂ (Activation.Same useProgram wordHardware) S R) ∨
            ∃ es₁ R₁, es₁ <+: es₀ ∧
              (useProgram.system wordHardware Config.shipped entry m).Run es₁ R₁ ∧
              (useProgram.system wordHardware Config.shipped entry m).Leads R₁ R ∧
              List.Forall₂ Event.Agrees es es₁ ∧
              useProgram.Refused wordHardware Config.shipped R₁ S ∧
              ∀ l S', ¬ (useProgram.rewrite M).Step wordHardware Config.shipped S l S') :=
  program_followed true wordHardware rfl useProgram_wellLinked

end PTAuth.Pass
