import PTAuth.Pass.ArgumentChecks
import PTAuth.Pass.Program
import PTAuth.Pass.Replacement
import PTAuth.Runtime.FailStop

/-!
# What the checks mean for a program

A check refuses a tagged pointer exactly if memory does not vouch for it and the build stops on
failures, or the search does not end (`refuses_iff`). So the shipped build, which has `ENABLELOG`,
does all that the original program does, as long as this goes through no low address
(`shipped_program_followed`).

Without `ENABLELOG` a check lets no pointer through that memory does not vouch for: whenever control
reaches a load or a GEP behind a check, the word that vouches is there at this moment
(`checked_access_vouched`; without Top-Byte Ignore, `guarded_access_stripped`). And it stops no
program that goes through pointers at most 1015 bytes into live objects only. For this a program runs
together with the heap of the runtime (`Program.process`): the calls of the allocation functions are
the actions of the heap machine, and what else the program does leaves the headers of live objects
alone (`no_false_alarm`).
-/

set_option autoImplicit false

namespace PTAuth.Pass

open PTAuth.Library PTAuth.Runtime

/-! ## What is refused -/

section Refuses

variable {cfg : Config} {m : Mem} {w : Word}

/-- **What a check refuses.** -/
theorem refuses_iff (hthr : cfg.bkThreasholdEnabled = true) (check : Check) :
    Refuses cfg m check w ↔ ¬ (Untagged w ∨ Vouched cfg (readWord m) w) ∧
      (cfg.enableLog = true → (Runtime.xpac w).toNat < 1023) := by
  constructor
  · intro hrefuses
    have hnot : ¬ (Untagged w ∨ Vouched cfg (readWord m) w) := by
      intro hpass
      obtain ⟨r, hr, hout⟩ := check.run_of_passing hthr hpass (Nat.le_refl 1024)
      exact hrefuses 1024 r _ hr hout
    refine ⟨hnot, fun hlog => ?_⟩
    by_contra hhigh
    obtain ⟨r, hr⟩ := check.run_ends hthr (readWord m) (Nat.not_lt.1 hhigh) (Nat.le_refl 1024)
    rw [not_or, Untagged, Nat.not_lt] at hnot
    -- with `ENABLELOG` a check that ends hands the pointer back
    have hout := (check.run_of_not_passing hthr hnot.1 hnot.2 hr).2
    rw [hlog] at hout
    exact hrefuses 1024 r w hr hout
  · rintro ⟨hnot, hlow⟩ fuel r q hr ho
    rw [not_or, Untagged, Nat.not_lt] at hnot
    obtain ⟨hhigh, hout⟩ := check.run_of_not_passing hthr hnot.1 hnot.2 hr
    cases hlog : cfg.enableLog with
    | true =>
        have := hlow hlog
        omega
    | false =>
        rw [ho, hlog] at hout
        cases hout

end Refuses

/-! ## Builds that report failures only -/

/-- The program is in front of an instruction that goes through the pointer `w`, in the memory `m`.
-/
def Program.Goes (P : Program) (T : Hardware) (S : List Activation) (m : Mem) (w : Word) : Prop :=
  ∃ A R x B, S = A :: R ∧ A.frame.mem = m ∧ A.frame.block = x :: B ∧
    (P.hardware T A).Through A.func A.frame x w

section Follows

variable {P Q : Program} {T : Hardware} {cfg : Config} {entry : String} {m : Mem} {es₀ : List Event}
  {R : List Activation}

/-- Whatever is refused, the original program goes through. -/
theorem Program.Refused.goes {S : List Activation} (h : P.Refused T cfg R S) :
    ∃ m w check, P.Goes T R m w ∧ Refuses cfg m check w := by
  obtain ⟨D, R', A, S', rfl, rfl, -, -, x, z, check, w, hrefusal⟩ := h
  obtain ⟨B, hB⟩ := hrefusal.original
  exact ⟨_, w, check, ⟨D, R', x, B, rfl, rfl, hB, hrefusal.through⟩, hrefusal.refuses⟩

/-- A program that goes through pointers which no check refuses is followed to its end. -/
theorem Program.InstrumentedTo.run_through (h : P.InstrumentedTo Q) (htbi : cfg.topByteIgnore = true)
    (hrun : ((P.system T cfg entry m).restrict fun R =>
      ∀ m' w check, P.Goes T R m' w → ¬ Refuses cfg m' check w).Run es₀ R) :
    ∃ es S, (Q.system T cfg entry m).Run es S ∧ List.Forall₂ Event.Agrees es es₀ ∧
      List.Forall₂ (Activation.Same P T) S R := by
  obtain ⟨es, S, hrun', hes, hSR⟩ := (h.follows htbi entry m).run_through
    (fun R S hR hrefused => by
      obtain ⟨m', w, check, hgoes, hrefuses⟩ := hrefused.goes
      exact hR m' w check hgoes hrefuses) hrun
  exact ⟨es, S, hrun', hes.flip, hSR.same htbi⟩

end Follows

/-- **The shipped build does all that the original program does.** Every execution of a program
whose pointers, where it goes through them, are untagged, or have an address from 1023 on, or are
vouched for is followed to its end: no check ever stops it. -/
theorem shipped_program_followed (optimization : Bool) (T : Hardware) {P : Program}
    (hwf : ∀ F ∈ P.functions, F.WellLinked) :
    ∃ N, ∀ fuel, N ≤ fuel → ∃ M, instrumentModule optimization true fuel P.functions = some M ∧
      ∀ entry m es₀ R, ((P.system T Config.shipped entry m).restrict fun R =>
          ∀ m' w, P.Goes T R m' w → (Runtime.xpac w).toNat < 1023 →
            Untagged w ∨ Vouched Config.shipped (readWord m') w).Run es₀ R →
        ∃ es S, ((P.rewrite M).system T Config.shipped entry m).Run es S ∧
          List.Forall₂ Event.Agrees es es₀ ∧ List.Forall₂ (Activation.Same P T) S R := by
  obtain ⟨N, hN⟩ := P.rewrite_instrumentedTo optimization hwf
  refine ⟨N, fun fuel hfuel => ?_⟩
  obtain ⟨M, hM, hinstrumented⟩ := hN fuel hfuel
  refine ⟨M, hM, fun entry m es₀ R hrun => hinstrumented.run_through rfl (hrun.restrict_mono ?_)⟩
  intro R hR m' w check hgoes hrefuses
  -- with `ENABLELOG` only a check that does not end refuses
  obtain ⟨hnot, hlow⟩ := (refuses_iff rfl check).1 hrefuses
  exact hnot (hR m' w hgoes (hlow rfl))

/-! ## The build that stops on failures -/

/-- The pointer that `x` goes through is, behind bitcasts, the result of the check `z`. -/
def Func.GuardedBy (F : Func) (x z : Nat) : Prop :=
  ∃ v, F.operand x 0 = some v ∧ CastsTo F v z ∧ (F.instr z).op.IsCheck

/-- It is the result of a check. -/
def Func.Guarded (F : Func) (x : Nat) : Prop := ∃ z, F.GuardedBy x z

section Guarded

variable {T : Hardware} {cfg : Config} {tbi : Bool} {F₀ F : Func} {pre : Nat → List Nat} {c : Frame}

/-- **The check behind an operand** was inserted in front of it, and the operand has its result, if
the original function has no checks. The induction is on the bitcasts. -/
theorem Copy.check_ran (hd : Decorated tbi F₀ pre F) (hs : Sited tbi F₀ pre F)
    (hwf : F₀.WellLinked) (hplain : ∀ y ∈ F₀.ids, ¬ (F₀.instr y).op.IsCheck) {v : Value}
    {z : Nat} (h : CastsTo F v z) (hz : (F.instr z).op.IsCheck) :
    ∀ {x k : Nat} {v₀ : Value} {b : Bool}, x ∈ F₀.ids → F₀.operand x k = some v₀ →
      Copy F (pre x) v₀ v b → (∀ y ∈ pre x, Ran T cfg F c y) →
        z ∈ pre x ∧ T.eval c.regs v.ref = c.regs z := by
  induction h with
  | @self v z hv =>
      intro x k v₀ b hx hv₀ hcopy _
      rcases hcopy.inst hv with hold | hmem
      · have hmem := hwf.operand_mem x hx k v₀ z hv₀ hold
        rw [hd.op z (hwf.ids_lt z hmem)] at hz
        exact absurd hz (hplain z hmem)
      · refine ⟨hmem, ?_⟩
        rw [hv]
        rfl
  | @cast v w y z hv hop hw _ ih =>
      intro x k v₀ b hx hv₀ hcopy hran
      -- an original bitcast keeps its operand, so no call is behind it
      have hold : v₀.ref = .inst y → False := by
        intro href
        have hmem := hwf.operand_mem x hx k v₀ y hv₀ href
        have hlt := hwf.ids_lt y hmem
        have hnil : pre y = [] := by
          apply List.eq_nil_iff_forall_not_mem.2
          intro u hu
          obtain ⟨j, w₀, f, hsite, -⟩ := hs.site y u hu
          rw [hd.op y hlt] at hop
          rcases hsite.op_cases with hop' | hop' | ⟨callee, returned, hop'⟩
          · rw [hop] at hop'
            exact absurd hop' (by simp)
          · rw [hop] at hop'
            exact absurd hop' (by simp)
          · rw [hop] at hop'
            exact absurd hop' (by simp)
        obtain ⟨w₀, b', hw₀, -, hcopy', -⟩ := hd.operand y hlt 0 w hw
        have hmem' := (ih hz hmem hw₀ hcopy' fun u hu => by
          rw [hnil] at hu
          exact absurd hu List.not_mem_nil).1
        rw [hnil] at hmem'
        exact absurd hmem' List.not_mem_nil
      cases hcopy with
      | self => exact (hold hv).elim
      | fold => exact absurd hv (by simp)
      | @cast y' u _ ty hy hi hcopy =>
          cases hv
          have hu : u = w := by
            rw [Func.operand, hi] at hw
            exact Option.some.inj hw
          subst hu
          obtain ⟨hmem, heval⟩ := ih hz hx hv₀ hcopy hran
          refine ⟨hmem, ?_⟩
          rw [← heval]
          -- the bitcast has run
          obtain ⟨u', p, q, hu', hp, hq, hcall | ⟨f, _, hcall, -⟩⟩ := hran y hy
          · rw [hi] at hu'
            cases hu'
            rw [hp.2, ← hcall.2]
            exact hq
          · rw [hop] at hcall
            exact absurd hcall (by simp [runtimeCall])
      | call _ _ hi _ =>
          cases hv
          rw [hi] at hop
          exact absurd hop (by simp [runtimeCall])

/-- Control stands in front of an original instruction, behind some of what was inserted for it. -/
def Positioned (T : Hardware) (cfg : Config) (F₀ F : Func) (pre : Nat → List Nat) (c : Frame) : Prop :=
  ∃ B₀, (∀ y ∈ B₀, y ∈ F₀.ids) ∧
    ((c.block = [] ∧ B₀ = []) ∨ ∃ x B r q, B₀ = x :: B ∧ Stands T cfg F pre c x B r q)

theorem Positioned.start (hd : Decorated tbi F₀ pre F) {m : Mem} (h : (F.system T cfg m).start c) :
    Positioned T cfg F₀ F pre c := by
  obtain ⟨C, hC, rfl⟩ := h
  obtain ⟨B, hB, rfl⟩ := hd.layout_getElem? hC
  exact Slotted.front_of_block (fun y hy => F₀.mem_ids hB hy) rfl

/-- **Every step** goes to such a position. -/
theorem Positioned.step (hd : Decorated tbi F₀ pre F) (h : Positioned T cfg F₀ F pre c)
    {l : Option Event} {c' : Frame} (hstep : Step T cfg F c l c') : Positioned T cfg F₀ F pre c' := by
  obtain ⟨B₀, hB₀, ⟨hnil, -⟩ | ⟨x, B, r, q, rfl, hat⟩⟩ := h
  · obtain ⟨y, C, hy⟩ := hstep.block_eq
    rw [hnil] at hy
    cases hy
  · cases q with
    -- nothing inserted is left: the original instruction makes the step
    | nil =>
        obtain ⟨B', hblock', hB'⟩ :=
          hat.original hd (fun y hy => hy) (fun y hy => hB₀ y (List.mem_cons_of_mem _ hy)) hstep
        exact Slotted.front_of_block hB' hblock'
    | cons z q =>
        obtain ⟨-, hat', -⟩ := hat.inserted hd hstep
        exact ⟨x :: B, hB₀, Or.inr ⟨x, B, _, q, rfl, hat'⟩⟩

/-- In front of an original instruction everything inserted for it has run. -/
theorem Positioned.front (hd : Decorated tbi F₀ pre F) (h : Positioned T cfg F₀ F pre c) {x : Nat}
    {B : List Nat} (hblock : c.block = x :: B) (hx : x < F₀.next) :
    x ∈ F₀.ids ∧ ∀ y ∈ pre x, Ran T cfg F c y := by
  obtain ⟨B₀, hB₀, ⟨hnil, -⟩ | ⟨y, B', r, q, rfl, hat⟩⟩ := h
  · rw [hnil] at hblock
    cases hblock
  · have hsame := hat.block
    rw [hblock] at hsame
    cases q with
    | cons z q =>
        cases hsame
        exact absurd hat.mem_pre (hd.not_mem_pre hx)
    | nil =>
        cases hsame
        exact ⟨hB₀ x List.mem_cons_self, hat.all_ran⟩

/-- The check `z` returns the pointer `w` for the pointer `p`, its argument, in the memory as it is. -/
def Hardware.Checks (T : Hardware) (cfg : Config) (F : Func) (c : Frame) (z : Nat) (p w : Word) :
    Prop :=
  ∃ f check u validated, (f, check) ∈ runtimeChecks ∧ (F.instr z).op = runtimeCall f ∧
    F.operand z 0 = some u ∧ T.eval c.regs u.ref = some p ∧ RuntimeCall cfg c.mem f p w validated

/-- **What a guarded instruction goes through** is what its check returns in the memory as it is. -/
theorem Positioned.guarded (hd : Decorated tbi F₀ pre F) (hs : Sited tbi F₀ pre F)
    (hwf : F₀.WellLinked) (hplain : ∀ y ∈ F₀.ids, ¬ (F₀.instr y).op.IsCheck)
    (h : Positioned T cfg F₀ F pre c) {x z : Nat} {B : List Nat} (hblock : c.block = x :: B)
    (hguarded : F.GuardedBy x z) {w : Word} (hw : T.Through F c x w) :
    ∃ p, T.Checks cfg F c z p w := by
  obtain ⟨hop, u, hu, heval⟩ := hw
  obtain ⟨v, hv, hcasts, hcall⟩ := hguarded
  obtain rfl : v = u := Option.some.inj (hv.symm.trans hu)
  have hx : x < F₀.next := by
    rcases hop with hop | hop
    · exact hd.lt_of_load hop
    · exact hd.lt_of_gep hop
  obtain ⟨hmemx, hran⟩ := h.front hd hblock hx
  obtain ⟨v₀, b, hv₀, -, hcopy, -⟩ := hd.operand x hx 0 v hv
  obtain ⟨hmem, hsame⟩ := hcopy.check_ran hd hs hwf hplain hcasts hcall hmemx hv₀ hran
  obtain ⟨⟨f, check⟩, hcheck, hcall⟩ := hcall
  -- the call has run in this memory, and its result is the value of the operand
  obtain ⟨u, p, q, hoperands, ⟨-, hp⟩, hq, ⟨hcast, -⟩ | ⟨g, validated, hg, hrun, -⟩⟩ := hran z hmem
  · rw [hcall] at hcast
    exact absurd hcast (by simp [runtimeCall])
  · rw [hcall] at hg
    obtain rfl := runtimeCall_inj hg
    rw [hsame, hq] at heval
    obtain rfl := Option.some.inj heval
    exact ⟨p.2, f, check, u, validated, hcheck, hcall, by rw [Func.operand, hoperands]; rfl, hp, hrun⟩

/-- **Guarded instructions of programs.** -/
theorem Program.guarded {P Q : Program} (hwf : ∀ F ∈ P.functions, F.WellLinked)
    (hplain : ∀ F ∈ P.functions, ∀ x ∈ F.ids, ¬ (F.instr x).op.IsCheck)
    (hfs : List.Forall₂ (fun F G => Instrumented tbi F G) P.functions Q.functions) {entry : String}
    {m : Mem} {es : List Event} {A : Activation} {S : List Activation}
    (hrun : (Q.system T cfg entry m).Run es (A :: S)) {x z : Nat} {B : List Nat}
    (hblock : A.frame.block = x :: B) (hguarded : A.func.GuardedBy x z) {w : Word}
    (hw : (Q.hardware T A).Through A.func A.frame x w) :
    ∃ p, (Q.hardware T A).Checks cfg A.func A.frame z p w := by
  have hall := Program.run_invariant (I := fun A => ∃ F₀ ∈ P.functions, ∃ pre,
      Decorated tbi F₀ pre A.func ∧ Sited tbi F₀ pre A.func ∧
        Positioned (Q.hardware T A) cfg F₀ A.func pre A.frame) ?_ ?_ hrun A List.mem_cons_self
  · obtain ⟨F₀, hF₀, pre, hd, hs, hpos⟩ := hall
    exact hpos.guarded hd hs (hwf F₀ hF₀) (hplain F₀ hF₀) hblock hguarded hw
  · intro G hG args m c hc
    obtain ⟨F₀, hF₀, pre, hd, hs⟩ := forall₂_partner hfs.flip hG
    exact ⟨F₀, hF₀, pre, hd, hs, .start hd hc⟩
  · rintro A l c ⟨F₀, hF₀, pre, hd, hs, hpos⟩ hstep
    exact ⟨F₀, hF₀, pre, hd, hs, hpos.step hd hstep⟩

end Guarded

/-- A call of a check that returns in a build that stops on failures. -/
theorem RuntimeCall.passes {cfg : Config} (hlog : cfg.enableLog = false)
    (hthr : cfg.bkThreasholdEnabled = true) {m : Mem} {f : String} {check : Check} {p w : Word}
    {validated : Option Word} (hcheck : (f, check) ∈ runtimeChecks)
    (h : RuntimeCall cfg m f p w validated) :
    w = Runtime.noCheck cfg p ∧ (Untagged p ∨ Vouched cfg (readWord m) p) := by
  cases h with
  | check _ hrun ho => exact Check.run_passes hlog hthr _ hrun ho
  | noCheck => exact absurd rfl (runtimeChecks_ne hcheck).1
  | xpac => exact absurd rfl (runtimeChecks_ne hcheck).2

/-- Guarded instructions of the build that stops on failures. -/
theorem Program.guarded_vouched {P Q : Program} {T : Hardware}
    (hwf : ∀ F ∈ P.functions, F.WellLinked)
    (hplain : ∀ F ∈ P.functions, ∀ x ∈ F.ids, ¬ (F.instr x).op.IsCheck)
    (hfs : List.Forall₂ (fun F G => Instrumented true F G) P.functions Q.functions) {entry : String}
    {m : Mem} {es : List Event} {A : Activation} {S : List Activation}
    (hrun : (Q.system T Config.failStop entry m).Run es (A :: S)) {x : Nat} {B : List Nat}
    (hblock : A.frame.block = x :: B) (hguarded : A.func.Guarded x) {w : Word}
    (hw : (Q.hardware T A).Through A.func A.frame x w) :
    Untagged w ∨ Vouched Config.failStop (readWord A.frame.mem) w := by
  obtain ⟨z, hguarded⟩ := hguarded
  obtain ⟨p, f, check, u, validated, hcheck, -, -, -, hcall⟩ :=
    Program.guarded hwf hplain hfs hrun hblock hguarded hw
  obtain ⟨hw, hvouched⟩ := hcall.passes rfl rfl hcheck
  -- with Top-Byte Ignore a check returns its argument
  rw [Runtime.noCheck, if_pos (by decide)] at hw
  exact hw ▸ hvouched

/-- **Nothing passes a check unless memory vouches for it.** In every execution of an instrumented
program that stops on failures, when control is in front of a load or a GEP behind a check, its
pointer is untagged, or vouched for by the memory as it is now. -/
theorem checked_access_vouched (optimization : Bool) (T : Hardware) {P : Program}
    (hwf : ∀ F ∈ P.functions, F.WellLinked)
    (hplain : ∀ F ∈ P.functions, ∀ x ∈ F.ids, ¬ (F.instr x).op.IsCheck) :
    ∃ N, ∀ fuel, N ≤ fuel → ∃ M, instrumentModule optimization true fuel P.functions = some M ∧
      ∀ entry m es A S, ((P.rewrite M).system T Config.failStop entry m).Run es (A :: S) →
        ∀ x B w, A.frame.block = x :: B → A.func.Guarded x →
          ((P.rewrite M).hardware T A).Through A.func A.frame x w →
            Untagged w ∨ Vouched Config.failStop (readWord A.frame.mem) w := by
  obtain ⟨N, hN⟩ := instrumentModule_instrumented optimization true hwf
  refine ⟨N, fun fuel hfuel => ?_⟩
  obtain ⟨M, hM, hfs⟩ := hN fuel hfuel
  refine ⟨M, hM, fun entry m es A S hrun x B w hblock hguarded hw => ?_⟩
  exact Program.guarded_vouched hwf hplain hfs hrun hblock hguarded hw

/-- **Without Top-Byte Ignore** guarded instructions go through addresses. In every execution of an
instrumented program of that build, if it stops on failures, the pointer of a load or a GEP behind a
check is the address of the pointer that the check gets, and that one is untagged, or memory vouches
for it as it is now. -/
theorem guarded_access_stripped (optimization : Bool) (T : Hardware) {P : Program}
    (hwf : ∀ F ∈ P.functions, F.WellLinked)
    (hplain : ∀ F ∈ P.functions, ∀ x ∈ F.ids, ¬ (F.instr x).op.IsCheck) :
    ∃ N, ∀ fuel, N ≤ fuel → ∃ M, instrumentModule optimization false fuel P.functions = some M ∧
      ∀ entry m es A S, ((P.rewrite M).system T Config.stripping entry m).Run es (A :: S) →
        ∀ x z B w, A.frame.block = x :: B → A.func.GuardedBy x z →
          ((P.rewrite M).hardware T A).Through A.func A.frame x w →
            ∃ u p, A.func.operand z 0 = some u ∧
              ((P.rewrite M).hardware T A).eval A.frame.regs u.ref = some p ∧
              w = Runtime.xpac p ∧ w.toNat < 2 ^ 48 ∧
              (Untagged p ∨ Vouched Config.stripping (readWord A.frame.mem) p) := by
  obtain ⟨N, hN⟩ := instrumentModule_instrumented optimization false hwf
  refine ⟨N, fun fuel hfuel => ?_⟩
  obtain ⟨M, hM, hfs⟩ := hN fuel hfuel
  refine ⟨M, hM, fun entry m es A S hrun x z B w hblock hguarded hw => ?_⟩
  obtain ⟨p, f, check, u, validated, hcheck, -, hu, hp, hcall⟩ :=
    Program.guarded hwf hplain hfs hrun hblock hguarded hw
  obtain ⟨hw, hvouched⟩ := hcall.passes rfl rfl hcheck
  rw [Runtime.noCheck, if_neg (by decide)] at hw
  exact ⟨u, p, hu, hp, hw, hw ▸ xpac_lt p, hvouched⟩

/-! ## Programs with their heap -/

/-- The functions of the runtime that allocate and free. -/
def allocators : List String := replacements.map Prod.snd

/-- A program and the heap that its allocation functions work on. -/
structure Process where
  stack : List Activation
  heap : Heap

/-- The step calls an allocation function. -/
def Allocates (l : Option Event) : Prop :=
  ∃ callee args m w m', l = some (.call (some callee) args m w m') ∧ callee.name ∈ allocators

/-- A step of a program with its heap: an action of the heap machine, or a step that leaves the
headers of live objects alone. -/
inductive Process.Step (P : Program) (T : Hardware) (cfg : Config) :
    Process → Option Event → Process → Prop where
  | allocator {S S' : List Activation} {h h' : Heap} {a : HeapAction} {callee : Callee}
      {args : List (Ty × Word)} {w : Word} :
      P.Step T cfg S (some (.call (some callee) args h.mem w h'.mem)) S' →
        a.Called h' callee.name (args.map Prod.snd) w → h.Guard a → h.step a = some h' →
          Process.Step P T cfg ⟨S, h⟩ (some (.call (some callee) args h.mem w h'.mem)) ⟨S', h'⟩
  | other {S S' : List Activation} {A : Activation} {h : Heap} {l : Option Event} :
      P.Step T cfg S l (A :: S') → ¬ Allocates l → h.Keeps A.frame.mem →
        Process.Step P T cfg ⟨S, h⟩ l ⟨A :: S', { h with mem := A.frame.mem }⟩

/-- The executions of a program with its heap. -/
def Program.process (P : Program) (T : Hardware) (cfg : Config) (entry : String) (m : Mem) :
    System Process Event where
  start s := (P.system T cfg entry m).start s.stack ∧ s.heap = Heap.initial m
  step := Process.Step P T cfg

/-- Where the program goes through a pointer, it is untagged or goes at most 1015 bytes into a live
object. -/
def Process.Safe (P : Program) (T : Hardware) (s : Process) : Prop :=
  ∀ m w, P.Goes T s.stack m w → Untagged w ∨ s.heap.HoldsNear w

/-- The heap of a process: its memory is that of the program. -/
structure Process.Sound (s : Process) : Prop where
  inv : s.heap.Inv
  mem : ∀ A S, s.stack = A :: S → A.frame.mem = s.heap.mem

/-- A call leaves its memory in the active function. -/
theorem Program.Step.call_mem {P : Program} {T : Hardware} {cfg : Config} {S S' : List Activation}
    {callee : Option Callee} {args : List (Ty × Word)} {m m' : Mem} {w : Word}
    (h : P.Step T cfg S (some (.call callee args m w m')) S') :
    ∀ A R, S' = A :: R → A.frame.mem = m' := by
  intro A R hA
  generalize hl : some (Event.call callee args m w m') = l at h
  cases h with
  | stay hrun _ =>
      cases hA
      cases hrun with
      | exec _ _ hexec =>
          generalize (Func.instr _ _).op = op at hexec
          subst hl
          cases hexec
          rfl
      | runtime => cases hl
      | phi => cases hl
      | jump => cases hl
      | ret => cases hl
  | enter => cases hl
  | leave => cases hl

theorem Process.Sound.start {P : Program} {T : Hardware} {cfg : Config} {entry : String} {m : Mem}
    {s : Process} (h : (P.process T cfg entry m).start s) : s.Sound := by
  obtain ⟨⟨F, args, c, -, ⟨B, -, rfl⟩, hstack⟩, hheap⟩ := h
  refine ⟨?_, fun A S hA => ?_⟩
  · rw [hheap]
    exact Heap.Inv.initial m
  · rw [hstack] at hA
    cases hA
    rw [hheap]
    rfl

/-- **A step of a process** keeps the heap sound. -/
theorem Process.Sound.step {P : Program} {T : Hardware} {cfg : Config} {s s' : Process}
    {l : Option Event} (hs : s.Sound) (h : Process.Step P T cfg s l s') : s'.Sound := by
  cases h with
  | allocator hstep _ hguard hheap => exact ⟨hs.inv.step hguard hheap, hstep.call_mem⟩
  | @other S S' A h l hstep _ hkeeps =>
      refine ⟨hs.inv.keeps hkeeps, fun B R hB => ?_⟩
      cases hB
      rfl

/-- The steps of a process are those of its program. -/
theorem Process.Step.program {P : Program} {T : Hardware} {cfg : Config} {s s' : Process}
    {l : Option Event} (h : Process.Step P T cfg s l s') : P.Step T cfg s.stack l s'.stack := by
  cases h with
  | allocator hstep _ _ _ => exact hstep
  | other hstep _ _ => exact hstep

/-- **No false alarm.** A program that, where it goes through pointers, goes through untagged ones
and ones at most 1015 bytes into live objects is not stopped by the build that stops on failures:
every execution, with the heap that its allocation functions work on, is followed to its end. -/
theorem no_false_alarm (optimization : Bool) (T : Hardware) {P : Program}
    (hwf : ∀ F ∈ P.functions, F.WellLinked) :
    ∃ N, ∀ fuel, N ≤ fuel → ∃ M, instrumentModule optimization true fuel P.functions = some M ∧
      ∀ entry m es₀ s, ((P.process T Config.failStop entry m).restrict (Process.Safe P T)).Run es₀ s →
        ∃ es S, ((P.rewrite M).system T Config.failStop entry m).Run es S ∧
          List.Forall₂ Event.Agrees es es₀ ∧ List.Forall₂ (Activation.Same P T) S s.stack := by
  obtain ⟨N, hN⟩ := P.rewrite_instrumentedTo optimization hwf
  refine ⟨N, fun fuel hfuel => ?_⟩
  obtain ⟨M, hM, hinstrumented⟩ := hN fuel hfuel
  refine ⟨M, hM, fun entry m es₀ s hrun => hinstrumented.run_through rfl ?_⟩
  -- the heap stays sound, so no check refuses a pointer into a live object
  have hboth : s.Sound ∧ ((P.system T Config.failStop entry m).restrict fun R =>
      ∀ m' w check, P.Goes T R m' w → ¬ Refuses Config.failStop m' check w).Run es₀ s.stack := by
    apply hrun.inductionOn (P := fun es s => s.Sound ∧
      ((P.system T Config.failStop entry m).restrict fun R =>
        ∀ m' w check, P.Goes T R m' w → ¬ Refuses Config.failStop m' check w).Run es s.stack)
    · exact fun s hstart => ⟨.start hstart, .start hstart.1⟩
    · rintro es s l t - ⟨hsound, ih⟩ ⟨hsafe, hstep⟩
      refine ⟨hsound.step hstep, ih.snoc ⟨?_, hstep.program⟩⟩
      intro m' w check hgoes hrefuses
      rcases hsafe m' w hgoes with huntagged | hholds
      · exact not_refuses_of_untagged huntagged hrefuses
      · obtain ⟨A, S, x, B, hstack, rfl, -⟩ := hgoes
        have hvouched := hsound.inv.vouches hholds
        rw [← hsound.mem A S hstack] at hvouched
        exact ((refuses_iff rfl check).1 hrefuses).1 (Or.inr hvouched)
  exact hboth.2

/-! ### A program of two functions -/

theorem useProgram_shipped_followed :
    ∃ N, ∀ fuel, N ≤ fuel → ∃ M, instrumentModule true true fuel useProgram.functions = some M ∧
      ∀ entry m es₀ R, ((useProgram.system wordHardware Config.shipped entry m).restrict fun R =>
          ∀ m' w, useProgram.Goes wordHardware R m' w → (Runtime.xpac w).toNat < 1023 →
            Untagged w ∨ Vouched Config.shipped (readWord m') w).Run es₀ R →
        ∃ es S, ((useProgram.rewrite M).system wordHardware Config.shipped entry m).Run es S ∧
          List.Forall₂ Event.Agrees es es₀ ∧
          List.Forall₂ (Activation.Same useProgram wordHardware) S R :=
  shipped_program_followed true wordHardware useProgram_wellLinked

instance (op : Op) : Decidable op.IsCheck :=
  inferInstanceAs (Decidable (∃ p ∈ runtimeChecks, op = runtimeCall p.1))

theorem useProgram_plain : ∀ F ∈ useProgram.functions, ∀ x ∈ F.ids, ¬ (F.instr x).op.IsCheck := by
  decide

theorem useProgram_checked_vouched :
    ∃ N, ∀ fuel, N ≤ fuel → ∃ M, instrumentModule true true fuel useProgram.functions = some M ∧
      ∀ entry m es A S,
        ((useProgram.rewrite M).system wordHardware Config.failStop entry m).Run es (A :: S) →
        ∀ x B w, A.frame.block = x :: B → A.func.Guarded x →
          ((useProgram.rewrite M).hardware wordHardware A).Through A.func A.frame x w →
            Untagged w ∨ Vouched Config.failStop (readWord A.frame.mem) w :=
  checked_access_vouched true wordHardware useProgram_wellLinked useProgram_plain

theorem useProgram_guarded_stripped :
    ∃ N, ∀ fuel, N ≤ fuel → ∃ M, instrumentModule true false fuel useProgram.functions = some M ∧
      ∀ entry m es A S,
        ((useProgram.rewrite M).system wordHardware Config.stripping entry m).Run es (A :: S) →
        ∀ x z B w, A.frame.block = x :: B → A.func.GuardedBy x z →
          ((useProgram.rewrite M).hardware wordHardware A).Through A.func A.frame x w →
            ∃ u p, A.func.operand z 0 = some u ∧
              ((useProgram.rewrite M).hardware wordHardware A).eval A.frame.regs u.ref = some p ∧
              w = Runtime.xpac p ∧ w.toNat < 2 ^ 48 ∧
              (Untagged p ∨ Vouched Config.stripping (readWord A.frame.mem) p) :=
  guarded_access_stripped true wordHardware useProgram_wellLinked useProgram_plain

theorem useProgram_no_false_alarm :
    ∃ N, ∀ fuel, N ≤ fuel → ∃ M, instrumentModule true true fuel useProgram.functions = some M ∧
      ∀ entry m es₀ s, ((useProgram.process wordHardware Config.failStop entry m).restrict
          (Process.Safe useProgram wordHardware)).Run es₀ s →
        ∃ es S, ((useProgram.rewrite M).system wordHardware Config.failStop entry m).Run es S ∧
          List.Forall₂ Event.Agrees es es₀ ∧
          List.Forall₂ (Activation.Same useProgram wordHardware) S s.stack :=
  no_false_alarm true wordHardware useProgram_wellLinked

end PTAuth.Pass
