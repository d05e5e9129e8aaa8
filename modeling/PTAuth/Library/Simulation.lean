import Mathlib.Data.List.Forall2

/-!
# Labelled systems and forward simulation

A system takes silent steps and steps with an event. A run has the trace of its events. What holds
at the start and is kept by steps whose events meet a promise, holds wherever a trace that meets the
promise leads (`Run.invariant`). A simulation matches a silent step by a silent step or none, and an
event by a related event; then runs are matched by runs with related traces (`Simulates.run`).

Two loops over lists with the same visible elements keep what their visible rounds keep together,
and the others each on its own side (`foldl_related`).
-/

set_option autoImplicit false

namespace PTAuth.Library

universe u v w x

/-- A system over states `σ` with events `ε`. -/
structure System (σ : Type u) (ε : Type v) where
  start : σ → Prop
  step : σ → Option ε → σ → Prop

namespace System

variable {σ : Type u} {ε : Type v} {σ' : Type w} {ε' : Type x}

/-- A run, with the events in the order in which they happen. -/
inductive Run (S : System σ ε) : List ε → σ → Prop where
  | start {s : σ} : S.start s → Run S [] s
  | silent {es : List ε} {s t : σ} : Run S es s → S.step s none t → Run S es t
  | event {es : List ε} {s t : σ} {e : ε} : Run S es s → S.step s (some e) t → Run S (es ++ [e]) t

/-- **The invariant rule.** -/
theorem Run.invariant {S : System σ ε} {P : ε → Prop} {I : σ → Prop}
    (hstart : ∀ s, S.start s → I s)
    (hstep : ∀ s l t, I s → (∀ e, l = some e → P e) → S.step s l t → I t)
    {es : List ε} {s : σ} (h : S.Run es s) (hP : ∀ e ∈ es, P e) : I s := by
  induction h with
  | start hs => exact hstart _ hs
  | silent _ hst ih =>
      apply hstep _ _ _ (ih hP) _ hst
      intro e he
      cases he
  | event _ hst ih =>
      apply hstep _ _ _ (ih fun e he => hP e (List.mem_append_left _ he)) _ hst
      intro e he
      cases he
      exact hP _ (List.mem_append_right _ List.mem_cons_self)

/-- `R` relates the states of `S` to states of `T` that can do the same, up to `E` on events. -/
structure Simulates (S : System σ ε) (T : System σ' ε') (E : ε → ε' → Prop) (R : σ → σ' → Prop) :
    Prop where
  start : ∀ s, S.start s → ∃ s', T.start s' ∧ R s s'
  silent : ∀ s s' t, R s s' → S.step s none t → ∃ t', (t' = s' ∨ T.step s' none t') ∧ R t t'
  event : ∀ s s' e t, R s s' → S.step s (some e) t →
    ∃ e' t', E e e' ∧ T.step s' (some e') t' ∧ R t t'

/-- **The simulation rule.** -/
theorem Simulates.run {S : System σ ε} {T : System σ' ε'} {E : ε → ε' → Prop} {R : σ → σ' → Prop}
    (h : Simulates S T E R) {es : List ε} {s : σ} (hrun : S.Run es s) :
    ∃ es' s', T.Run es' s' ∧ List.Forall₂ E es es' ∧ R s s' := by
  induction hrun with
  | start hs =>
      obtain ⟨s', hs', hR⟩ := h.start _ hs
      exact ⟨[], s', .start hs', .nil, hR⟩
  | silent _ hst ih =>
      obtain ⟨es', s', hrun', hes, hR⟩ := ih
      obtain ⟨t', rfl | hst', hR'⟩ := h.silent _ _ _ hR hst
      · exact ⟨es', t', hrun', hes, hR'⟩
      · exact ⟨es', t', hrun'.silent hst', hes, hR'⟩
  | event _ hst ih =>
      obtain ⟨es', s', hrun', hes, hR⟩ := ih
      obtain ⟨e', t', he, hst', hR'⟩ := h.event _ _ _ _ hR hst
      exact ⟨es' ++ [e'], t', hrun'.event hst', List.rel_append hes (.cons he .nil), hR'⟩

end System

/-- **Two loops with the same visible elements.** -/
theorem foldl_related {α : Type u} {σ : Type v} {τ : Type w} {P Q : α → Bool} {f : σ → α → σ}
    {g : τ → α → τ} {R : σ → τ → Prop} : ∀ {xs ys : List α} {s : σ} {t : τ},
      xs.filter P = ys.filter Q →
      (∀ x ∈ xs, P x = false → ∀ s t, R s t → R (f s x) t) →
      (∀ y ∈ ys, Q y = false → ∀ s t, R s t → R s (g t y)) →
      (∀ x ∈ xs, x ∈ ys → P x = true → ∀ s t, R s t → R (f s x) (g t x)) →
      R s t → R (xs.foldl f s) (ys.foldl g t) := by
  intro xs
  induction xs with
  | nil =>
      intro ys s t hsame _ hright _ hR
      rw [List.filter_nil] at hsame
      refine List.foldlRecOn (motive := R s) ys g hR fun t ht y hy => ?_
      exact hright y hy (Bool.eq_false_iff.2 (List.filter_eq_nil_iff.1 hsame.symm y hy)) s t ht
  | cons x xs ih =>
      intro ys s t hsame hleft hright hboth hR
      have hleft' : ∀ z ∈ xs, P z = false → ∀ s t, R s t → R (f s z) t := fun z hz =>
        hleft z (List.mem_cons_of_mem x hz)
      cases hx : P x with
      | false =>
          rw [List.filter_cons_of_neg (by simp [hx])] at hsame
          apply ih hsame hleft' hright
          · exact fun z hz => hboth z (List.mem_cons_of_mem x hz)
          · exact hleft x List.mem_cons_self hx s t hR
      | true =>
          rw [List.filter_cons_of_pos hx] at hsame
          obtain ⟨A, B, rfl, hA, -, hB⟩ := List.filter_eq_cons_iff.1 hsame.symm
          -- the second loop comes to `x` behind elements that are not visible
          have hfront : R s (A.foldl g t) := by
            refine List.foldlRecOn (motive := R s) A g hR fun t ht y hy => ?_
            exact hright y (List.mem_append_left _ hy) (Bool.eq_false_iff.2 (hA y hy)) s t ht
          have hmem : ∀ y ∈ B, y ∈ A ++ x :: B := fun y hy =>
            List.mem_append_right A (List.mem_cons_of_mem x hy)
          rw [List.foldl_cons, List.foldl_append, List.foldl_cons]
          apply ih hB.symm hleft' (fun y hy => hright y (hmem y hy))
          · exact fun z hz hzB => hboth z (List.mem_cons_of_mem x hz) (hmem z hzB)
          · exact hboth x List.mem_cons_self (by simp) hx s _ hfront

/-- Two loops over one list. -/
theorem foldl_related_self {α : Type u} {σ : Type v} {τ : Type w} {f : σ → α → σ} {g : τ → α → τ}
    {R : σ → τ → Prop} {xs : List α} {s : σ} {t : τ}
    (h : ∀ x ∈ xs, ∀ s t, R s t → R (f s x) (g t x)) (hR : R s t) :
    R (xs.foldl f s) (xs.foldl g t) := by
  apply foldl_related (P := fun _ => true) (Q := fun _ => true) rfl _ _ _ hR
  · exact fun _ _ hnot => absurd hnot (by decide)
  · exact fun _ _ hnot => absurd hnot (by decide)
  · exact fun x hx _ _ => h x hx

/-- Two relations out of a list that meet element by element meet on lists. -/
theorem forall₂_meet {α : Type u} {β : Type v} {γ : Type w} {δ : Type x} {R : α → β → Prop}
    {S : α → γ → Prop} {T : β → δ → Prop} {U : γ → δ → Prop}
    (h : ∀ a b c, R a b → S a c → ∃ d, T b d ∧ U c d) {as : List α} {bs : List β} {cs : List γ}
    (hR : List.Forall₂ R as bs) (hS : List.Forall₂ S as cs) :
    ∃ ds, List.Forall₂ T bs ds ∧ List.Forall₂ U cs ds := by
  induction hR generalizing cs with
  | nil =>
      cases hS
      exact ⟨[], .nil, .nil⟩
  | cons hab _ ih =>
      cases hS with
      | cons hac hS =>
          obtain ⟨d, hbd, hcd⟩ := h _ _ _ hab hac
          obtain ⟨ds, hbds, hcds⟩ := ih hS
          exact ⟨d :: ds, .cons hbd hbds, .cons hcd hcds⟩

/-- Every element has a partner. -/
theorem forall₂_partner {α : Type u} {β : Type v} {R : α → β → Prop} {as : List α} {bs : List β}
    (h : List.Forall₂ R as bs) {a : α} (ha : a ∈ as) : ∃ b ∈ bs, R a b := by
  induction h with
  | nil => exact absurd ha List.not_mem_nil
  | cons hab _ ih =>
      rcases List.mem_cons.1 ha with rfl | ha
      · exact ⟨_, List.mem_cons_self, hab⟩
      · obtain ⟨b, hb, hR⟩ := ih ha
        exact ⟨b, List.mem_cons_of_mem _ hb, hR⟩

end PTAuth.Library
