import PTAuth.Library.Simulation
import Mathlib.Logic.Relation

/-!
# Following another system up to a halt

`T` follows `S` if it matches every step of `S` by a step of its own, with a related event, behind
any number of silent steps, or else comes to a halt before that. A run of `S` is then followed to
its end, or up to a halt at a state that the run has passed (`Follows.run`). Where the states of `S`
leave no room for a halt, runs are followed to their end (`Follows.run_through`). A system that `S`
matches step for step is followed as `S` is (`Follows.precomp`).
-/

set_option autoImplicit false

namespace PTAuth.Library.System

universe u v w x

variable {σ : Type u} {ε : Type v} {σ' : Type w} {ε' : Type x}

/-- The states that silent steps lead to. -/
def Silents (S : System σ ε) : σ → σ → Prop := Relation.ReflTransGen fun s t => S.step s none t

/-- Silent steps prolong a run and leave its trace alone. -/
theorem Run.silents {S : System σ ε} {es : List ε} {s t : σ} (h : S.Run es s) (hst : S.Silents s t) :
    S.Run es t := by
  induction hst with
  | refl => exact h
  | tail _ hstep ih => exact ih.silent hstep

/-- The states that steps lead to. -/
def Leads (S : System σ ε) : σ → σ → Prop := Relation.ReflTransGen fun s t => ∃ l, S.step s l t

/-- The system whose steps start in states with the property `P`. -/
def restrict (S : System σ ε) (P : σ → Prop) : System σ ε where
  start := S.start
  step s l t := P s ∧ S.step s l t

/-- The trace of a run before its last step is a prefix of its trace. -/
theorem prefix_trace (es : List ε) (l : Option ε) : es <+: es ++ l.toList := ⟨l.toList, rfl⟩

/-- One more step, silent or not. -/
theorem Run.snoc {S : System σ ε} {es : List ε} {s t : σ} {l : Option ε} (h : S.Run es s)
    (hst : S.step s l t) : S.Run (es ++ l.toList) t := by
  cases l with
  | none =>
      rw [Option.toList_none, List.append_nil]
      exact h.silent hst
  | some e => exact h.event hst

/-- **Runs by their steps.** -/
theorem Run.inductionOn {S : System σ ε} {P : List ε → σ → Prop} {es : List ε} {s : σ}
    (h : S.Run es s) (hstart : ∀ s, S.start s → P [] s)
    (hstep : ∀ es s l t, S.Run es s → P es s → S.step s l t → P (es ++ l.toList) t) : P es s := by
  induction h with
  | start hs => exact hstart _ hs
  | @silent es _ _ hrun hst ih =>
      have h := hstep _ _ _ _ hrun ih hst
      rwa [Option.toList_none, List.append_nil] at h
  | event hrun hst ih => exact hstep _ _ _ _ hrun ih hst

/-- Fewer steps, fewer runs. -/
theorem Run.restrict_mono {S : System σ ε} {P Q : σ → Prop} {es : List ε} {s : σ}
    (h : (S.restrict P).Run es s) (hPQ : ∀ s, P s → Q s) : (S.restrict Q).Run es s :=
  h.inductionOn (P := fun es s => (S.restrict Q).Run es s) (fun _ hs => .start hs)
    fun _ s _ _ _ ih hst => ih.snoc ⟨hPQ s hst.1, hst.2⟩

/-- `T` follows `S`: where `R` relates a state of `T` to one of `S`, `T` goes on silently until it
makes the step of `S`, or until it halts as `H` says. -/
structure Follows (S : System σ ε) (T : System σ' ε') (E : ε → ε' → Prop) (R H : σ → σ' → Prop) :
    Prop where
  start : ∀ s, S.start s → ∃ s', T.start s' ∧ R s s'
  step : ∀ s s' l t, R s s' → S.step s l t → ∃ u, T.Silents s' u ∧
    (H s u ∨ ∃ l' t', T.step u l' t' ∧ Option.Rel E l l' ∧ R t t')

section Follows

variable {S : System σ ε} {T : System σ' ε'} {E : ε → ε' → Prop} {R H : σ → σ' → Prop}

/-- Related steps leave related traces. -/
theorem forall₂_snoc {es : List ε} {es' : List ε'} {l : Option ε} {l' : Option ε'}
    (hes : List.Forall₂ E es es') (hl : Option.Rel E l l') :
    List.Forall₂ E (es ++ l.toList) (es' ++ l'.toList) := by
  apply List.rel_append hes
  cases hl with
  | none => exact .nil
  | some he => exact .cons he .nil

/-- **The following rule.** A run is followed to its end, or up to a halt. -/
theorem Follows.run (h : Follows S T E R H) {es : List ε} {s : σ} (hrun : S.Run es s) :
    ∃ es' s', T.Run es' s' ∧ ((List.Forall₂ E es es' ∧ R s s') ∨
      ∃ es₁ s₁, es₁ <+: es ∧ S.Run es₁ s₁ ∧ S.Leads s₁ s ∧ List.Forall₂ E es₁ es' ∧ H s₁ s') := by
  apply hrun.inductionOn (P := fun es s => ∃ es' s', T.Run es' s' ∧
    ((List.Forall₂ E es es' ∧ R s s') ∨
      ∃ es₁ s₁, es₁ <+: es ∧ S.Run es₁ s₁ ∧ S.Leads s₁ s ∧ List.Forall₂ E es₁ es' ∧ H s₁ s'))
  · intro s hs
    obtain ⟨s', hs', hR⟩ := h.start s hs
    exact ⟨[], s', .start hs', Or.inl ⟨.nil, hR⟩⟩
  · intro es s l t hrun ih hst
    obtain ⟨es', s', hrun', ⟨hes, hR⟩ | ⟨es₁, s₁, hle, hrun₁, hleads, hes, hH⟩⟩ := ih
    -- so far followed: this step is matched, or here is the halt
    · obtain ⟨u, hu, hH | ⟨l', t', hst', hl, hR'⟩⟩ := h.step s s' l t hR hst
      · exact ⟨es', u, hrun'.silents hu,
          Or.inr ⟨es, s, prefix_trace es l, hrun, .single ⟨l, hst⟩, hes, hH⟩⟩
      · exact ⟨es' ++ l'.toList, t', (hrun'.silents hu).snoc hst',
          Or.inl ⟨forall₂_snoc hes hl, hR'⟩⟩
    -- halted before: the run goes on alone
    · exact ⟨es', s', hrun', Or.inr ⟨es₁, s₁, hle.trans (prefix_trace es l), hrun₁,
        hleads.tail ⟨l, hst⟩, hes, hH⟩⟩

/-- **Runs that give no reason to halt** are followed to their end. -/
theorem Follows.run_through (h : Follows S T E R H) {P : σ → Prop} (hP : ∀ s s', P s → ¬ H s s')
    {es : List ε} {s : σ} (hrun : (S.restrict P).Run es s) :
    ∃ es' s', T.Run es' s' ∧ List.Forall₂ E es es' ∧ R s s' := by
  have hfollows : Follows (S.restrict P) T E R fun _ _ => False :=
    ⟨h.start, fun s s' l t hR hst => by
      obtain ⟨u, hu, hH | hstep⟩ := h.step s s' l t hR hst.2
      · exact absurd hH (hP s u hst.1)
      · exact ⟨u, hu, Or.inr hstep⟩⟩
  obtain ⟨es', s', hrun', hdone | ⟨_, _, -, -, -, -, hnot⟩⟩ := hfollows.run hrun
  · exact ⟨es', s', hrun', hdone⟩
  · exact hnot.elim

/-- Lists related by way of a third one. -/
theorem forall₂_comp {α : Type u} {β : Type v} {γ : Type w} {P : α → β → Prop} {Q : β → γ → Prop}
    {as : List α} {bs : List β} {cs : List γ} (hP : List.Forall₂ P as bs)
    (hQ : List.Forall₂ Q bs cs) : List.Forall₂ (Relation.Comp P Q) as cs := by
  induction hP generalizing cs with
  | nil =>
      cases hQ
      exact .nil
  | cons hab _ ih =>
      cases hQ with
      | cons hbc hQ => exact .cons ⟨_, hab, hbc⟩ (ih hQ)

/-- **Step for step, then following.** -/
theorem Follows.precomp (h : Follows S T E R H) {ρ : Type*} {δ : Type*} {D : System ρ δ}
    {F : δ → ε → Prop} {Q : ρ → σ → Prop} (hstart : ∀ r, D.start r → ∃ s, S.start s ∧ Q r s)
    (hstep : ∀ r s l r', Q r s → D.step r l r' →
      ∃ l' s', S.step s l' s' ∧ Option.Rel F l l' ∧ Q r' s') :
    Follows D T (Relation.Comp F E) (Relation.Comp Q R) (Relation.Comp Q H) where
  start := by
    intro r hr
    obtain ⟨s, hs, hrs⟩ := hstart r hr
    obtain ⟨t, ht, hst⟩ := h.start s hs
    exact ⟨t, ht, s, hrs, hst⟩
  step := by
    rintro r t l r' ⟨s, hrs, hst⟩ hr
    obtain ⟨l₁, s', hs, hl₁, hrs'⟩ := hstep r s l r' hrs hr
    obtain ⟨u, hu, hH | ⟨l', t', ht, hl', hst'⟩⟩ := h.step s t l₁ s' hst hs
    · exact ⟨u, hu, Or.inl ⟨s, hrs, hH⟩⟩
    · refine ⟨u, hu, Or.inr ⟨l', t', ht, ?_, s', hrs', hst'⟩⟩
      cases hl₁ with
      | none =>
          cases hl'
          exact .none
      | some he₁ =>
          cases hl' with
          | some he' => exact .some ⟨_, he₁, he'⟩

end Follows

end PTAuth.Library.System
