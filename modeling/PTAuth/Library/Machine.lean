import Mathlib.Logic.Basic
import Mathlib.Data.List.Basic

/-!
# Guarded machines and their runs

A machine has a guard, what the environment promises about an action in a state, and a partial step
function, what the program does with it. A run is a list of actions whose guards hold and whose
steps succeed. The invariant rule packages the induction over runs; restricting the guard gives
fewer runs.
-/

set_option autoImplicit false

namespace PTAuth.Library

universe u v

/-- A guarded machine over states `σ` and actions `α`. -/
structure Machine (σ : Type u) (α : Type v) where
  guard : σ → α → Prop
  step : σ → α → Option σ

namespace Machine

variable {σ : Type u} {α : Type v} {M : Machine σ α} {s t : σ}

/-- A run from `s`; the actions are listed in the order in which they happen. -/
inductive Run (M : Machine σ α) (s : σ) : List α → σ → Prop where
  | nil : Run M s [] s
  | snoc {as : List α} {t u : σ} {a : α} :
      Run M s as t → M.guard t a → M.step t a = some u → Run M s (as ++ [a]) u

/-- A state that some run reaches. -/
def Reachable (M : Machine σ α) (s t : σ) : Prop := ∃ as, M.Run s as t

theorem Reachable.refl (M : Machine σ α) (s : σ) : M.Reachable s s := ⟨[], .nil⟩

theorem Reachable.snoc {u : σ} {a : α} (h : M.Reachable s t) (hg : M.guard t a)
    (hs : M.step t a = some u) : M.Reachable s u := by
  obtain ⟨as, hrun⟩ := h
  exact ⟨as ++ [a], .snoc hrun hg hs⟩

/-- **The invariant rule.** What one step preserves, a run preserves. -/
theorem Reachable.invariant {I : σ → Prop}
    (hstep : ∀ t a u, I t → M.guard t a → M.step t a = some u → I u)
    (h : M.Reachable s t) (hs : I s) : I t := by
  obtain ⟨as, hrun⟩ := h
  induction hrun with
  | nil => exact hs
  | snoc _ hg hst ih => exact hstep _ _ _ ih hg hst

/-- The machine with one more promise about its actions. -/
def restrict (M : Machine σ α) (P : σ → α → Prop) : Machine σ α where
  guard s a := M.guard s a ∧ P s a
  step := M.step

/-- Runs of the restricted machine are runs. -/
theorem Reachable.of_restrict {P : σ → α → Prop} (h : (M.restrict P).Reachable s t) :
    M.Reachable s t := by
  obtain ⟨as, hrun⟩ := h
  induction hrun with
  | nil => exact Reachable.refl M s
  | snoc _ hg hst ih => exact ih.snoc hg.1 hst

/-- The invariant rule for a restricted machine, given an invariant of the unrestricted one. -/
theorem Reachable.invariant_restrict {P : σ → α → Prop} {I J : σ → Prop}
    (hI : ∀ t, M.Reachable s t → I t)
    (hstep : ∀ t a u, I t → J t → M.guard t a → P t a → M.step t a = some u → J u)
    (h : (M.restrict P).Reachable s t) (hs : J s) : J t := by
  obtain ⟨as, hrun⟩ := h
  induction hrun with
  | nil => exact hs
  | snoc hrun hg hst ih =>
      exact hstep _ _ _ (hI _ (Reachable.of_restrict ⟨_, hrun⟩)) ih hg.1 hg.2 hst

end Machine

end PTAuth.Library
