import Mathlib.Data.List.Basic

/-!
# Events of a history

A history is a list. `Since Q C` holds of one in which an event with property `Q` was the last thing
that counts: no `C` happened since.
-/

set_option autoImplicit false

namespace PTAuth

section History

variable {α : Type}

/-- An event happened, with the property `Q` of the history before it and itself, and no `C`
since. -/
def Since (Q : List α → α → Prop) (C : α → Prop) (l : List α) : Prop :=
  ∃ before x later, l = before ++ x :: later ∧ Q before x ∧ ∀ y ∈ later, ¬ C y

section Since

variable {Q : List α → α → Prop} {C : α → Prop} {l : List α}

theorem not_since_nil : ¬ Since Q C [] := by
  rintro ⟨before, x, later, hl, -⟩
  exact absurd hl (by simp)

/-- The last event is the one, or it happened before and the last one is no `C`. -/
theorem since_snoc {x : α} : Since Q C (l ++ [x]) ↔ Q l x ∨ (Since Q C l ∧ ¬ C x) := by
  constructor
  · rintro ⟨before, y, later, hl, hQ, hlater⟩
    rcases List.eq_nil_or_concat later with rfl | ⟨later', z, rfl⟩
    · obtain ⟨rfl, hxy⟩ := List.append_inj' hl rfl
      obtain rfl := List.singleton_inj.1 hxy
      exact Or.inl hQ
    · rw [List.concat_eq_append, ← List.cons_append, ← List.append_assoc] at hl
      obtain ⟨rfl, hxz⟩ := List.append_inj' hl rfl
      obtain rfl := List.singleton_inj.1 hxz
      exact Or.inr ⟨⟨before, y, later', rfl, hQ, fun u hu => hlater u (by simp [hu])⟩,
        hlater x (by simp)⟩
  · rintro (hQ | ⟨⟨before, y, later, rfl, hQ, hlater⟩, hx⟩)
    · exact ⟨l, x, [], rfl, hQ, fun _ hy => absurd hy List.not_mem_nil⟩
    · refine ⟨before, y, later ++ [x], by simp, hQ, fun u hu => ?_⟩
      rcases List.mem_append.1 hu with hu | hu
      · exact hlater u hu
      · rw [List.mem_singleton.1 hu]
        exact hx

theorem Since.append (h : Since Q C l) {l' : List α} (hl' : ∀ y ∈ l', ¬ C y) :
    Since Q C (l ++ l') := by
  obtain ⟨before, x, later, rfl, hQ, hlater⟩ := h
  refine ⟨before, x, later ++ l', by simp, hQ, fun y hy => ?_⟩
  exact (List.mem_append.1 hy).elim (hlater y) (hl' y)

end Since

/-- No event is an `E`, or there is a first one. -/
theorem first_or_none (E : α → Prop) (l : List α) :
    (∀ x ∈ l, ¬ E x) ∨
      ∃ before x later, l = before ++ x :: later ∧ E x ∧ ∀ y ∈ before, ¬ E y := by
  induction l with
  | nil => exact Or.inl fun x hx => absurd hx List.not_mem_nil
  | cons x l ih =>
      by_cases hx : E x
      · exact Or.inr ⟨[], x, l, rfl, hx, fun y hy => absurd hy List.not_mem_nil⟩
      · rcases ih with hnone | ⟨before, y, later, rfl, hy, hbefore⟩
        · exact Or.inl (List.forall_mem_cons.2 ⟨hx, hnone⟩)
        · exact Or.inr ⟨x :: before, y, later, rfl, hy, List.forall_mem_cons.2 ⟨hx, hbefore⟩⟩

end History

end PTAuth
