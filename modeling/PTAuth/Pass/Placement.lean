import PTAuth.Library.History
import PTAuth.Pass.Arming

/-!
# Along the layout

The walk follows the layout. In front of every instruction the slots have flags
(`visited_flags`), and once a check stands in front of a GEP it stays (`Inspected.run`); without
one, the GEP keeps its base (`base_visited`).
-/

set_option autoImplicit false

namespace PTAuth.Pass

/-! ## Prefixes of the layout -/

/-- In a nodup list, what stands behind a prefix comes after its elements. -/
theorem sublist_of_split {A B : List Nat} {c x : Nat} (hc : c ∈ A) : [c, x].Sublist (A ++ x :: B) := by
  have hfirst : [c].Sublist A := List.singleton_sublist.2 hc
  have hsecond : [x].Sublist (x :: B) := List.singleton_sublist.2 List.mem_cons_self
  exact hfirst.append hsecond

theorem fresh_of_split {F₀ : Func} (hwf : F₀.WellFormed) {A B : List Nat} {x : Nat}
    (hids : F₀.ids = A ++ x :: B) : x ∉ A ∧ x ∉ B := by
  have hnd := hwf.ids_nodup
  rw [hids, List.nodup_append] at hnd
  exact ⟨fun hmem => hnd.2.2 x hmem x List.mem_cons_self rfl, (List.nodup_cons.1 hnd.2.1).1⟩

/-- One block, whose last instruction is its only return. -/
def Func.StraightLine (F : Func) : Prop :=
  ∃ body r, F.layout = [body ++ [r]] ∧ (F.instr r).op = .ret ∧ ∀ x ∈ body, (F.instr x).op ≠ .ret

/-! ## Runs -/

/-- The pass in front of a function. -/
def State.start (F : Func) : State where
  func := F
  pass := ⟨[], [], false, false⟩
  inserted := []

/-- What holds of the results of long enough walks holds of the visits. -/
theorem visited_of_walk {tbi : Bool} {s : State} (hwf : s.func.WellFormed) {P : State → Prop}
    (h : ∃ N, ∀ fuel, N ≤ fuel → ∃ t, walk tbi fuel s = some t ∧ P t) :
    P (visited tbi s s.func.ids) := by
  obtain ⟨N, hN⟩ := h
  obtain ⟨M, hM⟩ := walk_eq tbi hwf
  obtain ⟨t, ht, hP⟩ := hN (N + M) (Nat.le_add_right N M)
  rw [hM (N + M) (Nat.le_add_left M N)] at ht
  obtain rfl := Option.some.inj ht
  exact hP

/-- In front of the function the slot has no entry. -/
theorem State.slotFlags_of_clean {s : State} (hclean : ∀ p ∈ s.pass.pointers, p.fn ≠ s.func.name)
    (a : Nat) : s.SlotFlags a none := by
  have hentries : s.entries a = [] := by
    rw [State.entries, List.filter_eq_nil_iff]
    intro p hp hentry
    rw [State.isEntry, Bool.and_eq_true, beq_iff_eq] at hentry
    exact hclean p hp hentry.1
  rw [State.SlotFlags, hentries]
  exact Tracks.empty

section Runs

variable {tbi : Bool} {F₀ : Func} {s : State} {a : Nat}

theorem Behind.ofPrefix (hwf : F₀.WellFormed) (hs : s.func = F₀) {P B : List Nat}
    (hids : F₀.ids = P ++ B) : Behind tbi F₀ P (visited tbi s P) := by
  have hstart : Behind tbi F₀ [] s := Behind.refl hwf hs
  have h := hstart.run hwf P fun y hy =>
    hwf.ids_lt y (by rw [hids]; exact List.mem_append_left _ hy)
  simpa using h

/-- A visit leaves the slot with flags. -/
theorem visit_flags (hwf : F₀.WellFormed) {done : List Nat} (hb : Behind tbi F₀ done s) {x : Nat}
    (hx : x < F₀.next) {f : Option Flags} (hf : s.SlotFlags a f) :
    ∃ f', (visit tbi s x).SlotFlags a f' := by
  obtain ⟨pre, hd⟩ := hb.decorated
  by_cases hret : (s.func.instr x).op = .ret
  · exact ⟨none, visit_return tbi hret⟩
  by_cases hstore : (s.func.instr x).op = .store
  · exact (visit_store tbi hstore hf).elim (fun h => ⟨_, h.2⟩) fun h => ⟨_, h.2⟩
  by_cases hload : (s.func.instr x).op = .load
  · exact (visit_load hd hwf hload hf).elim (fun h => ⟨_, h.2⟩) fun h => ⟨_, h⟩
  by_cases hcall : ∃ callee returned, (s.func.instr x).op = .call (some callee) returned
  · obtain ⟨callee, returned, hcall⟩ := hcall
    obtain ⟨f', hf', -⟩ := visit_call hd hx hcall hf
    exact ⟨f', hf'⟩
  · rw [visit_other hret hstore hload fun callee returned hop => hcall ⟨callee, returned, hop⟩]
    exact ⟨f, hf⟩

/-- **In front of every instruction** the slot has flags. -/
theorem visited_flags (hwf : F₀.WellFormed) {done : List Nat} (hb : Behind tbi F₀ done s)
    {f : Option Flags} (hf : s.SlotFlags a f) :
    ∀ xs : List Nat, (∀ y ∈ xs, y < F₀.next) → ∃ f', (visited tbi s xs).SlotFlags a f' := by
  intro xs
  induction xs generalizing s done f with
  | nil => exact fun _ => ⟨f, hf⟩
  | cons y xs ih =>
      intro hlt
      have hy := hlt y List.mem_cons_self
      obtain ⟨f', hf'⟩ := visit_flags hwf hb hy hf
      exact ih (hb.step hwf hy) hf' fun z hz => hlt z (List.mem_cons_of_mem y hz)

/-- Once inserted, a check stays. -/
theorem Inspected.run (hwf : F₀.WellFormed) {l g : Nat} (hg : (F₀.instr g).op = .gep)
    {done : List Nat} {t : State} (hb : Behind tbi F₀ done t) (h : Inspected F₀ t.func l g) :
    ∀ xs : List Nat, (∀ y ∈ xs, y < F₀.next) →
      Inspected F₀ (visited tbi t xs).func l g := by
  intro xs
  induction xs generalizing t done with
  | nil => exact fun _ => h
  | cons y xs ih =>
      intro hlt
      obtain ⟨pre, hd⟩ := hb.decorated
      have hy := hlt y List.mem_cons_self
      exact ih (hb.step hwf hy) (h.step hwf hd hy hg) fun z hz =>
        hlt z (List.mem_cons_of_mem y hz)

/-- The base of a GEP stays the load, if its load is not visited any more. -/
theorem base_visited (hwf : F₀.WellFormed) {l g : Nat} (hg : (F₀.instr g).op = .gep) {v : Value}
    (hvl : v.ref = .inst l) {done : List Nat} {t : State} (hb : Behind tbi F₀ done t)
    (hv : t.func.operand g 0 = some v) :
    ∀ xs : List Nat, (∀ y ∈ xs, y < F₀.next) → l ∉ xs →
      (visited tbi t xs).func.operand g 0 = some v := by
  intro xs
  induction xs generalizing t done with
  | nil => exact fun _ _ => hv
  | cons y xs ih =>
      intro hlt hl
      obtain ⟨pre, hd⟩ := hb.decorated
      have hy := hlt y List.mem_cons_self
      refine ih (hb.step hwf hy) ((visit_steps hd hwf hy).base_eq hd hy hg hv ?_)
        (fun z hz => hlt z (List.mem_cons_of_mem y hz)) fun hmem => hl (List.mem_cons_of_mem y hmem)
      rw [hvl]
      intro he
      rw [Ref.inst.inj he] at hl
      exact hl List.mem_cons_self

end Runs

end PTAuth.Pass
