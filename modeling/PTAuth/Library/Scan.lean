import Mathlib.Data.List.Basic
import Mathlib.Tactic.Ring

/-!
# Scans that stop at the first hit, and strided ranges

`scan p l` walks a list, records what it looked at, and stops at the first element that satisfies
`p`. `downward s x i n` lists the multiples of `s` among `x - i, x - (i + 1), ...`, `n` numbers in
all: the elements a plain loop reaches when it skips every other number. `downward_skip` is the
stride: jumping by the residue loses no element.
-/

set_option autoImplicit false

namespace PTAuth.Library.Scan

universe u v

variable {α : Type u} {β : Type v}

/-- The elements looked at, in order, and the first one that satisfies `p`. -/
def scan (p : α → Bool) : List α → List α × Option α
  | [] => ([], none)
  | a :: l => if p a then ([a], some a) else (a :: (scan p l).1, (scan p l).2)

theorem scan_cons_of_pos {p : α → Bool} {a : α} (h : p a = true) (l : List α) :
    scan p (a :: l) = ([a], some a) := by
  simp [scan, h]

theorem scan_cons_of_neg {p : α → Bool} {a : α} (h : p a = false) (l : List α) :
    scan p (a :: l) = (a :: (scan p l).1, (scan p l).2) := by
  simp [scan, h]

theorem scan_snd (p : α → Bool) (l : List α) : (scan p l).2 = l.find? p := by
  induction l with
  | nil => rfl
  | cons a l ih =>
      cases h : p a with
      | true => simp [scan, h]
      | false => simp [scan, h, ih]

/-- A scan looks at a prefix of the list. -/
theorem scan_fst_isPrefix (p : α → Bool) (l : List α) : (scan p l).1 <+: l := by
  induction l with
  | nil => exact List.prefix_rfl
  | cons a l ih =>
      cases h : p a with
      | true => simp [scan, h]
      | false => simpa [scan, h] using ih

/-- The hit satisfies `p` and is an element of the list. -/
theorem scan_hit {p : α → Bool} {l : List α} {a : α} (h : (scan p l).2 = some a) :
    p a = true ∧ a ∈ l := by
  rw [scan_snd] at h
  exact ⟨List.find?_some h, List.mem_of_find?_eq_some h⟩

/-- The hit was looked at. -/
theorem scan_hit_mem {p : α → Bool} {l : List α} {a : α} (h : (scan p l).2 = some a) :
    a ∈ (scan p l).1 := by
  induction l with
  | nil => simp [scan] at h
  | cons b l ih =>
      cases hb : p b with
      | true =>
          rw [scan_cons_of_pos hb] at h ⊢
          rw [Option.some.inj h]
          exact List.mem_singleton_self a
      | false =>
          rw [scan_cons_of_neg hb] at h ⊢
          exact List.mem_cons_of_mem b (ih h)

/-- The hit is the only element looked at that satisfies `p`. -/
theorem scan_hit_iff {p : α → Bool} {l : List α} {a : α} :
    (scan p l).2 = some a ↔ a ∈ (scan p l).1 ∧ p a = true := by
  constructor
  · intro h
    exact ⟨scan_hit_mem h, (scan_hit h).1⟩
  · rintro ⟨ha, hp⟩
    induction l with
    | nil => exact absurd ha List.not_mem_nil
    | cons b l ih =>
        cases hb : p b with
        | true =>
            rw [scan_cons_of_pos hb] at ha ⊢
            rw [List.mem_singleton.1 ha]
        | false =>
            rw [scan_cons_of_neg hb] at ha ⊢
            rcases List.mem_cons.1 ha with rfl | ha
            · rw [hp] at hb
              exact absurd hb (by decide)
            · exact ih ha

/-- A scan looks at every element of a list ordered by `r` that does not lie beyond the hit. -/
theorem scan_complete {p : α → Bool} {r : α → α → Prop} {l : List α} {b : α}
    (hr : l.Pairwise r) (hb : b ∈ l) (hbefore : ∀ a, (scan p l).2 = some a → ¬ r a b) :
    b ∈ (scan p l).1 := by
  induction l with
  | nil => exact absurd hb List.not_mem_nil
  | cons c l ih =>
      obtain ⟨hc, hl⟩ := List.pairwise_cons.1 hr
      cases hpc : p c with
      | true =>
          rw [scan_cons_of_pos hpc] at hbefore ⊢
          rcases List.mem_cons.1 hb with rfl | hb
          · exact List.mem_singleton_self b
          · exact absurd (hc b hb) (hbefore c rfl)
      | false =>
          rw [scan_cons_of_neg hpc] at hbefore ⊢
          rcases List.mem_cons.1 hb with rfl | hb
          · exact List.mem_cons_self
          · exact List.mem_cons_of_mem c (ih hl hb hbefore)

/-- If `a` satisfies `p`, a scan of a list ordered by `r` finds a hit and looks at no element
beyond `a`. -/
theorem scan_stops_by {p : α → Bool} {r : α → α → Prop} {l : List α} {a : α}
    (hr : l.Pairwise r) (ha : a ∈ l) (hp : p a = true) :
    (∃ b, (scan p l).2 = some b) ∧ ∀ b ∈ (scan p l).1, b = a ∨ r b a := by
  induction l with
  | nil => exact absurd ha (List.not_mem_nil)
  | cons c l ih =>
      obtain ⟨hc, hl⟩ := List.pairwise_cons.1 hr
      have hca : c = a ∨ r c a := by
        rcases List.mem_cons.1 ha with rfl | ha
        · exact Or.inl rfl
        · exact Or.inr (hc a ha)
      cases hpc : p c with
      | true =>
          rw [scan_cons_of_pos hpc]
          refine ⟨⟨c, rfl⟩, fun b hb => ?_⟩
          rw [List.mem_singleton.1 hb]
          exact hca
      | false =>
          have hal : a ∈ l := by
            rcases List.mem_cons.1 ha with rfl | ha
            · rw [hp] at hpc
              exact absurd hpc (by decide)
            · exact ha
          obtain ⟨hhit, hbnd⟩ := ih hl hal
          rw [scan_cons_of_neg hpc]
          refine ⟨hhit, fun b hb => ?_⟩
          rcases List.mem_cons.1 hb with rfl | hb
          · exact hca
          · exact hbnd b hb

/-! ## Strided ranges -/

/-- The multiples of `s` among `x - i, ..., x - (i + n - 1)`, in this order. -/
def downward (s x i n : Nat) : List Nat :=
  ((List.range' i n).map fun j => x - j).filter fun a => s ∣ a

theorem downward_zero (s x i : Nat) : downward s x i 0 = [] := rfl

theorem downward_succ_of_dvd {s x i : Nat} (h : s ∣ x - i) (n : Nat) :
    downward s x i (n + 1) = (x - i) :: downward s x (i + 1) n := by
  simp [downward, List.range'_succ, h]

theorem downward_succ_of_not_dvd {s x i : Nat} (h : ¬ s ∣ x - i) (n : Nat) :
    downward s x i (n + 1) = downward s x (i + 1) n := by
  simp [downward, List.range'_succ, h]

/-- Jumping by the residue loses no element. -/
theorem downward_skip {s x : Nat} (r : Nat) :
    ∀ {i n : Nat}, (x - i) % s = r → r ≤ n → i + n ≤ x + 1 →
      downward s x i n = downward s x (i + r) (n - r) := by
  induction r with
  | zero => intro i n _ _ _; rfl
  | succ r ih =>
      intro i n hr hn hx
      obtain ⟨n, rfl⟩ : ∃ m, n = m + 1 := ⟨n - 1, by omega⟩
      have hnd : ¬ s ∣ x - i := by
        rw [Nat.dvd_iff_mod_eq_zero]
        omega
      have hmod : (x - (i + 1)) % s = r := by
        rcases Nat.eq_zero_or_pos s with rfl | hs
        · simp only [Nat.mod_zero] at hr ⊢
          omega
        · have hsub : x - (i + 1) = s * ((x - i) / s) + r := by
            have := Nat.div_add_mod (x - i) s
            omega
          have hrs : r < s := by
            have := Nat.mod_lt (x - i) hs
            omega
          rw [hsub, Nat.mul_add_mod, Nat.mod_eq_of_lt hrs]
      rcases Nat.eq_zero_or_pos n with rfl | hpos
      · have : r = 0 := by omega
        subst this
        rw [downward_succ_of_not_dvd hnd]
      · rw [downward_succ_of_not_dvd hnd, ih hmod (by omega) (by omega)]
        congr 1 <;> omega

/-- Once the residue exceeds what is left, nothing is left. -/
theorem downward_eq_nil {s x : Nat} (n : Nat) :
    ∀ {i : Nat}, n ≤ (x - i) % s → i + n ≤ x + 1 → downward s x i n = [] := by
  intro i hn hx
  have hmem : ∀ a, a ∉ downward s x i n := by
    intro a ha
    simp only [downward, List.mem_filter, List.mem_map, List.mem_range'_1, decide_eq_true_eq] at ha
    obtain ⟨⟨j, hj, rfl⟩, hdvd⟩ := ha
    obtain ⟨c, hc⟩ := hdvd
    have hsplit : x - i = s * c + (j - i) := by omega
    have hs : 0 < s := by
      rcases Nat.eq_zero_or_pos s with rfl | hs
      · simp at hc hn
        omega
      · exact hs
    have hle : (x - i) % s ≤ j - i := by
      rw [hsplit, Nat.mul_add_mod]
      exact Nat.mod_le _ _
    omega
  exact List.eq_nil_iff_forall_not_mem.2 hmem

theorem mem_downward_iff {s x i n : Nat} (hx : i + n ≤ x + 1) (a : Nat) :
    a ∈ downward s x i n ↔ s ∣ a ∧ a + i ≤ x ∧ x < a + i + n := by
  simp only [downward, List.mem_filter, List.mem_map, List.mem_range'_1, decide_eq_true_eq]
  constructor
  · rintro ⟨⟨j, hj, rfl⟩, hdvd⟩
    exact ⟨hdvd, by omega, by omega⟩
  · rintro ⟨hdvd, hlo, hhi⟩
    exact ⟨⟨x - a, by omega, by omega⟩, hdvd⟩

/-- The list is strictly descending. -/
theorem downward_pairwise {s x i n : Nat} (hx : i + n ≤ x + 1) :
    (downward s x i n).Pairwise fun a b => b < a := by
  apply List.Pairwise.filter _
  rw [List.pairwise_map]
  refine List.Pairwise.imp_of_mem ?_ (List.pairwise_lt_range' 1)
  intro a b ha hb hab
  have := (List.mem_range'_1.1 ha)
  have := (List.mem_range'_1.1 hb)
  omega

end PTAuth.Library.Scan
