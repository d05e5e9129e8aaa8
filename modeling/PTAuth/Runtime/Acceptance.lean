import PTAuth.Runtime.Search

/-!
# The acceptance set of validation

For a pointer whose stripped address is at least 1024, the shipped `validatePointer` ends, and it
authenticates the pointer exactly when one of the words it may look at carries the tag of the
pointer (`validation_accepts_iff`). The words are the one right below the pointer and those at the
16-aligned addresses of the 1023 bytes below it.

`plainLoop` is the loop of `backward_search` without the stride: it tries every index and skips the
unaligned ones. The two loops examine the same addresses in the same order.
-/

set_option autoImplicit false

namespace PTAuth.Runtime

open PTAuth.Library.Scan

/-! ## The loop without the stride -/

/-- The loop that tries `n` indices from `i` on, one after the other, and skips those whose address is
not aligned. -/
def plainLoop (cfg : Config) (mem : Word → Word) (ptr : Word) : Nat → Nat → Search
  | 0, _ => { examined := [], hit := none }
  | n + 1, i =>
      if ((xpac ptr).toNat - i) % 16 ≠ 0 then
        plainLoop cfg mem ptr n (i + 1)
      else
        let tempPtr := ptr - BitVec.ofNat 64 i + 8
        let metaPtr := xpac ptr - BitVec.ofNat 64 i
        let id := mem metaPtr
        let p := autia cfg tempPtr id
        if id ≠ 0 ∧ p ≠ 0 then { examined := [metaPtr], hit := some metaPtr }
        else (plainLoop cfg mem ptr n (i + 1)).look metaPtr

/-- The plain loop is a scan of the same candidates. The induction is on the number of indices. -/
theorem plainLoop_eq_scan (cfg : Config) (mem : Word → Word) {ptr : Word}
    (hx : 1024 ≤ (xpac ptr).toNat) :
    ∀ (n i : Nat), n + i ≤ 1024 →
      plainLoop cfg mem ptr n i = scanSearch cfg mem ptr (candidates (xpac ptr).toNat i n) := by
  intro n
  induction n with
  | zero => exact fun _ _ => rfl
  | succ n ih =>
      intro i hi
      have hnext := ih (i + 1) (by omega)
      have hxlt := xpac_lt ptr
      by_cases hdvd : 16 ∣ (xpac ptr).toNat - i
      · have hzero : ((xpac ptr).toNat - i) % 16 = 0 := Nat.mod_eq_zero_of_dvd hdvd
        have hmeta : xpac ptr - BitVec.ofNat 64 i = BitVec.ofNat 64 ((xpac ptr).toNat - i) := by
          apply BitVec.eq_of_toNat_eq
          rw [BitVec.toNat_sub, BitVec.toNat_ofNat, BitVec.toNat_ofNat]
          omega
        have hlist : candidates (xpac ptr).toNat i (n + 1) =
            BitVec.ofNat 64 ((xpac ptr).toNat - i) :: candidates (xpac ptr).toNat (i + 1) n := by
          rw [candidates, downward_succ_of_dvd hdvd]
          rfl
        have htest := search_test_iff cfg mem (by omega : i ≤ 1024) hx hdvd
        rw [plainLoop, if_neg (not_not.2 hzero), hlist]
        simp only [hmeta]
        by_cases hacc : Accepts cfg mem ptr (BitVec.ofNat 64 ((xpac ptr).toNat - i))
        · rw [if_pos (htest.2 hacc), scanSearch_cons_pos hacc]
        · rw [if_neg (fun h => hacc (htest.1 h)), scanSearch_cons_neg hacc, hnext]
      · have hne : ((xpac ptr).toNat - i) % 16 ≠ 0 := fun h => hdvd (Nat.dvd_of_mod_eq_zero h)
        rw [plainLoop, if_pos hne, hnext, candidates, candidates, downward_succ_of_not_dvd hdvd]

/-- **The stride loses nothing.** The loop of `backward_search` does what the plain loop does. -/
theorem searchLoop_eq_plainLoop {cfg : Config} (hthr : cfg.bkThreasholdEnabled = true)
    (mem : Word → Word) {ptr : Word} (hx : 1024 ≤ (xpac ptr).toNat) {fuel : Nat}
    (hfuel : 1024 ≤ fuel) :
    searchLoop cfg mem ptr fuel 1 = some (plainLoop cfg mem ptr 1023 1) := by
  have hloop := searchLoop_eq_scan hthr mem hx fuel 1 (by omega) (by omega)
  rw [Nat.cast_one] at hloop
  rw [hloop, plainLoop_eq_scan cfg mem hx 1023 1 (Nat.le_refl 1024)]

/-! ## What a search examines -/

/-- `a` is one of the 16-aligned addresses in the 1023 bytes below `x`. -/
def Below (x : Nat) (a : Word) : Prop := 16 ∣ a.toNat ∧ x ≤ a.toNat + 1023 ∧ a.toNat < x

/-- The search examined addresses below `x`, each once and in descending order, left none out before
it stopped, and stopped at the first one that is accepted. -/
structure Search.Descends (s : Search) (x : Nat) (accepts : Word → Prop) : Prop where
  below : ∀ a ∈ s.examined, Below x a
  descending : s.examined.Pairwise fun a b => b.toNat < a.toNat
  complete : ∀ b, Below x b → (∀ a, s.hit = some a → a.toNat ≤ b.toNat) → b ∈ s.examined
  first : ∀ a, s.hit = some a ↔ a ∈ s.examined ∧ accepts a

theorem scanSearch_descends (cfg : Config) (mem : Word → Word) {ptr : Word}
    (hx : 1024 ≤ (xpac ptr).toNat) :
    (scanSearch cfg mem ptr (candidates (xpac ptr).toNat 1 1023)).Descends (xpac ptr).toNat
      (Accepts cfg mem ptr) where
  below := by
    intro a ha
    have hmem := (scan_fst_isPrefix _ _).subset ha
    exact (mem_candidates_iff hx (xpac_lt ptr) a).1 hmem
  descending := (candidates_pairwise hx (xpac_lt ptr)).sublist (scan_fst_isPrefix _ _).sublist
  complete := by
    intro b hb hbefore
    have hmem := (mem_candidates_iff hx (xpac_lt ptr) b).2 hb
    apply scan_complete (candidates_pairwise hx (xpac_lt ptr)) hmem
    intro a ha
    exact Nat.not_lt.2 (hbefore a ha)
  first := by
    intro a
    refine scan_hit_iff.trans (and_congr_right fun _ => ?_)
    exact decide_eq_true_iff

/-! ## The acceptance set -/

/-- The word at `a` is non-zero, and the exclusive or of its low byte with that of `a + 8` is the top
byte of `ptr`. -/
def CarriesTag (mem : Word → Word) (ptr a : Word) : Prop :=
  mem a ≠ 0 ∧ ((a + 8).toNat % 256) ^^^ ((mem a).toNat % 256) = ptr.toNat / 2 ^ 56

theorem accepts_shipped_iff (mem : Word → Word) (ptr a : Word) :
    Accepts Config.shipped mem ptr a ↔ CarriesTag mem ptr a :=
  and_congr_right fun _ => eq_comm

/-- **What validation accepts.** In the shipped configuration `validatePointer` ends, it authenticates
the pointer exactly when the word right below it or one at an aligned address of the 1023 bytes below
it carries its tag, and its search walks down these addresses as the plain loop does. -/
theorem validation_accepts_iff (mem : Word → Word) {ptr : Word} (hx : 1024 ≤ (xpac ptr).toNat)
    {fuel : Nat} (hfuel : 1024 ≤ fuel) :
    (∃ v, validatePointer Config.shipped mem fuel ptr = some v ∧
        (v.hit.isSome = true ↔
          ∃ a : Word, (a.toNat = (xpac ptr).toNat - 8 ∨ Below (xpac ptr).toNat a) ∧
            CarriesTag mem ptr a)) ∧
      ∃ s, searchLoop Config.shipped mem ptr fuel 1 = some s ∧
        s = plainLoop Config.shipped mem ptr 1023 1 ∧
        s.Descends (xpac ptr).toNat (CarriesTag mem ptr) := by
  have hdescends := scanSearch_descends Config.shipped mem hx
  simp only [funext (accepts_shipped_iff mem ptr · |> propext)] at hdescends
  have hplain := plainLoop_eq_scan Config.shipped mem hx 1023 1 (Nat.le_refl 1024)
  refine ⟨?_, _, searchLoop_eq_plainLoop rfl mem hx hfuel, rfl, ?_⟩
  · rw [validatePointer_eq rfl mem hx hfuel]
    have hbelow : ∀ a : Word, a.toNat = (xpac ptr).toNat - 8 ↔ a = headerBelow ptr := by
      intro a
      rw [← headerBelow_toNat (by omega), BitVec.toNat_inj]
    split
    · rename_i hacc
      refine ⟨_, rfl, fun _ => ?_, fun _ => rfl⟩
      exact ⟨headerBelow ptr, Or.inl ((hbelow _).2 rfl), (accepts_shipped_iff mem ptr _).1 hacc⟩
    · rename_i hacc
      refine ⟨_, rfl, fun hhit => ?_, ?_⟩
      · obtain ⟨a, ha⟩ := Option.isSome_iff_exists.1 hhit
        obtain ⟨hmem, hcarries⟩ := (hdescends.first a).1 ha
        exact ⟨a, Or.inr (hdescends.below a hmem), hcarries⟩
      · rintro ⟨a, ha, hcarries⟩
        rcases ha with ha | ha
        · rw [(hbelow a).1 ha] at hcarries
          exact absurd ((accepts_shipped_iff mem ptr _).2 hcarries) hacc
        · -- without a hit the search would have examined `a` and stopped there
          by_contra hnone
          rw [Option.not_isSome_iff_eq_none] at hnone
          have hmem : a ∈ (scanSearch Config.shipped mem ptr
              (candidates (xpac ptr).toNat 1 1023)).examined := by
            apply hdescends.complete a ha
            intro b hb
            rw [hb] at hnone
            exact absurd hnone (by simp)
          rw [(hdescends.first a).2 ⟨hmem, hcarries⟩] at hnone
          exact absurd hnone (by simp)
  · rw [hplain]
    exact hdescends

/-- Memory with the id `0x5F` in the header at `0x1000`. -/
def headerPage (a : Word) : Word := if a = 0x1000 then 0x5F else 0

/-- The statement of `validation_accepts_iff` at a pointer into the object behind that header. -/
theorem validation_accepts_page :
    (∃ v, validatePointer Config.shipped headerPage 1024 0x5700000000001018 = some v ∧
        (v.hit.isSome = true ↔
          ∃ a : Word, (a.toNat = (xpac 0x5700000000001018).toNat - 8 ∨
              Below (xpac 0x5700000000001018).toNat a) ∧
            CarriesTag headerPage 0x5700000000001018 a)) ∧
      ∃ s, searchLoop Config.shipped headerPage 0x5700000000001018 1024 1 = some s ∧
        s = plainLoop Config.shipped headerPage 0x5700000000001018 1023 1 ∧
        s.Descends (xpac 0x5700000000001018).toNat (CarriesTag headerPage 0x5700000000001018) :=
  validation_accepts_iff headerPage (by decide) (Nat.le_refl 1024)

/-- It carries the tag of the pointer, so the pointer authenticates. -/
example : CarriesTag headerPage 0x5700000000001018 0x1000 := ⟨by decide, by decide⟩

end PTAuth.Runtime
