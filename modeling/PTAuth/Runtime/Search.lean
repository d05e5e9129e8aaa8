import PTAuth.Runtime.Validate

/-!
# What validation accepts

For a pointer whose stripped address is at least 1024, `validatePointer` looks at the word right
below the pointer and then at the 16-aligned addresses of the 1023 bytes below it, descending, and
it accepts the first word that carries the tag of the pointer (`validatePointer_eq`). Every pointer
that a check returns in the Top-Byte Ignore build is its argument.

In the shipped configuration a failed search returns the pointer: no check stops the program
(`failed_checks_return`).
-/

set_option autoImplicit false

namespace PTAuth.Runtime

open PTAuth.Library.Scan

/-! ## The loop for every fuel -/

/-- More fuel does not change a search that ended. -/
theorem searchLoop_succ {cfg : Config} {mem : Word → Word} {ptr : Word} :
    ∀ (fuel : Nat) (i : Int) (s : Search), searchLoop cfg mem ptr fuel i = some s →
      searchLoop cfg mem ptr (fuel + 1) i = some s := by
  intro fuel
  induction fuel with
  | zero => intro i s h; simp [searchLoop] at h
  | succ fuel ih =>
      intro i s h
      rw [searchLoop] at h ⊢
      by_cases hthr : (BitVec.ofInt 64 i).toNat < cfg.threshold
      · simp only [if_pos hthr] at h ⊢
        by_cases hrest : ((xpac ptr).toInt - i).tmod 16 ≠ 0
        · rw [if_pos hrest] at h ⊢
          exact ih _ _ h
        · rw [if_neg hrest] at h ⊢
          split at h
          · rename_i htest
            rw [if_pos htest]
            exact h
          · rename_i htest
            rw [if_neg htest]
            obtain ⟨s', hs', rfl⟩ := Option.map_eq_some_iff.1 h
            rw [ih _ _ hs']
            rfl
      · rw [if_neg hthr] at h ⊢
        exact h

theorem searchLoop_mono {cfg : Config} {mem : Word → Word} {ptr : Word} {fuel fuel' : Nat}
    {i : Int} {s : Search} (hle : fuel ≤ fuel') (h : searchLoop cfg mem ptr fuel i = some s) :
    searchLoop cfg mem ptr fuel' i = some s := by
  induction hle with
  | refl => exact h
  | step _ ih => exact searchLoop_succ _ _ _ ih

/-- The id of a hit is non-zero, at every address. -/
theorem searchLoop_hit_ne_zero {cfg : Config} {mem : Word → Word} {ptr : Word} :
    ∀ (fuel : Nat) (i : Int) (s : Search) (a : Word), searchLoop cfg mem ptr fuel i = some s →
      s.hit = some a → mem a ≠ 0 := by
  intro fuel
  induction fuel with
  | zero => intro i s a h; simp [searchLoop] at h
  | succ fuel ih =>
      intro i s a h hhit
      rw [searchLoop] at h
      by_cases hthr : (BitVec.ofInt 64 i).toNat < cfg.threshold
      · simp only [if_pos hthr] at h
        by_cases hrest : ((xpac ptr).toInt - i).tmod 16 ≠ 0
        · rw [if_pos hrest] at h
          exact ih _ _ a h hhit
        · rw [if_neg hrest] at h
          split at h
          · rename_i htest
            obtain rfl := Option.some.inj h
            obtain rfl := Option.some.inj hhit
            exact htest.1
          · obtain ⟨s', hs', rfl⟩ := Option.map_eq_some_iff.1 h
            exact ih _ _ a hs' hhit
      · rw [if_neg hthr] at h
        obtain rfl := Option.some.inj h
        simp at hhit

/-! ## Candidates -/

/-- The address of the word right below `ptr`, where the direct test reads the id. -/
def headerBelow (ptr : Word) : Word := (ptr - 8) &&& ~~~ maskHighBit

theorem headerBelow_toNat {ptr : Word} (hx : 8 ≤ (xpac ptr).toNat) :
    (headerBelow ptr).toNat = (xpac ptr).toNat - 8 := by
  have h : headerBelow ptr = xpac (ptr - 8) := by rw [headerBelow, not_maskHighBit, xpac]
  rw [xpac_toNat] at hx
  rw [h, xpac_toNat, xpac_toNat, BitVec.toNat_sub]
  simp only [BitVec.reduceToNat]
  have := ptr.isLt
  omega

theorem headerBelow_add {ptr : Word} (hx : 8 ≤ (xpac ptr).toNat) :
    headerBelow ptr + 8 = xpac ptr := by
  apply BitVec.eq_of_toNat_eq
  have := headerBelow_toNat hx
  have := xpac_lt ptr
  rw [BitVec.toNat_add]
  simp only [BitVec.reduceToNat]
  omega

/-- The direct test accepts under the same condition as the search does at that address. -/
theorem direct_test_iff (cfg : Config) (mem : Word → Word) {ptr : Word}
    (hx : 8 ≤ (xpac ptr).toNat) :
    (mem (headerBelow ptr) ≠ 0 ∧ autia cfg ptr (mem (headerBelow ptr)) = xpac ptr) ↔
      Accepts cfg mem ptr (headerBelow ptr) := by
  have hne : xpac ptr ≠ 0 := by
    intro h0
    rw [h0] at hx
    simp at hx
  rw [autia_eq_xpac_iff cfg hne, Accepts, headerBelow_add hx,
    authentic_of_retarget (a := xpac ptr) rfl (xpac_toNat ptr).symm]

/-- The aligned addresses among the 1023 bytes below the pointer. -/
theorem mem_candidates_iff {x : Nat} (hx : 1024 ≤ x) (hx' : x < 2 ^ 48) (a : Word) :
    a ∈ candidates x 1 1023 ↔ 16 ∣ a.toNat ∧ x ≤ a.toNat + 1023 ∧ a.toNat < x := by
  rw [candidates, List.mem_map]
  constructor
  · rintro ⟨n, hn, rfl⟩
    rw [mem_downward_iff (by omega)] at hn
    have hval : (BitVec.ofNat 64 n).toNat = n := by
      rw [BitVec.toNat_ofNat]
      omega
    rw [hval]
    omega
  · rintro ⟨hdvd, hlo, hhi⟩
    refine ⟨a.toNat, ?_, by simp⟩
    rw [mem_downward_iff (by omega)]
    omega

theorem candidates_pairwise {x : Nat} (hx : 1024 ≤ x) (hx' : x < 2 ^ 48) :
    (candidates x 1 1023).Pairwise fun a b => b.toNat < a.toNat := by
  rw [candidates, List.pairwise_map]
  refine List.Pairwise.imp_of_mem ?_ (downward_pairwise (by omega : 1 + 1023 ≤ x + 1))
  intro a b ha hb hab
  rw [mem_downward_iff (by omega)] at ha hb
  rw [BitVec.toNat_ofNat, BitVec.toNat_ofNat]
  omega

/-! ## Validation -/

/-- **Validation in closed form.** -/
theorem validatePointer_eq {cfg : Config} (hthr : cfg.bkThreasholdEnabled = true)
    (mem : Word → Word) {ptr : Word} (hx : 1024 ≤ (xpac ptr).toNat) {fuel : Nat}
    (hfuel : 1024 ≤ fuel) :
    validatePointer cfg mem fuel ptr =
      if Accepts cfg mem ptr (headerBelow ptr) then
        some { examined := [headerBelow ptr], hit := some (headerBelow ptr),
               outcome := .returned (if cfg.topByteIgnore then ptr else xpac ptr) }
      else
        let s := scanSearch cfg mem ptr (candidates (xpac ptr).toNat 1 1023)
        some { examined := headerBelow ptr :: s.examined, hit := s.hit,
               outcome := (if s.hit.isSome then Outcome.returned (xpac ptr)
                 else if cfg.enableLog then .returned ptr else .aborted).map
                   fun q => if cfg.topByteIgnore then ptr else q } := by
  have hne : ptr ≠ 0 := by
    rintro rfl
    simp [xpac] at hx
  have hloop := searchLoop_eq_scan hthr mem hx fuel 1 (by omega) (by omega)
  rw [Nat.cast_one] at hloop
  have hdirect := direct_test_iff cfg mem (by omega : 8 ≤ (xpac ptr).toNat)
  rw [validatePointer, if_neg hne]
  change (if mem (headerBelow ptr) ≠ 0 ∧ autia cfg ptr (mem (headerBelow ptr)) = xpac ptr
    then _ else _) = _
  by_cases hacc : Accepts cfg mem ptr (headerBelow ptr)
  · rw [if_pos (hdirect.2 hacc), if_pos hacc]
    rfl
  · rw [if_neg (fun h => hacc (hdirect.1 h)), if_neg hacc, backwardSearch, hloop]
    cases hhit : (scanSearch cfg mem ptr (candidates (xpac ptr).toNat 1 1023)).hit with
    | none => simp [headerBelow, hhit]
    | some a => simp [headerBelow, hhit]

/-- With Top-Byte Ignore a validation that returns, returns its argument. -/
theorem validatePointer_returned {cfg : Config} (htbi : cfg.topByteIgnore = true)
    {mem : Word → Word} {fuel : Nat} {ptr q : Word} {v : Validation}
    (h : validatePointer cfg mem fuel ptr = some v) (hq : v.outcome = .returned q) : q = ptr := by
  rw [validatePointer] at h
  split at h
  · obtain rfl := Option.some.inj h
    exact (Outcome.returned.inj hq).symm
  · simp only at h
    split at h
    · obtain rfl := Option.some.inj h
      exact (Outcome.returned.inj hq).symm
    · obtain ⟨r, -, rfl⟩ := Option.map_eq_some_iff.1 h
      cases hr : r.2 with
      | returned p =>
          simp only [hr, Outcome.map] at hq
          exact (Outcome.returned.inj hq).symm
      | aborted => simp [hr, Outcome.map] at hq

/-- More fuel does not change a validation that ended. -/
theorem validatePointer_mono {cfg : Config} {mem : Word → Word} {fuel fuel' : Nat} {ptr : Word}
    {v : Validation} (hle : fuel ≤ fuel') (h : validatePointer cfg mem fuel ptr = some v) :
    validatePointer cfg mem fuel' ptr = some v := by
  rw [validatePointer] at h ⊢
  split at h
  · rename_i h0
    rw [if_pos h0]
    exact h
  · rename_i h0
    rw [if_neg h0]
    simp only at h ⊢
    split at h
    · rename_i hdirect
      rw [if_pos hdirect]
      exact h
    · rename_i hdirect
      rw [if_neg hdirect]
      obtain ⟨r, hr, rfl⟩ := Option.map_eq_some_iff.1 h
      obtain ⟨s, hs, rfl⟩ := Option.map_eq_some_iff.1 hr
      rw [backwardSearch, searchLoop_mono hle hs]
      rfl

/-- A hit of validation was examined and is accepted, and it is the word right below the pointer or an aligned one
among the 1023 bytes below it. -/
theorem validatePointer_hit {cfg : Config} (hthr : cfg.bkThreasholdEnabled = true)
    {mem : Word → Word} {ptr : Word} (hx : 1024 ≤ (xpac ptr).toNat) {fuel : Nat} {v : Validation}
    (hv : validatePointer cfg mem fuel ptr = some v) {a : Word} (ha : v.hit = some a) :
    a ∈ v.examined ∧ Accepts cfg mem ptr a ∧ (a = headerBelow ptr ∨
      (16 ∣ a.toNat ∧ (xpac ptr).toNat ≤ a.toNat + 1023 ∧ a.toNat < (xpac ptr).toNat)) := by
  have hv' := validatePointer_mono (Nat.le_max_left fuel 1024) hv
  rw [validatePointer_eq hthr mem hx (Nat.le_max_right fuel 1024)] at hv'
  split at hv'
  · rename_i hacc
    obtain rfl := Option.some.inj hv'
    obtain rfl := Option.some.inj ha
    exact ⟨List.mem_singleton_self _, hacc, Or.inl rfl⟩
  · obtain rfl := Option.some.inj hv'
    obtain ⟨hacc, hmem⟩ := scan_hit ha
    refine ⟨List.mem_cons_of_mem _ (scan_hit_mem ha), of_decide_eq_true hacc, Or.inr ?_⟩
    exact (mem_candidates_iff hx (xpac_lt _) a).1 hmem

/-! ## The checks -/

/-- The authenticating checks that the pass can insert. -/
inductive Check where
  | load
  | gep
  | nestedGEP
  | store
  deriving DecidableEq, Repr

/-- The runtime function of a check. -/
def Check.run : Check → Config → (Word → Word) → Nat → Word → Option CheckRun
  | .load => loadCheck
  | .gep => gepCheck
  | .nestedGEP => nestedGEPCheck
  | .store => storeCheck

theorem signatureGate_of_tagged (cfg : Config) (mem : Word → Word) (fuel : Nat)
    (result : Word → Word) {ptr : Word} (htag : ptr &&& ~~~ maskLowBit ≠ 0) :
    signatureGate cfg mem fuel result ptr = (validatePointer cfg mem fuel ptr).map fun v =>
      { validated := some ptr, outcome := v.outcome.map result } :=
  if_pos htag

theorem signatureGate_of_untagged (cfg : Config) (mem : Word → Word) (fuel : Nat)
    (result : Word → Word) {ptr : Word} (htag : ptr &&& ~~~ maskLowBit = 0) :
    signatureGate cfg mem fuel result ptr
      = some { validated := none, outcome := .returned ptr } :=
  if_neg (not_not.2 htag)

/-- Every check is the `signature` gate in front of the validation; the checks differ only in how
they pick the result, which the Top-Byte Ignore build does not see. -/
theorem Check.run_of_validation {cfg : Config} (htbi : cfg.topByteIgnore = true) (c : Check)
    {mem : Word → Word} {fuel : Nat} {ptr : Word} (htag : ptr &&& ~~~ maskLowBit ≠ 0)
    {v : Validation} (hv : validatePointer cfg mem fuel ptr = some v) :
    c.run cfg mem fuel ptr = some { validated := some ptr, outcome := v.outcome } := by
  have hmap : ∀ f : Word → Word, f ptr = ptr → v.outcome.map f = v.outcome := by
    intro f hf
    cases ho : v.outcome with
    | returned q =>
        obtain rfl := validatePointer_returned htbi hv ho
        simp [Outcome.map, hf]
    | aborted => rfl
  have hgate : ∀ f : Word → Word, f ptr = ptr → signatureGate cfg mem fuel f ptr
      = some { validated := some ptr, outcome := v.outcome } := by
    intro f hf
    rw [signatureGate_of_tagged cfg mem fuel f htag, hv, Option.map_some, hmap f hf]
  cases c with
  | load => exact hgate _ (if_pos htbi)
  | gep => exact hgate _ (if_pos htbi)
  | nestedGEP => exact hgate _ (if_pos htbi)
  | store => exact hgate _ rfl

/-- A pointer without bits above bit 47 passes every check without being validated. -/
theorem Check.run_of_untagged (c : Check) (cfg : Config) (mem : Word → Word) (fuel : Nat)
    {ptr : Word} (htag : ptr &&& ~~~ maskLowBit = 0) :
    c.run cfg mem fuel ptr = some { validated := none, outcome := .returned ptr } := by
  cases c <;> exact signatureGate_of_untagged cfg mem fuel _ htag

/-- **Checks are the identity.** With Top-Byte Ignore, a check that returns, returns its argument;
no check has access to write memory. -/
theorem Check.run_returned {cfg : Config} (htbi : cfg.topByteIgnore = true) (c : Check)
    {mem : Word → Word} {fuel : Nat} {ptr q : Word} {r : CheckRun}
    (h : c.run cfg mem fuel ptr = some r) (hq : r.outcome = .returned q) : q = ptr := by
  by_cases htag : ptr &&& ~~~ maskLowBit = 0
  · rw [c.run_of_untagged cfg mem fuel htag] at h
    obtain rfl := Option.some.inj h
    exact (Outcome.returned.inj hq).symm
  · cases hv : validatePointer cfg mem fuel ptr with
    | none =>
        have hnone : ∀ f : Word → Word, signatureGate cfg mem fuel f ptr = none := by
          intro f
          rw [signatureGate_of_tagged cfg mem fuel f htag, hv, Option.map_none]
        have hrun : c.run cfg mem fuel ptr = none := by
          cases c <;> exact hnone _
        rw [hrun] at h
        exact absurd h (by simp)
    | some v =>
        rw [c.run_of_validation htbi htag hv] at h
        obtain rfl := Option.some.inj h
        exact validatePointer_returned htbi hv hq

/-! ## Failed validation -/

/-- Validation of `ptr` fails: the direct test fails, and no id examined by the search
authenticates. -/
structure FailsValidation (cfg : Config) (mem : Word → Word) (ptr : Word) : Prop where
  direct : ¬ (mem (headerBelow ptr) ≠ 0 ∧ autia cfg ptr (mem (headerBelow ptr)) = xpac ptr)
  search : ∀ fuel s, searchLoop cfg mem ptr fuel 1 = some s → s.hit = none

/-- A failed validation ends as `ENABLELOG` says. -/
theorem validatePointer_of_fails {cfg : Config} (htbi : cfg.topByteIgnore = true)
    (hthr : cfg.bkThreasholdEnabled = true) {mem : Word → Word} {ptr : Word}
    (hx : 1024 ≤ (xpac ptr).toNat) (hfail : FailsValidation cfg mem ptr) {fuel : Nat}
    (hfuel : 1024 ≤ fuel) :
    ∃ v, validatePointer cfg mem fuel ptr = some v ∧
      v.outcome = if cfg.enableLog then .returned ptr else .aborted := by
  have hloop := searchLoop_eq_scan hthr mem hx fuel 1 (by omega) (by omega)
  rw [Nat.cast_one] at hloop
  have hmiss : (scanSearch cfg mem ptr (candidates (xpac ptr).toNat 1 1023)).hit = none :=
    hfail.search fuel _ hloop
  have hdirect : ¬ Accepts cfg mem ptr (headerBelow ptr) := fun h =>
    hfail.direct ((direct_test_iff cfg mem (by omega)).2 h)
  rw [validatePointer_eq hthr mem hx hfuel, if_neg hdirect]
  refine ⟨_, rfl, ?_⟩
  rw [hmiss, htbi]
  cases cfg.enableLog <;> rfl

/-- With `ENABLELOG` a failed check returns the pointer, without it the check aborts. -/
theorem Check.run_of_fails {cfg : Config} (htbi : cfg.topByteIgnore = true)
    (hthr : cfg.bkThreasholdEnabled = true) {mem : Word → Word} {ptr : Word}
    (htag : ptr &&& ~~~ maskLowBit ≠ 0) (hx : 1024 ≤ (xpac ptr).toNat)
    (hfail : FailsValidation cfg mem ptr) (c : Check) {fuel : Nat} (hfuel : 1024 ≤ fuel) :
    c.run cfg mem fuel ptr =
      some { validated := some ptr
             outcome := if cfg.enableLog then .returned ptr else .aborted } := by
  obtain ⟨v, hv, ho⟩ := validatePointer_of_fails htbi hthr hx hfail hfuel
  rw [c.run_of_validation htbi htag hv, ho]

/-- Over memory without ids every validation fails. -/
theorem failsValidation_of_no_ids (cfg : Config) (ptr : Word) :
    FailsValidation cfg (fun _ => 0) ptr where
  direct := fun h => h.1 rfl
  search := by
    intro fuel s hs
    cases hhit : s.hit with
    | none => rfl
    | some a => exact absurd rfl (searchLoop_hit_ne_zero fuel 1 s a hs hhit)

/-- **The shipped checks do not stop the program.** Whenever validation of a tagged pointer fails,
each check returns the pointer to its caller. -/
theorem failed_checks_return (mem : Word → Word) {ptr : Word}
    (htag : ptr &&& ~~~ maskLowBit ≠ 0) (hx : 1024 ≤ (xpac ptr).toNat)
    (hfail : FailsValidation Config.shipped mem ptr) (c : Check) {fuel : Nat}
    (hfuel : 1024 ≤ fuel) :
    c.run Config.shipped mem fuel ptr
      = some { validated := some ptr, outcome := .returned ptr } :=
  Check.run_of_fails rfl rfl htag hx hfail c hfuel

theorem failed_checks_return_no_ids :
    loadCheck Config.shipped (fun _ => 0) 1024 0x0100000000002000
      = some { validated := some 0x0100000000002000, outcome := .returned 0x0100000000002000 } :=
  failed_checks_return (fun _ => 0) (by decide) (by decide) (failsValidation_of_no_ids _ _) .load
    (Nat.le_refl 1024)

/-- A failed check does return: at a dangling pointer over cleared memory, `__loadCheck` hands the
pointer back. -/
theorem not_fail_stop :
    ¬ ∀ (mem : Word → Word) (ptr : Word), ptr &&& ~~~ maskLowBit ≠ 0 → 1024 ≤ (xpac ptr).toNat →
      FailsValidation Config.shipped mem ptr → ∀ (c : Check) (fuel : Nat) (r : CheckRun),
        c.run Config.shipped mem fuel ptr = some r → r.outcome = .aborted := by
  intro h
  have hrun : loadCheck Config.shipped (fun _ => 0) 1024 0x0100000000002000
      = some { validated := some 0x0100000000002000,
               outcome := .returned 0x0100000000002000 } := by decide +kernel
  have hstop := h (fun _ => 0) 0x0100000000002000 (by decide) (by decide)
    (failsValidation_of_no_ids _ _) .load 1024 _ hrun
  exact absurd hstop (by decide)

end PTAuth.Runtime
