import PTAuth.Runtime.Search

/-!
# How the checks end

The window of `backward_search` goes 1023 bytes down. Where it would go below address 0, the signed
remainder is negative and leads back to the index of address 0: the loop reads the word there again
and again, and ends only if it or a word before it carries the tag of the pointer. So the loop ends
for every pointer that a word vouches for and from address 1023 on (`searchLoop_ends`), and it finds a
word exactly if there is one (`searchLoop_hit`, `searchLoop_miss`).

`check_ends` says how each check ends for every memory and every pointer: it lets the pointer
through exactly if the pointer is untagged or memory vouches for it; else it reports or aborts from
address 1023 on, and below it does not return.
-/

set_option autoImplicit false

namespace PTAuth.Runtime

variable {cfg : Config} {mem : Word → Word} {ptr : Word} {fuel i : Nat}

/-! ## The iterations of the loop -/

/-- The loop condition at an index. -/
theorem index_lt_threshold_iff (hthr : cfg.bkThreasholdEnabled = true) (hi : i < 2 ^ 64) :
    (BitVec.ofInt 64 (i : Int)).toNat < cfg.threshold ↔ i < 1024 := by
  have hval : (BitVec.ofInt 64 (i : Int)).toNat = i := by
    rw [BitVec.ofInt_natCast, BitVec.toNat_ofNat]
    exact Nat.mod_eq_of_lt hi
  rw [hval, Config.threshold, if_pos hthr]

theorem xpac_toInt (ptr : Word) : (xpac ptr).toInt = ((xpac ptr).toNat : Int) := by
  apply BitVec.toInt_eq_toNat_of_lt
  have := xpac_lt ptr
  omega

/-- Past the threshold the loop ends. -/
theorem searchLoop_past (hthr : cfg.bkThreasholdEnabled = true) (hi : 1024 ≤ i) (hi' : i < 2 ^ 64) :
    searchLoop cfg mem ptr (fuel + 1) (i : Int) = some { examined := [], hit := none } := by
  rw [searchLoop, if_neg]
  rw [index_lt_threshold_iff hthr hi']
  omega

/-- At an address that is not aligned the remainder leads to the next one below. -/
theorem searchLoop_stride (hthr : cfg.bkThreasholdEnabled = true) (hi : i < 1024)
    (hx : i ≤ (xpac ptr).toNat) (hrest : ((xpac ptr).toNat - i) % 16 ≠ 0) :
    searchLoop cfg mem ptr (fuel + 1) (i : Int) =
      searchLoop cfg mem ptr fuel ((i + ((xpac ptr).toNat - i) % 16 : Nat) : Int) := by
  have htmod : (((xpac ptr).toNat : Int) - (i : Int)).tmod 16
      = ((((xpac ptr).toNat - i) % 16 : Nat) : Int) := by
    rw [← Nat.cast_sub hx]
    rfl
  rw [searchLoop, if_pos ((index_lt_threshold_iff hthr (by omega)).2 hi), xpac_toInt, htmod]
  simp only [ne_eq, Nat.cast_eq_zero, hrest, not_false_eq_true, if_true]
  congr 1
  push_cast
  ring

/-- One below address 0 the remainder leads back to it. -/
theorem searchLoop_back (hthr : cfg.bkThreasholdEnabled = true) (hx : (xpac ptr).toNat < 1023) :
    searchLoop cfg mem ptr (fuel + 1) (((xpac ptr).toNat + 1 : Nat) : Int) =
      searchLoop cfg mem ptr fuel ((xpac ptr).toNat : Int) := by
  have htmod : (((xpac ptr).toNat : Int) - (((xpac ptr).toNat + 1 : Nat) : Int)).tmod 16 = -1 := by
    have hsub : ((xpac ptr).toNat : Int) - (((xpac ptr).toNat + 1 : Nat) : Int) = -1 := by
      push_cast
      ring
    rw [hsub]
    rfl
  rw [searchLoop, if_pos ((index_lt_threshold_iff hthr (by omega)).2 (by omega)), xpac_toInt, htmod]
  simp only [ne_eq, Int.reduceNeg, Int.reduceEq, not_false_eq_true, if_true]
  congr 1
  push_cast
  ring

/-- At an aligned address the loop looks at the word there. -/
theorem searchLoop_test (hthr : cfg.bkThreasholdEnabled = true) (hi : i < 1024)
    (hx : i ≤ (xpac ptr).toNat) (hrest : ((xpac ptr).toNat - i) % 16 = 0) :
    searchLoop cfg mem ptr (fuel + 1) (i : Int) =
      if Accepts cfg mem ptr (BitVec.ofNat 64 ((xpac ptr).toNat - i)) then
        some { examined := [BitVec.ofNat 64 ((xpac ptr).toNat - i)]
               hit := some (BitVec.ofNat 64 ((xpac ptr).toNat - i)) }
      else
        (searchLoop cfg mem ptr fuel ((i + 1 : Nat) : Int)).map
          (Search.look (BitVec.ofNat 64 ((xpac ptr).toNat - i))) := by
  have htmod : (((xpac ptr).toNat : Int) - (i : Int)).tmod 16 = 0 := by
    rw [← Nat.cast_sub hx]
    exact congrArg Nat.cast hrest
  have hlt := xpac_lt ptr
  have hmeta : xpac ptr - BitVec.ofNat 64 i = BitVec.ofNat 64 ((xpac ptr).toNat - i) := by
    apply BitVec.eq_of_toNat_eq
    rw [BitVec.toNat_sub, BitVec.toNat_ofNat, BitVec.toNat_ofNat]
    omega
  have htest := search_test_iff_of_le cfg mem hx (Nat.dvd_of_mod_eq_zero hrest)
  rw [searchLoop, if_pos ((index_lt_threshold_iff hthr (by omega)).2 hi), xpac_toInt, htmod]
  simp only [ne_eq, not_true_eq_false, if_false, BitVec.ofInt_natCast, hmeta] at htest ⊢
  by_cases hacc : Accepts cfg mem ptr (BitVec.ofNat 64 ((xpac ptr).toNat - i))
  · rw [if_pos (htest.2 hacc), if_pos hacc]
  · rw [if_neg (fun h => hacc (htest.1 h)), if_neg hacc]
    rfl

/-! ## What the search finds -/

/-- The words that a search below `x` looks at: the aligned ones of the 1023 bytes below, and the
one at address 0 if there are less. -/
def LooksAt (x : Nat) (a : Word) : Prop :=
  16 ∣ a.toNat ∧ x ≤ a.toNat + 1023 ∧ (a.toNat < x ∨ a = 0)

/-- The words that it looks at from the index `i` on. The one at 0 comes again. -/
def Ahead (x i a : Nat) : Prop := 16 ∣ a ∧ x ≤ a + 1023 ∧ (a + i ≤ x ∨ a = 0 ∧ x < 1023)

theorem looksAt_iff {x : Nat} {a : Word} : LooksAt x a ↔ Ahead x 1 a.toNat := by
  have hzero : a = 0 ↔ a.toNat = 0 := by
    rw [← BitVec.toNat_inj]
    rfl
  rw [LooksAt, Ahead, hzero]
  omega

/-- The indices that the loop comes to. -/
def Within (x i : Nat) : Prop := i ≤ 1040 ∧ (x < 1023 → i ≤ x + 1)

section Indices

variable {x a : Nat}

theorem Within.first (x : Nat) : Within x 1 := ⟨by omega, fun _ => by omega⟩

/-- An index of an address below 0 is one past that of address 0. -/
theorem Within.low (h : Within x i) (hi : i < 1024) (hx : x < i) : x < 1023 ∧ i = x + 1 := by
  have := h.2
  omega

theorem Within.zero (hlow : x < 1023) : Within x x := ⟨by omega, fun _ => by omega⟩

theorem Within.succ (hi : i < 1024) (hx : i ≤ x) : Within x (i + 1) :=
  ⟨by omega, fun _ => by omega⟩

theorem Within.stride (hi : i < 1024) (hx : i ≤ x) : Within x (i + (x - i) % 16) :=
  ⟨by omega, fun _ => by omega⟩

theorem Ahead.zero_iff (hlow : x < 1023) : Ahead x x a ↔ Ahead x (x + 1) a := by
  rw [Ahead, Ahead]
  omega

theorem Ahead.stride_iff (hx : i ≤ x) : Ahead x i a ↔ Ahead x (i + (x - i) % 16) a := by
  rw [Ahead, Ahead]
  omega

/-- At an aligned address, that address is next. -/
theorem Ahead.iff_succ (hi : i < 1024) (hx : i ≤ x) (hrest : (x - i) % 16 = 0) :
    Ahead x i a ↔ a = x - i ∨ Ahead x (i + 1) a := by
  rw [Ahead, Ahead]
  omega

theorem not_ahead_of_past (hi : 1024 ≤ i) (hhigh : 1023 ≤ x) : ¬ Ahead x i a := by
  rw [Ahead]
  omega

end Indices

theorem ofNat_sub_toNat (ptr : Word) (i : Nat) :
    (BitVec.ofNat 64 ((xpac ptr).toNat - i)).toNat = (xpac ptr).toNat - i := by
  have := xpac_lt ptr
  rw [BitVec.toNat_ofNat]
  omega

/-- **A hit** carries the tag of the pointer. The induction is on the fuel. -/
theorem searchLoop_hit (hthr : cfg.bkThreasholdEnabled = true) {a : Word} :
    ∀ (fuel i : Nat) (s : Search), Within (xpac ptr).toNat i →
      searchLoop cfg mem ptr fuel (i : Int) = some s → s.hit = some a →
        Ahead (xpac ptr).toNat i a.toNat ∧ Accepts cfg mem ptr a := by
  intro fuel
  induction fuel with
  | zero =>
      intro i s _ h
      simp [searchLoop] at h
  | succ fuel ih =>
      intro i s hi h hhit
      rcases Nat.lt_or_ge i 1024 with hlt | hpast
      · rcases Nat.lt_or_ge (xpac ptr).toNat i with hbelow | hx
        · obtain ⟨hlow, rfl⟩ := hi.low hlt hbelow
          -- below address 0: the same words are ahead at the index it goes back to
          rw [searchLoop_back hthr hlow] at h
          rw [← Ahead.zero_iff hlow]
          exact ih _ s (.zero hlow) h hhit
        · by_cases hrest : ((xpac ptr).toNat - i) % 16 = 0
          · rw [searchLoop_test hthr hlt hx hrest] at h
            rw [Ahead.iff_succ hlt hx hrest]
            split at h
            · rename_i hacc
              obtain rfl := Option.some.inj h
              obtain rfl := Option.some.inj hhit
              exact ⟨Or.inl (ofNat_sub_toNat ptr i), hacc⟩
            · obtain ⟨s', hs', rfl⟩ := Option.map_eq_some_iff.1 h
              obtain ⟨hahead, hacc⟩ := ih (i + 1) s' (.succ hlt hx) hs' hhit
              exact ⟨Or.inr hahead, hacc⟩
          · rw [searchLoop_stride hthr hlt hx hrest] at h
            rw [Ahead.stride_iff hx]
            exact ih _ s (.stride hlt hx) h hhit
      · rw [searchLoop_past hthr hpast (by have := hi.1; omega)] at h
        obtain rfl := Option.some.inj h
        cases hhit

/-- **A search without a hit** has looked at all its words, which are not low ones. -/
theorem searchLoop_miss (hthr : cfg.bkThreasholdEnabled = true) :
    ∀ (fuel i : Nat) (s : Search), Within (xpac ptr).toNat i →
      searchLoop cfg mem ptr fuel (i : Int) = some s → s.hit = none →
        1023 ≤ (xpac ptr).toNat ∧
          ∀ a, Ahead (xpac ptr).toNat i a.toNat → ¬ Accepts cfg mem ptr a := by
  intro fuel
  induction fuel with
  | zero =>
      intro i s _ h
      simp [searchLoop] at h
  | succ fuel ih =>
      intro i s hi h hmiss
      rcases Nat.lt_or_ge i 1024 with hlt | hpast
      · rcases Nat.lt_or_ge (xpac ptr).toNat i with hbelow | hx
        · obtain ⟨hlow, rfl⟩ := hi.low hlt hbelow
          rw [searchLoop_back hthr hlow] at h
          -- below address 0 a search does not end without a hit
          have hhigh := (ih _ s (.zero hlow) h hmiss).1
          omega
        · by_cases hrest : ((xpac ptr).toNat - i) % 16 = 0
          · rw [searchLoop_test hthr hlt hx hrest] at h
            split at h
            · obtain rfl := Option.some.inj h
              cases hmiss
            · rename_i hnot
              obtain ⟨s', hs', rfl⟩ := Option.map_eq_some_iff.1 h
              obtain ⟨hhigh, hnone⟩ := ih (i + 1) s' (.succ hlt hx) hs' hmiss
              refine ⟨hhigh, fun a ha hacc => ?_⟩
              rcases (Ahead.iff_succ hlt hx hrest).1 ha with heq | ha
              · rw [← heq, BitVec.ofNat_toNat, BitVec.setWidth_eq] at hnot
                exact hnot hacc
              · exact hnone a ha hacc
          · rw [searchLoop_stride hthr hlt hx hrest] at h
            simp only [Ahead.stride_iff hx]
            exact ih _ s (.stride hlt hx) h hmiss
      -- past the threshold nothing is ahead, and no low index is there
      · have hhigh : 1023 ≤ (xpac ptr).toNat := by
          by_contra hlow
          have := hi.2 (by omega)
          omega
        exact ⟨hhigh, fun a ha => absurd ha (not_ahead_of_past hpast hhigh)⟩

/-- **The search ends** from address 1023 on, and below it if a word ahead carries the tag. In every
iteration but the one that leads back to address 0 the index grows. -/
theorem searchLoop_ends (hthr : cfg.bkThreasholdEnabled = true) :
    ∀ (fuel i : Nat), Within (xpac ptr).toNat i → 1025 ≤ fuel + i → 1 ≤ fuel →
      ((xpac ptr).toNat < 1023 →
        ∃ a : Word, Ahead (xpac ptr).toNat i a.toNat ∧ Accepts cfg mem ptr a) →
      ∃ s, searchLoop cfg mem ptr fuel (i : Int) = some s := by
  intro fuel
  induction fuel with
  | zero =>
      intro i _ _ hfuel
      omega
  | succ fuel ih =>
      intro i hi hsum _ hword
      rcases Nat.lt_or_ge i 1024 with hlt | hpast
      · rcases Nat.lt_or_ge (xpac ptr).toNat i with hbelow | hx
        · -- the only word ahead is the one at address 0, and the loop comes back to it
          obtain ⟨hlow, rfl⟩ := hi.low hlt hbelow
          obtain ⟨a, ha, hacc⟩ := hword hlow
          obtain ⟨f, rfl⟩ : ∃ f, fuel = f + 1 := ⟨fuel - 1, by omega⟩
          have hzero : a.toNat = (xpac ptr).toNat - (xpac ptr).toNat := by
            have := ha.2.2
            omega
          rw [searchLoop_back hthr hlow, searchLoop_test hthr (by omega) (Nat.le_refl _) (by omega),
            ← hzero, BitVec.ofNat_toNat, BitVec.setWidth_eq, if_pos hacc]
          exact ⟨_, rfl⟩
        · by_cases hrest : ((xpac ptr).toNat - i) % 16 = 0
          · rw [searchLoop_test hthr hlt hx hrest]
            split
            · exact ⟨_, rfl⟩
            · rename_i hnot
              -- the word that carries the tag is not this one, so it is still ahead
              obtain ⟨s, hs⟩ := ih (i + 1) (.succ hlt hx) (by omega) (by omega) fun hlow => by
                obtain ⟨a, ha, hacc⟩ := hword hlow
                rcases (Ahead.iff_succ hlt hx hrest).1 ha with heq | ha
                · rw [← heq, BitVec.ofNat_toNat, BitVec.setWidth_eq] at hnot
                  exact absurd hacc hnot
                · exact ⟨a, ha, hacc⟩
              rw [hs]
              exact ⟨_, rfl⟩
          · rw [searchLoop_stride hthr hlt hx hrest]
            apply ih _ (.stride hlt hx) (by omega) (by omega)
            simpa only [← Ahead.stride_iff hx] using hword
      · rw [searchLoop_past hthr hpast (by have := hi.1; omega)]
        exact ⟨_, rfl⟩

/-! ## Validation -/

/-- A word that the search looks at carries the tag of the pointer. -/
def Found (cfg : Config) (mem : Word → Word) (ptr : Word) : Prop :=
  ∃ a, LooksAt (xpac ptr).toNat a ∧ Accepts cfg mem ptr a

theorem backwardSearch_of_found (hthr : cfg.bkThreasholdEnabled = true) (h : Found cfg mem ptr)
    (hfuel : 1024 ≤ fuel) : ∃ s, backwardSearch cfg mem fuel ptr = some (s, .returned (xpac ptr)) := by
  obtain ⟨a, ha, hacc⟩ := h
  have hahead := looksAt_iff.1 ha
  obtain ⟨s, hs⟩ := searchLoop_ends hthr fuel 1 (.first _) (by omega) (by omega)
    fun _ => ⟨a, hahead, hacc⟩
  -- without a hit the word would have been looked at and refused
  have hhit : ∃ b, s.hit = some b := by
    cases hhit : s.hit with
    | some b => exact ⟨b, rfl⟩
    | none => exact absurd hacc ((searchLoop_miss hthr fuel 1 s (.first _) hs hhit).2 a hahead)
  obtain ⟨b, hb⟩ := hhit
  rw [Nat.cast_one] at hs
  refine ⟨s, ?_⟩
  rw [backwardSearch, hs, Option.map_some, hb]

/-- What a search ends with that finds nothing. -/
theorem backwardSearch_of_not_found (hthr : cfg.bkThreasholdEnabled = true)
    (h : ¬ Found cfg mem ptr) {r : Search × Outcome} (hr : backwardSearch cfg mem fuel ptr = some r) :
    1023 ≤ (xpac ptr).toNat ∧ r.2 = if cfg.enableLog then .returned ptr else .aborted := by
  obtain ⟨s, hs, rfl⟩ := Option.map_eq_some_iff.1 hr
  rw [← Nat.cast_one] at hs
  cases hhit : s.hit with
  | some a =>
      obtain ⟨hahead, hacc⟩ := searchLoop_hit hthr fuel 1 s (.first _) hs hhit
      exact absurd ⟨a, looksAt_iff.2 hahead, hacc⟩ h
  | none =>
      exact ⟨(searchLoop_miss hthr fuel 1 s (.first _) hs hhit).1, rfl⟩

/-- From address 1023 on the search ends. -/
theorem backwardSearch_ends (hthr : cfg.bkThreasholdEnabled = true) (mem : Word → Word)
    (hhigh : 1023 ≤ (xpac ptr).toNat) (hfuel : 1024 ≤ fuel) :
    ∃ r, backwardSearch cfg mem fuel ptr = some r := by
  have hloop : ∃ s, searchLoop cfg mem ptr fuel ((1 : Nat) : Int) = some s :=
    searchLoop_ends hthr fuel 1 (.first _) (by omega) (by omega)
      fun hlow => absurd hhigh (Nat.not_le.2 hlow)
  obtain ⟨s, hs⟩ := hloop
  rw [Nat.cast_one] at hs
  rw [backwardSearch, hs]
  exact ⟨_, rfl⟩

/-- The direct test accepts the pointer. At address 0 any id will do, since a failed `__autia`
returns 0. -/
def DirectlyAccepted (cfg : Config) (mem : Word → Word) (ptr : Word) : Prop :=
  mem (headerBelow ptr) ≠ 0 ∧ (xpac ptr = 0 ∨ Authentic cfg ptr (mem (headerBelow ptr)))

/-- Memory vouches for the pointer: its validation finds a word. -/
def Vouched (cfg : Config) (mem : Word → Word) (ptr : Word) : Prop :=
  DirectlyAccepted cfg mem ptr ∨ Found cfg mem ptr

theorem directlyAccepted_iff :
    mem (headerBelow ptr) ≠ 0 ∧ autia cfg ptr (mem (headerBelow ptr)) = xpac ptr ↔
      DirectlyAccepted cfg mem ptr := by
  refine and_congr_right fun _ => ?_
  by_cases hzero : xpac ptr = 0
  · rw [autia_eq, hzero]
    simp
  · rw [autia_eq_xpac_iff cfg hzero]
    exact (or_iff_right hzero).symm

/-- The two ways through `validatePointer`. -/
theorem validatePointer_of_ne (hne : ptr ≠ 0) :
    (DirectlyAccepted cfg mem ptr → ∃ v, validatePointer cfg mem fuel ptr = some v ∧
      v.outcome = .returned (noCheck cfg ptr)) ∧
    (¬ DirectlyAccepted cfg mem ptr → ∃ g : Search × Outcome → Validation,
      validatePointer cfg mem fuel ptr = (backwardSearch cfg mem fuel ptr).map g ∧
        ∀ r, (g r).outcome = r.2.map fun q => if cfg.topByteIgnore then ptr else q) := by
  rw [← directlyAccepted_iff, validatePointer, if_neg hne]
  constructor
  · intro hdirect
    exact ⟨_, if_pos hdirect, rfl⟩
  · intro hdirect
    exact ⟨_, if_neg hdirect, fun _ => rfl⟩

/-- A pointer that memory vouches for is let through. -/
theorem validatePointer_of_vouched (hthr : cfg.bkThreasholdEnabled = true)
    (h : Vouched cfg mem ptr) (hfuel : 1024 ≤ fuel) :
    ∃ v, validatePointer cfg mem fuel ptr = some v ∧ v.outcome = .returned (noCheck cfg ptr) := by
  by_cases hne : ptr = 0
  -- null is returned at once, and is its own address
  · subst hne
    refine ⟨_, if_pos rfl, ?_⟩
    have hzero : noCheck cfg 0 = 0 := by
      rw [noCheck, xpac_of_lt (by decide), ite_self]
    rw [hzero]
  · by_cases hdirect : DirectlyAccepted cfg mem ptr
    · exact (validatePointer_of_ne hne).1 hdirect
    · obtain ⟨g, hg, hout⟩ := (validatePointer_of_ne hne).2 hdirect
      obtain ⟨s, hs⟩ := backwardSearch_of_found hthr (h.resolve_left hdirect) hfuel
      rw [hg, hs]
      exact ⟨_, rfl, hout _⟩

/-- How validation ends, if it does, for any other pointer. -/
theorem validatePointer_of_not_vouched (hthr : cfg.bkThreasholdEnabled = true) (hne : ptr ≠ 0)
    (h : ¬ Vouched cfg mem ptr) {v : Validation} (hv : validatePointer cfg mem fuel ptr = some v) :
    1023 ≤ (xpac ptr).toNat ∧ v.outcome = if cfg.enableLog then .returned ptr else .aborted := by
  rw [Vouched, not_or] at h
  obtain ⟨g, hg, hout⟩ := (validatePointer_of_ne hne).2 h.1
  rw [hg] at hv
  obtain ⟨r, hr, rfl⟩ := Option.map_eq_some_iff.1 hv
  obtain ⟨hhigh, hend⟩ := backwardSearch_of_not_found hthr h.2 hr
  refine ⟨hhigh, ?_⟩
  rw [hout, hend]
  cases cfg.enableLog with
  | true => exact congrArg Outcome.returned (ite_self ptr)
  | false => rfl

theorem validatePointer_ends (hthr : cfg.bkThreasholdEnabled = true) (mem : Word → Word)
    (hhigh : 1023 ≤ (xpac ptr).toNat) (hfuel : 1024 ≤ fuel) :
    ∃ v, validatePointer cfg mem fuel ptr = some v := by
  have hne : ptr ≠ 0 := by
    rintro rfl
    exact absurd hhigh (by decide)
  by_cases hdirect : DirectlyAccepted cfg mem ptr
  · obtain ⟨v, hv, -⟩ := (validatePointer_of_ne hne).1 hdirect
    exact ⟨v, hv⟩
  · obtain ⟨g, hg, -⟩ := (validatePointer_of_ne hne).2 hdirect
    obtain ⟨r, hr⟩ := backwardSearch_ends hthr mem hhigh hfuel
    rw [hg, hr]
    exact ⟨_, rfl⟩

/-! ## The checks -/

/-- Behind the `signature` gate a check changes neither result of the validation. -/
theorem Check.run_of_tagged (c : Check) (cfg : Config) (mem : Word → Word) {ptr : Word}
    (htag : 2 ^ 48 ≤ ptr.toNat) : ∃ f : Word → Word, f ptr = ptr ∧
      f (noCheck cfg ptr) = noCheck cfg ptr ∧ ∀ fuel, c.run cfg mem fuel ptr =
        (validatePointer cfg mem fuel ptr).map fun v =>
          { validated := some ptr, outcome := v.outcome.map f } := by
  have hsignature : ptr &&& ~~~ maskLowBit ≠ 0 := fun h =>
    absurd ((signature_eq_zero_iff ptr).1 h) (Nat.not_lt.2 htag)
  have hgate : ∀ f, ∀ fuel, signatureGate cfg mem fuel f ptr = _ := fun f fuel =>
    signatureGate_of_tagged cfg mem fuel f hsignature
  have hpick : (if cfg.topByteIgnore then ptr else noCheck cfg ptr) = noCheck cfg ptr := by
    rw [noCheck]
    split <;> rfl
  cases c with
  | store => exact ⟨_, rfl, rfl, hgate _⟩
  | load => exact ⟨_, ite_self ptr, hpick, hgate _⟩
  | gep => exact ⟨_, ite_self ptr, hpick, hgate _⟩
  | nestedGEP => exact ⟨_, ite_self ptr, hpick, hgate _⟩

/-- A pointer that is untagged, or that memory vouches for, passes every check. -/
theorem Check.run_of_passing (hthr : cfg.bkThreasholdEnabled = true) (c : Check)
    (h : ptr.toNat < 2 ^ 48 ∨ Vouched cfg mem ptr) (hfuel : 1024 ≤ fuel) :
    ∃ r, c.run cfg mem fuel ptr = some r ∧ r.outcome = .returned (noCheck cfg ptr) := by
  rcases Nat.lt_or_ge ptr.toNat (2 ^ 48) with hlow | htag
  · refine ⟨_, c.run_of_untagged cfg mem fuel ((signature_eq_zero_iff ptr).2 hlow), ?_⟩
    rw [noCheck, xpac_of_lt hlow, ite_self]
  · obtain ⟨f, -, hf, hrun⟩ := c.run_of_tagged cfg mem htag
    obtain ⟨v, hv, hout⟩ :=
      validatePointer_of_vouched hthr (h.resolve_left (Nat.not_lt.2 htag)) hfuel
    rw [hrun, hv]
    refine ⟨_, rfl, ?_⟩
    show v.outcome.map f = _
    rw [hout, Outcome.map, hf]

/-- How a check ends, if it does, on any other pointer. -/
theorem Check.run_of_not_passing (hthr : cfg.bkThreasholdEnabled = true) (c : Check)
    (htag : 2 ^ 48 ≤ ptr.toNat) (h : ¬ Vouched cfg mem ptr) {r : CheckRun}
    (hr : c.run cfg mem fuel ptr = some r) :
    1023 ≤ (xpac ptr).toNat ∧ r.outcome = if cfg.enableLog then .returned ptr else .aborted := by
  have hne : ptr ≠ 0 := by
    rintro rfl
    exact absurd htag (by decide)
  obtain ⟨f, hf, -, hrun⟩ := c.run_of_tagged cfg mem htag
  rw [hrun] at hr
  obtain ⟨v, hv, rfl⟩ := Option.map_eq_some_iff.1 hr
  obtain ⟨hhigh, hout⟩ := validatePointer_of_not_vouched hthr hne h hv
  refine ⟨hhigh, ?_⟩
  show v.outcome.map f = _
  rw [hout]
  cases cfg.enableLog with
  | true => exact congrArg Outcome.returned hf
  | false => rfl

/-- More fuel does not change a check that ended. -/
theorem Check.run_mono (c : Check) {fuel' : Nat} (hle : fuel ≤ fuel') {r : CheckRun}
    (hr : c.run cfg mem fuel ptr = some r) : c.run cfg mem fuel' ptr = some r := by
  rcases Nat.lt_or_ge ptr.toNat (2 ^ 48) with hlow | htag
  · have hsignature := (signature_eq_zero_iff ptr).2 hlow
    rw [c.run_of_untagged cfg mem fuel hsignature] at hr
    rw [c.run_of_untagged cfg mem fuel' hsignature, hr]
  · obtain ⟨f, -, -, hrun⟩ := c.run_of_tagged cfg mem htag
    rw [hrun] at hr ⊢
    obtain ⟨v, hv, rfl⟩ := Option.map_eq_some_iff.1 hr
    rw [validatePointer_mono hle hv]
    rfl

/-- From address 1023 on every check ends. -/
theorem Check.run_ends (hthr : cfg.bkThreasholdEnabled = true) (c : Check) (mem : Word → Word)
    (hhigh : 1023 ≤ (xpac ptr).toNat) (hfuel : 1024 ≤ fuel) :
    ∃ r, c.run cfg mem fuel ptr = some r := by
  rcases Nat.lt_or_ge ptr.toNat (2 ^ 48) with hlow | htag
  · exact ⟨_, c.run_of_untagged cfg mem fuel ((signature_eq_zero_iff ptr).2 hlow)⟩
  · obtain ⟨v, hv⟩ := validatePointer_ends hthr mem hhigh hfuel
    obtain ⟨f, -, -, hrun⟩ := c.run_of_tagged cfg mem htag
    exact ⟨_, (hrun fuel).trans (congrArg _ hv)⟩

/-- **How the checks end**, for every memory and every pointer. A check lets exactly the pointers
through that are untagged or that memory vouches for, stripped as `__noCheck` does. On the others it
ends as `ENABLELOG` says from address 1023 on, and never below. -/
theorem check_ends (hthr : cfg.bkThreasholdEnabled = true) (c : Check) (mem : Word → Word)
    (ptr : Word) :
    (ptr.toNat < 2 ^ 48 ∨ Vouched cfg mem ptr → ∀ fuel, 1024 ≤ fuel →
      ∃ r, c.run cfg mem fuel ptr = some r ∧ r.outcome = .returned (noCheck cfg ptr)) ∧
    (¬ (ptr.toNat < 2 ^ 48 ∨ Vouched cfg mem ptr) →
      (1023 ≤ (xpac ptr).toNat → ∀ fuel, 1024 ≤ fuel → ∃ r, c.run cfg mem fuel ptr = some r ∧
        r.outcome = if cfg.enableLog then .returned ptr else .aborted) ∧
      ((xpac ptr).toNat < 1023 → ∀ fuel, c.run cfg mem fuel ptr = none)) := by
  refine ⟨fun h fuel hfuel => c.run_of_passing hthr h hfuel, fun h => ?_⟩
  rw [not_or, Nat.not_lt] at h
  obtain ⟨htag, hnot⟩ := h
  refine ⟨fun hhigh fuel hfuel => ?_, fun hlow fuel => ?_⟩
  · obtain ⟨r, hr⟩ := c.run_ends hthr mem hhigh hfuel
    exact ⟨r, hr, (c.run_of_not_passing hthr htag hnot hr).2⟩
  · cases hr : c.run cfg mem fuel ptr with
    | none => rfl
    | some r =>
        have hhigh := (c.run_of_not_passing hthr htag hnot hr).1
        omega

/-- Over cleared memory `__loadCheck` does not return on a tagged pointer to address 8. -/
theorem check_ends_cleared :
    ¬ ∃ fuel r, loadCheck Config.shipped (fun _ => 0) fuel 0x0100000000000008 = some r := by
  rintro ⟨fuel, r, hr⟩
  have hnot : ¬ Vouched Config.shipped (fun _ => 0) 0x0100000000000008 := by
    rintro (⟨h, -⟩ | ⟨a, -, h, -⟩) <;> exact h rfl
  have htag : ¬ (0x0100000000000008 : Word).toNat < 2 ^ 48 := by decide
  have hnever :=
    ((check_ends rfl .load (fun _ => 0) _).2 (not_or.2 ⟨htag, hnot⟩)).2 (by decide) fuel
  exact absurd (hr.symm.trans hnever) (by simp)

end PTAuth.Runtime
