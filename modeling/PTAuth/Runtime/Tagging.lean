import PTAuth.Runtime.Ownership

/-!
# What a tag proves

Signing puts a tag above bit `SHIFT`; stripping and the gates of the checks look at all the bits
above bit 47. With Top-Byte Ignore the two differ by eight bits: `__autia` shifts them out, so a
pointer with some of them set is accepted although no signing makes it (`signing_exact_iff`).

The gates take a pointer without a bit above bit 47 for an unprotected one. The tag is the exclusive
or of a byte of the address and a byte of the id, and is zero when these agree, so an object is
protected only when they differ (`allocated_protected_iff`).
-/

set_option autoImplicit false

namespace PTAuth.Runtime

open PTAuth.Library

/-! ## The bits that authentication drops -/

/-- The bits between the address and the signature. -/
def Config.gap (cfg : Config) (q : Word) : Nat := q.toNat / 2 ^ 48 % 2 ^ (cfg.shift - 48)

/-- Without Top-Byte Ignore there are none. -/
theorem Config.gap_eq_zero_iff (cfg : Config) (q : Word) :
    cfg.gap q = 0 ↔ cfg.topByteIgnore = false ∨ q.toNat / 2 ^ 48 % 2 ^ 8 = 0 := by
  cases h : cfg.topByteIgnore with
  | false => simp [Config.gap, Config.shift, h, Nat.mod_one]
  | true => simp [Config.gap, Config.shift, h]

/-- A pointer is made of its address, the bits in between and the bits above `SHIFT`. -/
theorem Config.toNat_eq_gap (cfg : Config) (q : Word) :
    q.toNat = (xpac q).toNat + (cfg.gap q * 2 ^ 48 + q.toNat / 2 ^ cfg.shift * 2 ^ cfg.shift) := by
  obtain ⟨k, hk⟩ : ∃ k, cfg.shift = 48 + k := ⟨cfg.shift - 48, by have := cfg.shift_bounds; omega⟩
  have hgap : cfg.gap q = q.toNat / 2 ^ 48 % 2 ^ k := by
    rw [Config.gap, hk, Nat.add_sub_cancel_left]
  have hhigh : q.toNat / 2 ^ cfg.shift * 2 ^ cfg.shift =
      q.toNat / 2 ^ 48 / 2 ^ k * 2 ^ k * 2 ^ 48 := by
    rw [hk, Nat.pow_add, Nat.div_div_eq_div_mul, Nat.mul_assoc, Nat.mul_comm (2 ^ k)]
  rw [hgap, hhigh, ← Nat.add_mul, xpac_toNat, Nat.mul_comm _ (2 ^ k), Nat.mod_add_div,
    Nat.mul_comm, Nat.mod_add_div]

/-- An authentic pointer is a signed one exactly when the bits in between are clear. -/
theorem pacia_of_authentic {cfg : Config} {q id : Word} (h : Authentic cfg q id) :
    q = pacia cfg (xpac q) id ↔ cfg.gap q = 0 := by
  have hq := cfg.toNat_eq_gap q
  have hsigned := pacia_toNat cfg (xpac_lt q) id
  rw [cfg.tag_xpac] at hsigned
  rw [Authentic] at h
  rw [← BitVec.toNat_inj, hsigned]
  rw [h] at hq
  omega

/-- Every value of the tag bits is the tag of the address under some id. -/
theorem exists_authentic {cfg : Config} {q : Word}
    (hhigh : q.toNat / 2 ^ cfg.shift < 2 ^ cfg.tagWidth) : ∃ id, Authentic cfg q id := by
  have hlow : q.toNat % 2 ^ cfg.tagWidth < 2 ^ cfg.tagWidth := Nat.mod_lt _ (Nat.two_pow_pos _)
  have hlt := Nat.xor_lt_two_pow hlow hhigh
  have hwidth : 2 ^ cfg.tagWidth ≤ 2 ^ 64 :=
    Nat.pow_le_pow_right (by omega) (by have := cfg.tagWidth_le; omega)
  refine ⟨BitVec.ofNat 64 ((q.toNat % 2 ^ cfg.tagWidth) ^^^ (q.toNat / 2 ^ cfg.shift)), ?_⟩
  rw [Authentic, Config.tag, BitVec.toNat_ofNat, Nat.mod_eq_of_lt (Nat.lt_of_lt_of_le hlt hwidth),
    Nat.mod_eq_of_lt hlt, Nat.xor_xor_cancel_left]

/-- **When signing and authenticating are inverse.** A signed address strips and authenticates to
itself. A pointer is accepted under signed values only, exactly when it has no bit between the
address and the signature. -/
theorem signing_exact_iff (cfg : Config) :
    (∀ p id : Word, p.toNat < 2 ^ 48 →
      xpac (pacia cfg p id) = p ∧ autia cfg (pacia cfg p id) id = p) ∧
    ∀ q : Word, xpac q ≠ 0 →
      ((∀ id, autia cfg q id ≠ 0 → q = pacia cfg (xpac q) id) ↔
        cfg.topByteIgnore = false ∨ q.toNat / 2 ^ 48 % 2 ^ 8 = 0) := by
  refine ⟨fun p id hp => ?_, fun q hx => ?_⟩
  · have hsigned := pacia_toNat cfg hp id
    have hshift := cfg.shift_bounds.1
    have hxpac : xpac (pacia cfg p id) = p := by
      obtain ⟨k, hk⟩ : ∃ k, cfg.shift = 48 + k := ⟨cfg.shift - 48, by omega⟩
      apply BitVec.eq_of_toNat_eq
      rw [xpac_toNat, hsigned, hk, Nat.pow_add, Nat.mul_comm (2 ^ 48), ← Nat.mul_assoc,
        Nat.add_mul_mod_self_right, Nat.mod_eq_of_lt hp]
    have hauth : Authentic cfg (pacia cfg p id) id := by
      have hlt : p.toNat < 2 ^ cfg.shift :=
        Nat.lt_of_lt_of_le hp (Nat.pow_le_pow_right (by omega) hshift)
      rw [Authentic, ← cfg.tag_xpac, hxpac, hsigned, Nat.add_mul_div_right _ _ (Nat.two_pow_pos _),
        Nat.div_eq_of_lt hlt, Nat.zero_add]
    exact ⟨hxpac, by rw [autia_of_authentic hauth, hxpac]⟩
  · rw [← cfg.gap_eq_zero_iff]
    constructor
    · intro hexact
      rw [cfg.gap_eq_zero_iff]
      cases htbi : cfg.topByteIgnore with
      | false => exact Or.inl rfl
      | true =>
          -- every top byte is the tag under some id
          have hhigh : q.toNat / 2 ^ cfg.shift < 2 ^ cfg.tagWidth := by
            have hq := q.isLt
            simp only [Config.shift, Config.tagWidth, htbi, if_true]
            omega
          obtain ⟨id, hauth⟩ := exists_authentic hhigh
          have hq := hexact id ((autia_ne_zero_iff cfg hx id).2 hauth)
          have hgap := (cfg.gap_eq_zero_iff q).1 ((pacia_of_authentic hauth).1 hq)
          rwa [htbi] at hgap
    · intro hgap id hne
      exact (pacia_of_authentic ((autia_ne_zero_iff cfg hx id).1 hne)).2 hgap

theorem signing_exact_page :
    (xpac (pacia Config.shipped 0x1008 7) = 0x1008 ∧
        autia Config.shipped (pacia Config.shipped 0x1008 7) 7 = 0x1008) ∧
      ((∀ id, autia Config.shipped 0x0900000000001008 id ≠ 0 →
          0x0900000000001008 = pacia Config.shipped (xpac 0x0900000000001008) id) ↔
        Config.shipped.topByteIgnore = false ∨
          (0x0900000000001008 : Word).toNat / 2 ^ 48 % 2 ^ 8 = 0) :=
  ⟨(signing_exact_iff Config.shipped).1 0x1008 7 (by decide),
    (signing_exact_iff Config.shipped).2 0x0900000000001008 (by decide)⟩

/-- A pointer with bit 48 set authenticates with the tag of the pointer without it. -/
theorem signing_not_exact :
    ¬ ∀ (cfg : Config) (q id : Word), xpac q ≠ 0 → autia cfg q id ≠ 0 →
      q = pacia cfg (xpac q) id := by
  intro h
  have hq := h Config.shipped 0x0901000000001008 (drawId ⟨0, 0, 1⟩) (by decide) (by decide)
  exact absurd hq (by decide)

/-! ## Pointers that the gates let pass -/

/-- The check hands the pointer to `validatePointer`, whatever it finds there. -/
def Check.Routes (c : Check) (cfg : Config) (ptr : Word) : Prop :=
  ∀ mem fuel r, c.run cfg mem fuel ptr = some r → r.validated = some ptr

/-- The gate of every check looks at the bits above bit 47, and at nothing else. -/
theorem Check.routes_iff (c : Check) (cfg : Config) (ptr : Word) :
    c.Routes cfg ptr ↔ ptr &&& ~~~ maskLowBit ≠ 0 := by
  constructor
  · intro h htag
    have hvalidated := h (fun _ => 0) 0 _ (c.run_of_untagged cfg (fun _ => 0) 0 htag)
    exact absurd hvalidated (by simp)
  · intro htag mem fuel r hr
    have hgate : ∀ f : Word → Word, signatureGate cfg mem fuel f ptr = some r →
        r.validated = some ptr := by
      intro f hf
      rw [signatureGate_of_tagged cfg mem fuel f htag, Option.map_eq_some_iff] at hf
      obtain ⟨v, -, rfl⟩ := hf
      rfl
    cases c with
    | load => exact hgate _ hr
    | gep => exact hgate _ hr
    | nestedGEP => exact hgate _ hr
    | store => exact hgate _ hr

/-- The pointer, and the pointers to the `user` bytes from there on, have a bit above bit 47, and
every check validates them. -/
def Protected (cfg : Config) (ptr : Word) (user : Nat) : Prop :=
  ∀ k, k = 0 ∨ k < user → (ptr + BitVec.ofNat 64 k) &&& ~~~ maskLowBit ≠ 0 ∧
    ∀ c : Check, c.Routes cfg (ptr + BitVec.ofNat 64 k)

/-- Address and id differ in the bits that make the tag. -/
def Config.TagBitsDiffer (cfg : Config) (base id : Word) : Prop :=
  base.toNat % 2 ^ cfg.tagWidth ≠ id.toNat % 2 ^ cfg.tagWidth

/-- A signed address is protected exactly when its tag is not zero. -/
theorem protected_pacia_iff (cfg : Config) {base : Word} {user : Nat}
    (hbase : base.toNat < 2 ^ 48) (hfit : base.toNat + user ≤ 2 ^ 48) (id : Word) :
    Protected cfg (pacia cfg base id) user ↔ cfg.TagBitsDiffer base id := by
  have hsigned := pacia_toNat cfg hbase id
  have hshift := cfg.shift_bounds
  have htag := cfg.tag_lt base.toNat id.toNat
  have hpow : 2 ^ 48 ≤ 2 ^ cfg.shift := Nat.pow_le_pow_right (by omega) hshift.1
  have hzero : cfg.tag base.toNat id.toNat = 0 ↔
      base.toNat % 2 ^ cfg.tagWidth = id.toNat % 2 ^ cfg.tagWidth := Nat.xor_eq_zero_iff
  rw [Config.TagBitsDiffer, Ne, ← hzero]
  constructor
  · intro hprot htag0
    apply (hprot 0 (Or.inl rfl)).1
    rw [signature_eq_zero_iff, BitVec.add_zero, hsigned, htag0]
    omega
  · intro htag0 k hk
    have hne : (pacia cfg base id + BitVec.ofNat 64 k) &&& ~~~ maskLowBit ≠ 0 := by
      rw [Ne, signature_eq_zero_iff, Nat.not_lt]
      -- the tag does not wrap, and alone is above bit 47
      have hpos : 2 ^ cfg.shift ≤ cfg.tag base.toNat id.toNat * 2 ^ cfg.shift :=
        Nat.le_mul_of_pos_left _ (Nat.pos_of_ne_zero htag0)
      have htop : (cfg.tag base.toNat id.toNat + 1) * 2 ^ cfg.shift ≤ 2 ^ 64 := by
        calc (cfg.tag base.toNat id.toNat + 1) * 2 ^ cfg.shift
            ≤ 2 ^ cfg.tagWidth * 2 ^ cfg.shift := Nat.mul_le_mul_right _ htag
          _ = 2 ^ (cfg.tagWidth + cfg.shift) := (Nat.pow_add _ _ _).symm
          _ ≤ 2 ^ 64 := Nat.pow_le_pow_right (by omega) (by omega)
      rw [Nat.add_mul, Nat.one_mul] at htop
      rw [BitVec.toNat_add, BitVec.toNat_ofNat, hsigned]
      omega
    exact ⟨hne, fun c => (c.routes_iff cfg _).2 hne⟩

/-! ## Calls -/

/-- A call of an allocation function. -/
inductive Request where
  | malloc (size : Word)
  | calloc (item sizeBlock : Word)
  | realloc (ptr size : Word)

/-- The call runs, and the underlying allocator answers `ans`. -/
def Request.run (cfg : Config) (d : Draw) (ans : Answer) (m : Mem) : Request → AllocOutcome
  | .malloc size => ptauthMalloc cfg true (fun _ _ => ans) d size m
  | .calloc item sizeBlock => ptauthCalloc cfg true (fun _ _ _ => ans) d item sizeBlock m
  | .realloc ptr size => ptauthRealloc cfg true (fun _ _ _ => ans) d ptr size m

/-- A new block: a `realloc` is answered with another block than the one it was called on. -/
def Request.NewBlock (ans : Answer) : Request → Prop
  | .realloc ptr _ => (ptr &&& ~~~ maskHighBit) - 8 ≠ ans.ptr
  | _ => True

/-- A call that is answered with a new block signs the address behind the header. -/
theorem Request.run_of_newBlock (cfg : Config) (d : Draw) {ans : Answer} (m : Mem) {r : Request}
    (hne : ans.ptr ≠ 0) (hnew : r.NewBlock ans) :
    r.run cfg d ans m = .returned (pacia cfg (ans.ptr + 8) (drawId d))
      (writeWord ans.mem ans.ptr (drawId d)) := by
  have htail := initAndSign_of_ne_zero cfg d hne
  cases r with
  | malloc size => exact htail
  | calloc item sizeBlock => exact htail
  | realloc ptr size =>
      rw [Request.run, ptauthRealloc, if_neg (by decide)]
      exact (if_pos hnew).trans htail

/-! ## Runs -/

/-- Every object that the action creates has a tag. -/
def Heap.Tags (h : Heap) : HeapAction → Prop
  | .malloc _ block _ draw => Config.shipped.TagBitsDiffer (block.start + 8) (drawId draw)
  | .calloc _ _ block _ draw => Config.shipped.TagBitsDiffer (block.start + 8) (drawId draw)
  | .realloc ptr _ block _ draw =>
      (∀ o ∈ h.live, o.ptr = ptr → block.start ≠ o.block.start) →
        Config.shipped.TagBitsDiffer (block.start + 8) (drawId draw)
  | _ => True

/-- Every object, live or freed, has a tag. -/
def Heap.Tagged (h : Heap) : Prop :=
  ∀ o, o ∈ h.live ∨ o ∈ h.dead → Config.shipped.TagBitsDiffer o.base (drawId o.draw)

theorem Heap.Tagged.initial (m : Mem) : (Heap.initial m).Tagged := by
  rintro o (ho | ho)
  · exact absurd ho List.not_mem_nil
  · exact absurd ho List.not_mem_nil

theorem Heap.Tagged.without {h : Heap} (ht : h.Tagged) (p : Word) : (h.without p).Tagged := by
  rintro o (ho | ho)
  · exact ht o (Or.inl (Heap.mem_without.1 ho).1)
  · exact ht o (Or.inr ho)

theorem Heap.Tagged.adopt {h : Heap} (ht : h.Tagged) {o : Obj} (m : Mem)
    (ho : Config.shipped.TagBitsDiffer o.base (drawId o.draw)) : (h.adopt o m).Tagged := by
  rintro o' (ho' | ho')
  · rcases List.mem_cons.1 ho' with rfl | ho'
    · exact ho
    · exact ht o' (Or.inl ho')
  · exact ht o' (Or.inr ho')

/-- **One step keeps the tags.** -/
theorem Heap.Tagged.step {h h' : Heap} {a : HeapAction} (hi : h.Inv) (ht : h.Tagged)
    (hg : h.Guard a) (htags : h.Tags a) (hs : h.step a = some h') : h'.Tagged := by
  cases a with
  | malloc size block mem draw =>
      rw [Heap.step_malloc] at hs
      obtain rfl := Option.some.inj hs
      exact ht.adopt _ htags
  | calloc item sizeBlock block mem draw =>
      rw [Heap.step_calloc] at hs
      obtain rfl := Option.some.inj hs
      exact ht.adopt _ htags
  | realloc ptr size block mem draw =>
      obtain ⟨-, -, -, o, ho, rfl, -⟩ := hg
      rcases eq_or_ne block.start o.block.start with hb | hb
      · rw [hi.step_realloc_stays ho size hb] at hs
        obtain rfl := Option.some.inj hs
        apply (ht.without o.ptr).adopt
        have hold := ht o (Or.inl ho)
        rw [Obj.base, ← hb] at hold
        exact hold
      · rw [hi.step_realloc_moves ho size hb] at hs
        obtain rfl := Option.some.inj hs
        apply (ht.without o.ptr).adopt
        apply htags
        intro o' ho' heq
        rw [hi.eq_of_ptr_eq ho' ho heq]
        exact hb
  | free ptr mem =>
      obtain ⟨⟨o, ho, rfl⟩, -⟩ := hg
      rw [hi.step_free ho] at hs
      obtain rfl := Option.some.inj hs
      rintro o' (ho' | ho')
      · exact ht.without o.ptr o' (Or.inl ho')
      · rcases List.mem_cons.1 ho' with rfl | ho'
        · exact ht o' (Or.inl ho)
        · exact ht o' (Or.inr ho')
  | write addr byte =>
      obtain rfl := Option.some.inj hs
      exact ht

/-- **In a run whose objects all have tags**, every object of every state has one. -/
theorem tagged_of_reachable {m : Mem} {h : Heap}
    (hr : (heapMachine.restrict Heap.Tags).Reachable (Heap.initial m) h) : h.Tagged :=
  hr.invariant_restrict (fun _ => heap_invariant)
    (fun _ _ _ hi ht hg htags hs => ht.step hi hg htags hs) (Heap.Tagged.initial m)

/-- **When an allocated pointer is protected.** In every call, exactly when address and id differ in
the bits of the tag; so in every run in which they do, all pointers are. -/
theorem allocated_protected_iff (m : Mem) :
    (∀ (cfg : Config) (r : Request) (d : Draw) (ans : Answer), ans.ptr ≠ 0 →
      16 ∣ ans.ptr.toNat → ans.ptr.toNat < 2 ^ 48 → r.NewBlock ans →
      ∃ p m', r.run cfg d ans m = .returned p m' ∧
        ∀ user, ans.ptr.toNat + 8 + user ≤ 2 ^ 48 →
          (Protected cfg p user ↔ cfg.TagBitsDiffer (ans.ptr + 8) (drawId d))) ∧
    ∀ h : Heap, (heapMachine.restrict Heap.Tags).Reachable (Heap.initial m) h →
      ∀ o, o ∈ h.live ∨ o ∈ h.dead → Protected Config.shipped o.ptr o.userSize := by
  refine ⟨fun cfg r d ans hne hdvd hlt hnew => ?_, fun h hr o ho => ?_⟩
  · have hbase : (ans.ptr + 8).toNat = ans.ptr.toNat + 8 := by
      rw [BitVec.toNat_add]
      simp only [BitVec.reduceToNat]
      omega
    refine ⟨_, _, r.run_of_newBlock cfg d m hne hnew, fun user huser => ?_⟩
    exact protected_pacia_iff cfg (by omega) (by omega) (drawId d)
  · have hi := heap_invariant hr.of_restrict
    have hs : o.Signed := ho.elim (hi.signed o) (hi.deadSigned o)
    have hbase := o.base_toNat
    have hhigh := o.block.high
    have hfit := hs.fits
    rw [hs.signed, protected_pacia_iff _ (o.base_lt hs.fits) (by rw [Obj.userSize]; omega)]
    exact tagged_of_reachable hr o ho

theorem allocated_protected_page :
    (∃ p m', (Request.malloc 40).run Config.shipped ⟨0, 0, 0⟩ ⟨0x1000, fun _ => 0⟩ (fun _ => 0) =
        .returned p m' ∧ ∀ user, (0x1000 : Word).toNat + 8 + user ≤ 2 ^ 48 →
          (Protected Config.shipped p user ↔
            Config.shipped.TagBitsDiffer (0x1000 + 8) (drawId ⟨0, 0, 0⟩))) ∧
      Protected Config.shipped (Obj.new pageBlock ⟨0, 0, 0⟩).ptr
        (Obj.new pageBlock ⟨0, 0, 0⟩).userSize :=
  ⟨(allocated_protected_iff fun _ => 0).1 Config.shipped (.malloc 40) ⟨0, 0, 0⟩
      ⟨0x1000, fun _ => 0⟩ (by decide) (by decide) (by decide) trivial,
    (allocated_protected_iff fun _ => 0).2 (pageHeap ⟨0, 0, 0⟩)
      ⟨_, pageHeap_run ⟨0, 0, 0⟩ (show Config.shipped.TagBitsDiffer (pageBlock.start + 8)
        (drawId ⟨0, 0, 0⟩) by rw [Config.TagBitsDiffer]; decide)⟩
      (Obj.new pageBlock ⟨0, 0, 0⟩) (Or.inl List.mem_cons_self)⟩

/-- A block at `0x1000` and an id with low byte 8: `__ptauth_malloc` returns an untagged pointer. -/
theorem allocated_unprotected :
    ¬ ∀ (r : Request) (d : Draw) (ans : Answer) (m : Mem), ans.ptr ≠ 0 → 16 ∣ ans.ptr.toNat →
      ans.ptr.toNat < 2 ^ 48 → r.NewBlock ans →
        ∃ p m', r.run Config.shipped d ans m = .returned p m' ∧ p &&& ~~~ maskLowBit ≠ 0 := by
  intro h
  obtain ⟨p, m', hrun, hp⟩ := h (.malloc 40) ⟨0, 0, 8⟩ ⟨0x1000, fun _ => 0⟩ (fun _ => 0) (by decide)
    (by decide) (by decide) trivial
  have hnew : (Request.malloc 40).NewBlock ⟨0x1000, fun _ => 0⟩ := trivial
  rw [Request.run_of_newBlock Config.shipped _ _ (by decide) hnew] at hrun
  obtain ⟨rfl, -⟩ := AllocOutcome.returned.inj hrun
  exact absurd hp (by decide)

end PTAuth.Runtime
