import PTAuth.Runtime.Heap

/-!
# Authentication and ownership

In every reachable state a pointer into a live object authenticates, without a look at any word
below the header of the object, and its base pointer frees exactly the block of the object
(`live_object_authenticates`).

The converse is weaker than ownership. The tag is eight bits and covers no more than the low byte of
the id, so any word in the window of the search whose low byte fits authenticates. For a pointer
into a live object the only such words besides the header start inside that object
(`authentication_stays_in_object`): a neighbour's header is never used, but the bytes that the
program itself wrote into the object are.
-/

set_option autoImplicit false

namespace PTAuth.Runtime

open PTAuth.Library PTAuth.Library.Scan

/-! ## The window of a pointer into an object -/

/-- The object's own header carries the tag of every pointer into the object. -/
theorem Obj.Signed.accepts_header {o : Obj} (h : o.Signed) {m : Mem}
    (hheader : readWord m o.block.start = drawId o.draw) {k : Nat}
    (hk : o.base.toNat + k < 2 ^ 48) :
    Accepts Config.shipped (readWord m) (o.ptr + BitVec.ofNat 64 k) o.block.start := by
  refine ⟨by rw [hheader]; exact drawId_ne_zero o.draw, ?_⟩
  rw [h.tag_eq hk, hheader]
  rfl

/-- Up to offset 1015 the search reaches the header of the object. -/
theorem Obj.Signed.start_mem_candidates {o : Obj} (h : o.Signed) {k : Nat}
    (hk : o.base.toNat + k < 2 ^ 48) (hk' : k ≤ 1015) :
    o.block.start ∈ candidates (xpac (o.ptr + BitVec.ofNat 64 k)).toNat 1 1023 := by
  have hbase := o.base_toNat
  have hlow := o.block.low
  have haligned := o.block.aligned
  rw [h.xpac_toNat hk]
  refine (mem_candidates_iff (by omega) hk _).2 ⟨haligned, ?_, ?_⟩
  · omega
  · omega

/-- The word right below a pointer into an object. -/
theorem Obj.Signed.headerBelow_toNat {o : Obj} (h : o.Signed) {k : Nat}
    (hk : o.base.toNat + k < 2 ^ 48) :
    (headerBelow (o.ptr + BitVec.ofNat 64 k)).toNat = o.block.start.toNat + k := by
  have hbase := o.base_toNat
  have hx := h.xpac_toNat hk
  rw [PTAuth.Runtime.headerBelow_toNat (by omega)]
  omega

/-- **No false alarm.** A pointer into an object whose header is intact authenticates, and
validation examines nothing below the header. -/
theorem Obj.Signed.validates {o : Obj} (h : o.Signed) {m : Mem}
    (hheader : readWord m o.block.start = drawId o.draw) {k : Nat}
    (hk : o.base.toNat + k < 2 ^ 48) (hk' : k ≤ 1015) {fuel : Nat} (hfuel : 1024 ≤ fuel) :
    ∃ v, validatePointer Config.shipped (readWord m) fuel (o.ptr + BitVec.ofNat 64 k) = some v ∧
      v.hit.isSome ∧ ∀ a ∈ v.examined, o.block.start.toNat ≤ a.toNat := by
  have hbase := o.base_toNat
  have hlow := o.block.low
  have hx := h.xpac_toNat hk
  have hbelow := h.headerBelow_toNat hk
  rw [validatePointer_eq rfl (readWord m) (by omega) hfuel]
  split
  · refine ⟨_, rfl, rfl, fun a ha => ?_⟩
    rw [List.mem_singleton.1 ha]
    omega
  · -- the scan meets the header before any lower candidate
    have hacc := decide_eq_true (h.accepts_header hheader hk)
    obtain ⟨⟨b, hhit⟩, hexamined⟩ :=
      scan_stops_by (p := fun a => decide (Accepts Config.shipped (readWord m)
          (o.ptr + BitVec.ofNat 64 k) a))
        (candidates_pairwise (by omega) (xpac_lt _)) (h.start_mem_candidates hk hk') hacc
    refine ⟨_, rfl, ?_, fun a ha => ?_⟩
    · exact Option.isSome_iff_exists.2 ⟨b, hhit⟩
    · rcases List.mem_cons.1 ha with rfl | ha
      · omega
      · rcases hexamined a ha with rfl | hlt
        · exact Nat.le_refl _
        · omega

/-- **Live objects authenticate.** In every reachable state, pointers up to offset 1015 into a live
object authenticate without a look below its header, and the base pointer authenticates in
`__ptauth_free`, which passes the block to the underlying `free`. -/
theorem live_object_authenticates {m : Mem} {h : Heap}
    (hr : heapMachine.Reachable (Heap.initial m) h) {o : Obj} (ho : o ∈ h.live) :
    (∀ k < o.userSize, k ≤ 1015 → ∀ fuel, 1024 ≤ fuel →
      ∃ v, validatePointer Config.shipped (readWord h.mem) fuel (o.ptr + BitVec.ofNat 64 k)
          = some v ∧
        v.hit.isSome ∧ ∀ a ∈ v.examined, o.block.start.toNat ≤ a.toNat) ∧
      autia Config.shipped o.ptr (readWord h.mem (headerBelow o.ptr)) ≠ 0 ∧
      ∃ m', ptauthFree Config.shipped h.mem o.ptr = .freed o.block.start m' := by
  have hi := heap_invariant hr
  have hs := hi.signed o ho
  obtain ⟨hauth, hfree⟩ := hi.free_live ho
  refine ⟨fun k hk hk' fuel hfuel => ?_, ?_, _, hfree⟩
  · exact hs.validates (hi.header o ho) (o.base_add_lt hk) hk' hfuel
  · have hbase := o.base_toNat
    rw [hauth]
    intro h0
    rw [h0] at hbase
    have hzero : (0 : Word).toNat = 0 := rfl
    omega

theorem live_object_authenticates_page :
    ∃ v, validatePointer Config.shipped (readWord (pageHeap ⟨0, 0, 0⟩).mem) 1024
        ((Obj.new pageBlock ⟨0, 0, 0⟩).ptr + BitVec.ofNat 64 39) = some v ∧
      v.hit.isSome ∧ ∀ a ∈ v.examined, 0x1000 ≤ a.toNat :=
  (live_object_authenticates pageHeap_reached.of_restrict
    (o := Obj.new pageBlock ⟨0, 0, 0⟩) List.mem_cons_self).1 39 (by decide) (by decide) 1024
    (Nat.le_refl _)

/-! ## Where a pointer can authenticate -/

/-- `k` is an offset within the object; an object without user bytes has its base pointer. -/
def Obj.Offset (o : Obj) (k : Nat) : Prop := k = 0 ∨ k < o.userSize

theorem Obj.Offset.lt {o : Obj} (hs : o.Signed) {k : Nat} (h : o.Offset k) :
    o.base.toNat + k < 2 ^ 48 := by
  rcases h with rfl | h
  · exact o.base_lt hs.fits
  · exact o.base_add_lt h

/-- The byte at `a`, taken as the low byte of an id, gives the address `a + 8` the object's tag. -/
def Obj.TagFits (o : Obj) (m : Mem) (a : Word) : Prop :=
  Config.shipped.tag (a + 8).toNat (m a).toNat = o.tag

/-- Only the low byte of an id enters the tag. -/
theorem tag_readWord (x : Nat) (m : Mem) (a : Word) :
    Config.shipped.tag x (readWord m a).toNat = Config.shipped.tag x (m a).toNat := by
  rw [Config.tag_inj_iff]
  change (readWord m a).toNat % 256 = (m a).toNat % 256
  have hbyte := (m a).isLt
  have hmod := readWord_mod m a
  omega

/-- Where a pointer into an object, live or freed, can authenticate: at a word whose low byte fits
the tag, among the 1023 bytes below the pointer. -/
theorem Obj.Signed.hit_window {o : Obj} (h : o.Signed) {m : Mem} {k : Nat}
    (hk : o.base.toNat + k < 2 ^ 48) {fuel : Nat} {v : Validation}
    (hv : validatePointer Config.shipped (readWord m) fuel (o.ptr + BitVec.ofNat 64 k) = some v)
    {a : Word} (ha : v.hit = some a) :
    a ∈ v.examined ∧ o.TagFits m a ∧ o.base.toNat + k ≤ a.toNat + 1023 ∧
      a.toNat < o.base.toNat + k := by
  have hbase := o.base_toNat
  have hlow := o.block.low
  have hx := h.xpac_toNat hk
  have hbelow := h.headerBelow_toNat hk
  obtain ⟨hexamined, ⟨-, htag⟩, hwin⟩ := validatePointer_hit rfl (by omega) hv ha
  rw [h.tag_eq hk, tag_readWord] at htag
  refine ⟨hexamined, htag.symm, ?_⟩
  rcases hwin with rfl | ⟨-, hlo, hhi⟩
  · omega
  · omega

/-- `__autia` in `__ptauth_free` succeeds on a pointer into an object, live or freed, exactly when
the byte eight below the pointer fits the tag. -/
theorem Obj.Signed.autia_ne_zero_iff {o : Obj} (h : o.Signed) (m : Mem) {k : Nat}
    (hk : o.base.toNat + k < 2 ^ 48) :
    autia Config.shipped (o.ptr + BitVec.ofNat 64 k)
        (readWord m (headerBelow (o.ptr + BitVec.ofNat 64 k))) ≠ 0 ↔
      o.TagFits m (o.block.start + BitVec.ofNat 64 k) := by
  have hbase := o.base_toNat
  have hx := h.xpac_toNat hk
  have hne : xpac (o.ptr + BitVec.ofNat 64 k) ≠ 0 := by
    intro h0
    rw [h0] at hx
    have hzero : (0 : Word).toNat = 0 := rfl
    omega
  have hstart : headerBelow (o.ptr + BitVec.ofNat 64 k) = o.block.start + BitVec.ofNat 64 k := by
    apply BitVec.eq_of_toNat_eq
    rw [h.headerBelow_toNat hk, BitVec.toNat_add, BitVec.toNat_ofNat]
    omega
  have haddr : (o.block.start + BitVec.ofNat 64 k + 8).toNat = o.base.toNat + k := by
    rw [← hstart, headerBelow_add (by omega), hx]
  rw [PTAuth.Runtime.autia_ne_zero_iff _ hne, Authentic, h.tag_eq hk, ← Config.tag_xpac, hx,
    tag_readWord, hstart, Obj.TagFits, haddr]
  exact eq_comm

/-- Where a pointer into a live object can authenticate: at the header, in the object behind it, or,
at offsets below 8, at the word below the pointer, which starts inside the header. -/
theorem Obj.Signed.hit_above {o : Obj} (h : o.Signed) {m : Mem}
    (hheader : readWord m o.block.start = drawId o.draw) {k : Nat} (hk : o.base.toNat + k < 2 ^ 48)
    {fuel : Nat} {v : Validation}
    (hv : validatePointer Config.shipped (readWord m) fuel (o.ptr + BitVec.ofNat 64 k) = some v)
    {a : Word} (ha : v.hit = some a) :
    a = o.block.start ∨ o.base.toNat ≤ a.toNat ∨ k < 8 ∧ a.toNat = o.block.start.toNat + k := by
  have hbase := o.base_toNat
  have hlow := o.block.low
  have haligned := o.block.aligned
  have hx := h.xpac_toNat hk
  have hbelow := h.headerBelow_toNat hk
  obtain ⟨hmem, -, rfl | ⟨hdvd, hlo, hhi⟩⟩ := validatePointer_hit rfl (by omega) hv ha
  · rcases Nat.lt_or_ge k 8 with hlt | hge
    · exact Or.inr (Or.inr ⟨hlt, hbelow⟩)
    · exact Or.inr (Or.inl (by omega))
  · -- an aligned word at or above the header is the header, or lies behind it
    have hge : o.block.start.toNat ≤ a.toNat := by
      rcases Nat.lt_or_ge 1015 k with hfar | hnear
      · omega
      · obtain ⟨v', hv', -, hexamined⟩ := h.validates hheader hk hnear (Nat.le_max_right fuel 1024)
        have hvv := validatePointer_mono (Nat.le_max_left fuel 1024) hv
        rw [hv'] at hvv
        obtain rfl := Option.some.inj hvv
        exact hexamined a hmem
    rcases Nat.eq_or_lt_of_le hge with heq | hgt
    · exact Or.inl (BitVec.eq_of_toNat_eq heq.symm)
    · exact Or.inr (Or.inl (by omega))

/-- **Authentication stays in the object.** A pointer into an object, live or freed, authenticates
only at a word whose low byte fits its tag, and `__autia` in `__ptauth_free` succeeds exactly when
the low byte of the word below the pointer does. For a live object that word is the header, or lies
behind the header in the object itself, or is the word below the pointer where this starts inside the
header; for the base pointer it is the header. -/
theorem authentication_stays_in_object {m : Mem} {h : Heap}
    (hr : heapMachine.Reachable (Heap.initial m) h) {o : Obj} (ho : o ∈ h.live ∨ o ∈ h.dead)
    {k : Nat} (hk : o.Offset k) :
    (∀ fuel v a, validatePointer Config.shipped (readWord h.mem) fuel (o.ptr + BitVec.ofNat 64 k)
        = some v → v.hit = some a →
      o.TagFits h.mem a ∧ o.base.toNat + k ≤ a.toNat + 1023 ∧ a.toNat < o.base.toNat + k ∧
        (o ∈ h.live →
          (a = o.block.start ∨ o.base.toNat ≤ a.toNat ∨
            k < 8 ∧ a.toNat = o.block.start.toNat + k) ∧
          (k = 0 → a = o.block.start))) ∧
      (autia Config.shipped (o.ptr + BitVec.ofNat 64 k)
          (readWord h.mem (headerBelow (o.ptr + BitVec.ofNat 64 k))) ≠ 0 ↔
        o.TagFits h.mem (o.block.start + BitVec.ofNat 64 k)) := by
  have hi := heap_invariant hr
  have hs : o.Signed := ho.elim (hi.signed o) (hi.deadSigned o)
  have hlt := hk.lt hs
  refine ⟨fun fuel v a hv ha => ?_, hs.autia_ne_zero_iff h.mem hlt⟩
  obtain ⟨-, hfits, hlo, hhi⟩ := hs.hit_window hlt hv ha
  refine ⟨hfits, hlo, hhi, fun hlive => ?_⟩
  have habove := hs.hit_above (hi.header o hlive) hlt hv ha
  refine ⟨habove, fun hzero => ?_⟩
  rcases habove with heq | hge | ⟨-, heq⟩
  · exact heq
  · omega
  · exact BitVec.eq_of_toNat_eq (by omega)

theorem authentication_stays_in_object_page :
    autia Config.shipped (Obj.new pageBlock ⟨0, 0, 0⟩).ptr
        (readWord (pageHeap ⟨0, 0, 0⟩).mem (headerBelow (Obj.new pageBlock ⟨0, 0, 0⟩).ptr)) ≠ 0 ↔
      (Obj.new pageBlock ⟨0, 0, 0⟩).TagFits (pageHeap ⟨0, 0, 0⟩).mem 0x1000 :=
  (authentication_stays_in_object pageHeap_reached.of_restrict
    (o := Obj.new pageBlock ⟨0, 0, 0⟩) (k := 0) (Or.inl List.mem_cons_self) (Or.inl rfl)).2

/-- The heap after the program stored the byte `0x10` in its object, at `0x1010`. -/
def userDataHeap : Heap :=
  { pageHeap ⟨0, 0, 0⟩ with mem := Function.update (pageHeap ⟨0, 0, 0⟩).mem 0x1010 0x10 }

theorem userDataHeap_reachable :
    (heapMachine.restrict fun _ a => a.NoRealloc).Reachable (Heap.initial fun _ => 0)
      userDataHeap :=
  pageHeap_reached.snoc (a := .write 0x1010 0x10)
    ⟨⟨Obj.new pageBlock ⟨0, 0, 0⟩, List.mem_cons_self, by decide, by decide⟩, trivial⟩ rfl

/-- User data authenticates: over the byte the program stored, the pointer at offset 16 validates,
and `__autia` in `__ptauth_free` accepts it. -/
theorem user_data_authenticates :
    (¬ ∀ (m : Mem) (h : Heap),
      (heapMachine.restrict fun _ a => a.NoRealloc).Reachable (Heap.initial m) h →
      ∀ o ∈ h.live, ∀ k, o.Offset k → ∀ fuel v a,
        validatePointer Config.shipped (readWord h.mem) fuel (o.ptr + BitVec.ofNat 64 k) = some v →
        v.hit = some a → a = o.block.start) ∧
      ¬ ∀ (m : Mem) (h : Heap),
        (heapMachine.restrict fun _ a => a.NoRealloc).Reachable (Heap.initial m) h →
        ∀ o ∈ h.live, ∀ k, o.Offset k →
          autia Config.shipped (o.ptr + BitVec.ofNat 64 k)
            (readWord h.mem (headerBelow (o.ptr + BitVec.ofNat 64 k))) ≠ 0 → k = 0 := by
  have hoff : (Obj.new pageBlock ⟨0, 0, 0⟩).Offset 16 := Or.inr (by decide)
  constructor
  · intro hclaim
    have hv : validatePointer Config.shipped (readWord userDataHeap.mem) 1
        ((Obj.new pageBlock ⟨0, 0, 0⟩).ptr + BitVec.ofNat 64 16)
        = some { examined := [0x1010], hit := some 0x1010,
                 outcome := .returned 0x0800000000001018 } := by decide +kernel
    have hstart := hclaim _ _ userDataHeap_reachable (Obj.new pageBlock ⟨0, 0, 0⟩)
      List.mem_cons_self 16 hoff 1 _ 0x1010 hv rfl
    exact absurd hstart (by decide)
  · intro hclaim
    have hzero := hclaim _ _ userDataHeap_reachable (Obj.new pageBlock ⟨0, 0, 0⟩)
      List.mem_cons_self 16 hoff (by decide +kernel)
    exact absurd hzero (by decide)

end PTAuth.Runtime
