import PTAuth.Runtime.Temporal
import PTAuth.Runtime.Termination

/-!
# The build that stops on failures

Without `ENABLELOG` a check that returns has let a pointer through that is untagged or that memory
vouches for (`Check.run_passes`). The memory of a heap vouches for the pointers into live objects,
as long as their headers stay (`Heap.Inv.vouches`, `Heap.Inv.keeps`).

For a pointer into a freed object memory vouches by a collision only (`Heap.Inv.stale_passes_iff`):
the object drew an id whose low byte is that of the tombstone, or of the id in a header that took
its place, or another word in front of the pointer has the byte that fits. This takes headers of
freed blocks that stay until they are handed out again (`Heap.Tidy`).
-/

set_option autoImplicit false

namespace PTAuth.Runtime

/-! ## Builds that stop on failures -/

/-- The shipped switches but for `ENABLELOG`. -/
def Config.failStop : Config := { Config.shipped with enableLog := false }

/-- The switches without Top-Byte Ignore, for a build that stops on failures. -/
def Config.stripping : Config := { Config.failStop with topByteIgnore := false }

/-- What passes a check in such a build is untagged, or memory vouches for it. -/
theorem Check.run_passes {cfg : Config} (hlog : cfg.enableLog = false)
    (hthr : cfg.bkThreasholdEnabled = true) (c : Check) {mem : Word → Word} {fuel : Nat}
    {ptr q : Word} {r : CheckRun} (hr : c.run cfg mem fuel ptr = some r)
    (hq : r.outcome = .returned q) :
    q = noCheck cfg ptr ∧ (ptr.toNat < 2 ^ 48 ∨ Vouched cfg mem ptr) := by
  -- any other pointer aborts or does not return
  have hpass : ptr.toNat < 2 ^ 48 ∨ Vouched cfg mem ptr := by
    by_contra hnot
    rw [not_or, Nat.not_lt] at hnot
    have hend := (c.run_of_not_passing hthr hnot.1 hnot.2 hr).2
    rw [hq, hlog] at hend
    cases hend
  obtain ⟨r', hr', hout⟩ := c.run_of_passing hthr hpass (Nat.le_max_right fuel 1024)
  rw [c.run_mono (Nat.le_max_left fuel 1024) hr] at hr'
  obtain rfl := Option.some.inj hr'
  exact ⟨Outcome.returned.inj (hq.symm.trans hout), hpass⟩

/-! ## Memories of a heap -/

/-- The memory has the headers of the live objects. -/
def Heap.Keeps (h : Heap) (m : Mem) : Prop := ∀ o ∈ h.live, o.block.HeaderAgree h.mem m

/-- The pointer goes at most 1015 bytes into a live object: so far the search finds its header. -/
def Heap.HoldsNear (h : Heap) (w : Word) : Prop :=
  ∃ o ∈ h.live, ∃ k < o.userSize, k ≤ 1015 ∧ w = o.ptr + BitVec.ofNat 64 k

/-- Memory vouches for pointers at most 1015 bytes into live objects. -/
theorem Heap.Inv.vouches {h : Heap} (hi : h.Inv) {w : Word} (hw : h.HoldsNear w) :
    Vouched Config.failStop (readWord h.mem) w := by
  obtain ⟨o, ho, k, hk, hk', rfl⟩ := hw
  have hs := hi.signed o ho
  have hlt := o.base_add_lt hk
  have hbase := o.base_toNat
  have hlow := o.block.low
  have hx : 1024 ≤ (xpac (o.ptr + BitVec.ofNat 64 k)).toNat := by
    rw [hs.xpac_toNat hlt]
    omega
  -- the header of the object is a word that the search looks at
  obtain ⟨hdvd, hwindow, hbelow⟩ :=
    (mem_candidates_iff hx (xpac_lt _) _).1 (hs.start_mem_candidates hlt hk')
  exact Or.inr ⟨o.block.start, ⟨hdvd, hwindow, Or.inl hbelow⟩,
    hs.accepts_header (hi.header o ho) hlt⟩

/-- A memory with the headers of the live objects is a memory of the heap. -/
theorem Heap.Inv.keeps {h : Heap} (hi : h.Inv) {m : Mem} (hm : h.Keeps m) :
    Heap.Inv { h with mem := m } where
  disjoint := hi.disjoint
  signed := hi.signed
  header := fun o ho => (hm o ho).readWord.trans (hi.header o ho)
  deadSigned := hi.deadSigned

/-! ## Freed pointers -/

/-- The promise of `KeepsFreed`, for `realloc` too. -/
def Heap.Tidy (h : Heap) : HeapAction → Prop
  | .realloc _ _ block mem _ =>
      ∀ v ∈ h.vacant, v.block.HeaderOutside block → v.block.HeaderAgree h.mem mem
  | a => h.KeepsFreed a

theorem Heap.Tombstones.without {h : Heap} (ht : h.Tombstones) (p : Word) :
    (h.without p).Tombstones where
  signed := ht.signed
  outside := fun v hv o ho => ht.outside v hv o (Heap.mem_without.1 ho).1
  header := ht.header

/-- **One step keeps the tombstones**, be it a `realloc`. -/
theorem Heap.Tombstones.step_tidy {h h' : Heap} {a : HeapAction} (ht : h.Tombstones) (hi : h.Inv)
    (hg : h.Guard a) (hk : h.Tidy a) (hs : h.step a = some h') : h'.Tombstones := by
  cases a with
  | malloc size block mem draw => exact ht.step hi hg hk hs
  | calloc item sizeBlock block mem draw => exact ht.step hi hg hk hs
  | realloc ptr size block mem draw =>
      obtain ⟨h8, hsize, -, o, ho, rfl, -⟩ := hg
      rcases eq_or_ne block.start o.block.start with hb | hb
      · rw [hi.step_realloc_stays ho size hb] at hs
        obtain rfl := Option.some.inj hs
        exact (ht.without o.ptr).adopt hk
      · rw [hi.step_realloc_moves ho size hb] at hs
        obtain rfl := Option.some.inj hs
        exact (ht.without o.ptr).adopt_new draw (by omega) hk
  | free ptr mem => exact ht.step hi hg hk hs
  | write addr byte => exact ht.step hi hg hk hs

/-- A memory with the headers of the freed blocks that are still vacant. -/
theorem Heap.Tombstones.keeps {h : Heap} (ht : h.Tombstones) {m : Mem}
    (hm : ∀ v ∈ h.vacant, v.block.HeaderAgree h.mem m) : Heap.Tombstones { h with mem := m } where
  signed := ht.signed
  outside := ht.outside
  header := fun v hv => (hm v hv).readWord.trans (ht.header v hv)

/-- Validation reads the word: in its direct test or in the search. -/
def Examines (ptr a : Word) : Prop := a = headerBelow ptr ∨ LooksAt (xpac ptr).toNat a

/-- Above the first eight bytes the direct test and the search ask the same of a word. -/
theorem vouched_iff {cfg : Config} {mem : Word → Word} {ptr : Word} (hx : 8 ≤ (xpac ptr).toNat) :
    Vouched cfg mem ptr ↔ ∃ a, Examines ptr a ∧ Accepts cfg mem ptr a := by
  rw [Vouched, Found, ← directlyAccepted_iff, direct_test_iff cfg mem hx]
  constructor
  · rintro (hacc | ⟨a, ha, hacc⟩)
    · exact ⟨headerBelow ptr, Or.inl rfl, hacc⟩
    · exact ⟨a, Or.inr ha, hacc⟩
  · rintro ⟨a, rfl | ha, hacc⟩
    · exact Or.inl hacc
    · exact Or.inr ⟨a, ha, hacc⟩

section Signed

variable {o : Obj} {k : Nat}

theorem Obj.Signed.untagged_iff (h : o.Signed) (hk : o.base.toNat + k < 2 ^ 48) :
    (o.ptr + BitVec.ofNat 64 k).toNat < 2 ^ 48 ↔ o.tag = 0 := by
  rw [h.ptr_add_toNat hk]
  omega

/-- Validation reads the header up to offset 1015. -/
theorem Obj.Signed.examines_start_iff (h : o.Signed) (hk : o.base.toNat + k < 2 ^ 48) :
    Examines (o.ptr + BitVec.ofNat 64 k) o.block.start ↔ k ≤ 1015 := by
  have hbase := o.base_toNat
  have hlow := o.block.low
  have hbelow := h.headerBelow_toNat hk
  rw [Examines, LooksAt, h.xpac_toNat hk]
  constructor
  · rintro (hdirect | ⟨-, hwindow, -⟩)
    · rw [← hdirect] at hbelow
      omega
    · omega
  · intro hnear
    exact Or.inr ⟨o.block.aligned, by omega, Or.inl (by omega)⟩

/-- The header accepts the pointer exactly if it has the byte of the object's id. -/
theorem Obj.Signed.accepts_start_iff (h : o.Signed) (m : Mem) (hk : o.base.toNat + k < 2 ^ 48) :
    Accepts Config.failStop (readWord m) (o.ptr + BitVec.ofNat 64 k) o.block.start ↔
      readWord m o.block.start ≠ 0 ∧
        (readWord m o.block.start).toNat % 256 = o.draw.idByte := by
  change Accepts Config.shipped _ _ _ ↔ _
  rw [Accepts, h.tag_eq hk, ← drawId_mod]
  refine and_congr_right fun _ => ?_
  change Config.shipped.tag o.base.toNat _ = Config.shipped.tag o.base.toNat _ ↔ _
  rw [Config.tag_inj_iff]
  exact eq_comm

end Signed

/-- The header of a freed object has the byte of its id. If it still is the tombstone, the byte is
that of the tombstone; if a live object has it, that one drew the byte too. -/
structure Heap.HeaderCollides (h : Heap) (o : Obj) : Prop where
  present : readWord h.mem o.block.start ≠ 0
  byte : (readWord h.mem o.block.start).toNat % 256 = o.draw.idByte
  tombstone : o ∈ h.vacant → o.draw.idByte = 2
  reused : ∀ o' ∈ h.live, o'.block.start = o.block.start → o'.draw.idByte = o.draw.idByte

/-- What lets the pointer at an offset into a freed object pass: it has no tag, its header collides,
or another word accepts it. -/
def Heap.Collides (h : Heap) (o : Obj) (k : Nat) : Prop :=
  o.tag = 0 ∨ (k ≤ 1015 ∧ h.HeaderCollides o) ∨
    ∃ a, a ≠ o.block.start ∧ Examines (o.ptr + BitVec.ofNat 64 k) a ∧
      Accepts Config.failStop (readWord h.mem) (o.ptr + BitVec.ofNat 64 k) a

/-- What is known of the header follows from its byte. -/
theorem Heap.Inv.headerCollides_iff {h : Heap} (hi : h.Inv) (ht : h.Tombstones) (o : Obj) :
    h.HeaderCollides o ↔ readWord h.mem o.block.start ≠ 0 ∧
      (readWord h.mem o.block.start).toNat % 256 = o.draw.idByte := by
  constructor
  · exact fun hc => ⟨hc.present, hc.byte⟩
  · rintro ⟨hpresent, hbyte⟩
    refine ⟨hpresent, hbyte, fun hv => ?_, fun o' ho' hb => ?_⟩
    · rw [← hbyte, ht.header o hv]
      rfl
    · rw [← hbyte, ← hb, hi.header o' ho', drawId_mod]

/-- **When a pointer into a freed object passes.** -/
theorem Heap.Inv.stale_passes_iff {h : Heap} (hi : h.Inv) (ht : h.Tombstones) {o : Obj}
    (ho : o ∈ h.dead) {k : Nat} (hk : k < o.userSize) :
    (o.ptr + BitVec.ofNat 64 k).toNat < 2 ^ 48 ∨
        Vouched Config.failStop (readWord h.mem) (o.ptr + BitVec.ofNat 64 k) ↔ h.Collides o k := by
  have hs := hi.deadSigned o ho
  have hlt := o.base_add_lt hk
  have hx : 8 ≤ (xpac (o.ptr + BitVec.ofNat 64 k)).toNat := by
    rw [hs.xpac_toNat hlt, o.base_toNat]
    omega
  rw [hs.untagged_iff hlt, vouched_iff hx, Heap.Collides, hi.headerCollides_iff ht,
    ← hs.accepts_start_iff h.mem hlt, ← hs.examines_start_iff hlt]
  refine or_congr_right ?_
  constructor
  · rintro ⟨a, ha, hacc⟩
    rcases eq_or_ne a o.block.start with rfl | hne
    · exact Or.inl ⟨ha, hacc⟩
    · exact Or.inr ⟨a, hne, ha, hacc⟩
  · rintro (⟨ha, hacc⟩ | ⟨a, -, ha, hacc⟩)
    · exact ⟨_, ha, hacc⟩
    · exact ⟨a, ha, hacc⟩

/-! ## Calls of the allocation functions -/

/-- The call of the function with these arguments, which returns `w` and leaves the heap `h`, is the
action. -/
inductive HeapAction.Called (h : Heap) : HeapAction → String → List Word → Word → Prop where
  | malloc {size w : Word} {block : Block} {mem : Mem} {draw : Draw} :
      h.live.head?.map Obj.ptr = some w →
        Called h (.malloc size block mem draw) "__ptauth_malloc" [size] w
  | calloc {item sizeBlock w : Word} {block : Block} {mem : Mem} {draw : Draw} :
      h.live.head?.map Obj.ptr = some w →
        Called h (.calloc item sizeBlock block mem draw) "__ptauth_calloc" [item, sizeBlock] w
  | realloc {ptr size w : Word} {block : Block} {mem : Mem} {draw : Draw} :
      h.live.head?.map Obj.ptr = some w →
        Called h (.realloc ptr size block mem draw) "__ptauth_realloc" [ptr, size] w
  | free {ptr w : Word} {mem : Mem} : Called h (.free ptr mem) "__ptauth_free" [ptr] w

end PTAuth.Runtime
