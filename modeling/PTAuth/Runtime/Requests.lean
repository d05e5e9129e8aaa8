import PTAuth.Runtime.Heap

/-!
# Requested sizes and failed requests

`__ptauth_malloc` and `__ptauth_calloc` add the eight bytes of the header to the size they pass on,
in 64-bit arithmetic. A request is honoured exactly when the sum does not wrap and, for `calloc`,
there is an item to carry the header (`requests_honoured_iff`).

None of the three allocation functions looks at the pointer that the underlying allocator returns:
`initMD` stores the id through a null pointer (`failed_requests_not_atomic`).
-/

set_option autoImplicit false

namespace PTAuth.Runtime

open PTAuth.Library PTAuth.Library.ByteMemory

/-! ## Honoured requests -/

/-- The `n` bytes at `a` hold the header and `user` bytes, and between `m` and `m'` no byte outside
them was changed. -/
structure Honours (a : Word) (n user : Nat) (m m' : Mem) : Prop where
  room : 8 + user ≤ n
  inside : ∀ x, m' x ≠ m x → (x - a).toNat < n

/-- `__ptauth_malloc` honours a request, the underlying `malloc` having returned a block of the size
it was asked for. -/
def MallocHonours (cfg : Config) (malloc : Word → Mem → Answer) (d : Draw) (size : Word) (m : Mem) :
    Prop :=
  ∃ p m', ptauthMalloc cfg true malloc d size m = .returned p m' ∧
    Honours (malloc (size + 8) m).ptr (size + 8).toNat size.toNat (malloc (size + 8) m).mem m'

/-- `__ptauth_calloc` honours a request: there is room for the exact product, and all of it is zero. -/
def CallocHonours (cfg : Config) (calloc : Word → Word → Mem → Answer) (d : Draw)
    (item sizeBlock : Word) (m : Mem) : Prop :=
  ∃ p m', ptauthCalloc cfg true calloc d item sizeBlock m = .returned p m' ∧
    Honours (calloc item (sizeBlock + 8) m).ptr (item.toNat * (sizeBlock + 8).toNat)
      (item.toNat * sizeBlock.toNat) (calloc item (sizeBlock + 8) m).mem m' ∧
    ∀ i < item.toNat * sizeBlock.toNat,
      m' ((calloc item (sizeBlock + 8) m).ptr + BitVec.ofNat 64 (8 + i)) = 0

/-- What the library promises of `calloc`: no block for a product beyond 64 bits, and zero bytes. -/
structure CallocSpec (calloc : Word → Word → Mem → Answer) : Prop where
  overflow : ∀ a b m, 2 ^ 64 ≤ a.toNat * b.toNat → (calloc a b m).ptr = 0
  zero : ∀ a b m, (calloc a b m).ptr ≠ 0 → ∀ i < a.toNat * b.toNat,
    (calloc a b m).mem ((calloc a b m).ptr + BitVec.ofNat 64 i) = 0

/-- The header write changes the eight bytes at the start of the block. -/
theorem sub_toNat_lt_of_writeWord_ne {m : Mem} {a v x : Word} (h : writeWord m a v x ≠ m x) :
    (x - a).toNat < 8 := by
  by_contra hge
  exact h (writeWord_of_outside (Nat.not_lt.1 hge))

/-- The header write leaves the user bytes alone. -/
theorem writeWord_user (m : Mem) (a v : Word) {i : Nat} (hi : 8 + i < 2 ^ 64) :
    writeWord m a v (a + BitVec.ofNat 64 (8 + i)) = m (a + BitVec.ofNat 64 (8 + i)) := by
  apply writeWord_of_outside
  have hsub : (a + BitVec.ofNat 64 (8 + i) - a).toNat = 8 + i := by
    rw [BitVec.add_comm, BitVec.add_sub_cancel, BitVec.toNat_ofNat, Nat.mod_eq_of_lt hi]
  rw [hsub]
  exact Nat.le_add_right 8 i

/-- With a header's room the run of a header-initialising function honours the request. -/
theorem honours_of_room {a : Word} {n user : Nat} (hroom : 8 + user ≤ n) (m : Mem) (v : Word) :
    Honours a n user m (writeWord m a v) where
  room := hroom
  inside := by
    intro x hx
    have hlt := sub_toNat_lt_of_writeWord_ne hx
    omega

/-- The sum that reaches `malloc` has room for header and request exactly when it does not wrap. -/
theorem malloc_room_iff (size : Word) :
    8 + size.toNat ≤ (size + 8).toNat ↔ size.toNat + 8 < 2 ^ 64 := by
  have hlt := size.isLt
  rw [BitVec.toNat_add]
  simp only [BitVec.reduceToNat]
  omega

/-- The product that reaches `calloc` has room for header and request exactly when there is an item
and the item size does not wrap. -/
theorem calloc_room_iff (item sizeBlock : Word) :
    8 + item.toNat * sizeBlock.toNat ≤ item.toNat * (sizeBlock + 8).toNat ↔
      1 ≤ item.toNat ∧ sizeBlock.toNat + 8 < 2 ^ 64 := by
  have hlt := sizeBlock.isLt
  rw [BitVec.toNat_add]
  simp only [BitVec.reduceToNat]
  rcases Nat.lt_or_ge (sizeBlock.toNat + 8) (2 ^ 64) with hfit | hwrap
  · rw [Nat.mod_eq_of_lt hfit, Nat.mul_add]
    constructor
    · intro hroom
      exact ⟨by omega, hfit⟩
    · rintro ⟨hitem, -⟩
      omega
  · -- a wrapped item size is smaller than the one asked for
    have hle : (sizeBlock.toNat + 8) % 2 ^ 64 ≤ sizeBlock.toNat := by omega
    have hmul : item.toNat * ((sizeBlock.toNat + 8) % 2 ^ 64) ≤ item.toNat * sizeBlock.toNat :=
      Nat.mul_le_mul_left _ hle
    constructor
    · intro hroom
      omega
    · rintro ⟨-, hfit⟩
      omega

/-- **Which requests are honoured.** For `malloc` those to which the header can be added without a
wrap; for `calloc` those with at least one item to whose size it can be added. -/
theorem requests_honoured_iff (cfg : Config) (d : Draw) (m : Mem) :
    (∀ (malloc : Word → Mem → Answer) (size : Word), (malloc (size + 8) m).ptr ≠ 0 →
      (MallocHonours cfg malloc d size m ↔ size.toNat + 8 < 2 ^ 64)) ∧
    ∀ (calloc : Word → Word → Mem → Answer), CallocSpec calloc → ∀ item sizeBlock : Word,
      (calloc item (sizeBlock + 8) m).ptr ≠ 0 →
      (CallocHonours cfg calloc d item sizeBlock m ↔
        1 ≤ item.toNat ∧ sizeBlock.toNat + 8 < 2 ^ 64) := by
  constructor
  · intro malloc size hptr
    have hrun : ptauthMalloc cfg true malloc d size m = _ := initAndSign_of_ne_zero cfg d hptr
    constructor
    · rintro ⟨p, m', -, hhonours⟩
      exact (malloc_room_iff size).1 hhonours.room
    · intro hfit
      exact ⟨_, _, hrun, honours_of_room ((malloc_room_iff size).2 hfit) _ _⟩
  · intro calloc hspec item sizeBlock hptr
    have hrun : ptauthCalloc cfg true calloc d item sizeBlock m = _ :=
      initAndSign_of_ne_zero cfg d hptr
    constructor
    · rintro ⟨p, m', -, hhonours, -⟩
      exact (calloc_room_iff item sizeBlock).1 hhonours.room
    · intro hfit
      have hroom := (calloc_room_iff item sizeBlock).2 hfit
      have hbound : item.toNat * (sizeBlock + 8).toNat < 2 ^ 64 := by
        by_contra hge
        exact hptr (hspec.overflow item (sizeBlock + 8) m (Nat.not_lt.1 hge))
      refine ⟨_, _, hrun, honours_of_room hroom _ _, fun i hi => ?_⟩
      rw [writeWord_user _ _ _ (by omega)]
      exact hspec.zero item (sizeBlock + 8) m hptr (8 + i) (by omega)

/-- An allocator with one page of zero bytes at `0x1000`, for any request within 64 bits. -/
def pageCalloc (a b : Word) (m : Mem) : Answer :=
  if 2 ^ 64 ≤ a.toNat * b.toNat then ⟨0, m⟩ else ⟨0x1000, fun _ => 0⟩

theorem pageCalloc_spec : CallocSpec pageCalloc where
  overflow := by
    intro a b m h
    rw [pageCalloc, if_pos h]
  zero := by
    intro a b m hptr i _
    rw [pageCalloc] at hptr ⊢
    split at hptr
    · exact absurd rfl hptr
    · rename_i h
      rw [if_neg h]

theorem requests_honoured_page :
    (MallocHonours Config.shipped (fun _ m => ⟨0x1000, m⟩) ⟨0, 0, 1⟩ 40 (fun _ => 0) ↔
        (40 : Word).toNat + 8 < 2 ^ 64) ∧
      (CallocHonours Config.shipped pageCalloc ⟨0, 0, 1⟩ 5 8 (fun _ => 0) ↔
        1 ≤ (5 : Word).toNat ∧ (8 : Word).toNat + 8 < 2 ^ 64) := by
  obtain ⟨hmalloc, hcalloc⟩ := requests_honoured_iff Config.shipped ⟨0, 0, 1⟩ fun _ => 0
  exact ⟨hmalloc (fun _ m => ⟨0x1000, m⟩) 40 (by decide),
    hcalloc pageCalloc pageCalloc_spec 5 8 (by decide)⟩

/-- A request of `2 ^ 64 - 1` bytes asks the underlying `malloc` for seven, and the header is written
behind them. -/
theorem request_wraps :
    ¬ ∀ (malloc : Word → Mem → Answer) (d : Draw) (size : Word) (m : Mem),
      (malloc (size + 8) m).ptr ≠ 0 → MallocHonours Config.shipped malloc d size m := by
  intro hclaim
  obtain ⟨p, m', -, hhonours⟩ := hclaim (fun _ m => ⟨0x1000, m⟩) ⟨0, 0, 1⟩ 0xFFFFFFFFFFFFFFFF
    (fun _ => 0) (by decide)
  exact absurd hhonours.room (by decide)

/-! ## Failed requests -/

/-- A failed request returns an untagged null, over the memory that the underlying call left. -/
def FailsAtomically (ans : Answer) (out : AllocOutcome) : Prop := out = .returned 0 ans.mem

/-- The header of a null block cannot be initialised. -/
theorem initAndSign_of_zero (cfg : Config) (d : Draw) {ans : Answer} (h : ans.ptr = 0) :
    initAndSign cfg d ans = .faulted := by
  simp only [initAndSign, initMD, if_pos h]

/-- The null pointer is no block of a live object: `__ptauth_realloc` takes the branch for a block
that moved. -/
theorem Obj.Signed.ptauthRealloc_faults {o : Obj} (h : o.Signed) {cfg : Config}
    {realloc : Word → Word → Mem → Answer} {d : Draw} {size : Word} {m : Mem}
    (hnull : (realloc o.block.start size m).ptr = 0) :
    ptauthRealloc cfg true realloc d o.ptr size m = .faulted := by
  rw [ptauthRealloc, if_neg (by decide)]
  simp only [h.strip_sub]
  rw [if_pos]
  · exact initAndSign_of_zero cfg d hnull
  · rw [hnull]
    exact o.block.start_ne_zero

/-- **No failed request is atomic.** In every reachable state, each of the three functions faults when
the underlying call returns null. -/
theorem failed_requests_not_atomic {m : Mem} {h : Heap}
    (hr : heapMachine.Reachable (Heap.initial m) h) (d : Draw) :
    (∀ (malloc : Word → Mem → Answer) (size : Word), (malloc (size + 8) h.mem).ptr = 0 →
      ¬ FailsAtomically (malloc (size + 8) h.mem)
        (ptauthMalloc Config.shipped true malloc d size h.mem)) ∧
    (∀ (calloc : Word → Word → Mem → Answer) (item sizeBlock : Word),
      (calloc item (sizeBlock + 8) h.mem).ptr = 0 →
      ¬ FailsAtomically (calloc item (sizeBlock + 8) h.mem)
        (ptauthCalloc Config.shipped true calloc d item sizeBlock h.mem)) ∧
    ∀ (realloc : Word → Word → Mem → Answer) (size : Word), ∀ o ∈ h.live,
      (realloc o.block.start size h.mem).ptr = 0 →
      ¬ FailsAtomically (realloc o.block.start size h.mem)
        (ptauthRealloc Config.shipped true realloc d o.ptr size h.mem) := by
  have hne : ∀ {ans : Answer} {out : AllocOutcome}, out = .faulted → ¬ FailsAtomically ans out := by
    rintro ans out rfl hfails
    cases hfails
  refine ⟨fun malloc size hnull => ?_, fun calloc item sizeBlock hnull => ?_,
    fun realloc size o ho hnull => ?_⟩
  · exact hne (initAndSign_of_zero Config.shipped d hnull)
  · exact hne (initAndSign_of_zero Config.shipped d hnull)
  · exact hne (((heap_invariant hr).signed o ho).ptauthRealloc_faults hnull)

/-- The only object of the heap is to grow, and the underlying `realloc` has no memory left. -/
theorem failed_requests_not_atomic_page :
    ¬ FailsAtomically ⟨0, (pageHeap ⟨0, 0, 0⟩).mem⟩
      (ptauthRealloc Config.shipped true (fun _ _ m => ⟨0, m⟩) ⟨0, 0, 1⟩
        (Obj.new pageBlock ⟨0, 0, 0⟩).ptr 80 (pageHeap ⟨0, 0, 0⟩).mem) :=
  (failed_requests_not_atomic pageHeap_reached.of_restrict ⟨0, 0, 1⟩).2.2 (fun _ _ m => ⟨0, m⟩) 80
    (Obj.new pageBlock ⟨0, 0, 0⟩) List.mem_cons_self rfl

/-- The first request of a program fails: the process writes through null. -/
theorem failed_request_faults :
    ¬ ∀ (m : Mem) (h : Heap), heapMachine.Reachable (Heap.initial m) h →
      ∀ (d : Draw) (malloc : Word → Mem → Answer) (size : Word), (malloc (size + 8) h.mem).ptr = 0 →
        FailsAtomically (malloc (size + 8) h.mem)
          (ptauthMalloc Config.shipped true malloc d size h.mem) := by
  intro hclaim
  have hatomic := hclaim (fun _ => 0) _ (Machine.Reachable.refl heapMachine _) ⟨0, 0, 1⟩
    (fun _ m => ⟨0, m⟩) 40 rfl
  cases hatomic

end PTAuth.Runtime
