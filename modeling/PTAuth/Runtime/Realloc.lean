import PTAuth.Runtime.Temporal

/-!
# Reallocation

`__ptauth_realloc` passes the stripped pointer minus 8 and the requested size to the underlying
`realloc`. `ptauthReallocRun` is the function with a record of this call.

The requested size is passed on without room for the header, so the block never has the requested
number of user bytes (`realloc_contract_fails`); a reallocation is as good as one of eight bytes less
(`Heap.Inv.realloc_contract`, `reallocated_with_room`).
-/

set_option autoImplicit false

namespace PTAuth.Runtime

open PTAuth.Library PTAuth.Library.ByteMemory

/-! ## The call of the underlying function -/

/-- A run of `__ptauth_realloc`: what it handed to the underlying `realloc`, if it did, and how it
ended. -/
structure ReallocRun where
  handed : Option (Word × Word)
  outcome : AllocOutcome

/-- `__ptauth_realloc`, with a record of the call. -/
def ptauthReallocRun (cfg : Config) (tbi : Bool) (realloc : Word → Word → Mem → Answer) (d : Draw)
    (ptr size : Word) (m : Mem) : ReallocRun :=
  if !tbi then { handed := none, outcome := .exited 1 }
  else
    let placeholderptr := ptr
    let ptr := ptr &&& ~~~ maskHighBit
    let ans := realloc (ptr - 8) size m
    { handed := some (ptr - 8, size)
      outcome := if ptr - 8 ≠ ans.ptr then initAndSign cfg d ans
        else .returned placeholderptr ans.mem }

theorem ptauthReallocRun_outcome (cfg : Config) (tbi : Bool)
    (realloc : Word → Word → Mem → Answer) (d : Draw) (ptr size : Word) (m : Mem) :
    (ptauthReallocRun cfg tbi realloc d ptr size m).outcome =
      ptauthRealloc cfg tbi realloc d ptr size m := by
  cases tbi with
  | false => rfl
  | true => rfl

theorem ptauthReallocRun_handed (cfg : Config) (realloc : Word → Word → Mem → Answer) (d : Draw)
    (ptr size : Word) (m : Mem) :
    (ptauthReallocRun cfg true realloc d ptr size m).handed =
      some ((ptr &&& ~~~ maskHighBit) - 8, size) := rfl

/-! ## The contract -/

/-- The contract of a reallocation to `n` bytes of an object with `user` bytes at `base`: the result
authenticates against its header, the block has `n` bytes behind the header, and they start with the
bytes of the old object. The underlying `realloc` is assumed to return a block of the size it was
asked for. -/
def ReallocContract (cfg : Config) (run : ReallocRun) (m : Mem) (base : Word) (user n : Nat) :
    Prop :=
  ∃ a k q m', run.handed = some (a, k) ∧ run.outcome = .returned q m' ∧
    autia cfg q (readWord m' (headerBelow q)) ≠ 0 ∧ 8 + n ≤ k.toNat ∧
    ∀ i < min user n, m' (xpac q + BitVec.ofNat 64 i) = m (base + BitVec.ofNat 64 i)

/-- **The contract is never met.** Whatever the pointer, the object and the size: there is no room for
the header. -/
theorem realloc_contract_fails (cfg : Config) (realloc : Word → Word → Mem → Answer) (d : Draw)
    (ptr size : Word) (m : Mem) (base : Word) (user : Nat) :
    ¬ ReallocContract cfg (ptauthReallocRun cfg true realloc d ptr size m) m base user
      size.toNat := by
  rintro ⟨a, k, q, m', hhanded, -, -, hroom, -⟩
  rw [ptauthReallocRun_handed] at hhanded
  obtain ⟨-, rfl⟩ := Prod.mk.inj (Option.some.inj hhanded)
  omega

/-- The user byte `i` of a block. -/
theorem Block.user_add (b : Block) (i : Nat) :
    b.start + 8 + BitVec.ofNat 64 i = b.start + BitVec.ofNat 64 (8 + i) := by
  rw [BitVec.add_assoc, BitVec.ofNat_add]
  rfl

/-- A signed object with its header in memory authenticates. -/
theorem Obj.Signed.autia_ptr_ne_zero {o : Obj} (h : o.Signed) {m : Mem}
    (hheader : readWord m o.block.start = drawId o.draw) :
    autia Config.shipped o.ptr (readWord m (headerBelow o.ptr)) ≠ 0 := by
  rw [h.headerBelow_ptr, hheader, autia_of_authentic ((h.authentic_iff _).2 rfl), h.xpac_ptr]
  intro h0
  have hbase := o.base_toNat
  rw [h0] at hbase
  have hzero : (0 : Word).toNat = 0 := rfl
  omega

/-- **What a reallocation gives.** For a live object, the contract with eight bytes less than were
asked for, whether or not the block moves. -/
theorem Heap.Inv.realloc_contract {h : Heap} (hi : h.Inv) {o : Obj} (ho : o ∈ h.live)
    {realloc : Word → Word → Mem → Answer} (d : Draw) {size : Word} (h8 : 8 ≤ size.toNat)
    {block : Block} (hptr : (realloc o.block.start size h.mem).ptr = block.start)
    (hsize : block.size = size.toNat)
    (hcopy : ∀ i < min o.block.size size.toNat,
      (realloc o.block.start size h.mem).mem (block.start + BitVec.ofNat 64 i) =
        h.mem (o.block.start + BitVec.ofNat 64 i)) :
    ReallocContract Config.shipped
      (ptauthReallocRun Config.shipped true realloc d o.ptr size h.mem) h.mem o.base o.userSize
      (size.toNat - 8) := by
  have hs := hi.signed o ho
  have hfit := hs.fits
  have hsub := hs.strip_sub
  have hrun : ptauthReallocRun Config.shipped true realloc d o.ptr size h.mem =
      { handed := some (o.block.start, size)
        outcome := if o.block.start ≠ block.start
          then initAndSign Config.shipped d (realloc o.block.start size h.mem)
          else .returned o.ptr (realloc o.block.start size h.mem).mem } := by
    simp only [ptauthReallocRun, hsub, hptr]
    rfl
  -- the copied bytes behind the header
  have huser : ∀ i < min o.userSize (size.toNat - 8),
      (realloc o.block.start size h.mem).mem (block.start + 8 + BitVec.ofNat 64 i) =
        h.mem (o.base + BitVec.ofNat 64 i) := by
    intro i hi'
    have husersize : o.userSize = o.block.size - 8 := rfl
    rw [Obj.base, block.user_add, o.block.user_add]
    exact hcopy (8 + i) (by omega)
  rw [hrun]
  by_cases hmove : o.block.start = block.start
  · have hheader : readWord (realloc o.block.start size h.mem).mem o.block.start
        = drawId o.draw := by
      rw [← hi.header o ho]
      apply readWord_congr
      intro i hi8
      have := hcopy i (by omega)
      rwa [← hmove] at this
    refine ⟨_, _, _, _, rfl, if_neg (not_not.2 hmove), hs.autia_ptr_ne_zero hheader, by omega, ?_⟩
    rw [hs.xpac_ptr]
    intro i hi'
    rw [← huser i hi', ← hmove]
    rfl
  · have hnew : (Obj.new block d).Signed := Obj.new_signed d (by omega)
    have hans : realloc o.block.start size h.mem =
        ⟨block.start, (realloc o.block.start size h.mem).mem⟩ := by
      rw [← hptr]
    refine ⟨_, _, (Obj.new block d).ptr,
      writeWord (realloc o.block.start size h.mem).mem block.start (drawId d), rfl, ?_, ?_, by omega,
      ?_⟩
    · rw [if_pos hmove, hans]
      exact Heap.initAndSign_block block _ d
    · exact hnew.autia_ptr_ne_zero (readWord_writeWord _ _ _)
    · rw [hnew.xpac_ptr]
      intro i hi'
      have hhigh := block.high
      rw [← huser i hi']
      show writeWord _ block.start _ (block.start + 8 + BitVec.ofNat 64 i) = _
      rw [block.user_add]
      apply writeWord_of_outside
      rw [BitVec.toNat_sub, block.start_add_toNat (by omega)]
      omega

/-- **A caller that asks for eight bytes more** gets the contract, in every state that runs of the heap
reach. -/
theorem reallocated_with_room {m : Mem} {h : Heap} (hr : heapMachine.Reachable (Heap.initial m) h)
    {o : Obj} (ho : o ∈ h.live) {realloc : Word → Word → Mem → Answer} (d : Draw) {size : Word}
    {n : Nat} (hn : size.toNat = n + 8) {block : Block}
    (hptr : (realloc o.block.start size h.mem).ptr = block.start)
    (hsize : block.size = size.toNat)
    (hcopy : ∀ i < min o.block.size size.toNat,
      (realloc o.block.start size h.mem).mem (block.start + BitVec.ofNat 64 i) =
        h.mem (o.block.start + BitVec.ofNat 64 i)) :
    ReallocContract Config.shipped
      (ptauthReallocRun Config.shipped true realloc d o.ptr size h.mem) h.mem o.base o.userSize n := by
  have hcontract := (heap_invariant hr).realloc_contract ho d (by omega) hptr hsize hcopy
  rwa [hn, Nat.add_sub_cancel] at hcontract

/-- An object of 40 bytes, reallocated in place. -/
theorem reallocated_with_room_page :
    ReallocContract Config.shipped
      (ptauthReallocRun Config.shipped true (fun _ _ m => ⟨0x1000, m⟩) ⟨0, 0, 1⟩
        (Obj.new pageBlock ⟨0, 0, 0⟩).ptr 48 (pageHeap ⟨0, 0, 0⟩).mem)
      (pageHeap ⟨0, 0, 0⟩).mem (Obj.new pageBlock ⟨0, 0, 0⟩).base
      (Obj.new pageBlock ⟨0, 0, 0⟩).userSize 40 :=
  reallocated_with_room pageHeap_reached.of_restrict List.mem_cons_self ⟨0, 0, 1⟩ rfl
    (rfl : (0x1000 : Word) = pageBlock.start) rfl fun _ _ => rfl

/-- A live object of 40 bytes, reallocated in place to 48: the block has 40 user bytes. -/
theorem realloc_loses_header :
    ¬ ∀ (m : Mem) (h : Heap), heapMachine.Reachable (Heap.initial m) h → ∀ o ∈ h.live,
      ∀ (realloc : Word → Word → Mem → Answer) (d : Draw) (size : Word), 0 < size.toNat →
        (realloc o.block.start size h.mem).ptr ≠ 0 →
        (∀ i < min o.block.size size.toNat,
          (realloc o.block.start size h.mem).mem
              ((realloc o.block.start size h.mem).ptr + BitVec.ofNat 64 i) =
            h.mem (o.block.start + BitVec.ofNat 64 i)) →
        ReallocContract Config.shipped
          (ptauthReallocRun Config.shipped true realloc d o.ptr size h.mem) h.mem o.base o.userSize
          size.toNat := by
  intro hclaim
  obtain ⟨a, k, q, m', hhanded, -, -, hroom, -⟩ := hclaim (fun _ => 0) _
    pageHeap_reached.of_restrict (Obj.new pageBlock ⟨0, 0, 0⟩) List.mem_cons_self
    (fun _ _ m => ⟨0x1000, m⟩) ⟨0, 0, 1⟩ 48 (by decide) (by decide) fun _ _ => rfl
  rw [ptauthReallocRun_handed] at hhanded
  obtain ⟨-, rfl⟩ := Prod.mk.inj (Option.some.inj hhanded)
  exact absurd hroom (by decide)

end PTAuth.Runtime
