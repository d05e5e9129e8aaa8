import PTAuth.Runtime.Ownership

/-!
# Freed pointers

What keeps a freed base pointer from authenticating is the low byte of the word its header holds:
the tombstone 2 that `__ptauth_free` writes, until the block is handed out again, and the id of the
next object at that address afterwards. The pointer keeps the tag of the id it was signed with, so
it is rejected exactly when that id has another low byte.

The tombstone shares its low byte with one id in 256 (`tombstone_rejects_iff`). `initMD` seeds the
generator with the clock on every allocation, so the id is a function of the second in which an
object was allocated, and an address that is reused within that second revives its old pointer
(`stale_pointer_rejected_iff`).
-/

set_option autoImplicit false

namespace PTAuth.Runtime

open PTAuth.Library

/-- Neither the direct test of `validatePointer` nor the `__autia` call of `__ptauth_free` accepts
the pointer. -/
def Rejected (m : Mem) (ptr : Word) : Prop :=
  ¬ (readWord m (headerBelow ptr) ≠ 0 ∧
      autia Config.shipped ptr (readWord m (headerBelow ptr)) = xpac ptr) ∧
    autia Config.shipped ptr (readWord m (headerBelow ptr)) = 0

/-- The low byte of the id that `initMD` computes from a draw. -/
def Draw.idByte (d : Draw) : Nat := (d.rand1.toNat * 2 ^ 32 + d.rand2.toNat) % 899999999 % 256

theorem drawId_mod (d : Draw) : (drawId d).toNat % 256 = d.idByte := by
  rw [drawId_eq, Draw.idByte]
  omega

/-- A base pointer is rejected exactly when the word in its header has another low byte than the id
it was signed with. -/
theorem Obj.Signed.rejected_iff {o : Obj} (h : o.Signed) (m : Mem) :
    Rejected m o.ptr ↔ (readWord m o.block.start).toNat % 256 ≠ o.draw.idByte := by
  have hbase := o.base_toNat
  have hne : xpac o.ptr ≠ 0 := by
    rw [h.xpac_ptr]
    intro h0
    rw [h0] at hbase
    have hzero : (0 : Word).toNat = 0 := rfl
    omega
  rw [← drawId_mod, Ne, ← h.authentic_iff, Rejected, h.headerBelow_ptr,
    autia_eq_xpac_iff Config.shipped hne, autia_eq]
  constructor
  · rintro ⟨-, hzero⟩ hauth
    rw [if_pos hauth] at hzero
    exact hne hzero
  · intro hauth
    exact ⟨fun hdirect => hauth hdirect.2, if_neg hauth⟩

/-! ## The tombstone -/

/-- The promise that freed blocks keep their bytes: the underlying `free` leaves the freed block as
it is, and the allocator leaves the header of a freed block alone until it hands that header out
again. -/
def Heap.KeepsFreed (h : Heap) : HeapAction → Prop
  | .malloc _ block mem _ =>
      ∀ v ∈ h.vacant, v.block.HeaderOutside block → v.block.HeaderAgree h.mem mem
  | .calloc _ _ block mem _ =>
      ∀ v ∈ h.vacant, v.block.HeaderOutside block → v.block.HeaderAgree h.mem mem
  | .realloc _ _ _ _ _ => False
  | .free ptr mem =>
      ∀ arg m, ptauthFree Config.shipped h.mem ptr = .freed arg m →
        (∀ o ∈ h.live, o.ptr = ptr → o.block.Agree m mem) ∧
          ∀ v ∈ h.vacant, v.block.HeaderAgree m mem
  | .write _ _ => True

/-- The machine in which freed blocks keep their bytes. -/
def freedMachine : Machine Heap HeapAction := heapMachine.restrict Heap.KeepsFreed

/-- A freed object whose header has not been handed out again holds the tombstone, outside every
live block. -/
structure Heap.Tombstones (h : Heap) : Prop where
  signed : ∀ v ∈ h.vacant, v.Signed
  outside : ∀ v ∈ h.vacant, ∀ o ∈ h.live, v.block.HeaderOutside o.block
  header : ∀ v ∈ h.vacant, readWord h.mem v.block.start = 2

theorem Heap.Tombstones.initial (m : Mem) : (Heap.initial m).Tombstones where
  signed := fun _ hv => absurd hv List.not_mem_nil
  outside := fun _ hv => absurd hv List.not_mem_nil
  header := fun _ hv => absurd hv List.not_mem_nil

/-- A new object drops the freed ones whose header it covers, and leaves the other tombstones. -/
theorem Heap.Tombstones.adopt {h : Heap} (ht : h.Tombstones) {o : Obj} {m : Mem}
    (hkeep : ∀ v ∈ h.vacant, v.block.HeaderOutside o.block → v.block.HeaderAgree h.mem m) :
    (h.adopt o m).Tombstones := by
  have hvacant : ∀ v ∈ (h.adopt o m).vacant, v ∈ h.vacant ∧ v.block.HeaderOutside o.block := by
    intro v hv
    obtain ⟨hmem, hout⟩ := List.mem_filter.1 hv
    exact ⟨hmem, of_decide_eq_true hout⟩
  refine ⟨fun v hv => ht.signed v (hvacant v hv).1, fun v hv o' ho' => ?_, fun v hv => ?_⟩
  · obtain ⟨hmem, hout⟩ := hvacant v hv
    rcases List.mem_cons.1 ho' with rfl | ho'
    · exact hout
    · exact ht.outside v hmem o' ho'
  · obtain ⟨hmem, hout⟩ := hvacant v hv
    exact (hkeep v hmem hout).readWord.trans (ht.header v hmem)

/-- The header of an allocation leaves the tombstones outside its block. -/
theorem Heap.Tombstones.adopt_new {h : Heap} (ht : h.Tombstones) {block : Block} {mem : Mem}
    (draw : Draw) (hfit : 8 ≤ block.size)
    (hkeep : ∀ v ∈ h.vacant, v.block.HeaderOutside block → v.block.HeaderAgree h.mem mem) :
    (h.adopt (Obj.new block draw) (writeWord mem block.start (drawId draw))).Tombstones := by
  apply ht.adopt
  intro v hv hout
  exact (hkeep v hv hout).trans (hout.writeWord hfit mem (drawId draw))

/-- Freeing adds a tombstone and leaves the others. -/
theorem Heap.Tombstones.release {h : Heap} (ht : h.Tombstones) (hi : h.Inv) {o : Obj}
    (ho : o ∈ h.live) {mem : Mem}
    (hself : o.block.Agree (writeWord h.mem o.block.start 2) mem)
    (hkeep : ∀ v ∈ h.vacant, v.block.HeaderAgree (writeWord h.mem o.block.start 2) mem) :
    Heap.Tombstones { mem := mem, live := (h.without o.ptr).live, dead := o :: h.dead,
                      vacant := o :: h.vacant } := by
  have hs := hi.signed o ho
  refine ⟨fun v hv => ?_, fun v hv o' ho' => ?_, fun v hv => ?_⟩
  · rcases List.mem_cons.1 hv with rfl | hv
    · exact hs
    · exact ht.signed v hv
  · rcases List.mem_cons.1 hv with rfl | hv
    · exact (hi.disjoint_without ho ho').headerOutside hs.fits
    · exact ht.outside v hv o' (Heap.mem_without.1 ho').1
  · rcases List.mem_cons.1 hv with rfl | hv
    · exact (hself.header hs.fits).readWord.trans (readWord_writeWord _ _ _)
    · have hwrite := (ht.outside v hv o ho).writeWord hs.fits h.mem 2
      exact (hwrite.trans (hkeep v hv)).readWord.trans (ht.header v hv)

/-- **One step keeps the tombstones.** -/
theorem Heap.Tombstones.step {h h' : Heap} {a : HeapAction} (hi : h.Inv) (ht : h.Tombstones)
    (hg : h.Guard a) (hk : h.KeepsFreed a) (hs : h.step a = some h') : h'.Tombstones := by
  cases a with
  | malloc size block mem draw =>
      obtain ⟨-, hsize, -⟩ := hg
      rw [Heap.step_malloc] at hs
      obtain rfl := Option.some.inj hs
      exact ht.adopt_new draw (by omega) hk
  | calloc item sizeBlock block mem draw =>
      obtain ⟨hitem, -, hsize, -⟩ := hg
      rw [Heap.step_calloc] at hs
      obtain rfl := Option.some.inj hs
      have hfit : 1 * 8 ≤ item.toNat * (sizeBlock.toNat + 8) :=
        Nat.mul_le_mul hitem (Nat.le_add_left _ _)
      exact ht.adopt_new draw (by omega) hk
  | realloc ptr size block mem draw => exact absurd hk id
  | free ptr mem =>
      obtain ⟨⟨o, ho, rfl⟩, -⟩ := hg
      rw [hi.step_free ho] at hs
      obtain rfl := Option.some.inj hs
      obtain ⟨hself, hkeep⟩ := hk _ _ (hi.free_live ho).2
      exact ht.release hi ho (hself o ho rfl) hkeep
  | write addr byte =>
      obtain ⟨o, ho, haddr⟩ := hg
      obtain rfl := Option.some.inj hs
      refine ⟨ht.signed, ht.outside, fun v hv => ?_⟩
      have hagree := (ht.outside v hv o ho).update haddr h.mem byte
      exact hagree.readWord.trans (ht.header v hv)

theorem tombstones_of_reachable {m : Mem} {h : Heap}
    (hr : freedMachine.Reachable (Heap.initial m) h) : h.Tombstones :=
  hr.invariant_restrict (fun _ hr => heap_invariant hr)
    (fun _ _ _ hi ht hg hk hs => Heap.Tombstones.step hi ht hg hk hs) (Heap.Tombstones.initial m)

/-- **When a freed pointer is rejected.** In every reachable state, a freed base pointer whose
header has not been handed out again is rejected exactly when the low byte of its id is not that of
the tombstone. -/
theorem tombstone_rejects_iff {m : Mem} {h : Heap}
    (hr : freedMachine.Reachable (Heap.initial m) h) {o : Obj} (ho : o ∈ h.vacant) :
    Rejected h.mem o.ptr ↔ (o.draw.rand1.toNat * 2 ^ 32 + o.draw.rand2.toNat) % 899999999 % 256 ≠ 2
    := by
  have ht := tombstones_of_reachable hr
  rw [(ht.signed o ho).rejected_iff, ht.header o ho]
  exact ne_comm

/-- The heap after one allocation and its release. -/
def freedPage (draw : Draw) : Heap where
  mem := writeWord (pageHeap draw).mem 0x1000 2
  live := ((pageHeap draw).without (Obj.new pageBlock draw).ptr).live
  dead := [Obj.new pageBlock draw]
  vacant := [Obj.new pageBlock draw]

theorem freedPage_live (draw : Draw) : (freedPage draw).live = [] := by
  simp [freedPage, pageHeap, Heap.without, Heap.adopt, Heap.initial]

/-- The release, in every restriction that allows it. -/
theorem freedPage_run {P : Heap → HeapAction → Prop} (draw : Draw)
    (hP : P (Heap.initial fun _ => 0) (.malloc 40 pageBlock (fun _ => 0) draw))
    (hP' : P (pageHeap draw) (.free (Obj.new pageBlock draw).ptr (freedPage draw).mem)) :
    (heapMachine.restrict P).Run (Heap.initial fun _ => 0)
      [.malloc 40 pageBlock (fun _ => 0) draw,
        .free (Obj.new pageBlock draw).ptr (freedPage draw).mem] (freedPage draw) := by
  have hrun := pageHeap_run draw hP
  have hi := heap_invariant (Machine.Reachable.of_restrict ⟨_, hrun⟩)
  have hmem : Obj.new pageBlock draw ∈ (pageHeap draw).live := List.mem_cons_self
  refine hrun.snoc ⟨⟨⟨_, hmem, rfl⟩, fun arg m _ o ho => ?_⟩, hP'⟩ (hi.step_free hmem _)
  have hlive := freedPage_live draw
  rw [freedPage] at hlive
  rw [hlive] at ho
  exact absurd ho List.not_mem_nil

theorem freedPage_reachable (draw : Draw) :
    freedMachine.Reachable (Heap.initial fun _ => 0) (freedPage draw) := by
  refine ⟨_, freedPage_run draw (fun v hv => absurd hv List.not_mem_nil) fun arg m hfree => ?_⟩
  have hi := heap_invariant (Machine.Reachable.of_restrict
    ⟨_, pageHeap_run (P := fun _ a => a.NoRealloc) draw trivial⟩)
  rw [(hi.free_live (o := Obj.new pageBlock draw) List.mem_cons_self).2] at hfree
  obtain ⟨-, rfl⟩ := FreeOutcome.freed.inj hfree
  exact ⟨fun o _ _ a _ => rfl, fun v hv => absurd hv List.not_mem_nil⟩

theorem tombstone_rejects_page :
    Rejected (freedPage ⟨0, 0, 1⟩).mem (Obj.new pageBlock ⟨0, 0, 1⟩).ptr :=
  (tombstone_rejects_iff (freedPage_reachable ⟨0, 0, 1⟩) List.mem_cons_self).2 (by decide)

/-- When the second random number is 2 and the first 0, the freed pointer still authenticates. -/
theorem tombstone_authenticates :
    ¬ ∀ (m : Mem) (h : Heap), freedMachine.Reachable (Heap.initial m) h →
      ∀ o ∈ h.vacant, Rejected h.mem o.ptr := by
  intro hclaim
  have hrej := hclaim _ _ (freedPage_reachable ⟨0, 0, 2⟩) (Obj.new pageBlock ⟨0, 0, 2⟩)
    List.mem_cons_self
  exact absurd hrej.2 (by decide +kernel)

/-! ## Reuse of an address -/

/-- The draw of `initMD` at a reading of the clock: `srand` takes the low 32 bits as the seed, and
`rng` is the pair of numbers that `rand` returns after it. -/
def Draw.at (rng : BitVec 32 → BitVec 31 × BitVec 31) (time : Word) : Draw where
  time := time
  rand1 := (rng (time.setWidth 32)).1
  rand2 := (rng (time.setWidth 32)).2

/-- The promise that the random numbers of an allocation come from the seed. -/
def Heap.Seeded (rng : BitVec 32 → BitVec 31 × BitVec 31) (_ : Heap) : HeapAction → Prop
  | .malloc _ _ _ draw => draw = Draw.at rng draw.time
  | .calloc _ _ _ _ draw => draw = Draw.at rng draw.time
  | .realloc _ _ _ _ draw => draw = Draw.at rng draw.time
  | .free _ _ => True
  | .write _ _ => True

/-- The machine whose random numbers are seeded by the clock. -/
def seededMachine (rng : BitVec 32 → BitVec 31 × BitVec 31) : Machine Heap HeapAction :=
  heapMachine.restrict (Heap.Seeded rng)

/-- Every object drew its id at some reading of the clock. -/
def Heap.SeededObjs (rng : BitVec 32 → BitVec 31 × BitVec 31) (h : Heap) : Prop :=
  ∀ o, o ∈ h.live ∨ o ∈ h.dead → o.draw = Draw.at rng o.draw.time

theorem Heap.SeededObjs.adopt {rng : BitVec 32 → BitVec 31 × BitVec 31} {h : Heap}
    (hh : h.SeededObjs rng) {o : Obj} (m : Mem) (ho : o.draw = Draw.at rng o.draw.time) :
    (h.adopt o m).SeededObjs rng := by
  rintro o' (ho' | ho')
  · rcases List.mem_cons.1 ho' with rfl | ho'
    · exact ho
    · exact hh o' (Or.inl ho')
  · exact hh o' (Or.inr ho')

theorem Heap.SeededObjs.without {rng : BitVec 32 → BitVec 31 × BitVec 31} {h : Heap}
    (hh : h.SeededObjs rng) (p : Word) : (h.without p).SeededObjs rng := by
  rintro o (ho | ho)
  · exact hh o (Or.inl (Heap.mem_without.1 ho).1)
  · exact hh o (Or.inr ho)

theorem Heap.SeededObjs.step {rng : BitVec 32 → BitVec 31 × BitVec 31} {h h' : Heap}
    {a : HeapAction} (hi : h.Inv) (hh : h.SeededObjs rng) (hg : h.Guard a) (hk : h.Seeded rng a)
    (hs : h.step a = some h') : h'.SeededObjs rng := by
  cases a with
  | malloc size block mem draw =>
      rw [Heap.step_malloc] at hs
      obtain rfl := Option.some.inj hs
      exact hh.adopt _ hk
  | calloc item sizeBlock block mem draw =>
      rw [Heap.step_calloc] at hs
      obtain rfl := Option.some.inj hs
      exact hh.adopt _ hk
  | realloc ptr size block mem draw =>
      obtain ⟨-, -, -, o, ho, rfl, -⟩ := hg
      -- in place the object keeps its draw, a move draws at the clock
      rcases eq_or_ne block.start o.block.start with hb | hb
      · rw [hi.step_realloc_stays ho size hb] at hs
        obtain rfl := Option.some.inj hs
        exact (hh.without o.ptr).adopt _ (hh o (Or.inl ho))
      · rw [hi.step_realloc_moves ho size hb] at hs
        obtain rfl := Option.some.inj hs
        exact (hh.without o.ptr).adopt _ hk
  | free ptr mem =>
      obtain ⟨⟨o, ho, rfl⟩, -⟩ := hg
      rw [hi.step_free ho] at hs
      obtain rfl := Option.some.inj hs
      rintro o' (ho' | ho')
      · exact hh o' (Or.inl (Heap.mem_without.1 ho').1)
      · rcases List.mem_cons.1 ho' with rfl | ho'
        · exact hh o' (Or.inl ho)
        · exact hh o' (Or.inr ho')
  | write addr byte =>
      obtain rfl := Option.some.inj hs
      exact hh

theorem seededObjs_of_reachable {rng : BitVec 32 → BitVec 31 × BitVec 31} {m : Mem} {h : Heap}
    (hr : (seededMachine rng).Reachable (Heap.initial m) h) : h.SeededObjs rng := by
  refine hr.invariant_restrict (fun _ hr => heap_invariant hr)
    (fun _ _ _ hi hh hg hk hs => Heap.SeededObjs.step hi hh hg hk hs) ?_
  rintro o (ho | ho)
  · exact absurd ho List.not_mem_nil
  · exact absurd ho List.not_mem_nil

/-- **When a stale pointer stays rejected.** In every reachable state and for every sequence of
clock values, the pointer of a freed object is rejected over a live object at the same address
exactly when the ids drawn at the two readings of the clock differ in their low byte. An object that
`realloc` resized in place has the reading of its allocation, one that it moved that of the move. -/
theorem stale_pointer_rejected_iff {rng : BitVec 32 → BitVec 31 × BitVec 31} {m : Mem} {h : Heap}
    (hr : (seededMachine rng).Reachable (Heap.initial m) h) {o o' : Obj} (ho : o ∈ h.dead)
    (ho' : o' ∈ h.live) (hb : o'.block.start = o.block.start) :
    Rejected h.mem o.ptr ↔
      (Draw.at rng o'.draw.time).idByte ≠ (Draw.at rng o.draw.time).idByte := by
  have hi := heap_invariant hr.of_restrict
  have hseed := seededObjs_of_reachable hr
  rw [(hi.deadSigned o ho).rejected_iff, ← hb, hi.header o' ho', drawId_mod,
    ← hseed o (Or.inr ho), ← hseed o' (Or.inl ho')]

/-- The heap after an allocation, its release, and a second allocation in the same block. -/
def reusedPage (draw draw' : Draw) : Heap :=
  (freedPage draw).adopt (Obj.new pageBlock draw')
    (writeWord (freedPage draw).mem 0x1000 (drawId draw'))

theorem reusedPage_run (rng : BitVec 32 → BitVec 31 × BitVec 31) (time time' : Word) :
    (seededMachine rng).Run (Heap.initial fun _ => 0)
      [.malloc 40 pageBlock (fun _ => 0) (Draw.at rng time),
        .free (Obj.new pageBlock (Draw.at rng time)).ptr (freedPage (Draw.at rng time)).mem,
        .malloc 40 pageBlock (freedPage (Draw.at rng time)).mem (Draw.at rng time')]
      (reusedPage (Draw.at rng time) (Draw.at rng time')) := by
  refine Machine.Run.snoc (freedPage_run (Draw.at rng time) rfl trivial)
    ⟨⟨by decide, rfl, fun o ho => ?_⟩, rfl⟩ (Heap.step_malloc _ 40 pageBlock _ _)
  rw [freedPage_live] at ho
  exact absurd ho List.not_mem_nil

theorem stale_pointer_rejected_page :
    Rejected (reusedPage (Draw.at (fun s => (0, s.setWidth 31)) 0)
        (Draw.at (fun s => (0, s.setWidth 31)) 1)).mem
      (Obj.new pageBlock (Draw.at (fun s => (0, s.setWidth 31)) 0)).ptr := by
  have hlive : Obj.new pageBlock (Draw.at (fun s => (0, s.setWidth 31)) 1)
      ∈ (reusedPage (Draw.at (fun s => (0, s.setWidth 31)) 0)
        (Draw.at (fun s => (0, s.setWidth 31)) 1)).live := List.mem_cons_self
  exact (stale_pointer_rejected_iff ⟨_, reusedPage_run (fun s => (0, s.setWidth 31)) 0 1⟩
    List.mem_cons_self hlive rfl).2 (by decide)

/-- The reading of the clock in an action. -/
def HeapAction.clock : HeapAction → Option Word
  | .malloc _ _ _ draw => some draw.time
  | .calloc _ _ _ _ draw => some draw.time
  | .realloc _ _ _ _ draw => some draw.time
  | .free _ _ => none
  | .write _ _ => none

/-- Two allocations at one address within one second: the first pointer authenticates again. -/
theorem stale_pointer_revived :
    ¬ ∀ (rng : BitVec 32 → BitVec 31 × BitVec 31) (m : Mem) (as : List HeapAction) (h : Heap),
      (seededMachine rng).Run (Heap.initial m) as h →
      (as.filterMap HeapAction.clock).Pairwise (fun s t => s.toNat ≤ t.toNat) →
      ∀ o ∈ h.dead, ∀ o' ∈ h.live, o'.block.start = o.block.start → Rejected h.mem o.ptr := by
  intro hclaim
  have hclock : [(0 : Word), 0].Pairwise (fun s t => s.toNat ≤ t.toNat) := by decide
  have hrej := hclaim (fun _ => (0, 0)) _ _ _ (reusedPage_run (fun _ => (0, 0)) 0 0)
    hclock _ List.mem_cons_self _ List.mem_cons_self rfl
  exact absurd hrej.2 (by decide +kernel)

end PTAuth.Runtime
