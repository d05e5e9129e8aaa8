import PTAuth.Runtime.Realloc

/-!
# Reallocation as a second way to free

A ledger is a heap together with the objects that a `realloc` moved away and whose header has not
been handed out again; the freed ones are the heap's `vacant` objects. Reallocation treats both as
live ones. The pointer is not authenticated, so the block of a dangling or forged pointer is handed
to the underlying `realloc` like any other (`realloc_guarded_iff`). The header of a block that moved
is left as it is, so the pointers of the old object authenticate against it until the location is
handed out again (`moved_tag_not_dead`).
-/

set_option autoImplicit false

namespace PTAuth.Runtime

open PTAuth.Library

/-- A heap with the objects that were moved away. -/
structure Ledger where
  heap : Heap
  moved : List Obj

/-- The ledger before the first allocation. -/
def Ledger.initial (m : Mem) : Ledger where
  heap := Heap.initial m
  moved := []

/-- The live objects with pointer `ptr` whose block a `realloc` into `block` gives back. -/
def Ledger.leaving (l : Ledger) (ptr : Word) (block : Block) : List Obj :=
  l.heap.live.filter fun o => o.ptr = ptr ∧ block.start ≠ o.block.start

/-- The objects that were moved away after an action: a block that is handed out takes the objects
off whose header it covers. -/
def Ledger.movedAfter (l : Ledger) : HeapAction → List Obj
  | .malloc _ block _ _ => l.moved.filter fun v => v.block.HeaderOutside block
  | .calloc _ _ block _ _ => l.moved.filter fun v => v.block.HeaderOutside block
  | .realloc ptr _ block _ _ =>
      (l.leaving ptr block ++ l.moved).filter fun v => v.block.HeaderOutside block
  | .free _ _ => l.moved
  | .write _ _ => l.moved

/-- The effect of an action. -/
def Ledger.step (l : Ledger) (a : HeapAction) : Option Ledger :=
  (l.heap.step a).map fun h => { heap := h, moved := l.movedAfter a }

/-- The heap machine with its ledger. -/
def ledgerMachine : Machine Ledger HeapAction where
  guard l a := l.heap.Guard a
  step := Ledger.step

/-- A run of the ledger is a run of its heap. -/
theorem Ledger.reachable_heap {m : Mem} {l : Ledger}
    (hr : ledgerMachine.Reachable (Ledger.initial m) l) :
    heapMachine.Reachable (Heap.initial m) l.heap := by
  refine hr.invariant (I := fun l => heapMachine.Reachable (Heap.initial m) l.heap) ?_
    (Machine.Reachable.refl _ _)
  intro t a u ht hg hs
  obtain ⟨h, hstep, rfl⟩ := Option.map_eq_some_iff.1 hs
  exact ht.snoc hg hstep

/-! ## Guarding reallocation -/

/-- The pointer goes into an object that was freed or moved away, and not reused. -/
def Ledger.Given (l : Ledger) (q : Word) : Prop :=
  ∃ o ∈ l.heap.vacant ++ l.moved, ∃ k, o.Offset k ∧ q = o.ptr + BitVec.ofNat 64 k

/-- Whatever the underlying `realloc` does, a block is handed to it only if the pointer authenticates
against the word below its stripped address; on a pointer that does not, or that is given back, the
function terminates or fails over unchanged memory. -/
def Ledger.ReallocGuarded (l : Ledger) (q size : Word) : Prop :=
  ∀ (realloc : Word → Word → Mem → Answer) (d : Draw),
    ((ptauthReallocRun Config.shipped true realloc d q size l.heap.mem).handed ≠ none →
        autia Config.shipped q (readWord l.heap.mem (headerBelow q)) ≠ 0) ∧
      (autia Config.shipped q (readWord l.heap.mem (headerBelow q)) = 0 ∨ l.Given q →
        (∃ code, (ptauthReallocRun Config.shipped true realloc d q size l.heap.mem).outcome =
            .exited code) ∨
          (ptauthReallocRun Config.shipped true realloc d q size l.heap.mem).outcome = .faulted ∨
          (ptauthReallocRun Config.shipped true realloc d q size l.heap.mem).outcome =
            .returned 0 l.heap.mem)

/-- **When reallocation is guarded.** Exactly on the pointers that authenticate and go into no object
that was given back: nothing is checked. -/
theorem realloc_guarded_iff (l : Ledger) {q : Word} (hq : q ≠ 0) (size : Word) :
    l.ReallocGuarded q size ↔
      autia Config.shipped q (readWord l.heap.mem (headerBelow q)) ≠ 0 ∧ ¬ l.Given q := by
  constructor
  · intro hguarded
    -- an underlying `realloc` that keeps the block where it is
    obtain ⟨hhanded, hfails⟩ := hguarded (fun a _ m => ⟨a, m⟩) ⟨0, 0, 0⟩
    have hrun : (ptauthReallocRun Config.shipped true (fun a _ m => ⟨a, m⟩) ⟨0, 0, 0⟩ q size
        l.heap.mem).outcome = .returned q l.heap.mem := if_neg (not_not.2 rfl)
    refine ⟨hhanded fun h => ?_, fun hgiven => ?_⟩
    · rw [ptauthReallocRun_handed] at h
      cases h
    · rcases hfails (Or.inr hgiven) with ⟨code, h⟩ | h | h
      · rw [hrun] at h
        cases h
      · rw [hrun] at h
        cases h
      · rw [hrun] at h
        exact hq (AllocOutcome.returned.inj h).1
  · rintro ⟨hauth, hgiven⟩ realloc d
    refine ⟨fun _ => hauth, ?_⟩
    rintro (hzero | hgiven')
    · exact absurd hzero hauth
    · exact absurd hgiven' hgiven

/-- The ledger of the heap with one live object. -/
def pageLedger (draw : Draw) : Ledger where
  heap := pageHeap draw
  moved := []

theorem realloc_guarded_page :
    (pageLedger ⟨0, 0, 0⟩).ReallocGuarded (Obj.new pageBlock ⟨0, 0, 0⟩).ptr 80 ↔
      autia Config.shipped (Obj.new pageBlock ⟨0, 0, 0⟩).ptr
          (readWord (pageHeap ⟨0, 0, 0⟩).mem (headerBelow (Obj.new pageBlock ⟨0, 0, 0⟩).ptr)) ≠ 0 ∧
        ¬ (pageLedger ⟨0, 0, 0⟩).Given (Obj.new pageBlock ⟨0, 0, 0⟩).ptr :=
  realloc_guarded_iff (pageLedger ⟨0, 0, 0⟩) (by decide +kernel) 80

/-- A forged pointer into memory that was never allocated is reallocated. -/
theorem realloc_not_guarded :
    ¬ ∀ (m : Mem) (l : Ledger), ledgerMachine.Reachable (Ledger.initial m) l →
      ∀ q size : Word, q ≠ 0 → l.ReallocGuarded q size := by
  intro hclaim
  obtain ⟨hhanded, -⟩ := hclaim (fun _ => 0) _ (Machine.Reachable.refl ledgerMachine _)
    0x5500000000001000 40 (by decide) (fun a _ m => ⟨a, m⟩) ⟨0, 0, 0⟩
  refine absurd (hhanded fun h => ?_) (by decide)
  rw [ptauthReallocRun_handed] at h
  cases h

/-! ## Moving away -/

/-- The promise that the headers of moved objects are left alone until they are handed out again: by
the underlying functions, and by the `realloc` that frees the block. -/
def Ledger.KeepsMoved (l : Ledger) : HeapAction → Prop
  | .malloc _ block mem _ =>
      ∀ v ∈ l.moved, v.block.HeaderOutside block → v.block.HeaderAgree l.heap.mem mem
  | .calloc _ _ block mem _ =>
      ∀ v ∈ l.moved, v.block.HeaderOutside block → v.block.HeaderAgree l.heap.mem mem
  | .realloc ptr _ block mem _ =>
      ∀ v ∈ l.leaving ptr block ++ l.moved, v.block.HeaderOutside block →
        v.block.HeaderAgree l.heap.mem mem
  | .free ptr mem =>
      ∀ arg m, ptauthFree Config.shipped l.heap.mem ptr = .freed arg m →
        ∀ v ∈ l.moved, v.block.HeaderAgree m mem
  | .write _ _ => True

/-- The machine in which moved blocks keep their headers. -/
def movedMachine : Machine Ledger HeapAction := ledgerMachine.restrict Ledger.KeepsMoved

/-- A moved object's header holds its id, outside every live block. -/
structure Ledger.Kept (l : Ledger) : Prop where
  signed : ∀ v ∈ l.moved, v.Signed
  outside : ∀ v ∈ l.moved, ∀ o ∈ l.heap.live, v.block.HeaderOutside o.block
  header : ∀ v ∈ l.moved, readWord l.heap.mem v.block.start = drawId v.draw

theorem Ledger.Kept.initial (m : Mem) : (Ledger.initial m).Kept where
  signed := fun _ hv => absurd hv List.not_mem_nil
  outside := fun _ hv => absurd hv List.not_mem_nil
  header := fun _ hv => absurd hv List.not_mem_nil

/-- A block that is handed out keeps the moved objects whose header it does not cover. The objects
`vs` are the moved ones and those that leave with this step, `live` those that stay. -/
theorem Ledger.Kept.adopt {h : Heap} {vs : List Obj} (hk : Ledger.Kept { heap := h, moved := vs })
    {o : Obj} {m : Mem}
    (hm : ∀ v ∈ vs, v.block.HeaderOutside o.block → v.block.HeaderAgree h.mem m) :
    Ledger.Kept { heap := h.adopt o m
                  moved := vs.filter fun v => v.block.HeaderOutside o.block } := by
  have hmem : ∀ v ∈ vs.filter fun v => v.block.HeaderOutside o.block,
      v ∈ vs ∧ v.block.HeaderOutside o.block := by
    intro v hv
    obtain ⟨hv, hout⟩ := List.mem_filter.1 hv
    exact ⟨hv, of_decide_eq_true hout⟩
  refine ⟨fun v hv => hk.signed v (hmem v hv).1, fun v hv o' ho' => ?_, fun v hv => ?_⟩
  · obtain ⟨hv, hout⟩ := hmem v hv
    rcases List.mem_cons.1 ho' with rfl | ho'
    · exact hout
    · exact hk.outside v hv o' ho'
  · obtain ⟨hv, hout⟩ := hmem v hv
    exact (hm v hv hout).readWord.trans (hk.header v hv)

/-- An object that leaves is kept like the moved ones, while its header is not handed out. -/
theorem Ledger.Kept.leave {l : Ledger} (hi : l.heap.Inv) (hk : l.Kept) (ptr : Word)
    (block : Block) :
    Ledger.Kept { heap := l.heap.without ptr, moved := l.leaving ptr block ++ l.moved } := by
  have hmem : ∀ v ∈ l.leaving ptr block ++ l.moved,
      (v ∈ l.heap.live ∧ v.ptr = ptr) ∨ v ∈ l.moved := by
    intro v hv
    rcases List.mem_append.1 hv with hv | hv
    · obtain ⟨hv, hleaves⟩ := List.mem_filter.1 hv
      exact Or.inl ⟨hv, (of_decide_eq_true hleaves).1⟩
    · exact Or.inr hv
  refine ⟨fun v hv => ?_, fun v hv o ho => ?_, fun v hv => ?_⟩
  · rcases hmem v hv with ⟨hlive, -⟩ | hmoved
    · exact hi.signed v hlive
    · exact hk.signed v hmoved
  · rcases hmem v hv with ⟨hlive, rfl⟩ | hmoved
    · exact (hi.disjoint_without hlive ho).headerOutside (hi.signed v hlive).fits
    · exact hk.outside v hmoved o (Heap.mem_without.1 ho).1
  · rcases hmem v hv with ⟨hlive, -⟩ | hmoved
    · exact hi.header v hlive
    · exact hk.header v hmoved

/-- **One step keeps the headers of moved objects.** -/
theorem Ledger.Kept.step {l l' : Ledger} {a : HeapAction} (hi : l.heap.Inv) (hk : l.Kept)
    (hg : l.heap.Guard a) (hkeep : l.KeepsMoved a) (hs : l.step a = some l') : l'.Kept := by
  obtain ⟨h', hstep, rfl⟩ := Option.map_eq_some_iff.1 hs
  cases a with
  | malloc size block mem draw =>
      obtain ⟨-, hsize, -⟩ := hg
      rw [Heap.step_malloc] at hstep
      obtain rfl := Option.some.inj hstep
      refine hk.adopt fun v hv hout => (hkeep v hv hout).trans ?_
      exact hout.writeWord (c := block) (by omega) mem (drawId draw)
  | calloc item sizeBlock block mem draw =>
      obtain ⟨hitem, -, hsize, -⟩ := hg
      rw [Heap.step_calloc] at hstep
      obtain rfl := Option.some.inj hstep
      have hfit : 1 * 8 ≤ item.toNat * (sizeBlock.toNat + 8) :=
        Nat.mul_le_mul hitem (Nat.le_add_left _ _)
      refine hk.adopt fun v hv hout => (hkeep v hv hout).trans ?_
      exact hout.writeWord (c := block) (by omega) mem (drawId draw)
  | realloc ptr size block mem draw =>
      obtain ⟨h8, hsize, -, o, ho, rfl, -⟩ := hg
      have hleft := hk.leave hi o.ptr block
      rcases eq_or_ne block.start o.block.start with hb | hb
      · rw [hi.step_realloc_stays ho size hb] at hstep
        obtain rfl := Option.some.inj hstep
        exact hleft.adopt (o := ⟨block, o.ptr, o.draw⟩) hkeep
      · rw [hi.step_realloc_moves ho size hb] at hstep
        obtain rfl := Option.some.inj hstep
        refine hleft.adopt (o := Obj.new block draw) fun v hv hout => (hkeep v hv hout).trans ?_
        exact hout.writeWord (c := block) (by omega) mem (drawId draw)
  | free ptr mem =>
      obtain ⟨⟨o, ho, rfl⟩, -⟩ := hg
      rw [hi.step_free ho] at hstep
      obtain rfl := Option.some.inj hstep
      refine ⟨hk.signed, fun v hv o' ho' => ?_, fun v hv => ?_⟩
      · exact hk.outside v hv o' (Heap.mem_without.1 ho').1
      · -- the tombstone lands in the freed block, away from the moved headers
        have hwrite := (hk.outside v hv o ho).writeWord (hi.signed o ho).fits l.heap.mem 2
        have hagree := hwrite.trans (hkeep _ _ (hi.free_live ho).2 v hv)
        exact hagree.readWord.trans (hk.header v hv)
  | write addr byte =>
      obtain ⟨o, ho, haddr⟩ := hg
      obtain rfl := Option.some.inj hstep
      refine ⟨hk.signed, hk.outside, fun v hv => ?_⟩
      have hagree := (hk.outside v hv o ho).update haddr l.heap.mem byte
      exact hagree.readWord.trans (hk.header v hv)

theorem Ledger.kept_of_reachable {m : Mem} {l : Ledger}
    (hr : movedMachine.Reachable (Ledger.initial m) l) : l.Kept :=
  hr.invariant_restrict (fun _ hr => heap_invariant (Ledger.reachable_heap hr))
    (fun _ _ _ hi hk hg hkeep hs => Ledger.Kept.step hi hk hg hkeep hs) (Ledger.Kept.initial m)

/-- No pointer with the tag of the object authenticates against the word in its header. -/
def Obj.TagDead (o : Obj) (m : Mem) : Prop :=
  ∀ q : Word, q.toNat / 2 ^ 56 = o.tag → ¬ Accepts Config.shipped (readWord m) q o.block.start

/-- **The tag of a moved object never dies.** In every reachable state and for every object that a
`realloc` moved away, up to the next allocation at its header: its old base pointer carries the tag
and authenticates. -/
theorem moved_tag_not_dead {m : Mem} {l : Ledger}
    (hr : movedMachine.Reachable (Ledger.initial m) l) {o : Obj} (ho : o ∈ l.moved) :
    ¬ o.TagDead l.heap.mem := by
  have hk := Ledger.kept_of_reachable hr
  have hs := hk.signed o ho
  have htag := hs.tag_eq (o.base_lt hs.fits)
  have haccepts := hs.accepts_header (hk.header o ho) (o.base_lt hs.fits)
  rw [o.ptr_add_zero] at htag haccepts
  exact fun hdead => hdead o.ptr htag haccepts

/-- A block of 80 bytes at `0x2000`. -/
def secondBlock : Block where
  start := 0x2000
  size := 80
  aligned := by decide
  low := by decide
  high := by decide

/-- What the underlying `realloc` leaves when it copies the block at `0x1000` to `0x2000`. -/
def copiedMem (draw : Draw) : Mem := fun a =>
  (pageHeap draw).mem (if 0x2000 ≤ a.toNat then a - 0x1000 else a)

/-- The ledger after an object at `0x1000` was moved to `0x2000`. -/
def movedLedger (draw draw' : Draw) : Ledger where
  heap := ((pageHeap draw).without (Obj.new pageBlock draw).ptr).adopt (Obj.new secondBlock draw')
    (writeWord (copiedMem draw) 0x2000 (drawId draw'))
  moved := [Obj.new pageBlock draw]

theorem copiedMem_second (draw : Draw) {i : Nat} (hi : i < 48) :
    copiedMem draw (0x2000 + BitVec.ofNat 64 i) =
      (pageHeap draw).mem (0x1000 + BitVec.ofNat 64 i) := by
  have hval : (0x2000 + BitVec.ofNat 64 i : Word).toNat = 0x2000 + i := by
    rw [BitVec.toNat_add, BitVec.toNat_ofNat]
    simp only [BitVec.reduceToNat]
    omega
  have hshift : (0x2000 + BitVec.ofNat 64 i : Word) - 0x1000 = 0x1000 + BitVec.ofNat 64 i := by
    bv_omega
  rw [copiedMem, hval, if_pos (Nat.le_add_right _ _), hshift]

theorem copiedMem_first (draw : Draw) {a : Word} (ha : a.toNat < 0x2000) :
    copiedMem draw a = (pageHeap draw).mem a := by
  rw [copiedMem, if_neg (Nat.not_le.2 ha)]

theorem secondBlock_ne : secondBlock.start ≠ pageBlock.start := by decide

theorem pageLedger_leaving (draw : Draw) :
    (pageLedger draw).leaving (Obj.new pageBlock draw).ptr secondBlock = [Obj.new pageBlock draw] :=
  List.filter_cons_of_pos (decide_eq_true ⟨rfl, secondBlock_ne⟩)

theorem movedLedger_reachable (draw draw' : Draw) :
    movedMachine.Reachable (Ledger.initial fun _ => 0) (movedLedger draw draw') := by
  have hstep : (Ledger.initial fun _ => 0).step (.malloc 40 pageBlock (fun _ => 0) draw) =
      some (pageLedger draw) := by
    rw [Ledger.step, Ledger.initial, Heap.step_malloc]
    rfl
  have hguard : (Heap.initial fun _ => 0).Guard (.malloc 40 pageBlock (fun _ => 0) draw) :=
    ⟨by decide, rfl, fun o ho => absurd ho List.not_mem_nil⟩
  have hfirst : movedMachine.Reachable (Ledger.initial fun _ => 0) (pageLedger draw) :=
    (Machine.Reachable.refl movedMachine _).snoc
      (a := .malloc 40 pageBlock (fun _ => 0) draw)
      ⟨hguard, fun v hv => absurd hv List.not_mem_nil⟩ hstep
  have hi := heap_invariant (Ledger.reachable_heap hfirst.of_restrict)
  have hmem : Obj.new pageBlock draw ∈ (pageLedger draw).heap.live := List.mem_cons_self
  have hmove : (pageLedger draw).step
      (.realloc (Obj.new pageBlock draw).ptr 80 secondBlock (copiedMem draw) draw') =
        some (movedLedger draw draw') := by
    rw [Ledger.step, hi.step_realloc_moves hmem 80 secondBlock_ne, Option.map_some,
      Ledger.movedAfter, pageLedger_leaving]
    rfl
  refine hfirst.snoc (a := .realloc (Obj.new pageBlock draw).ptr 80 secondBlock (copiedMem draw)
    draw') ⟨⟨by decide, rfl, fun o ho => ?_, _, hmem, rfl, fun i hi48 => ?_⟩,
      fun v hv hout => ?_⟩ hmove
  · have hne := (Heap.mem_without.1 ho).2
    rw [List.mem_singleton.1 (Heap.mem_without.1 ho).1] at hne
    exact absurd rfl hne
  · exact copiedMem_second draw (lt_of_lt_of_le hi48 (min_le_left _ _))
  · rw [pageLedger_leaving] at hv
    rw [List.mem_singleton.1 hv]
    intro i hi8
    apply copiedMem_first draw
    rw [Block.start_add_toNat _ (by omega)]
    have hstart : (Obj.new pageBlock draw).block.start.toNat = 0x1000 := rfl
    omega

theorem moved_tag_not_dead_page :
    ¬ (Obj.new pageBlock ⟨0, 0, 0⟩).TagDead (movedLedger ⟨0, 0, 0⟩ ⟨0, 0, 1⟩).heap.mem :=
  moved_tag_not_dead (movedLedger_reachable ⟨0, 0, 0⟩ ⟨0, 0, 1⟩) List.mem_cons_self

/-- An object at `0x1000` is moved to `0x2000`: the old pointer still authenticates. -/
theorem moved_pointer_accepted :
    ¬ ∀ (m : Mem) (l : Ledger), movedMachine.Reachable (Ledger.initial m) l →
      ∀ o ∈ l.moved, o.TagDead l.heap.mem := by
  intro hclaim
  have hdead := hclaim _ _ (movedLedger_reachable ⟨0, 0, 0⟩ ⟨0, 0, 1⟩)
    (Obj.new pageBlock ⟨0, 0, 0⟩) List.mem_cons_self
  exact absurd (hdead (Obj.new pageBlock ⟨0, 0, 0⟩).ptr (by decide +kernel)) (by decide +kernel)

end PTAuth.Runtime
