import PTAuth.Runtime.Alloc
import PTAuth.Library.Machine
import Mathlib.Logic.Function.Basic
import Mathlib.Data.List.Pairwise

/-!
# The heap as a machine

States record memory and, as ghost data, the objects: live ones, freed ones, and the freed ones
whose header has not been handed out again. Actions are the four allocation functions with the
answers of the underlying allocator, and single-byte writes of the program. `heapMachine.step` runs
the functions of `Alloc`; `heapMachine.guard` is what the environment promises: the allocator
returns aligned blocks inside the address range that are disjoint from every other live block and
leaves live blocks alone, `realloc` copies, requests do not wrap, and the program frees and
reallocates base pointers of live objects and writes inside the user bytes of live objects.

`Heap.Inv` ties the header, the address and the tag of every object together; every step preserves
it (`heap_invariant`).
-/

set_option autoImplicit false

namespace PTAuth.Runtime

open PTAuth.Library

/-- A block of the underlying allocator: 16-byte aligned and inside `[1024, 2 ^ 48)`. -/
structure Block where
  start : Word
  size : Nat
  aligned : 16 ∣ start.toNat
  low : 1024 ≤ start.toNat
  high : start.toNat + size ≤ 2 ^ 48

/-- The addresses of a block. -/
def Block.Covers (b : Block) (a : Word) : Prop :=
  b.start.toNat ≤ a.toNat ∧ a.toNat < b.start.toNat + b.size

/-- Two blocks without a common address. -/
def Block.Disjoint (b c : Block) : Prop :=
  b.start.toNat + b.size ≤ c.start.toNat ∨ c.start.toNat + c.size ≤ b.start.toNat

/-- The eight header bytes of `b` lie outside `c`. -/
def Block.HeaderOutside (b c : Block) : Prop :=
  b.start.toNat + 8 ≤ c.start.toNat ∨ c.start.toNat + c.size ≤ b.start.toNat

instance (b c : Block) : Decidable (b.HeaderOutside c) := inferInstanceAs (Decidable (_ ∨ _))

/-- Two memories agree on a block. -/
def Block.Agree (b : Block) (m m' : Mem) : Prop := ∀ a, b.Covers a → m' a = m a

/-- Two memories agree on the header bytes of a block. -/
def Block.HeaderAgree (b : Block) (m m' : Mem) : Prop :=
  ∀ i < 8, m' (b.start + BitVec.ofNat 64 i) = m (b.start + BitVec.ofNat 64 i)

/-- An object: its block, the pointer that was returned for it, and the draw of its id. -/
structure Obj where
  block : Block
  ptr : Word
  draw : Draw

/-- The object that an allocation function creates in a block of the underlying allocator. -/
def Obj.new (block : Block) (draw : Draw) : Obj where
  block := block
  ptr := pacia Config.shipped (block.start + 8) (drawId draw)
  draw := draw

/-- The address of the user bytes. -/
def Obj.base (o : Obj) : Word := o.block.start + 8

/-- The number of user bytes: the block without its header. -/
def Obj.userSize (o : Obj) : Nat := o.block.size - 8

/-- `a` is the address of a user byte. -/
def Obj.UserByte (o : Obj) (a : Word) : Prop :=
  o.block.start.toNat + 8 ≤ a.toNat ∧ a.toNat < o.block.start.toNat + o.block.size

/-- Memory and ghost data. -/
structure Heap where
  mem : Mem
  live : List Obj
  dead : List Obj
  vacant : List Obj

/-- The heap before the first allocation. -/
def Heap.initial (m : Mem) : Heap where
  mem := m
  live := []
  dead := []
  vacant := []

/-- A new object. Freed objects whose header it covers are no longer vacant. -/
def Heap.adopt (h : Heap) (o : Obj) (m : Mem) : Heap where
  mem := m
  live := o :: h.live
  dead := h.dead
  vacant := h.vacant.filter fun v => v.block.HeaderOutside o.block

/-- The live objects except the one with base pointer `p`. -/
def Heap.without (h : Heap) (p : Word) : Heap := { h with live := h.live.filter fun o => o.ptr ≠ p }

/-- What can happen to the heap. The allocation actions carry the block and the memory that the
underlying allocator answers with. -/
inductive HeapAction where
  | malloc (size : Word) (block : Block) (mem : Mem) (draw : Draw)
  | calloc (item sizeBlock : Word) (block : Block) (mem : Mem) (draw : Draw)
  | realloc (ptr size : Word) (block : Block) (mem : Mem) (draw : Draw)
  | free (ptr : Word) (mem : Mem)
  | write (addr : Word) (byte : BitVec 8)

/-- The action is no `realloc`. -/
def HeapAction.NoRealloc : HeapAction → Prop
  | .realloc _ _ _ _ _ => False
  | _ => True

/-- The effect of an action: the code runs, and the ghost data follows. -/
def Heap.step (h : Heap) : HeapAction → Option Heap
  | .malloc size block mem draw =>
      match ptauthMalloc Config.shipped true (fun _ _ => ⟨block.start, mem⟩) draw size h.mem with
      | .returned p m => some (h.adopt ⟨block, p, draw⟩ m)
      | _ => none
  | .calloc item sizeBlock block mem draw =>
      match ptauthCalloc Config.shipped true (fun _ _ _ => ⟨block.start, mem⟩) draw item sizeBlock
        h.mem with
      | .returned p m => some (h.adopt ⟨block, p, draw⟩ m)
      | _ => none
  | .realloc ptr size block mem draw =>
      match h.live.find? fun o => o.ptr = ptr with
      | none => none
      | some o =>
          match ptauthRealloc Config.shipped true (fun _ _ _ => ⟨block.start, mem⟩) draw ptr size
            h.mem with
          | .returned p m =>
              some ((h.without ptr).adopt
                ⟨block, p, if block.start = o.block.start then o.draw else draw⟩ m)
          | _ => none
  | .free ptr mem =>
      match h.live.find? fun o => o.ptr = ptr with
      | none => none
      | some o =>
          match ptauthFree Config.shipped h.mem ptr with
          | .freed _ _ =>
              some { mem := mem, live := (h.without ptr).live, dead := o :: h.dead,
                     vacant := o :: h.vacant }
          | _ => none
  | .write addr byte => some { h with mem := Function.update h.mem addr byte }

/-- The underlying allocator hands out `block` and leaves the other live blocks alone. -/
def Heap.Fresh (h : Heap) (block : Block) (mem : Mem) : Prop :=
  ∀ o ∈ h.live, block.Disjoint o.block ∧ o.block.Agree h.mem mem

/-- What the environment promises about an action. -/
def Heap.Guard (h : Heap) : HeapAction → Prop
  | .malloc size block mem _ =>
      size.toNat + 8 < 2 ^ 64 ∧ block.size = size.toNat + 8 ∧ h.Fresh block mem
  | .calloc item sizeBlock block mem _ =>
      1 ≤ item.toNat ∧ item.toNat * (sizeBlock.toNat + 8) < 2 ^ 64 ∧
        block.size = item.toNat * (sizeBlock.toNat + 8) ∧ h.Fresh block mem
  | .realloc ptr size block mem _ =>
      8 ≤ size.toNat ∧ block.size = size.toNat ∧ (h.without ptr).Fresh block mem ∧
        ∃ o ∈ h.live, o.ptr = ptr ∧ ∀ i < min o.block.size size.toNat,
          mem (block.start + BitVec.ofNat 64 i) = h.mem (o.block.start + BitVec.ofNat 64 i)
  | .free ptr mem =>
      (∃ o ∈ h.live, o.ptr = ptr) ∧ ∀ arg m, ptauthFree Config.shipped h.mem ptr = .freed arg m →
        ∀ o ∈ (h.without ptr).live, o.block.Agree m mem
  | .write addr _ => ∃ o ∈ h.live, o.UserByte addr

/-- The heap machine. -/
def heapMachine : Machine Heap HeapAction where
  guard := Heap.Guard
  step := Heap.step

/-! ## Addresses of a block -/

theorem Block.start_add_toNat (b : Block) {i : Nat} (hi : i ≤ 2 ^ 48) :
    (b.start + BitVec.ofNat 64 i).toNat = b.start.toNat + i := by
  have := b.high
  rw [BitVec.toNat_add, BitVec.toNat_ofNat]
  omega

theorem Block.start_ne_zero (b : Block) : b.start ≠ 0 := by
  intro h
  have := b.low
  rw [h] at this
  exact absurd this (by decide)

/-- Agreement on a block with room for a header gives agreement on the header. -/
theorem Block.Agree.header {b : Block} {m m' : Mem} (h : b.Agree m m') (hfit : 8 ≤ b.size) :
    b.HeaderAgree m m' := by
  intro i hi
  apply h _
  rw [Block.Covers, b.start_add_toNat (by omega)]
  omega

theorem Block.HeaderAgree.readWord {b : Block} {m m' : Mem} (h : b.HeaderAgree m m') :
    readWord m' b.start = readWord m b.start :=
  readWord_congr h

/-- A header written into one block leaves the headers outside it alone. -/
theorem Block.HeaderOutside.writeWord {b c : Block} (h : b.HeaderOutside c) (hc : 8 ≤ c.size)
    (m : Mem) (v : Word) : b.HeaderAgree m (writeWord m c.start v) := by
  intro i hi
  apply writeWord_of_outside
  have hb := b.start_add_toNat (by omega : i ≤ 2 ^ 48)
  have := b.high
  have := c.high
  rw [BitVec.toNat_sub, hb]
  rcases h with h | h
  · omega
  · omega

theorem Block.HeaderAgree.trans {b : Block} {m m' m'' : Mem} (h : b.HeaderAgree m m')
    (h' : b.HeaderAgree m' m'') : b.HeaderAgree m m'' :=
  fun i hi => (h' i hi).trans (h i hi)

theorem Block.Disjoint.symm {b c : Block} (h : b.Disjoint c) : c.Disjoint b := Or.symm h

/-- The header of a block with room for one is outside every disjoint block. -/
theorem Block.Disjoint.headerOutside {b c : Block} (h : b.Disjoint c) (hb : 8 ≤ b.size) :
    b.HeaderOutside c := by
  rcases h with h | h
  · exact Or.inl (by omega)
  · exact Or.inr h

/-! ## Signed objects -/

/-- The object's block has room for a header and its pointer carries the tag of its id. -/
structure Obj.Signed (o : Obj) : Prop where
  fits : 8 ≤ o.block.size
  signed : o.ptr = pacia Config.shipped o.base (drawId o.draw)

theorem Obj.base_toNat (o : Obj) : o.base.toNat = o.block.start.toNat + 8 :=
  o.block.start_add_toNat (Nat.le_of_ble_eq_true rfl : 8 ≤ 2 ^ 48)

/-- The address of a live byte is an address. The block may end at `2 ^ 48`, but its header is
aligned, so the base is below. -/
theorem Obj.base_lt (o : Obj) (hfit : 8 ≤ o.block.size) : o.base.toNat + 0 < 2 ^ 48 := by
  have hbase := o.base_toNat
  have hhigh := o.block.high
  have haligned := o.block.aligned
  omega

theorem Obj.base_add_lt (o : Obj) {k : Nat} (hk : k < o.userSize) : o.base.toNat + k < 2 ^ 48 := by
  have hbase := o.base_toNat
  have hhigh := o.block.high
  rw [Obj.userSize] at hk
  omega

/-- The tag of an object: the eight low bits of its address, xored with those of its id. -/
def Obj.tag (o : Obj) : Nat := Config.shipped.tag o.base.toNat (drawId o.draw).toNat

theorem Obj.tag_lt (o : Obj) : o.tag < 256 := Config.shipped.tag_lt _ _

/-- The value of a pointer into an object. -/
theorem Obj.Signed.ptr_add_toNat {o : Obj} (h : o.Signed) {k : Nat}
    (hk : o.base.toNat + k < 2 ^ 48) :
    (o.ptr + BitVec.ofNat 64 k).toNat = o.base.toNat + k + o.tag * 2 ^ 56 := by
  have htag := o.tag_lt
  have hptr : o.ptr.toNat = o.base.toNat + o.tag * 2 ^ 56 := by
    rw [h.signed]
    exact pacia_toNat Config.shipped (by omega) _
  rw [BitVec.toNat_add, BitVec.toNat_ofNat, hptr]
  omega

/-- Stripping a pointer into an object gives the address. -/
theorem Obj.Signed.xpac_toNat {o : Obj} (h : o.Signed) {k : Nat}
    (hk : o.base.toNat + k < 2 ^ 48) :
    (xpac (o.ptr + BitVec.ofNat 64 k)).toNat = o.base.toNat + k := by
  rw [PTAuth.Runtime.xpac_toNat, h.ptr_add_toNat hk]
  omega

/-- A pointer into an object carries the tag of the object. -/
theorem Obj.Signed.tag_eq {o : Obj} (h : o.Signed) {k : Nat} (hk : o.base.toNat + k < 2 ^ 48) :
    (o.ptr + BitVec.ofNat 64 k).toNat / 2 ^ Config.shipped.shift = o.tag := by
  have hshift : Config.shipped.shift = 56 := rfl
  rw [h.ptr_add_toNat hk, hshift]
  omega

/-- The base pointer is the pointer at offset zero. -/
theorem Obj.ptr_add_zero (o : Obj) : o.ptr + BitVec.ofNat 64 0 = o.ptr := by simp

theorem Obj.Signed.xpac_ptr {o : Obj} (h : o.Signed) : xpac o.ptr = o.base := by
  apply BitVec.eq_of_toNat_eq
  have := h.xpac_toNat (o.base_lt h.fits)
  rwa [o.ptr_add_zero] at this

/-- The stripped base pointer minus 8 is the start of the block. -/
theorem Obj.Signed.strip_sub {o : Obj} (h : o.Signed) :
    (o.ptr &&& ~~~ maskHighBit) - 8 = o.block.start := by
  rw [not_maskHighBit]
  change xpac o.ptr - 8 = o.block.start
  rw [h.xpac_ptr, Obj.base, BitVec.add_sub_cancel]

theorem Obj.Signed.ptr_ne_zero {o : Obj} (h : o.Signed) : o.ptr ≠ 0 := by
  intro h0
  have hx := h.xpac_ptr
  have hbase := o.base_toNat
  have hlow := o.block.low
  rw [h0] at hx
  rw [← hx] at hbase
  have : (xpac 0).toNat = 0 := by decide
  omega

/-- The word below the base pointer is the header. -/
theorem Obj.Signed.headerBelow_ptr {o : Obj} (h : o.Signed) : headerBelow o.ptr = o.block.start := by
  apply BitVec.eq_of_toNat_eq
  have hx := h.xpac_ptr
  have hbase := o.base_toNat
  rw [headerBelow_toNat (by rw [hx]; omega), hx]
  omega

/-- The base pointer authenticates against exactly the ids with the low byte of its own. -/
theorem Obj.Signed.authentic_iff {o : Obj} (h : o.Signed) (id : Word) :
    Authentic Config.shipped o.ptr id ↔ id.toNat % 256 = (drawId o.draw).toNat % 256 := by
  have htag := h.tag_eq (o.base_lt h.fits)
  rw [o.ptr_add_zero] at htag
  rw [Authentic, htag, ← Config.shipped.tag_xpac, h.xpac_ptr, Obj.tag, Config.tag_inj_iff]
  exact eq_comm

/-- Objects with different blocks have different pointers. -/
theorem Obj.Signed.ptr_ne_of_disjoint {o o' : Obj} (h : o.Signed) (h' : o'.Signed)
    (hd : o.block.Disjoint o'.block) : o.ptr ≠ o'.ptr := by
  intro heq
  have hx := h.xpac_ptr
  rw [heq, h'.xpac_ptr] at hx
  have hb := o.base_toNat
  have hb' := o'.base_toNat
  have hfit := h.fits
  have hfit' := h'.fits
  rw [hx] at hb'
  rcases hd with hd | hd
  · omega
  · omega

/-! ## The invariant -/

/-- The invariant of the heap: live objects have disjoint blocks, every object is signed with the
id it drew, and the header of a live object holds that id. -/
structure Heap.Inv (h : Heap) : Prop where
  disjoint : h.live.Pairwise fun o o' => o.block.Disjoint o'.block
  signed : ∀ o ∈ h.live, o.Signed
  header : ∀ o ∈ h.live, readWord h.mem o.block.start = drawId o.draw
  deadSigned : ∀ o ∈ h.dead, o.Signed

theorem Heap.Inv.initial (m : Mem) : (Heap.initial m).Inv where
  disjoint := List.Pairwise.nil
  signed := fun _ ho => absurd ho List.not_mem_nil
  header := fun _ ho => absurd ho List.not_mem_nil
  deadSigned := fun _ ho => absurd ho List.not_mem_nil

/-- Different live objects have disjoint blocks. -/
theorem Heap.Inv.disjoint_of_ne {h : Heap} (hi : h.Inv) {o o' : Obj} (ho : o ∈ h.live)
    (ho' : o' ∈ h.live) (hne : o ≠ o') : o.block.Disjoint o'.block := by
  have : Std.Symm fun o o' : Obj => o.block.Disjoint o'.block := ⟨fun _ _ hd => hd.symm⟩
  exact hi.disjoint.forall ho ho' hne

/-- Live objects with one pointer are one object. -/
theorem Heap.Inv.eq_of_ptr_eq {h : Heap} (hi : h.Inv) {o o' : Obj} (ho : o ∈ h.live)
    (ho' : o' ∈ h.live) (heq : o.ptr = o'.ptr) : o = o' := by
  by_contra hne
  have hd := hi.disjoint_of_ne ho ho' hne
  exact (hi.signed o ho).ptr_ne_of_disjoint (hi.signed o' ho') hd heq

/-- Looking a live object up by its pointer finds it. -/
theorem Heap.Inv.find_ptr {h : Heap} (hi : h.Inv) {o : Obj} (ho : o ∈ h.live) :
    (h.live.find? fun o' => o'.ptr = o.ptr) = some o := by
  cases hf : h.live.find? fun o' => o'.ptr = o.ptr with
  | none =>
      rw [List.find?_eq_none] at hf
      exact absurd (decide_eq_true (rfl : o.ptr = o.ptr)) (hf o ho)
  | some o' =>
      have hp := List.find?_some hf
      rw [decide_eq_true_eq] at hp
      rw [hi.eq_of_ptr_eq (List.mem_of_find?_eq_some hf) ho hp]

theorem Heap.mem_without {h : Heap} {p : Word} {o : Obj} :
    o ∈ (h.without p).live ↔ o ∈ h.live ∧ o.ptr ≠ p := by
  simp [Heap.without]

/-- The objects besides `o` are disjoint from it. -/
theorem Heap.Inv.disjoint_without {h : Heap} (hi : h.Inv) {o o' : Obj} (ho : o ∈ h.live)
    (ho' : o' ∈ (h.without o.ptr).live) : o.block.Disjoint o'.block := by
  obtain ⟨hmem, hne⟩ := Heap.mem_without.1 ho'
  apply hi.disjoint_of_ne ho hmem
  rintro rfl
  exact hne rfl

/-- Dropping an object keeps the invariant, over a memory that keeps the remaining headers. -/
theorem Heap.Inv.without {h : Heap} (hi : h.Inv) (p : Word) {m : Mem}
    (hm : ∀ o ∈ (h.without p).live, o.block.HeaderAgree h.mem m) :
    Heap.Inv { h.without p with mem := m } where
  disjoint := hi.disjoint.filter _
  signed := fun o ho => hi.signed o (Heap.mem_without.1 ho).1
  header := fun o ho => (hm o ho).readWord.trans (hi.header o (Heap.mem_without.1 ho).1)
  deadSigned := hi.deadSigned

/-- Adding an object keeps the invariant. -/
theorem Heap.Inv.adopt {h : Heap} (hi : h.Inv) {o : Obj} {m : Mem} (ho : o.Signed)
    (hd : ∀ o' ∈ h.live, o.block.Disjoint o'.block)
    (hheader : readWord m o.block.start = drawId o.draw)
    (hm : ∀ o' ∈ h.live, o'.block.HeaderAgree h.mem m) : (h.adopt o m).Inv where
  disjoint := List.pairwise_cons.2 ⟨hd, hi.disjoint⟩
  signed := by
    intro o' ho'
    rcases List.mem_cons.1 ho' with rfl | ho'
    · exact ho
    · exact hi.signed o' ho'
  header := by
    intro o' ho'
    rcases List.mem_cons.1 ho' with rfl | ho'
    · exact hheader
    · exact (hm o' ho').readWord.trans (hi.header o' ho')
  deadSigned := hi.deadSigned

/-! ## What a step does -/

theorem Heap.initAndSign_block (block : Block) (mem : Mem) (draw : Draw) :
    initAndSign Config.shipped draw ⟨block.start, mem⟩ =
      .returned (Obj.new block draw).ptr (writeWord mem block.start (drawId draw)) :=
  initAndSign_of_ne_zero Config.shipped draw block.start_ne_zero

theorem Heap.step_malloc (h : Heap) (size : Word) (block : Block) (mem : Mem) (draw : Draw) :
    h.step (.malloc size block mem draw) =
      some (h.adopt (Obj.new block draw) (writeWord mem block.start (drawId draw))) := by
  have hrun : ptauthMalloc Config.shipped true (fun _ _ => ⟨block.start, mem⟩) draw size h.mem
      = .returned (Obj.new block draw).ptr (writeWord mem block.start (drawId draw)) :=
    Heap.initAndSign_block block mem draw
  simp only [Heap.step, hrun]
  rfl

theorem Heap.step_calloc (h : Heap) (item sizeBlock : Word) (block : Block) (mem : Mem)
    (draw : Draw) :
    h.step (.calloc item sizeBlock block mem draw) =
      some (h.adopt (Obj.new block draw) (writeWord mem block.start (drawId draw))) := by
  have hrun : ptauthCalloc Config.shipped true (fun _ _ _ => ⟨block.start, mem⟩) draw item
      sizeBlock h.mem
      = .returned (Obj.new block draw).ptr (writeWord mem block.start (drawId draw)) :=
    Heap.initAndSign_block block mem draw
  simp only [Heap.step, hrun]
  rfl

/-- A `realloc` that stays in place keeps the pointer and the id. -/
theorem Heap.Inv.step_realloc_stays {h : Heap} (hi : h.Inv) {o : Obj} (ho : o ∈ h.live)
    (size : Word) {block : Block} (hb : block.start = o.block.start) (mem : Mem) (draw : Draw) :
    h.step (.realloc o.ptr size block mem draw) =
      some ((h.without o.ptr).adopt ⟨block, o.ptr, o.draw⟩ mem) := by
  have hsub : (o.ptr &&& ~~~ maskHighBit) - 8 = block.start := by
    rw [(hi.signed o ho).strip_sub, hb]
  have hrun : ptauthRealloc Config.shipped true (fun _ _ _ => ⟨block.start, mem⟩) draw o.ptr size
      h.mem = .returned o.ptr mem := by
    simp only [ptauthRealloc, hsub]
    exact if_neg (not_not.2 rfl)
  simp only [Heap.step, hi.find_ptr ho, hrun, if_pos hb]

/-- A `realloc` that moves creates a new object. -/
theorem Heap.Inv.step_realloc_moves {h : Heap} (hi : h.Inv) {o : Obj} (ho : o ∈ h.live)
    (size : Word) {block : Block} (hb : block.start ≠ o.block.start) (mem : Mem) (draw : Draw) :
    h.step (.realloc o.ptr size block mem draw) =
      some ((h.without o.ptr).adopt (Obj.new block draw)
        (writeWord mem block.start (drawId draw))) := by
  have hsub := (hi.signed o ho).strip_sub
  have hrun : ptauthRealloc Config.shipped true (fun _ _ _ => ⟨block.start, mem⟩) draw o.ptr size
      h.mem = .returned (Obj.new block draw).ptr (writeWord mem block.start (drawId draw)) := by
    rw [ptauthRealloc, if_neg (by decide)]
    simp only [hsub]
    rw [if_pos (Ne.symm hb)]
    exact Heap.initAndSign_block block mem draw
  simp only [Heap.step, hi.find_ptr ho, hrun, if_neg hb]
  rfl

/-- Freeing a live object authenticates, and hands its block to the underlying `free` over a memory
with the tombstone in the header. -/
theorem Heap.Inv.free_live {h : Heap} (hi : h.Inv) {o : Obj} (ho : o ∈ h.live) :
    autia Config.shipped o.ptr (readWord h.mem (headerBelow o.ptr)) = o.base ∧
      ptauthFree Config.shipped h.mem o.ptr
        = .freed o.block.start (writeWord h.mem o.block.start 2) := by
  have hs := hi.signed o ho
  have hauth : autia Config.shipped o.ptr (readWord h.mem (headerBelow o.ptr)) = o.base := by
    rw [hs.headerBelow_ptr, hi.header o ho,
      autia_of_authentic ((hs.authentic_iff _).2 rfl), hs.xpac_ptr]
  refine ⟨hauth, ?_⟩
  rw [ptauthFree_of_ne_zero _ _ hs.ptr_ne_zero, hauth, hs.headerBelow_ptr, Obj.base,
    BitVec.add_sub_cancel]

theorem Heap.Inv.step_free {h : Heap} (hi : h.Inv) {o : Obj} (ho : o ∈ h.live) (mem : Mem) :
    h.step (.free o.ptr mem) = some { mem := mem, live := (h.without o.ptr).live,
                                      dead := o :: h.dead, vacant := o :: h.vacant } := by
  simp only [Heap.step, hi.find_ptr ho, (hi.free_live ho).2]

/-! ## The invariant over runs -/

theorem Obj.new_signed {block : Block} (draw : Draw) (hfit : 8 ≤ block.size) :
    (Obj.new block draw).Signed where
  fits := hfit
  signed := rfl

/-- A write to a user byte of a live object leaves every live header alone. -/
theorem Heap.Inv.headerAgree_update {h : Heap} (hi : h.Inv) {o o' : Obj} (ho : o ∈ h.live)
    (ho' : o' ∈ h.live) {addr : Word} (haddr : o.UserByte addr) (byte : BitVec 8) :
    o'.block.HeaderAgree h.mem (Function.update h.mem addr byte) := by
  intro i hi8
  refine Function.update_of_ne ?_ _ _
  rintro rfl
  obtain ⟨hlo, hhi⟩ := haddr
  rw [o'.block.start_add_toNat (by omega)] at hlo hhi
  have hfit' := (hi.signed o' ho').fits
  rcases eq_or_ne o o' with rfl | hne
  · omega
  · rcases hi.disjoint_of_ne ho ho' hne with hd | hd
    · omega
    · omega

/-- A write to a user byte of an object leaves the headers outside its block alone. -/
theorem Block.HeaderOutside.update {b : Block} {o : Obj} (h : b.HeaderOutside o.block)
    {addr : Word} (haddr : o.UserByte addr) (m : Mem) (byte : BitVec 8) :
    b.HeaderAgree m (Function.update m addr byte) := by
  intro i hi8
  refine Function.update_of_ne ?_ _ _
  rintro rfl
  obtain ⟨hlo, hhi⟩ := haddr
  rw [b.start_add_toNat (by omega)] at hlo hhi
  rcases h with h | h
  · omega
  · omega

/-- A new object in a fresh block. -/
theorem Heap.Inv.adopt_new {h : Heap} (hi : h.Inv) {block : Block} {mem : Mem} (draw : Draw)
    (hfit : 8 ≤ block.size) (hfresh : h.Fresh block mem) :
    (h.adopt (Obj.new block draw) (writeWord mem block.start (drawId draw))).Inv := by
  refine hi.adopt (Obj.new_signed draw hfit) (fun o ho => (hfresh o ho).1)
    (readWord_writeWord _ _ _) fun o ho => ?_
  have hfits := (hi.signed o ho).fits
  obtain ⟨hd, hagree⟩ := hfresh o ho
  exact (hagree.header hfits).trans ((hd.symm.headerOutside hfits).writeWord hfit _ _)

theorem Heap.Inv.without_self {h : Heap} (hi : h.Inv) (p : Word) : (h.without p).Inv :=
  hi.without p fun _ _ _ _ => rfl

/-- Reallocating in place keeps the invariant: the header is among the copied bytes. -/
theorem Heap.Inv.resize {h : Heap} (hi : h.Inv) {o : Obj} (ho : o ∈ h.live) {block : Block}
    {mem : Mem} (hb : block.start = o.block.start) (hfit : 8 ≤ block.size)
    (hfresh : (h.without o.ptr).Fresh block mem)
    (hcopy : ∀ i < min o.block.size block.size,
      mem (block.start + BitVec.ofNat 64 i) = h.mem (o.block.start + BitVec.ofNat 64 i)) :
    ((h.without o.ptr).adopt ⟨block, o.ptr, o.draw⟩ mem).Inv := by
  have hfit' := (hi.signed o ho).fits
  have hsigned : Obj.Signed ⟨block, o.ptr, o.draw⟩ := by
    refine ⟨hfit, ?_⟩
    have hsig := (hi.signed o ho).signed
    rw [Obj.base, ← hb] at hsig
    exact hsig
  have hheader : readWord mem block.start = drawId o.draw := by
    rw [← hi.header o ho]
    rw [hb] at hcopy ⊢
    exact readWord_congr fun i hi8 => hcopy i (lt_min (by omega) (by omega))
  apply (hi.without_self o.ptr).adopt hsigned (fun o' ho' => (hfresh o' ho').1) hheader
  intro o' ho'
  exact (hfresh o' ho').2.header (hi.signed o' (Heap.mem_without.1 ho').1).fits

/-- Freeing keeps the invariant: the tombstone lands in the freed block. -/
theorem Heap.Inv.release {h : Heap} (hi : h.Inv) {o : Obj} (ho : o ∈ h.live) {mem : Mem}
    (hagree : ∀ o' ∈ (h.without o.ptr).live,
      o'.block.Agree (writeWord h.mem o.block.start 2) mem) :
    Heap.Inv { mem := mem, live := (h.without o.ptr).live, dead := o :: h.dead,
               vacant := o :: h.vacant } := by
  have hfit := (hi.signed o ho).fits
  have hrest : Heap.Inv { h.without o.ptr with mem := mem } := by
    apply hi.without o.ptr
    intro o' ho'
    have hfit' := (hi.signed o' (Heap.mem_without.1 ho').1).fits
    have houtside := (hi.disjoint_without ho ho').symm.headerOutside hfit'
    exact (houtside.writeWord hfit _ _).trans ((hagree o' ho').header hfit')
  refine ⟨hrest.disjoint, hrest.signed, hrest.header, fun o' ho' => ?_⟩
  rcases List.mem_cons.1 ho' with rfl | ho'
  · exact hi.signed o' ho
  · exact hi.deadSigned o' ho'

/-- **One step keeps the invariant.** -/
theorem Heap.Inv.step {h h' : Heap} {a : HeapAction} (hi : h.Inv) (hg : h.Guard a)
    (hs : h.step a = some h') : h'.Inv := by
  cases a with
  | malloc size block mem draw =>
      obtain ⟨-, hsize, hfresh⟩ := hg
      rw [Heap.step_malloc] at hs
      obtain rfl := Option.some.inj hs
      exact hi.adopt_new draw (by omega) hfresh
  | calloc item sizeBlock block mem draw =>
      obtain ⟨hitem, -, hsize, hfresh⟩ := hg
      rw [Heap.step_calloc] at hs
      obtain rfl := Option.some.inj hs
      have hfit : 1 * 8 ≤ item.toNat * (sizeBlock.toNat + 8) :=
        Nat.mul_le_mul hitem (Nat.le_add_left _ _)
      exact hi.adopt_new draw (by omega) hfresh
  | realloc ptr size block mem draw =>
      obtain ⟨h8, hsize, hfresh, o, ho, rfl, hcopy⟩ := hg
      rw [← hsize] at h8 hcopy
      rcases eq_or_ne block.start o.block.start with hb | hb
      · rw [hi.step_realloc_stays ho size hb] at hs
        obtain rfl := Option.some.inj hs
        exact hi.resize ho hb h8 hfresh hcopy
      · rw [hi.step_realloc_moves ho size hb] at hs
        obtain rfl := Option.some.inj hs
        exact (hi.without_self o.ptr).adopt_new draw h8 hfresh
  | free ptr mem =>
      obtain ⟨⟨o, ho, rfl⟩, hkeep⟩ := hg
      rw [hi.step_free ho] at hs
      obtain rfl := Option.some.inj hs
      exact hi.release ho (hkeep _ _ (hi.free_live ho).2)
  | write addr byte =>
      obtain ⟨o, ho, haddr⟩ := hg
      obtain rfl := Option.some.inj hs
      refine ⟨hi.disjoint, hi.signed, fun o' ho' => ?_, hi.deadSigned⟩
      exact (hi.headerAgree_update ho ho' haddr byte).readWord.trans (hi.header o' ho')

/-- **The invariant holds in every reachable state.** -/
theorem heap_invariant {m : Mem} {h : Heap} (hr : heapMachine.Reachable (Heap.initial m) h) :
    h.Inv :=
  hr.invariant (fun _ _ _ hi hg hs => hi.step hg hs) (Heap.Inv.initial m)

/-! ### A page with one object -/

/-- One live object of 40 user bytes, at `0x1000`. -/
def pageBlock : Block where
  start := 0x1000
  size := 48
  aligned := by decide
  low := by decide
  high := by decide

/-- The heap after one allocation in cleared memory. -/
def pageHeap (draw : Draw) : Heap :=
  (Heap.initial fun _ => 0).adopt (Obj.new pageBlock draw)
    (writeWord (fun _ => 0) 0x1000 (drawId draw))

theorem pageHeap_run {P : Heap → HeapAction → Prop} (draw : Draw)
    (hP : P (Heap.initial fun _ => 0) (.malloc 40 pageBlock (fun _ => 0) draw)) :
    (heapMachine.restrict P).Run (Heap.initial fun _ => 0)
      [.malloc 40 pageBlock (fun _ => 0) draw] (pageHeap draw) := by
  refine Machine.Run.snoc .nil ⟨⟨?_, rfl, ?_⟩, hP⟩ ?_
  · decide
  · exact fun o ho => absurd ho List.not_mem_nil
  · exact Heap.step_malloc (Heap.initial fun _ => 0) 40 pageBlock (fun _ => 0) draw

theorem pageHeap_reached :
    (heapMachine.restrict fun _ a => a.NoRealloc).Reachable (Heap.initial fun _ => 0)
      (pageHeap ⟨0, 0, 0⟩) :=
  ⟨_, pageHeap_run ⟨0, 0, 0⟩ trivial⟩

end PTAuth.Runtime
