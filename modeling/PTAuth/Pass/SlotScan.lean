import PTAuth.Pass.SlotEvents

/-!
# Reading a slot off the input

What the pass does about a slot follows from the function it is given. A `Scan` goes through the
instructions of the input and keeps two things of the slot: its flags, and which operands are
rewritten by now. Rewritten operands are opaque to the pass, so the scan looks at the input with
these operands hidden (`Func.hide`), and rewrites nothing itself. Other slots, and what the walk
inserts, play no part in it.

The walk and the scan go hand in hand (`Scanned.visit`): behind every prefix of the layout the flags
of the slot are those of the scan, and a load of the slot is one still where the scan says so.
-/

set_option autoImplicit false

namespace PTAuth.Pass

/-! ## Hidden operands -/

/-- The function with some operands hidden; of a value with a hidden use no use is seen. -/
def Func.hide (F : Func) (taken : List (Nat × Nat)) : Func where
  name := F.name
  layout := F.layout
  instr := fun y =>
    { F.instr y with
      operands := (F.instr y).operands.mapIdx fun k v =>
        if (y, k) ∈ taken then ⟨.constant "", v.ty⟩ else v }
  users := fun y => if (F.users y).any fun u => decide (u ∈ taken) then [] else F.users y
  next := F.next

section Hide

variable {F : Func} {taken : List (Nat × Nat)} {a g l x y z k : Nat} {v : Value}

theorem Func.hide_op (F : Func) (taken : List (Nat × Nat)) (y : Nat) :
    ((F.hide taken).instr y).op = (F.instr y).op := rfl

theorem Func.hide_operand (F : Func) (taken : List (Nat × Nat)) (y k : Nat) :
    (F.hide taken).operand y k =
      (F.operand y k).map fun v => if (y, k) ∈ taken then ⟨.constant "", v.ty⟩ else v := by
  rw [Func.operand, Func.hide, List.getElem?_mapIdx]
  rfl

/-- The instructions that are seen are the operands that are not hidden. -/
theorem Func.hide_operand_inst (hz : v.ref = .inst z) :
    (F.hide taken).operand y k = some v ↔ F.operand y k = some v ∧ (y, k) ∉ taken := by
  rw [F.hide_operand]
  by_cases hmem : (y, k) ∈ taken
  · simp only [hmem, if_true, not_true, and_false, iff_false, Option.map_eq_some_iff, not_exists]
    rintro w ⟨-, rfl⟩
    exact absurd hz (by simp)
  · simp [hmem]

/-- A hidden operand is no instruction. -/
theorem Func.hide_operand_hidden (hmem : (y, k) ∈ taken)
    (hv : (F.hide taken).operand y k = some v) : v.ref = .constant "" := by
  rw [F.hide_operand] at hv
  obtain ⟨w, -, rfl⟩ := Option.map_eq_some_iff.1 hv
  rw [if_pos hmem]

theorem Func.hide_linked (hF : F.Linked) (taken : List (Nat × Nat)) : (F.hide taken).Linked where
  unused := fun y hy => by
    rw [Func.hide]
    simp only [hF.unused y hy]
    rfl
  operand_lt := fun y k v z hv hz => hF.operand_lt y k v z ((hide_operand_inst hz).1 hv).1 hz
  operand_ty := fun y k v z hv hz => hF.operand_ty y k v z ((hide_operand_inst hz).1 hv).1 hz
  users_operand := fun y k z hu => by
    simp only [Func.hide] at hu
    split at hu
    · exact absurd hu List.not_mem_nil
    · rename_i hany
      obtain ⟨v, hv, hz⟩ := hF.users_operand y k z hu
      refine ⟨v, (hide_operand_inst hz).2 ⟨hv, fun hmem => hany ?_⟩, hz⟩
      exact List.any_eq_true.2 ⟨(y, k), hu, decide_eq_true hmem⟩
  users_nodup := fun y => by
    simp only [Func.hide]
    split
    · exact List.nodup_nil
    · exact hF.users_nodup y

theorem Func.hide_slotOf :
    (F.hide taken).slotOf x = some a ↔ F.slotOf x = some a ∧ (x, 0) ∉ taken := by
  rw [Func.slotOf_eq_some, Func.slotOf_eq_some]
  constructor
  · rintro ⟨v, hv, hva, halloca⟩
    obtain ⟨hv, hnot⟩ := (hide_operand_inst hva).1 hv
    exact ⟨⟨v, hv, hva, halloca⟩, hnot⟩
  · rintro ⟨⟨v, hv, hva, halloca⟩, hnot⟩
    exact ⟨v, (hide_operand_inst hva).2 ⟨hv, hnot⟩, hva, halloca⟩

theorem Func.hide_loadOf : (F.hide taken).LoadOf a l ↔ F.LoadOf a l ∧ (l, 0) ∉ taken := by
  rw [Func.LoadOf, Func.LoadOf, hide_slotOf, F.hide_op, and_assoc]

theorem Func.hide_userBack :
    (F.hide taken).UserBack l g ↔ F.UserBack l g ∧ ∀ u ∈ F.users l, u ∉ taken := by
  rw [Func.UserBack, Func.UserBack, F.hide_op]
  simp only [Func.hide]
  split
  · rename_i hany
    obtain ⟨u, hu, hmem⟩ := List.any_eq_true.1 hany
    constructor
    · rintro ⟨-, j, hj⟩
      exact absurd hj (by simp)
    · rintro ⟨-, hno⟩
      exact absurd (of_decide_eq_true hmem) (hno u hu)
  · rename_i hany
    refine (and_iff_left fun u hu hmem => hany ?_).symm
    exact List.any_eq_true.2 ⟨u, hu, decide_eq_true hmem⟩

/-- Hidden operands are no zeros, so what carries an operand does so in the function. -/
theorem Func.hide_carries (h : (F.hide taken).Carries y k) : F.Carries y k := by
  rw [Func.Carries] at h ⊢
  rw [F.hide_op] at h
  cases hop : (F.instr y).op with
  | gep =>
      simp only [hop] at h ⊢
      refine ⟨?_, h.2⟩
      have hzero := h.1
      simp only [allZeroIndices, ← List.drop_one, List.all_eq_true] at hzero ⊢
      intro v hv
      obtain ⟨j, hj⟩ := List.mem_iff_getElem?.1 hv
      rw [List.getElem?_drop] at hj
      have hseen := F.hide_operand taken y (1 + j)
      rw [show F.operand y (1 + j) = some v from hj, Option.map_some] at hseen
      have hmem := List.mem_iff_getElem?.2 ⟨j, List.getElem?_drop.trans hseen⟩
      have hval := hzero _ hmem
      split at hval
      · exact absurd hval (by simp)
      · exact hval
  | _ =>
      rw [hop] at h
      exact h

/-- Where no index is hidden, it is the other way round too. -/
theorem Func.carries_hide (h : F.Carries y k)
    (hno : (F.instr y).op = .gep → ∀ j, (y, j + 1) ∉ taken) : (F.hide taken).Carries y k := by
  rw [Func.Carries] at h ⊢
  rw [F.hide_op]
  cases hop : (F.instr y).op with
  | gep =>
      simp only [hop] at h ⊢
      refine ⟨?_, h.2⟩
      have htail : ((F.hide taken).instr y).operands.tail = (F.instr y).operands.tail := by
        apply List.ext_getElem?
        intro j
        rw [← List.drop_one, ← List.drop_one, List.getElem?_drop, List.getElem?_drop, Nat.add_comm]
        show (F.hide taken).operand y (j + 1) = F.operand y (j + 1)
        rw [F.hide_operand]
        simp [hno hop j]
      rw [allZeroIndices, htail]
      exact h.1
  | _ =>
      rw [hop] at h
      exact h

end Hide

/-! ## The scan -/

/-- The flags of the slot, and the operands that are rewritten. -/
structure Scan where
  flags : Option Flags
  taken : List (Nat × Nat)

/-- Nothing is known in front of the function. -/
def Scan.start : Scan := ⟨none, []⟩

/-- The input as the pass sees it now. -/
def Scan.view (σ : Scan) (F : Func) : Func := F.hide σ.taken

/-- Operand `k` of `x` is rewritten. -/
def Scan.wrap (σ : Scan) (x k : Nat) : Scan := { σ with taken := (x, k) :: σ.taken }

/-- Something happens to the slot. -/
def Scan.event (σ : Scan) (e : SlotEvent) : Scan := { σ with flags := e.apply σ.flags }

/-- The slot was passed to a call, and no check used this up. -/
def Scan.armed (σ : Scan) : Bool := σ.flags.any Flags.passed

section Scan

variable (tbi : Bool) (F : Func) (a : Nat)

/-- A store of a pointer to the slot opens an entry. -/
def Scan.store (σ : Scan) (x : Nat) : Scan :=
  match F.operand x 0, (F.operand x 1).bind (F.dynCast Op.isAlloca) with
  | some v, some b => if b = a ∧ pointerArgument v then σ.event .store else σ
  | _, _ => σ

/-- A load of the slot whose most recent use is a GEP uses an armed entry up; a load through a load
of the slot gets its address rewritten when the slot has an entry. -/
def Scan.load (σ : Scan) (x : Nat) : Scan :=
  let G := σ.view F
  match G.operand x 0 with
  | none => σ
  | some p =>
      if loadSelected G x p then
        if G.slotOf x = some a then
          match (G.users x).head? with
          | some (g, _) =>
              if (G.instr g).op = .gep ∧ σ.armed then (σ.wrap g 0).event .feed else σ
          | none => σ
        else if (G.dynCast (· == .load) p).bind G.slotOf = some a ∧ σ.flags ≠ none then σ.wrap x 0
        else σ
      else σ

/-- An argument of an external call is stripped. -/
def Scan.xpacArgument (name : String) (x : Nat) (σ : Scan) (i : Nat) : Scan :=
  match F.operand x i with
  | none => σ
  | some v =>
      if pointerArgument v && !v.ref.isConstant &&
          !((F.dynCast (· == .gep) v).bind F.slotOf).isSome &&
          (!tbi || decide (name ∈ xpacedList)) then
        σ.wrap x i
      else σ

/-- An argument that is a load of the slot behind casts arms the slot, unless it was checked. -/
def Scan.passLoad (σ : Scan) (v : Value) : Scan :=
  let G := σ.view F
  match G.dynCast (· == .load) (G.stripPointerCasts G.next v) with
  | none => σ
  | some l =>
      if G.slotOf l = some a ∧ σ.flags.any Flags.checked = false then (σ.wrap l 0).event .pass
      else σ

/-- An argument that is a bitcast of a load through a load of the slot arms it in any case. -/
def Scan.passNestedLoad (σ : Scan) (v : Value) : Scan :=
  let G := σ.view F
  match ((((G.dynCast (· == .bitcast) v).bind (G.operand · 0)).bind
      (G.dynCast (· == .load))).bind (G.operand · 0)).bind (G.dynCast (· == .load)) with
  | none => σ
  | some l => if G.slotOf l = some a then (σ.wrap l 0).event .nested else σ

def Scan.passArgument (x : Nat) (σ : Scan) (i : Nat) : Scan :=
  match (σ.view F).operand x i with
  | none => σ
  | some v =>
      if pointerArgument v then Scan.passNestedLoad F a (Scan.passLoad F a σ v) v else σ

/-- A call: the arguments are stripped first, and looked through for loads of the slot then. -/
def Scan.call (σ : Scan) (x : Nat) (callee : Callee) : Scan :=
  let arguments := List.range (F.instr x).operands.length
  let σ :=
    if callee.isDeclaration ∧ callee.name ∉ localAvoidList then
      arguments.foldl (Scan.xpacArgument tbi F callee.name x) σ
    else σ
  if callee.name ∉ functionsAvoidList then arguments.foldl (Scan.passArgument F a x) σ else σ

/-- One instruction; a return forgets the flags. -/
def Scan.visit (σ : Scan) (x : Nat) : Scan :=
  match (F.instr x).op with
  | .ret => { σ with flags := none }
  | .store => Scan.store F a σ x
  | .load => Scan.load F a σ x
  | .call (some callee) _ => Scan.call tbi F a σ x callee
  | _ => σ

/-- What the scan knows behind some instructions. -/
def Func.scan (xs : List Nat) : Scan := xs.foldl (Scan.visit tbi F a) Scan.start

end Scan

/-! ## The walk and the scan -/

/-- The operands that the pass may rewrite. -/
def Func.Rewritable (F : Func) (y k : Nat) : Prop :=
  (((F.instr y).op = .load ∨ (F.instr y).op = .gep) ∧ k = 0) ∨
    ∃ callee returned, (F.instr y).op = .call (some callee) returned

/-- The scan knows the flags of the slot, and which of its links are rewritten. -/
structure Scanned (tbi : Bool) (F : Func) (a : Nat) (σ : Scan) (s : State) : Prop where
  traced : Traced tbi F s.func
  taken : ∀ y k, F.Link a y k → (Taken F a s.func y k ↔ (y, k) ∈ σ.taken)
  sites : ∀ y k, (y, k) ∈ σ.taken → F.Rewritable y k
  flags : s.SlotFlags a σ.flags

section Scanned

variable {tbi : Bool} {F : Func} {a g l x y k : Nat} {f : String} {v : Value} {σ : Scan}
  {s t : State}

theorem Scanned.start (hF : s.func.Linked) (hclean : s.SlotFlags a none) :
    Scanned tbi s.func a Scan.start s where
  traced := Traced.refl tbi hF
  taken := fun _ _ _ => ⟨fun h => absurd rfl h.2, fun h => absurd h List.not_mem_nil⟩
  sites := fun _ _ h => absurd h List.not_mem_nil
  flags := hclean

theorem Decorated.rewritable {pre : Nat → List Nat} (hd : Decorated tbi F pre s.func)
    (hx : x < F.next) (hw : Wrap tbi s.func x f y k) : F.Rewritable y k := by
  have hop := hd.op y (hd.target_lt hx hw)
  cases hw with
  | nested hload _ _ _ => exact Or.inl ⟨Or.inl (hop.symm.trans hload), rfl⟩
  | gep _ hgep _ _ _ => exact Or.inl ⟨Or.inr (hop.symm.trans hgep), rfl⟩
  | xpac _ hs _ =>
      obtain ⟨-, callee, returned, hcall, -⟩ := hs
      exact Or.inr ⟨callee, returned, hop.symm.trans hcall⟩
  | argument htake _ _ => exact Or.inl ⟨Or.inl (hop.symm.trans htake.load), rfl⟩

/-- The same rewrite in the walk and in the scan. -/
theorem Scanned.wrap (h : Scanned tbi F a σ s) (hx : x < F.next)
    (hw : Wrap tbi s.func x f y k) : Scanned tbi F a (σ.wrap y k) (s.wrap x f y k) where
  traced := h.traced.wrap hx hw
  taken := by
    intro z j hlink
    rw [h.traced.taken_wrap hx hw, h.taken z j hlink]
    show _ ↔ (z, j) ∈ (y, k) :: σ.taken
    rw [List.mem_cons, Prod.mk.injEq, or_comm]
    refine or_congr_left ⟨And.right, fun hsame => ⟨?_, hsame⟩⟩
    rw [← hsame.1, ← hsame.2]
    exact hlink
  sites := by
    intro z j hmem
    rcases List.mem_cons.1 hmem with heq | hmem
    · obtain ⟨rfl, rfl⟩ := Prod.mk.inj heq
      obtain ⟨pre, hd⟩ := h.traced.decorated
      exact hd.rewritable hx hw
    · exact h.sites z j hmem
  flags := h.flags.wrap x f y k

/-- A step of the walk that is not about the slot. -/
theorem Scanned.quiet (h : Scanned tbi F a σ s) (ht : Traced tbi F t.func) (hq : Quiet F a s t) :
    Scanned tbi F a σ t where
  traced := ht
  taken := fun y k hlink => (hq.taken y k).trans (h.taken y k hlink)
  sites := h.sites
  flags := hq.flags σ.flags h.flags

/-- The scan may note a rewrite that is not about the slot. -/
theorem Scanned.note (h : Scanned tbi F a σ s) (hsite : F.Rewritable y k)
    (hno : ¬ F.Link a y k) : Scanned tbi F a (σ.wrap y k) s where
  traced := h.traced
  taken := by
    intro z j hlink
    rw [h.taken z j hlink]
    show _ ↔ (z, j) ∈ (y, k) :: σ.taken
    rw [List.mem_cons, or_iff_right]
    intro heq
    obtain ⟨rfl, rfl⟩ := Prod.mk.inj heq
    exact hno hlink
  sites := by
    intro z j hmem
    rcases List.mem_cons.1 hmem with heq | hmem
    · obtain ⟨rfl, rfl⟩ := Prod.mk.inj heq
      exact hsite
    · exact h.sites z j hmem
  flags := h.flags

/-- Changes of the flags. -/
theorem Scanned.event (h : Scanned tbi F a σ s) {p : PassState} {e : SlotEvent}
    (hf : State.SlotFlags { s with pass := p } a (e.apply σ.flags)) :
    Scanned tbi F a (σ.event e) { s with pass := p } where
  traced := h.traced
  taken := h.taken
  sites := h.sites
  flags := hf

section View

variable (h : Scanned tbi F a σ s)

include h

/-- **At a link** the walk has the operand of the input, or has sealed it, and the scan knows. -/
theorem Scanned.link_cases (hlink : F.Link a y k) :
    ∃ v, F.operand y k = some v ∧
      ((s.func.operand y k = some v ∧ (y, k) ∉ σ.taken) ∨
        ((∃ w, s.func.operand y k = some w ∧ s.func.Sealed w) ∧ (y, k) ∈ σ.taken)) := by
  obtain ⟨v, z, hv, hz⟩ := hlink.inst
  refine ⟨v, hv, ?_⟩
  by_cases hmem : (y, k) ∈ σ.taken
  · have htaken := (h.taken y k hlink).2 hmem
    refine Or.inr ⟨?_, hmem⟩
    exact (h.traced.operand y k v z hv hz).resolve_left fun heq => htaken.2 (heq.trans hv.symm)
  · refine Or.inl ⟨?_, hmem⟩
    by_contra hne
    exact hmem ((h.taken y k hlink).1 ⟨hlink, fun heq => hne (heq.trans hv)⟩)

/-- A link that strips to a load, or is one, is not sealed. -/
theorem Scanned.not_taken (hlink : F.Link a y k) (hv : s.func.operand y k = some v)
    (hs : Strips s.func v l) (hl : (s.func.instr l).op = .load) : (y, k) ∉ σ.taken := by
  obtain ⟨-, -, ⟨-, hnot⟩ | ⟨⟨w, hw, hsealed⟩, -⟩⟩ := h.link_cases hlink
  · exact hnot
  · obtain rfl := Option.some.inj (hv.symm.trans hw)
    exact absurd hs (hsealed.not_strips hl)

/-- The walk and the scan see the same loads of the slot. -/
theorem Scanned.loadOf_iff : s.func.LoadOf a l ↔ (σ.view F).LoadOf a l := by
  obtain ⟨pre, hd⟩ := h.traced.decorated
  rw [Scan.view, Func.hide_loadOf]
  constructor
  · intro hl
    have hl₀ := hd.loadOf_original hl
    refine ⟨hl₀, ?_⟩
    obtain ⟨-, -, ⟨-, hnot⟩ | ⟨⟨w, hw, hsealed⟩, -⟩⟩ := h.link_cases (Or.inl ⟨Or.inl hl₀, rfl⟩)
    · exact hnot
    · have hslot := hl.2
      rw [Func.slotOf, hw, Option.bind_some, hsealed.dynCast rfl fun _ => rfl] at hslot
      exact absurd hslot (by simp)
  · rintro ⟨hl, hnot⟩
    obtain ⟨v, hv, ⟨hs, -⟩ | ⟨-, hmem⟩⟩ := h.link_cases (Or.inl ⟨Or.inl hl, rfl⟩)
    · exact h.traced.loadOf hl (hs.trans hv.symm)
    · exact absurd hmem hnot

/-- They see the same casts. -/
theorem Scanned.strips (hl : s.func.LoadOf a l) (hs : Strips s.func v l)
    (hv : ∀ z, v.ref = .inst z → z < F.next) : Strips (σ.view F) v l ∧ Strips F v l := by
  obtain ⟨pre, hd⟩ := h.traced.decorated
  induction hs with
  | self hvl => exact ⟨.self hvl, .self hvl⟩
  | @cast v w z k l hvz hc hw hs ih =>
      have hz := hv z hvz
      have hw₀ := h.traced.operand_of_strips hz hw hl.1 hs
      obtain ⟨hview, hF⟩ := ih hl fun u hu => hd.base.operand_lt z k w u hw₀ hu
      have hc₀ := hd.carries_original hz hc
      obtain ⟨u, hu⟩ : ∃ u, w.ref = .inst u := by
        cases hs with
        | self hwl => exact ⟨_, hwl⟩
        | cast hwu _ _ _ => exact ⟨_, hwu⟩
      -- what is seen through is no rewritten operand
      have hnot : (z, k) ∉ σ.taken := by
        intro hmem
        rcases h.sites z k hmem with ⟨hload | hgep, -⟩ | ⟨callee, returned, hcall⟩
        · rw [Func.Carries, hload] at hc₀
          exact hc₀
        · have hlink : F.Link a z k :=
            Or.inr ⟨Or.inl hgep, w, hw₀, Or.inl ⟨l, hd.loadOf_original hl, hF⟩⟩
          exact h.not_taken hlink hw hs hl.1 hmem
        · have hlink : F.Link a z k :=
            Or.inr ⟨Or.inr ⟨callee, returned, hcall⟩, w, hw₀,
              Or.inl ⟨l, hd.loadOf_original hl, hF⟩⟩
          exact h.not_taken hlink hw hs hl.1 hmem
      refine ⟨.cast hvz (Func.carries_hide hc₀ fun hgep j hmem => ?_)
        ((Func.hide_operand_inst hu).2 ⟨hw₀, hnot⟩) hview, .cast hvz hc₀ hw₀ hF⟩
      rcases h.sites z (j + 1) hmem with ⟨-, hj⟩ | ⟨callee, returned, hcall⟩
      · exact absurd hj (Nat.succ_ne_zero j)
      · exact absurd (hgep.symm.trans hcall) (by simp)

theorem Scanned.strips_of_view (hl : (σ.view F).LoadOf a l) (hs : Strips (σ.view F) v l) :
    Strips s.func v l ∧ Strips F v l := by
  obtain ⟨pre, hd⟩ := h.traced.decorated
  have hl₀ := (Func.hide_loadOf.1 hl).1
  induction hs with
  | self hvl => exact ⟨.self hvl, .self hvl⟩
  | @cast v w z k l hvz hc hw hs ih =>
      obtain ⟨hwalk, hF⟩ := ih hl hl₀
      obtain ⟨u, hu⟩ : ∃ u, w.ref = .inst u := by
        cases hs with
        | self hwl => exact ⟨_, hwl⟩
        | cast hwu _ _ _ => exact ⟨_, hwu⟩
      obtain ⟨hw₀, hnot⟩ := (Func.hide_operand_inst hu).1 hw
      have hc₀ := Func.hide_carries hc
      have hz := hd.base.lt_of_operand hw₀
      refine ⟨.cast hvz (h.traced.carries hz hc₀) ?_ hwalk, .cast hvz hc₀ hw₀ hF⟩
      by_cases huses : (F.instr z).op = .gep ∨
          ∃ callee returned, (F.instr z).op = .call (some callee) returned
      · obtain ⟨w', hw', ⟨hs', -⟩ | ⟨-, hmem⟩⟩ :=
          h.link_cases (Or.inr ⟨huses, w, hw₀, Or.inl ⟨l, hl₀, hF⟩⟩)
        · obtain rfl := Option.some.inj (hw₀.symm.trans hw')
          exact hs'
        · exact absurd hmem hnot
      · rw [not_or] at huses
        rw [Func.operand, h.traced.settled z hz]
        · exact hw₀
        · intro hload
          rw [Func.Carries, hload] at hc₀
          exact hc₀
        · exact huses.1
        · exact fun callee returned hop => huses.2 ⟨callee, returned, hop⟩

/-- They see the same bitcasts of loads through loads of the slot. -/
theorem Scanned.nestsTo (hl : s.func.LoadOf a l) (hv : ∀ z, v.ref = .inst z → z < F.next)
    (hn : s.func.NestsTo v l) : (σ.view F).NestsTo v l := by
  obtain ⟨pre, hd⟩ := h.traced.decorated
  obtain ⟨b, u, y, w, hvb, hb, hu, huy, hy, hw, hwl⟩ := hn
  have hbF := hv b hvb
  have hyF := hd.lt_of_load hy
  have hb₀ := (hd.op b hbF).symm.trans hb
  have hy₀ := (hd.op y hyF).symm.trans hy
  have hw₀ := hd.operand_original hyF hw hwl (hd.lt_of_load hl.1)
  have hu₀ : F.operand b 0 = some u := by
    rw [Func.operand, ← h.traced.settled b hbF (by simp [hb₀]) (by simp [hb₀]) (by simp [hb₀])]
    exact hu
  -- casts are not rewritten, and the inner address is seen by the walk
  have hbnot : (b, 0) ∉ σ.taken := by
    intro hmem
    rcases h.sites b 0 hmem with ⟨hload | hgep, -⟩ | ⟨callee, returned, hcall⟩
    · exact absurd (hb₀.symm.trans hload) (by simp)
    · exact absurd (hb₀.symm.trans hgep) (by simp)
    · exact absurd (hb₀.symm.trans hcall) (by simp)
  have hynot : (y, 0) ∉ σ.taken :=
    h.not_taken (Or.inl ⟨Or.inr ⟨hy₀, w, l, hw₀, hwl, hd.loadOf_original hl⟩, rfl⟩) hw
      (.self hwl) hl.1
  exact ⟨b, u, y, w, hvb, hb₀, (Func.hide_operand_inst huy).2 ⟨hu₀, hbnot⟩, huy, hy₀,
    (Func.hide_operand_inst hwl).2 ⟨hw₀, hynot⟩, hwl⟩

theorem Scanned.nestsTo_of_view (hl : (σ.view F).LoadOf a l) (hn : (σ.view F).NestsTo v l) :
    s.func.NestsTo v l := by
  obtain ⟨pre, hd⟩ := h.traced.decorated
  obtain ⟨b, u, y, w, hvb, hb, hu, huy, hy, hw, hwl⟩ := hn
  have hu₀ := ((Func.hide_operand_inst huy).1 hu).1
  obtain ⟨hw₀, hynot⟩ := (Func.hide_operand_inst hwl).1 hw
  have hb₀ : (F.instr b).op = .bitcast := hb
  have hy₀ : (F.instr y).op = .load := hy
  have hinstr := h.traced.settled b (hd.base.lt_of_operand hu₀) (by simp [hb₀]) (by simp [hb₀])
    (by simp [hb₀])
  have hthrough : F.LoadThrough a y := ⟨hy₀, w, l, hw₀, hwl, (Func.hide_loadOf.1 hl).1⟩
  obtain ⟨w', hw', ⟨hs, -⟩ | ⟨-, hmem⟩⟩ := h.link_cases (Or.inl ⟨Or.inr hthrough, rfl⟩)
  · obtain rfl := Option.some.inj (hw₀.symm.trans hw')
    refine ⟨b, u, y, w, hvb, ?_, ?_, huy, (hd.op y (hd.base.lt_of_load hy₀)).trans hy₀, hs, hwl⟩
    · rw [hinstr]
      exact hb₀
    · rw [Func.operand, hinstr]
      exact hu₀
  · exact absurd hmem hynot

/-- They see the same most recent use of a load of the slot. -/
theorem Scanned.userBack_iff (hwf : F.WellFormed) (hl : F.LoadOf a l) :
    s.func.UserBack l g ↔ (σ.view F).UserBack l g := by
  obtain ⟨pre, hd⟩ := h.traced.decorated
  have hlop := (hd.op l (hwf.lt_of_load hl.1)).trans hl.1
  rw [h.traced.userBack_iff hwf hl.1, Scan.view, Func.hide_userBack]
  apply and_congr_right
  intro _
  constructor
  · rintro huses ⟨x, k⟩ hu hmem
    obtain ⟨v, hv, hvl⟩ := hwf.users_operand x k l hu
    have hlink : F.Link a x k := by
      rcases h.sites x k hmem with ⟨hload | hgep, rfl⟩ | hcall
      · exact Or.inl ⟨Or.inr ⟨hload, v, l, hv, hvl, hl⟩, rfl⟩
      · exact Or.inr ⟨Or.inl hgep, v, hv, Or.inl ⟨l, hl, .self hvl⟩⟩
      · exact Or.inr ⟨Or.inr hcall, v, hv, Or.inl ⟨l, hl, .self hvl⟩⟩
    exact h.not_taken hlink (huses x k v hv hvl) (.self hvl) hlop hmem
  · intro huses x k v hv hvl
    by_cases hlink : F.Link a x k
    · obtain ⟨w, hw, ⟨hs, -⟩ | ⟨-, hmem⟩⟩ := h.link_cases hlink
      · obtain rfl := Option.some.inj (hv.symm.trans hw)
        exact hs
      · exact absurd hmem (huses (x, k) (hwf.operand_users x k v l hv hvl))
    · exact h.traced.operand_of_not_link hv hvl hl hlink

end View

end Scanned

/-! ### Loads -/

section Loads

variable {tbi : Bool} {F : Func} {a g l x : Nat} {p : Value} {σ : Scan} {s : State}

theorem Scan.load_of_userBack (hl : (σ.view F).LoadOf a l) (hp : (σ.view F).operand l 0 = some p)
    (hsel : loadSelected (σ.view F) l p = true) (huse : (σ.view F).UserBack l g) :
    Scan.load F a σ l = if σ.armed = true then (σ.wrap g 0).event .feed else σ := by
  obtain ⟨hg, j, hj⟩ := huse
  rw [Scan.load]
  simp only [hp, hsel, hl.2, hj, hg, if_true, true_and]

theorem Scan.load_of_not_userBack (hl : (σ.view F).LoadOf a l)
    (hp : (σ.view F).operand l 0 = some p)
    (hno : loadSelected (σ.view F) l p = true → ∀ g, ¬ (σ.view F).UserBack l g) :
    Scan.load F a σ l = σ := by
  rw [Scan.load]
  simp only [hp, hl.2, if_true]
  split
  · rename_i hsel
    split
    · rename_i g j huse
      rw [if_neg]
      rintro ⟨hg, -⟩
      exact hno hsel g ⟨hg, j, huse⟩
    · rfl
  · rfl

/-- A load that is none of the slot. -/
theorem Scan.load_of_slotOf (hp : (σ.view F).operand x 0 = some p)
    (hslot : (σ.view F).slotOf x ≠ some a) :
    Scan.load F a σ x =
      if loadSelected (σ.view F) x p = true ∧
          ((σ.view F).dynCast (· == .load) p).bind (σ.view F).slotOf = some a ∧ σ.flags ≠ none then
        σ.wrap x 0
      else σ := by
  rw [Scan.load]
  simp only [hp, hslot, if_false]
  split
  · rename_i hsel
    simp only [hsel, true_and]
  · rename_i hsel
    rw [if_neg fun h => hsel h.1]

/-- Nothing happens at a load when neither its address nor what this is loaded from is the slot. -/
theorem Scan.load_of_blocked (hslot : (σ.view F).slotOf x ≠ some a)
    (hno : ∀ p l, (σ.view F).operand x 0 = some p → p.ref = .inst l →
      ¬ (σ.view F).LoadOf a l) : Scan.load F a σ x = σ := by
  cases hp : (σ.view F).operand x 0 with
  | none =>
      rw [Scan.load]
      simp only [hp]
  | some p =>
      rw [Scan.load_of_slotOf hp hslot, if_neg]
      rintro ⟨-, hbind, -⟩
      obtain ⟨l, hl, ha⟩ := Option.bind_eq_some_iff.1 hbind
      obtain ⟨hpl, hload⟩ := Func.dynCast_eq_some.1 hl
      exact hno p l hp hpl ⟨beq_iff_eq.1 hload, ha⟩

variable (h : Scanned tbi F a σ s)

include h

/-- The filter of `instrumentLoad` sees the same type and the same name. -/
theorem Scanned.loadSelected {z : Nat} (hx : x < F.next) (hp : F.operand x 0 = some p)
    (hz : p.ref = .inst z) : loadSelected s.func x p = loadSelected (σ.view F) x p := by
  obtain ⟨pre, hd⟩ := h.traced.decorated
  apply loadSelected_congr
  · exact hd.ty x hx
  · rw [Func.nameOf, Func.nameOf, hz]
    exact hd.instrName z (hd.base.operand_lt x 0 p z hp hz)

variable (hwf : F.WellFormed)

include hwf

/-- **At a load of the slot** the walk checks the GEP that the scan expects. -/
theorem Scanned.visit_load (hl : F.LoadOf a l) :
    Scanned tbi F a (Scan.load F a σ l) (visit tbi s l) := by
  obtain ⟨pre, hd⟩ := h.traced.decorated
  have hlt := hwf.lt_of_load hl.1
  obtain ⟨p, hp, hs | ⟨⟨w, hw, hsealed⟩, hmem⟩⟩ := h.link_cases (Or.inl ⟨Or.inl hl, rfl⟩)
  · obtain ⟨q, hq, hqa, -⟩ := Func.slotOf_eq_some.1 hl.2
    obtain rfl := Option.some.inj (hp.symm.trans hq)
    have hview : (σ.view F).LoadOf a l := Func.hide_loadOf.2 ⟨hl, hs.2⟩
    have hwalk : s.func.LoadOf a l := h.loadOf_iff.2 hview
    have hpview : (σ.view F).operand l 0 = some p := (Func.hide_operand_inst hqa).2 ⟨hp, hs.2⟩
    have hsame := h.loadSelected hlt hp hqa
    by_cases hcheck : PTAuth.Pass.loadSelected s.func l p = true ∧ ∃ g, s.func.UserBack l g
    · obtain ⟨hsel, g, huse⟩ := hcheck
      obtain ⟨v, hv, hvl⟩ : ∃ v, s.func.operand g 0 = some v ∧ v.ref = .inst l := by
        obtain ⟨j, hj⟩ := huse.2
        exact hd.userBack hwf hj huse.1 (loadSelected_ty hsel)
      rw [visit_of_userBack h.traced.decorated hwf hwalk hs.1 hsel huse,
        Scan.load_of_userBack hview hpview (hsame ▸ hsel) ((h.userBack_iff hwf hl).1 huse)]
      have hflags : (checkGEP s l g).SlotFlags a (SlotEvent.feed.apply σ.flags) :=
        (checkGEP_flags h.flags g).elim And.right fun hno => absurd hwalk.2 hno.1
      rw [checkGEP, hwalk.2] at hflags ⊢
      dsimp only at hflags ⊢
      rw [h.flags.any_isArmed] at hflags ⊢
      rw [Scan.armed]
      split
      · rename_i harmed
        rw [if_pos harmed] at hflags
        exact (h.wrap hlt (.gep hwalk.1 huse.1 hv hvl (by decide))).event hflags
      · exact h
    · rw [visit_of_not_userBack hwalk hs.1 fun hsel g huse => hcheck ⟨hsel, g, huse⟩,
        Scan.load_of_not_userBack hview hpview fun hsel g huse =>
          hcheck ⟨hsame.trans hsel, g, (h.userBack_iff hwf hl).2 huse⟩]
      exact h
  · rw [visit_of_sealed ((hd.op l hlt).trans hl.1) hw hsealed, Scan.load_of_blocked]
    · exact h
    · exact fun hslot => (Func.hide_slotOf.1 hslot).2 hmem
    · intro q z hq hqz
      rw [Func.hide_operand_hidden hmem hq] at hqz
      exact absurd hqz (by simp)

/-- **At a load through a load of the slot** the address is wrapped if the slot has an entry. -/
theorem Scanned.visit_through (hx : F.LoadThrough a x) :
    Scanned tbi F a (Scan.load F a σ x) (visit tbi s x) := by
  obtain ⟨pre, hd⟩ := h.traced.decorated
  have hxlt := hwf.lt_of_load hx.1
  have hops := (hd.op x hxlt).trans hx.1
  have hslot : (σ.view F).slotOf x ≠ some a := by
    intro hslot
    exact absurd (hx.slotOf.symm.trans (Func.hide_slotOf.1 hslot).1) (by simp)
  obtain ⟨p, hp, hs | ⟨⟨w, hw, hsealed⟩, hmem⟩⟩ := h.link_cases (Or.inl ⟨Or.inr hx, rfl⟩)
  · obtain ⟨-, q, l, hq, hql, hl⟩ := id hx
    obtain rfl := Option.some.inj (hp.symm.trans hq)
    have hlop := (hd.op l (hwf.lt_of_load hl.1)).trans hl.1
    have hpview : (σ.view F).operand x 0 = some p := (Func.hide_operand_inst hql).2 ⟨hp, hs.2⟩
    by_cases hsl : s.func.LoadOf a l
    · have hinner : ((σ.view F).dynCast (· == .load) p).bind (σ.view F).slotOf = some a := by
        have hlv := h.loadOf_iff.1 hsl
        rw [Func.dynCast, hql]
        simp [hlv.1, hlv.2]
      rw [PTAuth.Pass.visit_through hd hx.1 hx.slotOf hs.1 hql hsl, Scan.load_of_slotOf hpview hslot,
        h.loadSelected hxlt hp hql]
      by_cases hsel : PTAuth.Pass.loadSelected (σ.view F) x p = true
      · rw [if_pos hsel]
        rcases h.flags.entries with ⟨hnone, hes⟩ | ⟨e, es, hes, hsome⟩
        · rw [hes, if_neg fun hcond => hcond.2.2 hnone]
          exact h
        · -- the first wrap is the one the scan notes, and those of further entries do not matter
          have hw : Wrap tbi s.func x e.check x 0 :=
            .nested hops hs.1 (hd.slotOf_none hxlt hx.slotOf) e.check_mem
          have htaken : Taken F a (s.wrap x e.check x 0).func x 0 :=
            (h.traced.taken_wrap hxlt hw).2 (Or.inr ⟨Or.inl ⟨Or.inr hx, rfl⟩, rfl, rfl⟩)
          have hnext := h.wrap hxlt hw
          have hmem : ∀ f ∈ es.map PointerProperties.check, f ∈ ["__loadCheck", "__noCheck"] := by
            intro f hf
            obtain ⟨q, -, rfl⟩ := List.mem_map.1 hf
            exact q.check_mem
          obtain ⟨htraced, hquiet⟩ := Traced.wraps_quiet hx hmem hnext.traced htaken
          rw [hes, if_pos ⟨hsel, hinner, by simp [hsome]⟩]
          exact hnext.quiet htraced hquiet
      · rw [if_neg hsel, if_neg fun hcond => hsel hcond.1]
        exact h
    · rw [visit_of_blocked hops hs.1 (hd.slotOf_none hxlt hx.slotOf), Scan.load_of_blocked hslot]
      · exact h
      · intro q z hq hqz
        obtain rfl := Option.some.inj (hpview.symm.trans hq)
        obtain rfl := Ref.inst.inj (hql.symm.trans hqz)
        exact fun hlv => hsl (h.loadOf_iff.2 hlv)
      · simp [Func.dynCast, hql, hlop]
      · intro y hy
        obtain ⟨hpy, -⟩ := Func.dynCast_eq_some.1 hy
        obtain rfl := Ref.inst.inj (hql.symm.trans hpy)
        apply Option.eq_none_iff_forall_ne_some.2
        intro b hb
        obtain rfl := Option.some.inj (hl.2.symm.trans (hd.slotOf_original (hwf.lt_of_load hl.1) hb))
        exact hsl ⟨hlop, hb⟩
  · rw [visit_of_sealed hops hw hsealed, Scan.load_of_blocked hslot]
    · exact h
    · intro q z hq hqz
      rw [Func.hide_operand_hidden hmem hq] at hqz
      exact absurd hqz (by simp)

end Loads

/-! ### Calls -/

section Calls

variable {tbi : Bool} {F : Func} {a i l x : Nat} {v : Value} {σ : Scan} {s : State}
  {callee : Callee} {returned : Option Nat}

theorem Scan.passLoad_of_strips (hF : F.Linked) (hl : (σ.view F).LoadOf a l)
    (hs : Strips (σ.view F) v l) :
    Scan.passLoad F a σ v =
      if σ.flags.any Flags.checked = true then σ else (σ.wrap l 0).event .pass := by
  have hcast : (σ.view F).dynCast (· == .load) ((σ.view F).stripPointerCasts (σ.view F).next v) =
      some l :=
    Func.dynCast_eq_some.2
      ⟨hs.stripPointerCasts (Func.hide_linked hF σ.taken) hl.1, beq_iff_eq.2 hl.1⟩
  rw [Scan.passLoad, hcast]
  cases hchecked : σ.flags.any Flags.checked with
  | true => simp
  | false => simp [hl.2]

theorem Scan.passLoad_of_not (hno : ∀ l, (σ.view F).LoadOf a l → ¬ Strips (σ.view F) v l) :
    Scan.passLoad F a σ v = σ := by
  rw [Scan.passLoad]
  split
  · rfl
  · rename_i l hl
    obtain ⟨href, hload⟩ := Func.dynCast_eq_some.1 hl
    rw [if_neg]
    rintro ⟨hslot, -⟩
    exact hno l ⟨beq_iff_eq.1 hload, hslot⟩ (Func.strips_of_stripPointerCasts _ v href)

theorem Scan.passNestedLoad_of_nestsTo (hl : (σ.view F).LoadOf a l)
    (hn : (σ.view F).NestsTo v l) :
    Scan.passNestedLoad F a σ v = (σ.wrap l 0).event .nested := by
  obtain ⟨b, u, y, w, hvb, hb, hu, huy, hy, hw, hwl⟩ := hn
  have hcast : (σ.view F).dynCast (· == .bitcast) v = some b :=
    Func.dynCast_eq_some.2 ⟨hvb, beq_iff_eq.2 hb⟩
  have hload : (σ.view F).dynCast (· == .load) u = some y :=
    Func.dynCast_eq_some.2 ⟨huy, beq_iff_eq.2 hy⟩
  have hinner : (σ.view F).dynCast (· == .load) w = some l :=
    Func.dynCast_eq_some.2 ⟨hwl, beq_iff_eq.2 hl.1⟩
  rw [Scan.passNestedLoad]
  simp only [hcast, hu, hload, hw, hinner, hl.2, Option.bind_some, if_true]

theorem Scan.passNestedLoad_of_not
    (hno : ∀ l, (σ.view F).LoadOf a l → ¬ (σ.view F).NestsTo v l) :
    Scan.passNestedLoad F a σ v = σ := by
  rw [Scan.passNestedLoad]
  split
  · rfl
  · rename_i l hl
    obtain ⟨w, hw, hl⟩ := Option.bind_eq_some_iff.1 hl
    obtain ⟨y, hy, hw⟩ := Option.bind_eq_some_iff.1 hw
    obtain ⟨u, hu, hy⟩ := Option.bind_eq_some_iff.1 hy
    obtain ⟨b, hb, hu⟩ := Option.bind_eq_some_iff.1 hu
    obtain ⟨hvb, hcast⟩ := Func.dynCast_eq_some.1 hb
    obtain ⟨huy, hload⟩ := Func.dynCast_eq_some.1 hy
    obtain ⟨hwl, hinner⟩ := Func.dynCast_eq_some.1 hl
    rw [if_neg]
    intro hslot
    exact hno l ⟨beq_iff_eq.1 hinner, hslot⟩
      ⟨b, u, y, w, hvb, beq_iff_eq.1 hcast, hu, huy, beq_iff_eq.1 hload, hw, hwl⟩

/-- An argument behind which no load of the slot is seen. -/
theorem Scan.passArgument_of_not (hno : ∀ v l, (σ.view F).operand x i = some v →
    (σ.view F).LoadOf a l → ¬ Strips (σ.view F) v l ∧ ¬ (σ.view F).NestsTo v l) :
    Scan.passArgument F a x σ i = σ := by
  rw [Scan.passArgument]
  split
  · rfl
  · rename_i v hv
    split
    · rw [Scan.passLoad_of_not fun l hl => (hno v l hv hl).1]
      exact Scan.passNestedLoad_of_not fun l hl => (hno v l hv hl).2
    · rfl

/-- What comes from the slot is stripped whenever the callee asks for it. -/
theorem Scan.xpacArgument_eq (name : String) (hv : F.operand x i = some v)
    (hfrom : F.ComesFrom a v) :
    Scan.xpacArgument tbi F name x σ i =
      if (pointerArgument v && (!tbi || decide (name ∈ xpacedList))) = true then σ.wrap x i
      else σ := by
  obtain ⟨z, hz⟩ := hfrom.inst
  have hgep : (F.dynCast (· == .gep) v).bind F.slotOf = none := by
    apply Option.eq_none_iff_forall_ne_some.2
    intro b hb
    obtain ⟨g, hg, hb⟩ := Option.bind_eq_some_iff.1 hb
    obtain ⟨hvg, hgop⟩ := Func.dynCast_eq_some.1 hg
    exact absurd ((hfrom.slotOf hvg (beq_iff_eq.1 hgop)).symm.trans hb) (by simp)
  rw [Scan.xpacArgument, hv]
  dsimp only
  rw [hgep, hz]
  simp only [Ref.isConstant, Bool.not_false, Option.isSome_none, Bool.and_true]

variable (h : Scanned tbi F a σ s)

include h

/-- **An argument of an external call** is stripped in the walk, and noted by the scan. -/
theorem Scanned.xpacArgument (hop : (F.instr x).op = .call (some callee) returned)
    (hdecl : callee.isDeclaration = true) (havoid : callee.name ∉ localAvoidList) (i : Nat) :
    Scanned tbi F a (Scan.xpacArgument tbi F callee.name x σ i)
      (xpacArgument tbi callee.name x s i) := by
  obtain ⟨pre, hd⟩ := h.traced.decorated
  have hx := hd.base.lt_of_call hop
  by_cases huse : F.UsesSlot a x i
  · obtain ⟨-, v, hv, hfrom⟩ := id huse
    rw [h.traced.xpacArgument_eq hop hv hfrom, Scan.xpacArgument_eq callee.name hv hfrom]
    split
    · rename_i hcond
      exact h.wrap hx (h.traced.wrap_argument hop hdecl havoid hv hfrom hcond)
    · exact h
  · obtain ⟨htraced, hquiet⟩ := h.traced.xpacArgument_quiet hop hdecl havoid huse
    have hnext := h.quiet htraced hquiet
    have hno : ¬ F.Link a x i := by
      rintro (⟨hl | hl, -⟩ | huse')
      · exact absurd (hop.symm.trans hl.1) (by simp)
      · exact absurd (hop.symm.trans hl.1) (by simp)
      · exact huse huse'
    rw [Scan.xpacArgument]
    split
    · exact hnext
    · split
      · exact hnext.note (Or.inr ⟨callee, returned, hop⟩) hno
      · exact hnext

/-- **A load of the slot that is passed** arms it in the walk and in the scan. -/
theorem Scanned.passLoad (hands : s.func.Hands x v) (hv : F.operand x i = some v) :
    Scanned tbi F a (Scan.passLoad F a σ v) (passLoad x s v) := by
  obtain ⟨pre, hd⟩ := h.traced.decorated
  have hx := hd.base.lt_of_operand hv
  by_cases hex : ∃ l, s.func.LoadOf a l ∧ Strips s.func v l
  · obtain ⟨l, hl, hs⟩ := hex
    have hcast : s.func.dynCast (· == .load) (s.func.stripPointerCasts s.func.next v) = some l :=
      Func.dynCast_eq_some.2 ⟨hs.stripPointerCasts hd.linked hl.1, beq_iff_eq.2 hl.1⟩
    have hflags := passLoad_pass (x := x) h.flags hcast hl.2
    have hview := (h.strips hl hs fun z hz => hd.base.operand_lt x i v z hv hz).1
    rw [passLoad_of_strips hd.linked hl hs, h.flags.any_isChecked] at hflags ⊢
    rw [Scan.passLoad_of_strips hd.base (h.loadOf_iff.1 hl) hview]
    split
    · exact h
    · rename_i hchecked
      rw [if_neg hchecked] at hflags
      exact (h.wrap hx (.argument (Or.inl ⟨hl.1, v, hands, hs⟩) hl.2 rfl)).event hflags
  · rw [Scan.passLoad_of_not fun l hl hs =>
      hex ⟨l, h.loadOf_iff.2 hl, (h.strips_of_view hl hs).1⟩]
    exact h.quiet ((passLoad_steps hands).traced h.traced hx)
      (h.traced.passLoad_quiet hx hands fun l hl hs => hex ⟨l, hl, hs⟩)

/-- **A load through a load of the slot** likewise. -/
theorem Scanned.passNestedLoad (hands : s.func.Hands x v) (hv : F.operand x i = some v) :
    Scanned tbi F a (Scan.passNestedLoad F a σ v) (passNestedLoad x s v) := by
  obtain ⟨pre, hd⟩ := h.traced.decorated
  have hx := hd.base.lt_of_operand hv
  by_cases hex : ∃ l, s.func.LoadOf a l ∧ s.func.NestsTo v l
  · obtain ⟨l, hl, hn⟩ := hex
    have hview := h.nestsTo hl (fun z hz => hd.base.operand_lt x i v z hv hz) hn
    have hnext := h.wrap hx (.argument (hn.mayTake hands hl.1) hl.2 rfl)
    rw [passNestedLoad_of_nestsTo hl hn, Scan.passNestedLoad_of_nestsTo (h.loadOf_iff.1 hl) hview]
    have hmark := markPassed_flags (b := a) hnext.flags
      (f := fun p => { p with isPassedToFunctionBefore := true })
      (g := fun g => ⟨true, g.checked⟩) (fun _ => ⟨rfl, rfl⟩) fun _ => rfl
    rw [if_pos rfl] at hmark
    apply hnext.event
    cases hf : σ.flags with
    | none =>
        rw [show (σ.wrap l 0).flags = none from hf] at hmark ⊢
        exact hmark
    | some g =>
        rw [show (σ.wrap l 0).flags = some g from hf] at hmark ⊢
        exact hmark
  · rw [Scan.passNestedLoad_of_not fun l hl hn =>
      hex ⟨l, h.loadOf_iff.2 hl, h.nestsTo_of_view hl hn⟩]
    exact h.quiet ((passNestedLoad_steps hands).traced h.traced hx)
      (h.traced.passNestedLoad_quiet hx hands fun l hl hn => hex ⟨l, hl, hn⟩)

/-- **One argument.** -/
theorem Scanned.passArgument (hop : (F.instr x).op = .call (some callee) returned)
    (havoid : callee.name ∉ functionsAvoidList) (i : Nat) :
    Scanned tbi F a (Scan.passArgument F a x σ i) (passArgument x s i) := by
  obtain ⟨pre, hd⟩ := h.traced.decorated
  have hx := hd.base.lt_of_call hop
  have hops := (hd.op x hx).trans hop
  have hcalls : (F.instr x).op = .gep ∨
      ∃ callee returned, (F.instr x).op = .call (some callee) returned :=
    Or.inr ⟨callee, returned, hop⟩
  by_cases huse : F.UsesSlot a x i
  · obtain ⟨v, hv, hs | ⟨hs, hmem⟩⟩ := h.link_cases (Or.inr huse)
    · obtain ⟨-, w, hw, hfrom⟩ := id huse
      obtain rfl := Option.some.inj (hv.symm.trans hw)
      obtain ⟨z, hz⟩ := hfrom.inst
      have hview : (σ.view F).operand x i = some v := (Func.hide_operand_inst hz).2 ⟨hv, hs.2⟩
      rw [PTAuth.Pass.passArgument, hs.1, Scan.passArgument, hview]
      dsimp only
      split
      · rename_i hptr
        generalize hs₁ :
          ({ s with pass := { s.pass with internalCall := true, geps := [] } } : State) = s₁
        have hfirst : Scanned tbi F a σ s₁ := by
          rw [← hs₁]
          exact ⟨h.traced, h.taken, h.sites, h.flags.congr rfl rfl⟩
        have hands : s₁.func.Hands x v := by
          rw [← hs₁]
          exact hands_of_operand hops havoid hs.1 hptr rfl
        have hsecond := hfirst.passLoad hands hv
        exact hsecond.passNestedLoad (hfirst.traced.hands_passLoad hx hands) hv
      · exact h
    · obtain ⟨htraced, hq⟩ := h.traced.passArgument_quiet hop havoid (Or.inr hs)
      rw [Scan.passArgument_of_not]
      · exact h.quiet htraced hq
      · -- nothing is seen behind a hidden argument
        intro w l hw _
        have href := Func.hide_operand_hidden hmem hw
        constructor
        · rintro (hwl | ⟨hwz, -, -, -⟩)
          · exact absurd (href.symm.trans hwl) (by simp)
          · exact absurd (href.symm.trans hwz) (by simp)
        · rintro ⟨b, -, -, -, hwb, -⟩
          exact absurd (href.symm.trans hwb) (by simp)
  · obtain ⟨htraced, hq⟩ := h.traced.passArgument_quiet hop havoid (Or.inl huse)
    rw [Scan.passArgument_of_not]
    · exact h.quiet htraced hq
    · intro w l hw hl
      have hl₀ := (Func.hide_loadOf.1 hl).1
      constructor
      · intro hs
        obtain ⟨z, hz⟩ : ∃ z, w.ref = .inst z := by
          cases hs with
          | self hwl => exact ⟨_, hwl⟩
          | cast hwz _ _ _ => exact ⟨_, hwz⟩
        exact huse ⟨hcalls, w, ((Func.hide_operand_inst hz).1 hw).1,
          Or.inl ⟨l, hl₀, (h.strips_of_view hl hs).2⟩⟩
      · rintro ⟨b, u, y, p, hwb, hb, hu, huy, hy, hp, hpl⟩
        exact huse ⟨hcalls, w, ((Func.hide_operand_inst hwb).1 hw).1,
          Or.inr ⟨y, ⟨hy, p, l, ((Func.hide_operand_inst hpl).1 hp).1, hpl, hl₀⟩,
            .cast hwb hb ((Func.hide_operand_inst huy).1 hu).1 (.self huy)⟩⟩

/-- **A call** does the same to the slot in the walk and in the scan. -/
theorem Scanned.visit_call (hop : (F.instr x).op = .call (some callee) returned) :
    Scanned tbi F a (Scan.call tbi F a σ x callee) (visit tbi s x) := by
  obtain ⟨pre, hd⟩ := h.traced.decorated
  have hx := hd.base.lt_of_call hop
  have hlen := hd.operands_length x hx
  have hfirst : Scanned tbi F a
      (if callee.isDeclaration = true ∧ callee.name ∉ localAvoidList then
        (List.range (F.instr x).operands.length).foldl (Scan.xpacArgument tbi F callee.name x) σ
      else σ) (externalArguments tbi s x callee) := by
    have hflag : Scanned tbi F a σ (if callee.name = "__ptauth_free" then
        { s with pass.flagFreeCalled := true } else s) := by
      split
      · exact ⟨h.traced, h.taken, h.sites, h.flags.congr rfl rfl⟩
      · exact h
    rw [externalArguments]
    dsimp only
    rw [hlen]
    split
    · rename_i hdecl
      apply Library.foldl_related_self (R := Scanned tbi F a) _ hflag
      exact fun i _ τ t ht => ht.xpacArgument hop hdecl.1 hdecl.2 i
    · exact hflag
  rw [visit_of_call ((hd.op x hx).trans hop), instrumentCalls, Scan.call, hlen]
  split
  · rename_i havoid
    apply Library.foldl_related_self (R := Scanned tbi F a) _ hfirst
    exact fun i _ τ t ht => ht.passArgument hop havoid i
  · exact hfirst

end Calls

/-! ### Visits and runs -/

section Visits

variable {tbi : Bool} {F : Func} {a x : Nat} {σ : Scan} {s : State}

/-- A store is one to the slot for the scan exactly if it is. -/
theorem Scanned.visit_store (h : Scanned tbi F a σ s) (hop : (F.instr x).op = .store) :
    Scanned tbi F a (Scan.store F a σ x) (visit tbi s x) := by
  obtain ⟨pre, hd⟩ := h.traced.decorated
  have hx := hd.base.lt_of_op (by simp [hop] : (F.instr x).op ≠ .other "")
  have hops := (hd.op x hx).trans hop
  have hvisit : visit tbi s x = { s with pass := (instrumentStore s x).pass } := by
    rw [visit, hops]
    exact instrumentStore_pass s x
  have hcase := PTAuth.Pass.visit_store (a := a) tbi hops h.flags
  by_cases hst : F.StoresTo a x
  · have hflags := hcase.elim And.right fun hno => absurd (h.traced.storesTo hst) hno.1
    obtain ⟨-, v, w, hv, hptr, hw, hcast⟩ := hst
    rw [Scan.store, hv, hw, Option.bind_some, hcast]
    simp only [hptr, and_self, if_true]
    rw [hvisit] at hflags ⊢
    exact h.event hflags
  · have hflags : (visit tbi s x).SlotFlags a σ.flags :=
      hcase.elim (fun hyes => absurd (hd.storesTo_original hx hyes.1) hst) And.right
    have hsame : Scan.store F a σ x = σ := by
      rw [Scan.store]
      split
      · rename_i v b hv hb
        rw [if_neg]
        rintro ⟨rfl, hptr⟩
        obtain ⟨w, hw, hcast⟩ := Option.bind_eq_some_iff.1 hb
        exact hst ⟨hop, v, w, hv, hptr, hw, hcast⟩
      · rfl
    rw [hsame]
    rw [hvisit] at hflags ⊢
    exact ⟨h.traced, h.taken, h.sites, hflags⟩

/-- **One instruction** of the walk and of the scan. -/
theorem Scanned.visit (h : Scanned tbi F a σ s) (hwf : F.WellFormed) (hx : x < F.next) :
    Scanned tbi F a (Scan.visit tbi F a σ x) (visit tbi s x) := by
  obtain ⟨pre, hd⟩ := h.traced.decorated
  have hop := hd.op x hx
  rw [Scan.visit]
  split
  · rename_i hret
    rw [PTAuth.Pass.visit, hop.trans hret]
    exact ⟨h.traced, h.taken, h.sites, instrumentReturn_flags⟩
  · rename_i hstore
    exact h.visit_store hstore
  · rename_i hload
    by_cases hl : F.LoadOf a x
    · exact h.visit_load hwf hl
    by_cases hthrough : F.LoadThrough a x
    · exact h.visit_through hwf hthrough
    · -- a load that is not about the slot
      have hno : ¬ F.Event a x := by
        rintro (hret | hst | hl' | ht | ⟨k, hgep | ⟨callee, returned, hcall⟩, -⟩)
        · exact absurd (hload.symm.trans hret) (by simp)
        · exact absurd (hload.symm.trans hst.1) (by simp)
        · exact hl hl'
        · exact hthrough ht
        · exact absurd (hload.symm.trans hgep) (by simp)
        · exact absurd (hload.symm.trans hcall) (by simp)
      rw [Scan.load_of_blocked]
      · exact h.quiet ((visit_steps hd hwf hx).traced h.traced hx) (h.traced.visit_quiet hwf hx hno)
      · exact fun hslot => hl ⟨hload, (Func.hide_slotOf.1 hslot).1⟩
      · intro p l hp hpl hlv
        exact hthrough ⟨hload, p, l, ((Func.hide_operand_inst hpl).1 hp).1, hpl,
          (Func.hide_loadOf.1 hlv).1⟩
  · rename_i callee returned hcall
    exact h.visit_call hcall
  · rename_i hret hstore hload hcall
    rw [visit_other]
    · exact h
    · rw [hop]
      exact hret
    · rw [hop]
      exact hstore
    · rw [hop]
      exact hload
    · intro callee returned
      rw [hop]
      exact hcall callee returned

/-- **The walk and the scan go hand in hand.** -/
theorem Scanned.run (hwf : s.func.WellFormed) (hclean : s.SlotFlags a none) (xs : List Nat)
    (hxs : ∀ x ∈ xs, x < s.func.next) :
    Scanned tbi s.func a (s.func.scan tbi a xs) (visited tbi s xs) := by
  apply Library.foldl_related_self (R := Scanned tbi s.func a) _ (.start hwf.toLinked hclean)
  exact fun x hx τ t ht => ht.visit hwf (hxs x hx)

end Visits

end PTAuth.Pass
