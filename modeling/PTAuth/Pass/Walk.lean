import Mathlib.Data.List.Nodup
import PTAuth.Pass.Rewrites

/-!
# The walk ends and visits the original instructions

The walk moves a cursor through blocks that its handlers extend. Instructions inserted ahead of the
cursor are inert, so the walk does on a well-formed function what a fold of `visit` over its
instructions in layout order does, and it ends (`walk_eq`). The fold is what later modules reason
about; `visited` is its state after a prefix of the instructions.

`traceWalk` is the walk with the list of its visits. In it the original instructions stand once
each, and the inserted ones change nothing (`walk_leaves_output`).
-/

set_option autoImplicit false

namespace PTAuth.Pass

/-- The state after the instructions `xs` were visited in this order. -/
def visited (tbi : Bool) (s : State) (xs : List Nat) : State := xs.foldl (visit tbi) s

@[simp] theorem visited_nil (tbi : Bool) (s : State) : visited tbi s [] = s := rfl

@[simp] theorem visited_cons (tbi : Bool) (s : State) (x : Nat) (xs : List Nat) :
    visited tbi s (x :: xs) = visited tbi (visit tbi s x) xs := rfl

theorem visited_append (tbi : Bool) (s : State) (xs ys : List Nat) :
    visited tbi s (xs ++ ys) = visited tbi (visited tbi s xs) ys :=
  List.foldl_append

/-- The state in front of the instructions `rest`: decorated, with inert instructions ahead. -/
structure Ahead (tbi : Bool) (F₀ : Func) (pre : Nat → List Nat) (rest : List Nat) (s : State) :
    Prop where
  decorated : Decorated tbi F₀ pre s.func
  inert : ∀ y ∈ rest, ∀ z ∈ pre y, Inert (s.func.instr z).op

theorem Ahead.refl {tbi : Bool} {F₀ : Func} (hwf : F₀.WellLinked) {s : State}
    (hs : s.func = F₀) (rest : List Nat) : Ahead tbi F₀ (fun _ => []) rest s where
  decorated := by
    rw [hs]
    exact Decorated.refl hwf.toLinked
  inert := fun _ _ _ hz => absurd hz List.not_mem_nil

/-- **One visit.** -/
theorem Ahead.step {tbi : Bool} {F₀ : Func} (hwf : F₀.WellLinked) {pre : Nat → List Nat}
    {x : Nat} {rest : List Nat} {s : State} (h : Ahead tbi F₀ pre (x :: rest) s)
    (hx : x < F₀.next) (hfresh : x ∉ rest) :
    ∃ pre', Ahead tbi F₀ pre' rest (visit tbi s x) ∧
      Grown x pre s.func pre' (visit tbi s x).func := by
  have hsteps := visit_steps h.decorated hwf hx
  obtain ⟨pre', hd', hg⟩ := hsteps.decorated h.decorated hx
  refine ⟨pre', ⟨hd', fun y hy z hz => ?_⟩, hg⟩
  have hne : y ≠ x := by
    rintro rfl
    exact hfresh hy
  rcases hg.new y hne z hz with hz' | hop
  · rw [hg.old y z hz']
    exact h.inert y (List.mem_cons_of_mem x hy) z hz'
  · exact hop

/-- **Many visits.** -/
theorem Ahead.run {tbi : Bool} {F₀ : Func} (hwf : F₀.WellLinked) :
    ∀ (xs : List Nat) {rest : List Nat} {pre : Nat → List Nat} {s : State},
      Ahead tbi F₀ pre (xs ++ rest) s → (xs ++ rest).Nodup → (∀ x ∈ xs, x < F₀.next) →
      ∃ pre', Ahead tbi F₀ pre' rest (visited tbi s xs) := by
  intro xs
  induction xs with
  | nil => exact fun h _ _ => ⟨_, h⟩
  | cons x xs ih =>
      intro rest pre s h hnd hlt
      obtain ⟨hfresh, hnd'⟩ := List.nodup_cons.1 hnd
      obtain ⟨pre', h', -⟩ := h.step hwf (hlt x List.mem_cons_self) hfresh
      exact ih h' hnd' fun y hy => hlt y (List.mem_cons_of_mem x hy)

/-- The function that a walk leaves is the original one with instructions inserted. -/
theorem Func.WellLinked.visited_decorated {s : State} (hwf : s.func.WellLinked) (tbi : Bool) :
    ∃ pre, Decorated tbi s.func pre (visited tbi s s.func.ids).func := by
  have hstart : Ahead tbi s.func (fun _ => []) (s.func.ids ++ []) s := Ahead.refl hwf rfl _
  have hnodup : (s.func.ids ++ []).Nodup := by
    rw [List.append_nil]
    exact hwf.ids_nodup
  obtain ⟨pre, hahead⟩ := hstart.run hwf s.func.ids hnodup hwf.ids_lt
  exact ⟨pre, hahead.decorated⟩

theorem visited_decorated (tbi : Bool) {s : State} (hwf : s.func.WellFormed) :
    ∃ pre, Decorated tbi s.func pre (visited tbi s s.func.ids).func :=
  hwf.wellLinked.visited_decorated tbi

/-! ## The cursor -/

/-- The node behind the first occurrence of `x`. -/
theorem nextNode_append {x : Nat} {l : List Nat} (h : x ∉ l) (l' : List Nat) :
    nextNode x (l ++ x :: l') = l'.head? := by
  induction l with
  | nil => simp [nextNode]
  | cons y l ih =>
      have hy : y ≠ x := fun he => h (by simp [he])
      rw [List.cons_append, nextNode, if_neg hy]
      exact ih fun hmem => h (List.mem_cons_of_mem y hmem)

/-- The instructions `xs` with what was inserted in front of them. -/
def decorate (pre : Nat → List Nat) (xs : List Nat) : List Nat := xs.flatMap fun x => pre x ++ [x]

theorem decorate_cons (pre : Nat → List Nat) (x : Nat) (xs : List Nat) :
    decorate pre (x :: xs) = pre x ++ x :: decorate pre xs := by
  simp [decorate]

theorem decorate_append (pre : Nat → List Nat) (xs ys : List Nat) :
    decorate pre (xs ++ ys) = decorate pre xs ++ decorate pre ys :=
  List.flatMap_append

theorem mem_decorate {pre : Nat → List Nat} {xs : List Nat} {z : Nat} :
    z ∈ decorate pre xs ↔ ∃ x ∈ xs, z ∈ pre x ∨ z = x := by
  simp [decorate]

theorem Decorated.block {tbi : Bool} {F₀ F : Func} {pre : Nat → List Nat}
    (h : Decorated tbi F₀ pre F) (b : Nat) :
    F.layout.getD b [] = decorate pre (F₀.layout.getD b []) := by
  rw [h.layout, List.getD_eq_getElem?_getD, List.getD_eq_getElem?_getD, List.getElem?_map]
  cases F₀.layout[b]? with
  | none => rfl
  | some block => rfl

theorem Decorated.ids {tbi : Bool} {F₀ F : Func} {pre : Nat → List Nat}
    (h : Decorated tbi F₀ pre F) : F.ids = decorate pre F₀.ids := by
  rw [Func.ids, Func.ids, h.layout, decorate, ← List.flatMap_def,
    List.flatten_eq_flatMap (L := F₀.layout), List.flatMap_assoc]
  rfl

/-! ## Traces -/

/-- `walkBlock`, with its visits: the instructions, and the states in front of them. -/
def traceBlock (tbi : Bool) (b : Nat) :
    Nat → Option Nat → State → Option (List (Nat × State) × State)
  | 0, _, _ => none
  | _ + 1, none, s => some ([], s)
  | fuel + 1, some x, s =>
      let t := visit tbi s x
      (traceBlock tbi b fuel (nextNode x (t.func.layout.getD b [])) t).map fun r =>
        ((x, s) :: r.1, r.2)

/-- `walk`, with its visits. -/
def traceWalk (tbi : Bool) (fuel : Nat) (s : State) : Option (List (Nat × State) × State) :=
  (List.range s.func.layout.length).foldlM
    (fun r b =>
      (traceBlock tbi b fuel (r.2.func.layout.getD b []).head? r.2).map fun r' =>
        (r.1 ++ r'.1, r'.2))
    ([], s)

theorem traceBlock_state (tbi : Bool) (b : Nat) :
    ∀ (fuel : Nat) (cursor : Option Nat) (s : State),
      (traceBlock tbi b fuel cursor s).map Prod.snd = walkBlock tbi b fuel cursor s := by
  intro fuel
  induction fuel with
  | zero => exact fun _ _ => rfl
  | succ fuel ih =>
      intro cursor s
      cases cursor with
      | none => rfl
      | some x =>
          rw [traceBlock, walkBlock, Option.map_map, ← ih]
          rfl

/-- The trace is one of the walk. -/
theorem traceWalk_state (tbi : Bool) (fuel : Nat) (s : State) :
    (traceWalk tbi fuel s).map Prod.snd = walk tbi fuel s := by
  rw [traceWalk, walk]
  generalize List.range s.func.layout.length = bs
  have hblocks : ∀ (bs : List Nat) (r : List (Nat × State) × State),
      (bs.foldlM (fun r b =>
        (traceBlock tbi b fuel (r.2.func.layout.getD b []).head? r.2).map fun r' =>
          (r.1 ++ r'.1, r'.2)) r).map Prod.snd =
        bs.foldlM (fun s b => walkBlock tbi b fuel (s.func.layout.getD b []).head? s) r.2 := by
    intro bs
    induction bs with
    | nil => exact fun _ => rfl
    | cons b bs ih =>
        intro r
        rw [List.foldlM_cons, List.foldlM_cons, ← traceBlock_state]
        cases traceBlock tbi b fuel (r.2.func.layout.getD b []).head? r.2 with
        | none => rfl
        | some r' => exact ih (r.1 ++ r'.1, r'.2)
  exact hblocks bs ([], s)

/-- The visits of instructions below `n` are those of `xs`, in this order; the others change
nothing. -/
structure Visits (tbi : Bool) (n : Nat) (xs : List Nat) (trace : List (Nat × State)) : Prop where
  originals : (trace.map Prod.fst).filter (· < n) = xs
  inert : ∀ v ∈ trace, n ≤ v.1 → visit tbi v.2 v.1 = v.2

theorem Visits.nil (tbi : Bool) (n : Nat) : Visits tbi n [] [] where
  originals := rfl
  inert := fun _ hv => absurd hv List.not_mem_nil

theorem Visits.append {tbi : Bool} {n : Nat} {xs ys : List Nat} {trace trace' : List (Nat × State)}
    (h : Visits tbi n xs trace) (h' : Visits tbi n ys trace') :
    Visits tbi n (xs ++ ys) (trace ++ trace') where
  originals := by rw [List.map_append, List.filter_append, h.originals, h'.originals]
  inert := fun v hv => (List.mem_append.1 hv).elim (h.inert v) (h'.inert v)

theorem Visits.original {tbi : Bool} {n x : Nat} (hx : x < n) (s : State) :
    Visits tbi n [x] [(x, s)] where
  originals := by simp [hx]
  inert := by
    intro v hv hn
    rw [List.mem_singleton.1 hv] at hn
    exact absurd hx (Nat.not_lt.2 hn)

/-- Visits of inserted instructions, all in front of the same state. -/
theorem Visits.inserted {tbi : Bool} {n : Nat} {q : List Nat} {s : State} (hn : ∀ z ∈ q, n ≤ z)
    (hinert : ∀ z ∈ q, Inert (s.func.instr z).op) : Visits tbi n [] (q.map (·, s)) where
  originals := by
    rw [List.filter_eq_nil_iff]
    intro z hz
    simp only [List.map_map, List.mem_map, Function.comp_apply, exists_eq_right] at hz
    simpa using hn z hz
  inert := by
    intro v hv _
    obtain ⟨z, hz, rfl⟩ := List.mem_map.1 hv
    exact visit_inert (hinert z hz)

/-- The cursor passes over the inserted instructions `q` in front of `x`, the last ones of
`pre x = p ++ q`. -/
theorem traceBlock_skip {tbi : Bool} {F₀ : Func} {pre : Nat → List Nat} {b x : Nat}
    {behind ahead : List Nat} {s : State} (hd : Decorated tbi F₀ pre s.func)
    (hblock : F₀.layout.getD b [] = behind ++ x :: ahead) (hlt : ∀ y ∈ behind, y < F₀.next)
    (hxb : x ∉ behind) (hinert : ∀ z ∈ pre x, Inert (s.func.instr z).op) (fuel : Nat) :
    ∀ (q p : List Nat), pre x = p ++ q →
      traceBlock tbi b (fuel + q.length) (q ++ x :: decorate pre ahead).head? s =
        (traceBlock tbi b fuel (some x) s).map fun r => (q.map (·, s) ++ r.1, r.2) := by
  intro q
  induction q with
  | nil => exact fun _ _ => Option.map_id'.symm
  | cons z q ih =>
      intro p hp
      have hz : z ∈ pre x := by rw [hp]; simp
      -- the cursor is at `z`; nothing happens there, and the next node is the head of the rest
      have hnotmem : z ∉ decorate pre behind ++ p := by
        rw [List.mem_append]
        rintro (hmem | hmem)
        · obtain ⟨y, hy, hzy | rfl⟩ := mem_decorate.1 hmem
          · exact hxb (hd.pre_disjoint x y z hz hzy ▸ hy)
          · exact hd.not_mem_pre (hlt _ hy) hz
        · have hsorted := hd.pre_sorted x
          rw [hp, List.pairwise_append] at hsorted
          exact absurd (hsorted.2.2 z hmem z List.mem_cons_self) (Nat.lt_irrefl _)
      have hnext : nextNode z (s.func.layout.getD b []) = (q ++ x :: decorate pre ahead).head? := by
        rw [hd.block, hblock, decorate_append, decorate_cons, hp]
        have hsplit : decorate pre behind ++ (p ++ z :: q ++ x :: decorate pre ahead) =
            (decorate pre behind ++ p) ++ z :: (q ++ x :: decorate pre ahead) := by simp
        rw [hsplit, nextNode_append hnotmem]
      rw [List.length_cons, ← Nat.add_assoc, List.cons_append, List.head?_cons, traceBlock,
        visit_inert (hinert z hz), hnext, ih (p ++ [z]) (by simpa using hp), Option.map_map]
      rfl

/-- **The walk over a block.** From the instructions `rest` of a block on, with `later` behind
them, the walk visits these, and ends in the state of the fold over them. -/
theorem traceBlock_eq {tbi : Bool} {F₀ : Func} (hwf : F₀.WellLinked) {b : Nat} {later : List Nat} :
    ∀ (rest behind : List Nat) (pre : Nat → List Nat) (s : State),
      Ahead tbi F₀ pre (rest ++ later) s → F₀.layout.getD b [] = behind ++ rest →
      (behind ++ rest ++ later).Nodup → (∀ y ∈ behind ++ rest, y < F₀.next) →
      ∃ N, ∀ fuel, N ≤ fuel → ∃ trace, Visits tbi F₀.next rest trace ∧
        traceBlock tbi b fuel (decorate pre rest).head? s = some (trace, visited tbi s rest) := by
  intro rest
  induction rest with
  | nil =>
      intro behind pre s _ _ _ _
      refine ⟨1, fun fuel hfuel => ⟨[], Visits.nil tbi _, ?_⟩⟩
      obtain ⟨n, rfl⟩ : ∃ n, fuel = n + 1 := ⟨fuel - 1, by omega⟩
      rfl
  | cons x rest ih =>
      intro behind pre s h hblock hnd hlt
      have hx : x < F₀.next := hlt x (by simp)
      have hdis : x ∉ behind ∧ x ∉ rest ++ later := by
        rw [List.append_assoc, List.nodup_append'] at hnd
        obtain ⟨-, hcons, hdisj⟩ := hnd
        refine ⟨fun hmem => hdisj hmem (by simp), ?_⟩
        rw [List.cons_append] at hcons
        exact (List.nodup_cons.1 hcons).1
      obtain ⟨pre', h', hg⟩ := h.step hwf hx hdis.2
      obtain ⟨N, hN⟩ := ih (behind ++ [x]) pre' (visit tbi s x) h'
        (by simpa using hblock) (by simpa using hnd) (by simpa using hlt)
      refine ⟨N + 1 + (pre x).length, fun fuel hfuel => ?_⟩
      obtain ⟨n, rfl⟩ : ∃ n, fuel = n + 1 + (pre x).length :=
        ⟨fuel - 1 - (pre x).length, by omega⟩
      obtain ⟨trace, hvisits, htrace⟩ := hN n (by omega)
      have hinert := h.inert x (by simp)
      have hskip := traceBlock_skip h.decorated hblock
        (fun y hy => hlt y (List.mem_append_left _ hy)) hdis.1 hinert (n + 1) (pre x) [] rfl
      have hnext : nextNode x ((visit tbi s x).func.layout.getD b []) =
          (decorate pre' rest).head? := by
        rw [h'.decorated.block, hblock, decorate_append, decorate_cons, ← List.append_assoc,
          nextNode_append]
        rw [List.mem_append]
        rintro (hmem | hmem)
        · obtain ⟨y, hy, hxy | rfl⟩ := mem_decorate.1 hmem
          · exact h'.decorated.not_mem_pre hx hxy
          · exact hdis.1 hy
        · exact h'.decorated.not_mem_pre hx hmem
      -- the inserted instructions in front of `x`, then `x`, then the rest
      have hpre : Visits tbi F₀.next [] ((pre x).map (·, s)) :=
        Visits.inserted (fun z hz => (h.decorated.pre_range x z hz).1) hinert
      refine ⟨_, hpre.append ((Visits.original hx s).append hvisits), ?_⟩
      rw [decorate_cons, hskip, traceBlock, hnext, htrace]
      rfl

/-- The walk over the last `m` blocks. -/
theorem traceBlocks_eq {tbi : Bool} {F₀ : Func} (hwf : F₀.WellLinked) :
    ∀ (m b : Nat) (pre : Nat → List Nat) (s : State), b + m = F₀.layout.length →
      Ahead tbi F₀ pre (F₀.layout.drop b).flatten s →
      ∃ N, ∀ fuel, N ≤ fuel → ∀ before, ∃ trace,
        Visits tbi F₀.next (F₀.layout.drop b).flatten trace ∧
        (List.range' b m).foldlM
          (fun r b =>
            (traceBlock tbi b fuel (r.2.func.layout.getD b []).head? r.2).map fun r' =>
              (r.1 ++ r'.1, r'.2)) (before, s) =
            some (before ++ trace, visited tbi s (F₀.layout.drop b).flatten) := by
  intro m
  induction m with
  | zero =>
      intro b pre s hb _
      refine ⟨0, fun fuel _ before => ⟨[], ?_⟩⟩
      rw [List.drop_eq_nil_of_le (by omega), List.append_nil]
      exact ⟨Visits.nil tbi _, rfl⟩
  | succ m ih =>
      intro b pre s hb h
      have hlt : b < F₀.layout.length := by omega
      have hdrop : F₀.layout.drop b = F₀.layout[b] :: F₀.layout.drop (b + 1) :=
        List.drop_eq_getElem_cons hlt
      have hget : F₀.layout.getD b [] = F₀.layout[b] := by simp [hlt]
      rw [hdrop, List.flatten_cons] at h ⊢
      have hsuffix : (F₀.layout[b] ++ (F₀.layout.drop (b + 1)).flatten).Sublist F₀.ids := by
        rw [← List.flatten_cons, ← hdrop, Func.ids]
        conv_rhs => rw [← List.take_append_drop b F₀.layout, List.flatten_append]
        exact List.sublist_append_right _ _
      have hnd := hwf.ids_nodup.sublist hsuffix
      have hids : ∀ y ∈ F₀.layout[b], y < F₀.next := fun y hy =>
        hwf.ids_lt y (hsuffix.subset (List.mem_append_left _ hy))
      obtain ⟨N, hN⟩ := traceBlock_eq hwf (b := b) F₀.layout[b] [] pre s h (by simpa using hget)
        (by simpa using hnd) (by simpa using hids)
      obtain ⟨pre', h'⟩ := Ahead.run hwf F₀.layout[b] h hnd hids
      obtain ⟨N', hN'⟩ := ih (b + 1) pre' (visited tbi s F₀.layout[b]) (by omega) h'
      refine ⟨N + N', fun fuel hfuel before => ?_⟩
      obtain ⟨trace, hvisits, htrace⟩ := hN fuel (by omega)
      obtain ⟨trace', hvisits', htrace'⟩ := hN' fuel (by omega) (before ++ trace)
      refine ⟨trace ++ trace', hvisits.append hvisits', ?_⟩
      rw [List.range'_succ, List.foldlM_cons, h.decorated.block, hget, htrace, visited_append,
        ← List.append_assoc]
      exact htrace'

/-- **The walk ends**, with a visit of every original instruction, once and in layout order. -/
theorem Func.WellLinked.traceWalk_eq {s : State} (hwf : s.func.WellLinked) (tbi : Bool) :
    ∃ N, ∀ fuel, N ≤ fuel → ∃ trace, Visits tbi s.func.next s.func.ids trace ∧
      traceWalk tbi fuel s = some (trace, visited tbi s s.func.ids) := by
  obtain ⟨N, hN⟩ := traceBlocks_eq hwf s.func.layout.length 0 (fun _ => []) s (Nat.zero_add _)
    (Ahead.refl hwf rfl _)
  refine ⟨N, fun fuel hfuel => ?_⟩
  rw [traceWalk, List.range_eq_range']
  exact hN fuel hfuel []

theorem traceWalk_eq (tbi : Bool) {s : State} (hwf : s.func.WellFormed) :
    ∃ N, ∀ fuel, N ≤ fuel → ∃ trace, Visits tbi s.func.next s.func.ids trace ∧
      traceWalk tbi fuel s = some (trace, visited tbi s s.func.ids) :=
  hwf.wellLinked.traceWalk_eq tbi

/-- With enough fuel the walk does what visiting the original instructions once each, in layout
order, does. -/
theorem Func.WellLinked.walk_eq {s : State} (hwf : s.func.WellLinked) (tbi : Bool) :
    ∃ N, ∀ fuel, N ≤ fuel → walk tbi fuel s = some (visited tbi s s.func.ids) := by
  obtain ⟨N, hN⟩ := hwf.traceWalk_eq tbi
  refine ⟨N, fun fuel hfuel => ?_⟩
  obtain ⟨trace, -, htrace⟩ := hN fuel hfuel
  rw [← traceWalk_state, htrace]
  rfl

theorem walk_eq (tbi : Bool) {s : State} (hwf : s.func.WellFormed) :
    ∃ N, ∀ fuel, N ≤ fuel → walk tbi fuel s = some (visited tbi s s.func.ids) :=
  hwf.wellLinked.walk_eq tbi

/-- **The walk ends and leaves its own output alone.** It visits every original instruction once, in
layout order. Inserted instructions, numbered from `s.func.next` on, that the cursor reaches change
neither the function nor the state of the pass. -/
theorem walk_leaves_output (tbi : Bool) {s : State} (hwf : s.func.WellFormed) :
    ∃ N, ∀ fuel, N ≤ fuel → ∃ trace t, traceWalk tbi fuel s = some (trace, t) ∧
      walk tbi fuel s = some t ∧
      (trace.map Prod.fst).filter (· < s.func.next) = s.func.ids ∧
      ∀ x u, (x, u) ∈ trace → s.func.next ≤ x → visit tbi u x = u := by
  obtain ⟨N, hN⟩ := traceWalk_eq tbi hwf
  refine ⟨N, fun fuel hfuel => ?_⟩
  obtain ⟨trace, hvisits, htrace⟩ := hN fuel hfuel
  refine ⟨trace, _, htrace, ?_, hvisits.originals, fun x u hmem hx => hvisits.inert (x, u) hmem hx⟩
  rw [← traceWalk_state, htrace]
  rfl

/-- `p = q; use(p); p[1];`: the check of the GEP is inserted ahead of the cursor. -/
def useThenIndex : Func :=
  Func.ofInstrs "main" [[0, 1, 2, 3, 4, 5, 6]]
    [⟨.alloca (.ptr (.int 32)), [], .ptr (.ptr (.int 32)), "p"⟩,
      ⟨.store, [⟨.argument "q", .ptr (.int 32)⟩, ⟨.inst 0, .ptr (.ptr (.int 32))⟩], .other "void", ""⟩,
      ⟨.load, [⟨.inst 0, .ptr (.ptr (.int 32))⟩], .ptr (.int 32), ""⟩,
      ⟨.call (some ⟨"use", false⟩) none, [⟨.inst 2, .ptr (.int 32)⟩], .other "void", ""⟩,
      ⟨.load, [⟨.inst 0, .ptr (.ptr (.int 32))⟩], .ptr (.int 32), ""⟩,
      ⟨.gep, [⟨.inst 4, .ptr (.int 32)⟩, ⟨.constantInt 1, .int 64⟩], .ptr (.int 32), ""⟩,
      ⟨.ret, [], .other "void", ""⟩]

theorem useThenIndex_wellFormed : useThenIndex.WellFormed :=
  Func.wellFormed_ofInstrs (by decide) (by decide) (by decide)

theorem useThenIndex_leaves_output :
    ∃ N, ∀ fuel, N ≤ fuel → ∃ trace t,
      traceWalk true fuel ⟨useThenIndex, ⟨[], [], false, false⟩, []⟩ = some (trace, t) ∧
      walk true fuel ⟨useThenIndex, ⟨[], [], false, false⟩, []⟩ = some t ∧
      (trace.map Prod.fst).filter (· < 7) = [0, 1, 2, 3, 4, 5, 6] ∧
      ∀ x u, (x, u) ∈ trace → 7 ≤ x → visit true u x = u :=
  walk_leaves_output true (s := ⟨useThenIndex, ⟨[], [], false, false⟩, []⟩) useThenIndex_wellFormed

end PTAuth.Pass
