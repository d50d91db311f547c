import Valseg.CopySafety
import Valseg.CopyOnPushSegmentTree
import Valseg.PointOnlyPersistentSegmentTree

/-!
# Well-formed arenas

Every path-copied arena has the shape its recursions rely on: children come before their parents,
a node has two or none, and every root of a tree with elements unfolds to the canonical partition
of all of them. So the recursions end, and what they throw is never an access past the end.

1. One `update_makes` for each of the four updates of sums; those over a policy are in
   `CopySafety`.
2. `query_inBounds` and `materialize_inBounds` for what only reads.
3. `arenas_well_formed` puts the five structures together.
-/

namespace Valseg

open Effect (ThrowsOnly)

variable {l r lo hi i : ℕ}

/-! ## Trees with tags -/

namespace PersistentLazySegmentTree

/-- The children of a node. -/
def Node.links (node : Node) : ℕ × ℕ := (node.leftChild, node.rightChild)

variable {nodes : List Node} {value : ValueType}

theorem build_makes {values : List ValueType} (hhi : hi < values.length) :
    MakesSegment Node.links InBounds 0 hi [] (build values 0 hi []) := by
  unfold build
  refine buildArena_makes ?_ ?_ (Nat.zero_le hi) hhi .nil
  · intro value
    rfl
  · intro leftRoot rightRoot sum
    rfl

/-- A node is copied with a value applied, where it is covered or pushed into. -/
theorem cover_makes {current : Node} (value : ValueType) (length : ℕ)
    (hl : Linked Node.links nodes) (hu : Unfolds Node.links nodes i lo hi)
    (hn : nodes[i]? = some current) : MakesSegment Node.links InBounds lo hi nodes ((do
      let sum ← SumAddPolicy.apply value current.sum length
      let lazy ← checkedAdd current.lazy value
      pushBack ⟨current.leftChild, current.rightChild, sum, lazy⟩ : ArenaM Node ℕ) nodes) := by
  refine KeepsLinks.lift (apply_inBounds _ _ _) fun sum => ?_
  refine KeepsLinks.lift (checkedAdd_inBounds _ _) fun lazy => ?_
  exact MakesSegment.copy hl hu hn rfl

/-- **One update.** -/
theorem update_makes (value : ValueType) : ∀ lo hi, lo ≤ hi → l ≤ hi → lo ≤ r →
    ∀ {nodes : List Node} {i : ℕ}, Linked Node.links nodes → Unfolds Node.links nodes i lo hi →
      MakesSegment Node.links InBounds lo hi nodes (update i lo hi l r value nodes) := by
  refine Segment.halving_induction ?_ ?_
  · intro m h1 h2 nodes i hl hu
    obtain ⟨current, hn⟩ := hu.exists_node
    rw [update]
    refine KeepsLinks.read hn (KeepsLinks.lift (inclusiveLength_inBounds _ _) fun length => ?_)
    rw [if_pos ⟨h1, h2⟩]
    exact cover_makes _ _ hl hu hn
  · intro lo hi hlt ihl ihr h1 h2 nodes i hl hu
    obtain ⟨current, hn⟩ := hu.exists_node
    obtain ⟨left, right⟩ := hu.children hlt hn
    rw [update]
    refine KeepsLinks.read hn (KeepsLinks.lift (inclusiveLength_inBounds _ _) fun length => ?_)
    refine KeepsLinks.ite (fun _ => cover_makes _ _ hl hu hn) fun _ => ?_
    rw [if_pos hlt]
    refine MakesSegment.halves (.half hl left fun hm => ihl hm h2 hl left)
      (fun nodes₁ hpre hl₁ => .half hl₁ (right.extend hpre)
        fun hm => ihr h1 hm hl₁ (right.extend hpre))
      fun j k leftNode rightNode nodes₂ hl₂ hj hk => ?_
    refine KeepsLinks.lift (checkedAdd_inBounds _ _) fun childSum => ?_
    refine KeepsLinks.lift (apply_inBounds _ _ _) fun sum => ?_
    exact MakesSegment.inner hlt hl₂ hj hk rfl

theorem read_eq {node : Node} (h : nodes[i]? = some node) :
    (reading.on nodes).read i = .ok (node.sum, node.lazy) := NodeReading.read_of_getElem? h

theorem children_eq {node : Node} {a b : ℕ} (h : nodes[i]? = some node) :
    (reading.on nodes).children i a b = .ok (node.links.1, node.links.2) :=
  NodeReading.children_of_getElem? h

/-- A query of a root reads nodes of the arena only. -/
theorem query_inBounds (h : Unfolds Node.links nodes i lo hi) (inheritedLazy : ValueType) :
    ThrowsOnly InBounds (query nodes i lo hi l r inheritedLazy) := by
  unfold query
  induction h generalizing inheritedLazy with
  | single read ends =>
    rw [Layout.query, read_eq read]
    refine .ite (fun _ => .ok _) fun hmeets => ?_
    simp only [Effect.ok_bind]
    rw [if_pos (by omega)]
    exact .bind (inclusiveLength_inBounds _ _) fun _ _ => apply_inBounds _ _ _
  | halves split read _ _ ihl ihr =>
    rw [Layout.query, read_eq read]
    simp only [Effect.ok_bind, if_pos split, children_eq read]
    refine .ite (fun _ => .ok _) fun _ => .ite (fun _ => ?_) fun _ => ?_
    · exact .bind (inclusiveLength_inBounds _ _) fun _ _ => apply_inBounds _ _ _
    · exact .bind (checkedAdd_inBounds _ _) fun nextLazy _ => .bind (ihl nextLazy) fun _ _ =>
        .bind (ihr nextLazy) fun _ _ => checkedAdd_inBounds _ _

theorem materialize_inBounds (h : Unfolds Node.links nodes i lo hi) (inheritedLazy : ValueType)
    (values : List ValueType) :
    ThrowsOnly InBounds (materialize nodes i lo hi inheritedLazy values) := by
  unfold materialize
  induction h generalizing inheritedLazy values with
  | single read ends =>
    rw [Layout.materialize, read_eq read]
    simp only [Effect.ok_bind, if_true]
    exact .bind (apply_inBounds _ _ _) fun _ _ => .ok _
  | halves split read _ _ ihl ihr =>
    rw [Layout.materialize, read_eq read]
    simp only [Effect.ok_bind, if_neg split.ne, if_pos split, children_eq read]
    exact .bind (checkedAdd_inBounds _ _) fun nextLazy _ =>
      .bind (ihl nextLazy values) fun leftValues _ => ihr nextLazy leftValues

end PersistentLazySegmentTree

namespace CopyOnPushSegmentTree

open PersistentLazySegmentTree (Node.links build_makes cover_makes)

theorem pushInto_makes {nodes : List Node} (tag : ValueType) (length : ℕ)
    (hl : Linked Node.links nodes) (hu : Unfolds Node.links nodes i lo hi) :
    MakesSegment Node.links InBounds lo hi nodes (pushInto i tag length nodes) := by
  obtain ⟨child, hchild⟩ := hu.exists_node
  exact KeepsLinks.read hchild (cover_makes tag length hl hu hchild)

/-- **One update.** A pushed tag copies both children before one of them is descended into. -/
theorem update_makes (value : ValueType) : ∀ lo hi, lo ≤ hi → l ≤ hi → lo ≤ r →
    ∀ {nodes : List Node} {i : ℕ}, Linked Node.links nodes → Unfolds Node.links nodes i lo hi →
      MakesSegment Node.links InBounds lo hi nodes (update i lo hi l r value nodes) := by
  refine Segment.halving_induction ?_ ?_
  · intro m h1 h2 nodes i hl hu
    obtain ⟨current, hn⟩ := hu.exists_node
    rw [update]
    refine KeepsLinks.read hn (KeepsLinks.lift (inclusiveLength_inBounds _ _) fun length => ?_)
    rw [if_pos ⟨h1, h2⟩]
    exact cover_makes _ _ hl hu hn
  · intro lo hi hlt ihl ihr h1 h2 nodes i hl hu
    obtain ⟨current, hn⟩ := hu.exists_node
    obtain ⟨left, right⟩ := hu.children hlt hn
    rw [update]
    refine KeepsLinks.read hn (KeepsLinks.lift (inclusiveLength_inBounds _ _) fun length => ?_)
    refine KeepsLinks.ite (fun _ => cover_makes _ _ hl hu hn) fun _ => ?_
    rw [if_pos hlt]
    have pushed : KeepsLinks Node.links InBounds
        (fun nodes p => Unfolds Node.links nodes p.1 lo (Segment.midpoint lo hi) ∧
          Unfolds Node.links nodes p.2 (Segment.midpoint lo hi + 1) hi) nodes
        ((if current.lazy ≠ 0 then do
            let leftChild ← pushInto current.leftChild current.lazy
              (← span lo (Segment.midpoint lo hi))
            let rightChild ← pushInto current.rightChild current.lazy
              (← span (Segment.midpoint lo hi + 1) hi)
            pure (leftChild, rightChild)
          else pure (current.leftChild, current.rightChild) : ArenaM Node (ℕ × ℕ)) nodes) := by
      refine KeepsLinks.ite (fun _ => ?_) fun _ => KeepsLinks.pure hl ⟨left, right⟩
      refine KeepsLinks.lift (inclusiveLength_inBounds _ _) fun leftLength => ?_
      refine KeepsLinks.bind (pushInto_makes _ _ hl left) fun j nodes₁ hpre₁ hl₁ hj => ?_
      refine KeepsLinks.lift (inclusiveLength_inBounds _ _) fun rightLength => ?_
      refine KeepsLinks.bind (pushInto_makes _ _ hl₁ (right.extend hpre₁))
        fun k nodes₂ hpre₂ hl₂ hk => ?_
      exact KeepsLinks.pure hl₂ ⟨hj.extend hpre₂, hk⟩
    refine KeepsLinks.bind pushed ?_
    rintro ⟨leftChild, rightChild⟩ nodes₁ - hl₁ ⟨hj, hk⟩
    refine MakesSegment.halves (.half hl₁ hj fun hm => ihl hm h2 hl₁ hj)
      (fun nodes₂ hpre hl₂ => .half hl₂ (hk.extend hpre)
        fun hm => ihr h1 hm hl₂ (hk.extend hpre))
      fun j k leftNode rightNode nodes₃ hl₃ hj₃ hk₃ => ?_
    refine KeepsLinks.lift (checkedAdd_inBounds _ _) fun sum => ?_
    exact MakesSegment.inner hlt hl₃ hj₃ hk₃ rfl

end CopyOnPushSegmentTree

/-! ## Trees without tags -/

namespace FullCopyPersistentSegmentTree

/-- The children of a node. -/
def Node.links (node : Node) : ℕ × ℕ := (node.leftChild, node.rightChild)

variable {nodes : List Node}

theorem build_makes {values : List ValueType} (hhi : hi < values.length) :
    MakesSegment Node.links InBounds 0 hi [] (build values 0 hi []) := by
  unfold build
  refine buildArena_makes ?_ ?_ (Nat.zero_le hi) hhi .nil
  · intro value
    rfl
  · intro leftRoot rightRoot sum
    rfl

/-- **One update.** -/
theorem fullCopyUpdate_makes (value : ValueType) : ∀ lo hi, lo ≤ hi →
    ∀ {nodes : List Node} {i : ℕ}, Linked Node.links nodes → Unfolds Node.links nodes i lo hi →
      MakesSegment Node.links InBounds lo hi nodes (fullCopyUpdate i lo hi l r value nodes) := by
  refine Segment.halving_induction ?_ ?_
  · intro m nodes i hl hu
    obtain ⟨current, hn⟩ := hu.exists_node
    rw [fullCopyUpdate]
    refine KeepsLinks.read hn ?_
    rw [if_pos rfl]
    split_ifs with hin
    · exact KeepsLinks.lift (checkedAdd_inBounds _ _) fun newValue => MakesSegment.leaf hl rfl
    · exact MakesSegment.leaf hl rfl
  · intro lo hi hlt ihl ihr nodes i hl hu
    obtain ⟨current, hn⟩ := hu.exists_node
    obtain ⟨left, right⟩ := hu.children hlt hn
    rw [fullCopyUpdate]
    refine KeepsLinks.read hn ?_
    rw [if_neg hlt.ne, if_pos hlt]
    refine MakesSegment.halves (ihl hl left) (fun nodes₁ hpre hl₁ => ihr hl₁ (right.extend hpre))
      fun j k leftNode rightNode nodes₂ hl₂ hj hk => ?_
    exact KeepsLinks.lift (checkedAdd_inBounds _ _) fun sum =>
      MakesSegment.inner hlt hl₂ hj hk rfl

theorem query_inBounds (h : Unfolds Node.links nodes i lo hi) :
    ThrowsOnly InBounds (query nodes i lo hi l r) := by
  induction h with
  | single read ends =>
    rw [query, vectorAt_eq_ok.mpr read]
    refine .ite (fun _ => .ok _) fun hmeets => ?_
    rw [Effect.ok_bind, if_pos (by omega)]
    exact .ok _
  | halves split read _ _ ihl ihr =>
    rw [query, vectorAt_eq_ok.mpr read]
    refine .ite (fun _ => .ok _) fun _ => .ite (fun _ => .ok _) fun _ => ?_
    rw [if_pos split]
    exact .bind ihl fun _ _ => .bind ihr fun _ _ => checkedAdd_inBounds _ _

end FullCopyPersistentSegmentTree

namespace PointOnlyPersistentSegmentTree

open FullCopyPersistentSegmentTree (Node.links)

/-- **One update.** -/
theorem pointOnlyUpdate_makes (value : ValueType) : ∀ lo hi, lo ≤ hi →
    ∀ {nodes : List Node} {i : ℕ}, Linked Node.links nodes → Unfolds Node.links nodes i lo hi →
      MakesSegment Node.links InBounds lo hi nodes (pointOnlyUpdate i lo hi l r value nodes) := by
  refine Segment.halving_induction ?_ ?_
  · intro m nodes i hl hu
    obtain ⟨current, hn⟩ := hu.exists_node
    rw [pointOnlyUpdate]
    refine KeepsLinks.read hn ?_
    rw [if_pos rfl]
    exact KeepsLinks.lift (checkedAdd_inBounds _ _) fun newValue => MakesSegment.leaf hl rfl
  · intro lo hi hlt ihl ihr nodes i hl hu
    obtain ⟨current, hn⟩ := hu.exists_node
    obtain ⟨left, right⟩ := hu.children hlt hn
    rw [pointOnlyUpdate]
    refine KeepsLinks.read hn ?_
    rw [if_neg hlt.ne, if_pos hlt]
    refine MakesSegment.halves (.half hl left fun _ => ihl hl left)
      (fun nodes₁ hpre hl₁ => .half hl₁ (right.extend hpre)
        fun _ => ihr hl₁ (right.extend hpre))
      fun j k leftNode rightNode nodes₂ hl₂ hj hk => ?_
    exact KeepsLinks.lift (checkedAdd_inBounds _ _) fun sum =>
      MakesSegment.inner hlt hl₂ hj hk rfl

end PointOnlyPersistentSegmentTree

/-! ## Whole runs -/

/-- What the parts of a path-copying tree of sums do to the shape of its arena. -/
structure PathCopying.KeepsShape {Node Domain : Type} (P : PathCopying Node Domain)
    (links : Node → ℕ × ℕ) : Prop where
  build : ∀ {values : List ValueType} {hi : ℕ}, hi < values.length →
    MakesSegment links InBounds 0 hi [] (P.build values 0 hi [])
  update : ∀ {nodes : List Node} {i hi l r : ℕ} (value : ValueType), l ≤ hi →
    Linked links nodes → Unfolds links nodes i 0 hi →
      MakesSegment links InBounds 0 hi nodes (P.update i 0 hi l r value nodes)

namespace PathCopying.KeepsShape

variable {Node Domain : Type} {P : PathCopying Node Domain} {links : Node → ℕ × ℕ}
  {s : PathCopyingTree Node Domain}

/-- The state of a tree is well formed. -/
abbrev Well (links : Node → ℕ × ℕ) (s : PathCopyingTree Node Domain) : Prop :=
  WellFormed links s.nodes s.roots s.arraySize

theorem rangeAdd (hP : P.KeepsShape links) (hs : Well links s) (l r : ℕ) (value : ValueType) :
    Well links (Effect.finalState (P.rangeAdd l r value s)) := by
  rcases ha : admitted s l r with e | root
  · rw [rangeAdd_not_admitted ha]
    exact hs
  rw [rangeAdd_admitted ha]
  obtain ⟨hlr, hr, hroot⟩ := of_admitted ha
  have hn : 0 < s.arraySize := Nat.zero_lt_of_lt hr
  by_cases h0 : value = 0
  · rw [if_pos h0]
    exact hs.republish hroot
  rw [if_neg h0]
  rcases P.preflight s root l r value with e | domain
  · exact hs
  have hu := hP.update (l := l) (r := r) value (show l ≤ s.arraySize - 1 by omega) hs.linked
    (hs.unfolds hn root (List.mem_of_getElem? hroot))
  simp only [published]
  rcases h : P.update root 0 (s.arraySize - 1) l r value s.nodes with
    ⟨newRoot, nodes⟩ | ⟨e, nodes⟩ <;> rw [h] at hu
  · obtain ⟨hpre, hl, hnew⟩ := hu
    exact hs.publish hpre hl hnew
  · obtain ⟨⟨more, rfl⟩, -⟩ := hu
    simp only [List.take_left]
    exact hs

theorem initializeFrom (hP : P.KeepsShape links) (hs : Well links s) (values : List ValueType) :
    Well links (Effect.finalState (P.initializeFrom values s)) := by
  rcases h : P.initializeFrom values s with ⟨⟨⟩, s'⟩ | ⟨e, s'⟩
  swap
  · rw [initializeFrom_atomic values _ _ _ h]
    exact hs
  by_cases h0 : values = []
  · unfold PathCopying.initializeFrom at h
    simp only [if_pos h0] at h
    cases h
    exact .empty _
  obtain ⟨root, nodes, hb, rfl⟩ := initializeFrom_eq_ok h0 h
  have hpos := List.length_pos_of_ne_nil h0
  have hmade := hP.build (show values.length - 1 < values.length by omega)
  rw [hb] at hmade
  exact .single hmade.2.1 hmade.2.2

/-- **The invariant.** After every run of calls the state is well formed. -/
theorem wellFormed (hP : P.KeepsShape links) (calls : List (Call (List ValueType))) :
    Well links (P.engine.run calls).1 := by
  refine Engine.runFrom_induction (P := fun p => Well links p.1) (fun p c hp => ?_) calls _
    (.empty _)
  obtain ⟨s, o⟩ := p
  cases c with
  | initializeFrom values =>
    rw [Engine.step_initialize_state]
    exact hP.initializeFrom hp values
  | rangeAdd l r value =>
    have hadd := hP.rangeAdd hp l r value
    rcases h : P.rangeAdd l r value s with ⟨x, s'⟩ | ⟨e, s'⟩ <;> rw [h] at hadd
    · rw [Engine.step_rangeAdd_ok h]
      exact hadd
    · rw [Engine.step_rangeAdd_error h]
      exact hadd

end PathCopying.KeepsShape

/-! ## Safety -/

/-- A tree is well formed, no node is at the index of the sentinel where the arena can be indexed,
and from every root of a tree with elements an update and a query with a valid range throw only
what satisfies `Q`. -/
structure SafeArena {Node α β : Type} (links : Node → ℕ × ℕ) (Q : Exception → Prop)
    (nodes : List Node) (roots : List ℕ) (size : ℕ)
    (update : (nodeIndex segmentLeft segmentRight queryLeft queryRight : ℕ) → α → ArenaM Node ℕ)
    (query : List Node → (nodeIndex segmentLeft segmentRight queryLeft queryRight : ℕ) →
      Except Exception β) : Prop where
  wellFormed : WellFormed links nodes roots size
  sentinel : nodes.length ≤ noNode → ∀ i lo hi, Unfolds links nodes i lo hi → i ≠ noNode
  update : ∀ root ∈ roots, ∀ l r value, l ≤ r → r < size →
    ThrowsOnly Q (Effect.outcome (update root 0 (size - 1) l r value nodes))
  query : ∀ root ∈ roots, ∀ l r, l ≤ r → r < size →
    ThrowsOnly Q (query nodes root 0 (size - 1) l r)

/-- A computation that keeps the links throws what is allowed. -/
theorem KeepsLinks.throwsOnly {Node α : Type} {links : Node → ℕ × ℕ} {Q : Exception → Prop}
    {R : List Node → α → Prop} {nodes : List Node} {x : EStateM.Result Exception (List Node) α}
    (h : KeepsLinks links Q R nodes x) : ThrowsOnly Q (Effect.outcome x) := by
  intro e he
  obtain ⟨nodes', rfl⟩ := Effect.outcome_eq_error.mp he
  exact h.2

section Safety

variable {Node Domain : Type} {links : Node → ℕ × ℕ}

theorem PathCopying.KeepsShape.safeArena {P : PathCopying Node Domain} (hP : P.KeepsShape links)
    {query : List Node → (nodeIndex segmentLeft segmentRight queryLeft queryRight : ℕ) →
      Except Exception ValueType}
    (hquery : ∀ {nodes : List Node} {i hi l r : ℕ}, Unfolds links nodes i 0 hi →
      ThrowsOnly InBounds (query nodes i 0 hi l r)) (calls : List (Call (List ValueType))) :
    SafeArena links InBounds (P.engine.run calls).1.nodes (P.engine.run calls).1.roots
      (P.engine.run calls).1.arraySize P.update query := by
  have hs := hP.wellFormed calls
  refine ⟨hs, fun hroom i lo hi hu => hu.ne_noNode hroom, fun root hroot l r value hlr hr => ?_,
    fun root hroot l r hlr hr => ?_⟩
  · exact (hP.update value (by omega) hs.linked (hs.unfolds (by omega) root hroot)).throwsOnly
  · exact hquery (hs.unfolds (by omega) root hroot)

theorem KeepsShape.safeArena {Aggregate Action : Type} [DecidableEq Action]
    {P : Policy Aggregate Action} {T : ActionTreeParts Node Aggregate Action}
    (hT : KeepsShape P links T) (calls : List (ActionCall Aggregate Action)) :
    SafeArena links P.Raises (T.runCalls ActionTreeParts.empty calls).nodes
      (T.runCalls ActionTreeParts.empty calls).roots
      (T.runCalls ActionTreeParts.empty calls).arraySize T.update T.query := by
  have hs := hT.wellFormed calls ActionTreeParts.empty (.empty _)
  refine ⟨hs, fun hroom i lo hi hu => hu.ne_noNode hroom, fun root hroot l r f hlr hr => ?_,
    fun root hroot l r hlr hr => ?_⟩
  · exact (hT.update f (by omega) hs.linked (hs.unfolds (by omega) root hroot)).throwsOnly
  · exact hT.query_raises (hs.unfolds (by omega) root hroot)

/-- The nodes below every root are materialized without an access past the end. -/
def SafeMaterialize (s : PathCopyingTree PersistentLazySegmentTree.Node Domain) : Prop :=
  ∀ root ∈ s.roots, 0 < s.arraySize → ∀ inheritedLazy values, ThrowsOnly InBounds
    (PersistentLazySegmentTree.materialize s.nodes root 0 (s.arraySize - 1) inheritedLazy values)

end Safety

theorem PersistentLazySegmentTree.keepsShape : parts.KeepsShape Node.links where
  build := build_makes
  update value hle hl hu := update_makes value 0 _ (Nat.zero_le _) hle (Nat.zero_le _) hl hu

theorem CopyOnPushSegmentTree.keepsShape :
    parts.KeepsShape PersistentLazySegmentTree.Node.links where
  build := PersistentLazySegmentTree.build_makes
  update value hle hl hu := update_makes value 0 _ (Nat.zero_le _) hle (Nat.zero_le _) hl hu

theorem FullCopyPersistentSegmentTree.keepsShape : parts.KeepsShape Node.links where
  build := build_makes
  update value _ hl hu := fullCopyUpdate_makes value 0 _ (Nat.zero_le _) hl hu

theorem PointOnlyPersistentSegmentTree.keepsShape :
    parts.KeepsShape FullCopyPersistentSegmentTree.Node.links where
  build := FullCopyPersistentSegmentTree.build_makes
  update value _ hl hu := pointOnlyUpdate_makes value 0 _ (Nat.zero_le _) hl hu

/-- **Well-formed arenas.** After every run of calls, in all five structures. -/
theorem arenas_well_formed (calls : List (Call (List ValueType))) :
    (∀ s, s = (PersistentLazySegmentTree.engine.run calls).1 →
      SafeArena PersistentLazySegmentTree.Node.links InBounds s.nodes s.roots s.arraySize
        PersistentLazySegmentTree.update (fun nodes i lo hi l r =>
          PersistentLazySegmentTree.query nodes i lo hi l r 0) ∧ SafeMaterialize s) ∧
    (∀ s, s = (CopyOnPushSegmentTree.engine.run calls).1 →
      SafeArena PersistentLazySegmentTree.Node.links InBounds s.nodes s.roots s.arraySize
        CopyOnPushSegmentTree.update (fun nodes i lo hi l r =>
          CopyOnPushSegmentTree.query nodes i lo hi l r 0) ∧ SafeMaterialize s) ∧
    (∀ s, s = (FullCopyPersistentSegmentTree.engine.run calls).1 →
      SafeArena FullCopyPersistentSegmentTree.Node.links InBounds s.nodes s.roots s.arraySize
        FullCopyPersistentSegmentTree.fullCopyUpdate FullCopyPersistentSegmentTree.query) ∧
    (∀ s, s = (PointOnlyPersistentSegmentTree.engine.run calls).1 →
      SafeArena FullCopyPersistentSegmentTree.Node.links InBounds s.nodes s.roots s.arraySize
        PointOnlyPersistentSegmentTree.pointOnlyUpdate PointOnlyPersistentSegmentTree.query) ∧
    ∀ (Aggregate Action : Type) [DecidableEq Action] (P : Policy Aggregate Action)
      (kPushOnPartialDescent : Bool) (calls : List (ActionCall Aggregate Action)) s,
      s = (PathCopyingActionTree.parts P kPushOnPartialDescent).runCalls
        ActionTreeParts.empty calls →
      SafeArena PathCopyingActionTree.Node.links P.Raises s.nodes s.roots s.arraySize
        (PathCopyingActionTree.update P kPushOnPartialDescent)
        fun nodes i lo hi l r => PathCopyingActionTree.query P nodes i lo hi l r
          P.actionIdentity := by
  refine ⟨?_, ?_, ?_, ?_, ?_⟩
  · rintro s rfl
    refine ⟨PersistentLazySegmentTree.keepsShape.safeArena
      (fun hu => PersistentLazySegmentTree.query_inBounds hu 0) calls, ?_⟩
    intro root hroot hpos inheritedLazy values
    exact PersistentLazySegmentTree.materialize_inBounds
      ((PersistentLazySegmentTree.keepsShape.wellFormed calls).unfolds hpos root hroot) _ _
  · rintro s rfl
    refine ⟨CopyOnPushSegmentTree.keepsShape.safeArena
      (fun hu => PersistentLazySegmentTree.query_inBounds hu 0) calls, ?_⟩
    intro root hroot hpos inheritedLazy values
    exact PersistentLazySegmentTree.materialize_inBounds
      ((CopyOnPushSegmentTree.keepsShape.wellFormed calls).unfolds hpos root hroot) _ _
  · rintro s rfl
    exact FullCopyPersistentSegmentTree.keepsShape.safeArena
      FullCopyPersistentSegmentTree.query_inBounds calls
  · rintro s rfl
    exact PointOnlyPersistentSegmentTree.keepsShape.safeArena
      FullCopyPersistentSegmentTree.query_inBounds calls
  · rintro Aggregate Action _ P push calls s rfl
    exact (PathCopyingActionTree.keepsShape P push).safeArena calls

end Valseg
