import Valseg.Arena
import Valseg.Policy

/-!
# Policy-generic trees

`policy_trees.hpp`: segment trees over any aggregate and action policy. The two path-copying
classes there have one state, one initialization, one update operation and one query operation;
they differ in the record, the build, the update and the query that `ActionTreeParts` holds.
`PathCopyingActionTree` has the flag that makes it retain tags or push them, and
`PointMaterializedPersistentTree` has no tags.
-/

namespace Valseg

variable {Aggregate Action : Type}

/-- The sizes of an aggregate, of an action, and of the records with a tag and without one. -/
structure RecordSizes where
  aggregateBytes : ℕ
  actionBytes : ℕ
  recordBytes : ℕ
  taglessRecordBytes : ℕ

/-- A policy: the two identities and the operations, each of which may throw. -/
structure Policy (Aggregate Action : Type) extends RecordSizes where
  combine : (left right : Aggregate) → Except Exception Aggregate
  aggregateIdentity : Aggregate
  compose : (newer older : Action) → Except Exception Action
  actionIdentity : Action
  apply : Action → Aggregate → (length : ℕ) → Except Exception Aggregate

/-- Range-add actions over range-sum aggregates. -/
def sumAddPolicy : Policy ValueType ValueType where
  combine := checkedAdd
  aggregateIdentity := 0
  compose newer older := checkedAdd newer older
  actionIdentity := 0
  apply := SumAddPolicy.apply
  aggregateBytes := 8
  actionBytes := 8
  recordBytes := 32
  taglessRecordBytes := 24

/-- The state of a path-copying tree over a policy. -/
structure ActionTree (Node : Type) where
  nodes : List Node
  roots : List ℕ
  arraySize : ℕ
  deriving DecidableEq, Repr

/-- What a path-copying tree over a policy brings of its own. -/
structure ActionTreeParts (Node Aggregate Action : Type) where
  recordBytes : ℕ
  actionIdentity : Action
  build : List Aggregate → (segmentLeft segmentRight : ℕ) → ArenaM Node ℕ
  update : (nodeIndex segmentLeft segmentRight queryLeft queryRight : ℕ) → Action → ArenaM Node ℕ
  query : List Node → (nodeIndex segmentLeft segmentRight queryLeft queryRight : ℕ) →
    Except Exception Aggregate

namespace ActionTreeParts

variable {Node : Type} (P : ActionTreeParts Node Aggregate Action)

/-- The constructed tree has no versions. -/
def empty : ActionTree Node := ⟨[], [], 0⟩

def initializeFrom (values : List Aggregate) : EStateM Exception (ActionTree Node) Unit :=
  if values = [] then set (⟨[], [noNode], 0⟩ : ActionTree Node)
  else do
    let nodeCount ← canonicalNodeCount values.length
    checkVectorLength "vector::reserve" P.recordBytes nodeCount
    let (root, newNodes) ← Effect.onLocal (P.build values 0 (values.length - 1)) []
    set (⟨newNodes, [root], values.length⟩ : ActionTree Node)

/-- The try block of an update: the root is published after the complete update. -/
def publishUpdate (root arraySize left right : ℕ) (action : Action) :
    EStateM Exception (ActionTree Node) Unit := do
  let newRoot ← Effect.zoom ActionTree.nodes (fun nodes s => { s with nodes := nodes })
    (P.update root 0 (arraySize - 1) left right action)
  modify fun s => { s with roots := s.roots ++ [newRoot] }

def rangeApply [DecidableEq Action] (left right : ℕ) (action : Action) :
    EStateM Exception (ActionTree Node) ℕ := do
  let this ← get
  validateInitialized this.roots.length
  validateNonEmpty this.arraySize
  validateRange this.arraySize left right
  let latestRoot ← vectorAt this.roots (this.roots.length - 1)
  if action = P.actionIdentity then do
    modify fun s => { s with roots := s.roots ++ [latestRoot] }
    return (← get).roots.length - 1
  else do
    let checkpoint := this.nodes.length
    Effect.onThrow (P.publishUpdate latestRoot this.arraySize left right action)
      (modify fun s => { s with nodes := s.nodes.take checkpoint })
    return (← get).roots.length - 1

def rangeAggregate (this : ActionTree Node) (version left right : ℕ) :
    Except Exception Aggregate := do
  validateInitialized this.roots.length
  validateVersion version this.roots.length
  validateNonEmpty this.arraySize
  validateRange this.arraySize left right
  let root ← vectorAt this.roots version
  P.query this.nodes root 0 (this.arraySize - 1) left right

/-! ## One call, in any state -/

variable {P} {s : ActionTree Node} {l r : ℕ} {action : Action}

/-- The checks of the arguments, and the root they let an update start from. -/
def admitted (s : ActionTree Node) (l r : ℕ) : Except Exception ℕ := do
  validateInitialized s.roots.length
  validateNonEmpty s.arraySize
  validateRange s.arraySize l r
  vectorAt s.roots (s.roots.length - 1)

theorem admitted_eq_ok {root : ℕ} (hlr : l ≤ r) (hr : r < s.arraySize)
    (hroot : s.roots[s.roots.length - 1]? = some root) : admitted s l r = .ok root := by
  have hpos := (List.getElem?_eq_some_iff.mp hroot).1
  unfold admitted
  rw [validateInitialized_eq_ok.mpr (by omega), validateNonEmpty_eq_ok.mpr (by omega),
    validateRange_eq_ok.mpr ⟨hlr, hr⟩, vectorAt_eq_ok.mpr hroot]
  rfl

theorem of_admitted {root : ℕ} (h : admitted s l r = .ok root) : l ≤ r ∧ r < s.arraySize ∧
    s.roots[s.roots.length - 1]? = some root := by
  obtain ⟨⟨⟩, -, h⟩ := Effect.bind_eq_ok.mp h
  obtain ⟨⟨⟩, -, h⟩ := Effect.bind_eq_ok.mp h
  obtain ⟨⟨⟩, hr, h⟩ := Effect.bind_eq_ok.mp h
  obtain ⟨hlr, hr⟩ := validateRange_eq_ok.mp hr
  exact ⟨hlr, hr, vectorAt_eq_ok.mp h⟩

theorem admitted_error (h : ¬ (l ≤ r ∧ r < s.arraySize)) : ∃ e, admitted s l r = .error e := by
  unfold admitted
  rcases validateInitialized s.roots.length with e | ⟨⟩
  · exact ⟨e, rfl⟩
  rcases validateNonEmpty s.arraySize with e | ⟨⟩
  · exact ⟨e, rfl⟩
  rcases hr : validateRange s.arraySize l r with e | ⟨⟩
  · exact ⟨e, rfl⟩
  · exact absurd (validateRange_eq_ok.mp hr) h

/-- How an admitted update with an action that is not the identity ends. -/
def published (P : ActionTreeParts Node Aggregate Action) (s : ActionTree Node) (root l r : ℕ)
    (action : Action) : EStateM.Result Exception (ActionTree Node) ℕ :=
  match P.update root 0 (s.arraySize - 1) l r action s.nodes with
  | .ok newRoot nodes => .ok s.roots.length ⟨nodes, s.roots ++ [newRoot], s.arraySize⟩
  | .error e nodes => .error e { s with nodes := nodes.take s.nodes.length }

theorem rangeApply_not_admitted [DecidableEq Action] {e : Exception}
    (h : admitted s l r = .error e) : P.rangeApply l r action s = .error e s := by
  unfold admitted at h
  unfold rangeApply
  rw [Effect.run_bind_ok (Effect.run_get s)]
  refine Effect.run_checks_error h fun _ h => Effect.run_checks_error h fun _ h =>
    Effect.run_checks_error h fun _ h => ?_
  exact Effect.run_bind_error (by rw [h]; rfl)

theorem rangeApply_admitted [DecidableEq Action] {root : ℕ} (h : admitted s l r = .ok root) :
    P.rangeApply l r action s =
      if action = P.actionIdentity then .ok s.roots.length { s with roots := s.roots ++ [root] }
      else published P s root l r action := by
  obtain ⟨⟨⟩, h1, h⟩ := Effect.bind_eq_ok.mp h
  obtain ⟨⟨⟩, h2, h⟩ := Effect.bind_eq_ok.mp h
  obtain ⟨⟨⟩, h3, h⟩ := Effect.bind_eq_ok.mp h
  unfold rangeApply
  rw [Effect.run_bind_ok (Effect.run_get s)]
  simp only [h1, h2, h3, h]
  rw [Effect.run_bind_ok (Effect.liftM_ok _ s), Effect.run_bind_ok (Effect.liftM_ok _ s),
    Effect.run_bind_ok (Effect.liftM_ok _ s), Effect.run_bind_ok (Effect.liftM_ok _ s)]
  by_cases h0 : action = P.actionIdentity
  · rw [if_pos h0, if_pos h0, Effect.run_bind_ok (Effect.run_modify _ s)]
    simp only [Effect.run_bind_ok (Effect.run_get _), Effect.run_pure, List.length_append]
    rfl
  rw [if_neg h0, if_neg h0]
  unfold published
  rcases hu : P.update root 0 (s.arraySize - 1) l r action s.nodes with
    ⟨newRoot, nodes⟩ | ⟨e, nodes⟩
  · have hz : P.publishUpdate root s.arraySize l r action s =
        .ok ⟨⟩ ⟨nodes, s.roots ++ [newRoot], s.arraySize⟩ :=
      Effect.run_bind_ok (Effect.zoom_ok hu)
    rw [Effect.run_bind_ok (Effect.onThrow_ok hz), Effect.run_bind_ok (Effect.run_get _),
      Effect.run_pure]
    simp only [List.length_append]
    rfl
  · have hz : P.publishUpdate root s.arraySize l r action s = .error e { s with nodes := nodes } :=
      Effect.run_bind_error (Effect.zoom_error hu)
    rw [Effect.run_bind_error (Effect.onThrow_error hz)]
    rfl

/-- A query with valid arguments starts at the root of its version. -/
theorem rangeAggregate_eq {v root : ℕ} (hlr : l ≤ r) (hr : r < s.arraySize)
    (hroot : s.roots[v]? = some root) :
    P.rangeAggregate s v l r = P.query s.nodes root 0 (s.arraySize - 1) l r := by
  have hv := (List.getElem?_eq_some_iff.mp hroot).1
  unfold rangeAggregate
  rw [validateInitialized_eq_ok.mpr (by omega), validateVersion_eq_ok.mpr hv,
    validateNonEmpty_eq_ok.mpr (by omega), validateRange_eq_ok.mpr ⟨hlr, hr⟩,
    vectorAt_eq_ok.mpr hroot]
  rfl

/-- A query that returns has read from the root of its version. -/
theorem rangeAggregate_eq_ok {v : ℕ} {x : Aggregate} (h : P.rangeAggregate s v l r = .ok x) :
    ∃ root, s.roots[v]? = some root ∧ P.query s.nodes root 0 (s.arraySize - 1) l r = .ok x := by
  unfold rangeAggregate at h
  obtain ⟨-, -, h⟩ := Effect.bind_eq_ok.mp h
  obtain ⟨-, -, h⟩ := Effect.bind_eq_ok.mp h
  obtain ⟨-, -, h⟩ := Effect.bind_eq_ok.mp h
  obtain ⟨-, -, h⟩ := Effect.bind_eq_ok.mp h
  obtain ⟨root, hroot, h⟩ := Effect.bind_eq_ok.mp h
  exact ⟨root, vectorAt_eq_ok.mp hroot, h⟩

end ActionTreeParts

/-! ## The build -/

/-- The build both classes have, up to the records it makes. -/
def Policy.buildArena {Node : Type} (P : Policy Aggregate Action) (leaf : Aggregate → Node)
    (inner : ℕ → ℕ → Aggregate → Node) (aggregateOf : Node → Aggregate) (values : List Aggregate)
    (segmentLeft segmentRight : ℕ) : ArenaM Node ℕ :=
  if segmentLeft = segmentRight then do
    let value ← vectorAt values segmentLeft
    pushBack (leaf value)
  else if segmentLeft < segmentRight then do
    let middle := Segment.midpoint segmentLeft segmentRight
    let leftRoot ← P.buildArena leaf inner aggregateOf values segmentLeft middle
    let rightRoot ← P.buildArena leaf inner aggregateOf values (middle + 1) segmentRight
    let leftNode ← readNode leftRoot
    let rightNode ← readNode rightRoot
    let aggregate ← P.combine (aggregateOf leftNode) (aggregateOf rightNode)
    pushBack (inner leftRoot rightRoot aggregate)
  else throw .undefined
termination_by segmentRight - segmentLeft
decreasing_by all_goals (simp only [Segment.midpoint] at *; omega)

/-! ## PathCopyingActionTree -/

namespace PathCopyingActionTree

structure Node (Aggregate Action : Type) where
  leftChild : ℕ
  rightChild : ℕ
  aggregate : Aggregate
  tag : Action
  deriving DecidableEq, Repr

variable (P : Policy Aggregate Action)

def build : List Aggregate → (segmentLeft segmentRight : ℕ) → ArenaM (Node Aggregate Action) ℕ :=
  P.buildArena (fun value => ⟨noNode, noNode, value, P.actionIdentity⟩)
    (fun leftRoot rightRoot aggregate => ⟨leftRoot, rightRoot, aggregate, P.actionIdentity⟩)
    Node.aggregate

def pushInto (source : ℕ) (tag : Action) (length : ℕ) : ArenaM (Node Aggregate Action) ℕ := do
  let child ← readNode source
  let aggregate ← P.apply tag child.aggregate length
  let composed ← P.compose tag child.tag
  pushBack ⟨child.leftChild, child.rightChild, aggregate, composed⟩

/-- The children a partial descent goes on with, and the tag its copy keeps. -/
def pushDown [DecidableEq Action] (kPushOnPartialDescent : Bool) (current : Node Aggregate Action)
    (leftLength rightLength : ℕ) : ArenaM (Node Aggregate Action) (ℕ × ℕ × Action) :=
  if kPushOnPartialDescent ∧ current.tag ≠ P.actionIdentity then do
    let leftChild ← pushInto P current.leftChild current.tag leftLength
    let rightChild ← pushInto P current.rightChild current.tag rightLength
    return (leftChild, rightChild, P.actionIdentity)
  else return (current.leftChild, current.rightChild, current.tag)

def update [DecidableEq Action] (kPushOnPartialDescent : Bool)
    (nodeIndex segmentLeft segmentRight queryLeft queryRight : ℕ) (action : Action) :
    ArenaM (Node Aggregate Action) ℕ := do
  let current ← readNode nodeIndex
  let length := Segment.length segmentLeft segmentRight
  if queryLeft ≤ segmentLeft ∧ segmentRight ≤ queryRight then do
    let aggregate ← P.apply action current.aggregate length
    let tag ← P.compose action current.tag
    pushBack ⟨current.leftChild, current.rightChild, aggregate, tag⟩
  else if segmentLeft < segmentRight then do
    let middle := Segment.midpoint segmentLeft segmentRight
    let (leftChild, rightChild, retained) ← pushDown P kPushOnPartialDescent current
      (middle - segmentLeft + 1) (segmentRight - middle)
    let newLeft ← (if queryLeft ≤ middle then
      update kPushOnPartialDescent leftChild segmentLeft middle queryLeft queryRight action
      else pure leftChild)
    let newRight ← (if queryRight > middle then
      update kPushOnPartialDescent rightChild (middle + 1) segmentRight queryLeft queryRight action
      else pure rightChild)
    let leftNode ← readNode newLeft
    let rightNode ← readNode newRight
    let children ← P.combine leftNode.aggregate rightNode.aggregate
    let aggregate ← P.apply retained children length
    pushBack ⟨newLeft, newRight, aggregate, retained⟩
  else throw .undefined
termination_by segmentRight - segmentLeft
decreasing_by all_goals (simp only [Segment.midpoint] at *; omega)

def query (nodes : List (Node Aggregate Action))
    (nodeIndex segmentLeft segmentRight queryLeft queryRight : ℕ) (inherited : Action) :
    Except Exception Aggregate :=
  if segmentRight < queryLeft ∨ segmentLeft > queryRight then .ok P.aggregateIdentity
  else do
    let current ← vectorAt nodes nodeIndex
    if queryLeft ≤ segmentLeft ∧ segmentRight ≤ queryRight then
      P.apply inherited current.aggregate (Segment.length segmentLeft segmentRight)
    else if segmentLeft < segmentRight then do
      let middle := Segment.midpoint segmentLeft segmentRight
      let next ← P.compose inherited current.tag
      let left ← query nodes current.leftChild segmentLeft middle queryLeft queryRight next
      let right ← query nodes current.rightChild (middle + 1) segmentRight queryLeft queryRight next
      P.combine left right
    else .error .undefined
termination_by segmentRight - segmentLeft
decreasing_by all_goals (simp only [Segment.midpoint] at *; omega)

def parts [DecidableEq Action] (kPushOnPartialDescent : Bool) :
    ActionTreeParts (Node Aggregate Action) Aggregate Action where
  recordBytes := P.recordBytes
  actionIdentity := P.actionIdentity
  build := build P
  update := update P kPushOnPartialDescent
  query nodes i lo hi l r := query P nodes i lo hi l r P.actionIdentity

end PathCopyingActionTree

/-- The tag-retaining subject. -/
def retainedTagPersistentTree [DecidableEq Action] (P : Policy Aggregate Action) :
    ActionTreeParts (PathCopyingActionTree.Node Aggregate Action) Aggregate Action :=
  PathCopyingActionTree.parts P false

/-- The copy-on-push ablation. -/
def copyOnPushPersistentTree [DecidableEq Action] (P : Policy Aggregate Action) :
    ActionTreeParts (PathCopyingActionTree.Node Aggregate Action) Aggregate Action :=
  PathCopyingActionTree.parts P true

/-! ## PointMaterializedPersistentTree -/

namespace PointMaterializedPersistentTree

structure Node (Aggregate : Type) where
  leftChild : ℕ
  rightChild : ℕ
  aggregate : Aggregate
  deriving DecidableEq, Repr

variable (P : Policy Aggregate Action)

def build : List Aggregate → (segmentLeft segmentRight : ℕ) → ArenaM (Node Aggregate) ℕ :=
  P.buildArena (fun value => ⟨noNode, noNode, value⟩)
    (fun leftRoot rightRoot aggregate => ⟨leftRoot, rightRoot, aggregate⟩) Node.aggregate

def update (nodeIndex segmentLeft segmentRight queryLeft queryRight : ℕ) (action : Action) :
    ArenaM (Node Aggregate) ℕ := do
  let current ← readNode nodeIndex
  if segmentLeft = segmentRight then do
    let aggregate ← P.apply action current.aggregate 1
    pushBack ⟨noNode, noNode, aggregate⟩
  else if segmentLeft < segmentRight then do
    let middle := Segment.midpoint segmentLeft segmentRight
    let newLeft ← (if queryLeft ≤ middle then
      update current.leftChild segmentLeft middle queryLeft queryRight action
      else pure current.leftChild)
    let newRight ← (if queryRight > middle then
      update current.rightChild (middle + 1) segmentRight queryLeft queryRight action
      else pure current.rightChild)
    let leftNode ← readNode newLeft
    let rightNode ← readNode newRight
    let aggregate ← P.combine leftNode.aggregate rightNode.aggregate
    pushBack ⟨newLeft, newRight, aggregate⟩
  else throw .undefined
termination_by segmentRight - segmentLeft
decreasing_by all_goals (simp only [Segment.midpoint] at *; omega)

def query (nodes : List (Node Aggregate))
    (nodeIndex segmentLeft segmentRight queryLeft queryRight : ℕ) : Except Exception Aggregate :=
  if segmentRight < queryLeft ∨ segmentLeft > queryRight then .ok P.aggregateIdentity
  else do
    let current ← vectorAt nodes nodeIndex
    if queryLeft ≤ segmentLeft ∧ segmentRight ≤ queryRight then return current.aggregate
    else if segmentLeft < segmentRight then do
      let middle := Segment.midpoint segmentLeft segmentRight
      let left ← query nodes current.leftChild segmentLeft middle queryLeft queryRight
      let right ← query nodes current.rightChild (middle + 1) segmentRight queryLeft queryRight
      P.combine left right
    else .error .undefined
termination_by segmentRight - segmentLeft
decreasing_by all_goals (simp only [Segment.midpoint] at *; omega)

def parts : ActionTreeParts (Node Aggregate) Aggregate Action where
  recordBytes := P.taglessRecordBytes
  actionIdentity := P.actionIdentity
  build := build P
  update := update P
  query := query P

end PointMaterializedPersistentTree

end Valseg
