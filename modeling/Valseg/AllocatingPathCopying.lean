import Valseg.AllocatingEngine
import Valseg.PersistentLazySegmentTree
import Valseg.PointOnlyPersistentSegmentTree

/-!
# Path copying where allocations may fail

A path-copying update appends nodes one at a time, and each `push_back` may request memory; so may
the root pushed after it and the storage of the guard's fallback. Whatever fails, the arena is cut
back to where it was: `AllocatingPathCopying.strong`.
-/

namespace Valseg

open Allocation

section PathCopying

variable {Node Domain : Type}

/-- What a path-copying tree brings of its own, where requests may fail. -/
structure AllocatingPathCopying (P : PathCopying Node Domain) where
  preflight : Allocator → PathCopyingTree Node Domain → (latestRoot left right : ℕ) → ValueType →
    AllocM TreeVector Exception (PathCopyingTree Node Domain) Domain
  update : Allocator → (nodeIndex segmentLeft segmentRight queryLeft queryRight : ℕ) →
    ValueType → AllocM Unit Exception (List Node) ℕ
  preflight_follows : ∀ A this root l r value,
    Follows (preflight A this root l r value) (liftM (P.preflight this root l r value))
  preflight_reads : ∀ A this root l r value,
    Effect.Within (OnState Eq) (preflight A this root l r value)
  update_follows : ∀ A i lo hi l r value,
    Follows (update A i lo hi l r value) (P.update i lo hi l r value)
  update_appends : ∀ A i lo hi l r value, AppendsIn (update A i lo hi l r value)

namespace AllocatingPathCopying

variable {P : PathCopying Node Domain} (F : AllocatingPathCopying P) (A : Allocator)

/-- The new vectors take the place of the old ones when both are complete. The reserved nodes are
as many as the build appends. -/
def initializeFrom (_ : AllocatingPathCopying P) (values : List ValueType) :
    AllocM TreeVector Exception (PathCopyingTree Node Domain) Unit := do
  let newNumericDomain := P.domainOf values
  if values = [] then do
    let newRoots ← A.request 1
    swapIn ⟨[], [noNode], 0, newNumericDomain⟩ fun
      | _, .nodes => 0
      | _, .roots => newRoots
  else do
    let nodeCount ← canonicalNodeCount values.length
    checkVectorLength "vector::reserve" P.nodeSize nodeCount
    let nodeCapacity ← A.request nodeCount
    let (root, newNodes) ← Effect.onLocal (P.build values 0 (values.length - 1)) []
    let newRoots ← A.request 1
    swapIn ⟨newNodes, [root], values.length, newNumericDomain⟩ fun
      | _, .nodes => nodeCapacity
      | _, .roots => newRoots

/-- The update on the arena of the tree. -/
def updateNodes (nodeIndex segmentLeft segmentRight queryLeft queryRight : ℕ)
    (value : ValueType) : AllocM TreeVector Exception (PathCopyingTree Node Domain) ℕ :=
  onVector .nodes PathCopyingTree.nodes (fun nodes s => { s with nodes := nodes })
    (F.update A nodeIndex segmentLeft segmentRight queryLeft queryRight value)

/-- The try block of a range addition. -/
def publishUpdate (root arraySize left right : ℕ) (value : ValueType) :
    AllocM TreeVector Exception (PathCopyingTree Node Domain) Unit := do
  let newRoot ← F.updateNodes A root 0 (arraySize - 1) left right value
  A.oneMore .roots PathCopyingTree.roots
  modifyThe (PathCopyingTree Node Domain) fun s => { s with roots := s.roots ++ [newRoot] }

def rangeAdd (left right : ℕ) (value : ValueType) :
    AllocM TreeVector Exception (PathCopyingTree Node Domain) ℕ := do
  let this ← getThe (PathCopyingTree Node Domain)
  validateInitialized this.roots.length
  validateNonEmpty this.arraySize
  validateRange this.arraySize left right
  let latestRoot ← vectorAt this.roots (this.roots.length - 1)
  if value = 0 then do
    A.oneMore .roots PathCopyingTree.roots
    modifyThe (PathCopyingTree Node Domain) fun s => { s with roots := s.roots ++ [latestRoot] }
    return (← getThe (PathCopyingTree Node Domain)).roots.length - 1
  else do
    let nextDomain ← F.preflight A this latestRoot left right value
    let checkpoint := this.nodes.length
    Effect.onThrow (F.publishUpdate A latestRoot this.arraySize left right value)
      (modifyThe (PathCopyingTree Node Domain) fun s =>
        { s with nodes := s.nodes.take checkpoint })
    modifyThe (PathCopyingTree Node Domain) fun s => { s with numericDomain := nextDomain }
    return (← getThe (PathCopyingTree Node Domain)).roots.length - 1

theorem publishUpdate_follows (root n l r : ℕ) (value : ValueType) :
    Follows (F.publishUpdate A root n l r value) (P.publishUpdate root n l r value) :=
  .bind ((F.update_follows A _ _ _ _ _ _).onVector _ _ _) fun _ =>
    .prepare_bind (.room _ _) fun _ => .lift _

theorem initializeFrom_follows (values : List ValueType) :
    Follows (F.initializeFrom A values) (P.initializeFrom values) :=
  .ite (fun _ => .prepare_bind (.request _) fun _ => .swapIn _ _) fun _ =>
    .bind (.except _) fun _ => .bind (.except _) fun _ => .prepare_bind (.request _) fun _ =>
      .bind (.except _) fun _ => .prepare_bind (.request _) fun _ => .swapIn _ _

theorem rangeAdd_follows (l r : ℕ) (value : ValueType) :
    Follows (F.rangeAdd A l r value) (P.rangeAdd l r value) := by
  refine .bind (.lift _) fun this => .bind (.except _) fun _ => .bind (.except _) fun _ =>
    .bind (.except _) fun _ => .bind (.except _) fun root => .ite (fun _ => ?_) fun _ => ?_
  · exact .prepare_bind (.room _ _) fun _ => .bind (.lift _) fun _ => .bind (.lift _) fun _ =>
      .pure _
  · exact .bind (F.preflight_follows A _ _ _ _ _) fun domain =>
      .bind ((F.publishUpdate_follows A _ _ _ _ _).onThrow _) fun _ => .bind (.lift _) fun _ =>
        .bind (.lift _) fun _ => .pure _

/-- The operations of the engine. -/
def engine : AllocatingEngine P.engine TreeVector where
  initializeFrom A values := F.initializeFrom A values
  rangeAdd A := F.rangeAdd A
  initialize_follows A values := F.initializeFrom_follows A values
  rangeAdd_follows A := F.rangeAdd_follows A

/-! ## The strong guarantee -/

/-- The state with more nodes. -/
def Extended (s t : PathCopyingTree Node Domain) : Prop :=
  ∃ more, t = { s with nodes := s.nodes ++ more }

/-- A request that fails in the try block leaves more nodes, if anything. -/
theorem publishUpdate_failsIn (root n l r : ℕ) (value : ValueType)
    (this : PathCopyingTree Node Domain) :
    FailsIn (F.publishUpdate A root n l r value) this (Extended this) := by
  refine .bind (R := Extended) (within_onVector (F.update_appends A _ _ _ _ _ _) _ _ _ ?_)
    (fun u hu => hu) fun newRoot u hu => ?_
  · rintro u nodes ⟨more, rfl⟩
    exact ⟨more, rfl⟩
  · exact .bind_never (.of_prepares (.room _ _) hu) fun _ => .lift _

/-- **Failed requests.** Wherever one fails, the tree is as it was. -/
theorem rangeAdd_failsIn (l r : ℕ) (value : ValueType) (this : PathCopyingTree Node Domain) :
    FailsIn (F.rangeAdd A l r value) this (this = ·) := by
  refine .bind_get (.bind_except fun _ _ => .bind_except fun _ _ => .bind_except fun _ _ =>
    .bind_except fun root _ => .ite (fun _ => ?_) fun _ => ?_)
  · exact .bind_prepares (.room _ _) rfl fun _ => NeverFails.failsIn
      (.bind (.lift _) fun _ => .bind (.lift _) fun _ => .pure _) _ _
  · refine .bind_read (F.preflight_reads A _ _ _ _ _) rfl fun domain => .bind_never ?_ fun _ =>
      .bind (.lift _) fun _ => .bind (.lift _) fun _ => .pure _
    refine .onThrow (F.publishUpdate_failsIn A _ _ _ _ _ this) _ ?_
    rintro u ⟨more, rfl⟩
    show this = { this with nodes := (this.nodes ++ more).take this.nodes.length }
    rw [List.take_left]

/-- **The strong guarantee.** -/
theorem strong (hP : ∀ i a b c d v, Appends (P.update i a b c d v)) : F.engine.Strong Eq := by
  refine AllocatingEngine.strong_of (P := fun _ => True) (fun _ _ => trivial) ?_
    fun A l r value s _ => F.rangeAdd_failsIn A l r value s
  intro l r value s e s' _ h
  have hframe : (∃ x s', P.rangeAdd l r value s = .ok x s' ∧ _ ∧ _) ∨
      ∃ e, P.rangeAdd l r value s = .error e s := PathCopying.rangeAdd_frame hP
  rcases hframe with
    ⟨x, s'', hx, -⟩ | ⟨e', he⟩
  · have h' : P.rangeAdd l r value s = .error e s' := h
    rw [hx] at h'
    cases h'
  · have h' : P.rangeAdd l r value s = .error e s' := h
    rw [he] at h'
    cases h'
    rfl

end AllocatingPathCopying

end PathCopying

/-! ## The three structures -/

namespace PersistentLazySegmentTree.Allocating

def update (A : Allocator) (nodeIndex segmentLeft segmentRight queryLeft queryRight : ℕ)
    (value : ValueType) : AllocM Unit Exception (List Node) ℕ := do
  let current ← readNodeIn nodeIndex
  let length ← inclusiveLength segmentLeft segmentRight
  if queryLeft ≤ segmentLeft ∧ segmentRight ≤ queryRight then do
    let sum ← SumAddPolicy.apply value current.sum length
    let lazy ← checkedAdd current.lazy value
    pushBackIn A ⟨current.leftChild, current.rightChild, sum, lazy⟩
  else if segmentLeft < segmentRight then do
    let middle := Segment.midpoint segmentLeft segmentRight
    let newLeft ← (if queryLeft ≤ middle then
      update A current.leftChild segmentLeft middle queryLeft queryRight value
      else pure current.leftChild)
    let newRight ← (if queryRight > middle then
      update A current.rightChild (middle + 1) segmentRight queryLeft queryRight value
      else pure current.rightChild)
    let leftNode ← readNodeIn newLeft
    let rightNode ← readNodeIn newRight
    let childSum ← checkedAdd leftNode.sum rightNode.sum
    let sum ← SumAddPolicy.apply current.lazy childSum length
    pushBackIn A ⟨newLeft, newRight, sum, current.lazy⟩
  else throw (.thrown .undefined)
termination_by segmentRight - segmentLeft
decreasing_by all_goals (simp only [Segment.midpoint] at *; omega)

variable (A : Allocator) (i lo hi l r : ℕ) (value : ValueType)

theorem update_follows : Follows (update A i lo hi l r value)
    (PersistentLazySegmentTree.update i lo hi l r value) := by
  induction hk : hi - lo using Nat.strong_induction_on generalizing i lo hi with
  | _ k ih =>
    rw [update, PersistentLazySegmentTree.update]
    refine .bind (readNodeIn_follows i) fun node => .bind (.except _) fun length =>
      .ite (fun _ => ?_) fun _ => .ite (fun hlt => ?_) fun _ => .throw _
    · exact .bind (.except _) fun sum => .bind (.except _) fun lazy => pushBackIn_follows A _
    · have h1 := Segment.le_midpoint lo hi
      have h2 := Segment.midpoint_lt hlt
      refine .bind (.ite (fun _ => ih _ ?_ _ _ _ rfl) fun _ => .pure _) fun j =>
        .bind (.ite (fun _ => ih _ ?_ _ _ _ rfl) fun _ => .pure _) fun k =>
          .bind (readNodeIn_follows j) fun _ => .bind (readNodeIn_follows k) fun _ =>
            .bind (.except _) fun _ => .bind (.except _) fun _ => pushBackIn_follows A _
      · omega
      · omega

theorem update_appends : AppendsIn (update A i lo hi l r value) := by
  induction hk : hi - lo using Nat.strong_induction_on generalizing i lo hi with
  | _ k ih =>
    rw [update]
    refine .bind (.readNodeIn i) fun node => .bind (.except _) fun length => .ite (fun _ => ?_)
      fun _ => .ite (fun hlt => ?_) fun _ => .throw _
    · exact .bind (.except _) fun sum => .bind (.except _) fun lazy => .pushBackIn A _
    · have h1 := Segment.le_midpoint lo hi
      have h2 := Segment.midpoint_lt hlt
      refine .bind (.ite (fun _ => ih _ ?_ _ _ _ rfl) fun _ => .pure _) fun j =>
        .bind (.ite (fun _ => ih _ ?_ _ _ _ rfl) fun _ => .pure _) fun k =>
          .bind (.readNodeIn j) fun _ => .bind (.readNodeIn k) fun _ =>
            .bind (.except _) fun _ => .bind (.except _) fun _ => .pushBackIn A _
      · omega
      · omega

def parts : AllocatingPathCopying PersistentLazySegmentTree.parts where
  preflight A this latestRoot left right value :=
    this.numericDomain.preflightStored A this.arraySize left right value
      fun values => materialize this.nodes latestRoot 0 (this.arraySize - 1) 0 values
  update := update
  preflight_follows _ _ _ _ _ _ := SumAddDomainGuard.preflightStored_follows
  preflight_reads _ _ _ _ _ _ := SumAddDomainGuard.preflightStored_reads
  update_follows := update_follows
  update_appends := update_appends

/-- The structure and its writing operations. -/
abbrev engine : AllocatingEngine PersistentLazySegmentTree.engine TreeVector := parts.engine

end PersistentLazySegmentTree.Allocating

namespace FullCopyPersistentSegmentTree.Allocating

def fullCopyUpdate (A : Allocator)
    (nodeIndex segmentLeft segmentRight queryLeft queryRight : ℕ) (value : ValueType) :
    AllocM Unit Exception (List Node) ℕ := do
  let current ← readNodeIn nodeIndex
  if segmentLeft = segmentRight then do
    let newValue ← (if queryLeft ≤ segmentLeft ∧ segmentRight ≤ queryRight then
      liftM (checkedAdd current.sum value) else pure current.sum)
    pushBackIn A ⟨noNode, noNode, newValue⟩
  else if segmentLeft < segmentRight then do
    let middle := Segment.midpoint segmentLeft segmentRight
    let newLeft ← fullCopyUpdate A current.leftChild segmentLeft middle queryLeft queryRight value
    let newRight ←
      fullCopyUpdate A current.rightChild (middle + 1) segmentRight queryLeft queryRight value
    let leftNode ← readNodeIn newLeft
    let rightNode ← readNodeIn newRight
    let sum ← checkedAdd leftNode.sum rightNode.sum
    pushBackIn A ⟨newLeft, newRight, sum⟩
  else throw (.thrown .undefined)
termination_by segmentRight - segmentLeft
decreasing_by all_goals (simp only [Segment.midpoint] at *; omega)

variable (A : Allocator) (i lo hi l r : ℕ) (value : ValueType)

theorem fullCopyUpdate_follows : Follows (fullCopyUpdate A i lo hi l r value)
    (FullCopyPersistentSegmentTree.fullCopyUpdate i lo hi l r value) := by
  induction hk : hi - lo using Nat.strong_induction_on generalizing i lo hi with
  | _ k ih =>
    rw [fullCopyUpdate, FullCopyPersistentSegmentTree.fullCopyUpdate]
    refine .bind (readNodeIn_follows i) fun node => .ite (fun _ => ?_) fun _ =>
      .ite (fun hlt => ?_) fun _ => .throw _
    · exact .bind (.ite (fun _ => .except _) fun _ => .pure _) fun _ => pushBackIn_follows A _
    · have h1 := Segment.le_midpoint lo hi
      have h2 := Segment.midpoint_lt hlt
      refine .bind (ih _ ?_ _ _ _ rfl) fun j => .bind (ih _ ?_ _ _ _ rfl) fun k =>
        .bind (readNodeIn_follows j) fun _ => .bind (readNodeIn_follows k) fun _ =>
          .bind (.except _) fun _ => pushBackIn_follows A _
      · omega
      · omega

theorem fullCopyUpdate_appends : AppendsIn (fullCopyUpdate A i lo hi l r value) := by
  induction hk : hi - lo using Nat.strong_induction_on generalizing i lo hi with
  | _ k ih =>
    rw [fullCopyUpdate]
    refine .bind (.readNodeIn i) fun node => .ite (fun _ => ?_) fun _ => .ite (fun hlt => ?_)
      fun _ => .throw _
    · exact .bind (.ite (fun _ => .except _) fun _ => .pure _) fun _ => .pushBackIn A _
    · have h1 := Segment.le_midpoint lo hi
      have h2 := Segment.midpoint_lt hlt
      refine .bind (ih _ ?_ _ _ _ rfl) fun j => .bind (ih _ ?_ _ _ _ rfl) fun k =>
        .bind (.readNodeIn j) fun _ => .bind (.readNodeIn k) fun _ => .bind (.except _) fun _ =>
          .pushBackIn A _
      · omega
      · omega

def parts : AllocatingPathCopying FullCopyPersistentSegmentTree.parts where
  preflight _ _ _ _ _ _ := pure ()
  update := fullCopyUpdate
  preflight_follows _ _ _ _ _ _ := .pure ()
  preflight_reads _ _ _ _ _ _ := .pure (R := OnState Eq) (fun _ => rfl) ()
  update_follows := fullCopyUpdate_follows
  update_appends := fullCopyUpdate_appends

/-- The structure and its writing operations. -/
abbrev engine : AllocatingEngine FullCopyPersistentSegmentTree.engine TreeVector := parts.engine

end FullCopyPersistentSegmentTree.Allocating

namespace PointOnlyPersistentSegmentTree.Allocating

def pointOnlyUpdate (A : Allocator)
    (nodeIndex segmentLeft segmentRight queryLeft queryRight : ℕ) (value : ValueType) :
    AllocM Unit Exception (List Node) ℕ := do
  let current ← readNodeIn nodeIndex
  if segmentLeft = segmentRight then do
    let newValue ← checkedAdd current.sum value
    pushBackIn A ⟨noNode, noNode, newValue⟩
  else if segmentLeft < segmentRight then do
    let middle := Segment.midpoint segmentLeft segmentRight
    let newLeft ← (if queryLeft ≤ middle then
      pointOnlyUpdate A current.leftChild segmentLeft middle queryLeft queryRight value
      else pure current.leftChild)
    let newRight ← (if queryRight > middle then
      pointOnlyUpdate A current.rightChild (middle + 1) segmentRight queryLeft queryRight value
      else pure current.rightChild)
    let leftNode ← readNodeIn newLeft
    let rightNode ← readNodeIn newRight
    let sum ← checkedAdd leftNode.sum rightNode.sum
    pushBackIn A ⟨newLeft, newRight, sum⟩
  else throw (.thrown .undefined)
termination_by segmentRight - segmentLeft
decreasing_by all_goals (simp only [Segment.midpoint] at *; omega)

variable (A : Allocator) (i lo hi l r : ℕ) (value : ValueType)

theorem pointOnlyUpdate_follows : Follows (pointOnlyUpdate A i lo hi l r value)
    (PointOnlyPersistentSegmentTree.pointOnlyUpdate i lo hi l r value) := by
  induction hk : hi - lo using Nat.strong_induction_on generalizing i lo hi with
  | _ k ih =>
    rw [pointOnlyUpdate, PointOnlyPersistentSegmentTree.pointOnlyUpdate]
    refine .bind (readNodeIn_follows i) fun node => .ite (fun _ => ?_) fun _ =>
      .ite (fun hlt => ?_) fun _ => .throw _
    · exact .bind (.except _) fun _ => pushBackIn_follows A _
    · have h1 := Segment.le_midpoint lo hi
      have h2 := Segment.midpoint_lt hlt
      refine .bind (.ite (fun _ => ih _ ?_ _ _ _ rfl) fun _ => .pure _) fun j =>
        .bind (.ite (fun _ => ih _ ?_ _ _ _ rfl) fun _ => .pure _) fun k =>
          .bind (readNodeIn_follows j) fun _ => .bind (readNodeIn_follows k) fun _ =>
            .bind (.except _) fun _ => pushBackIn_follows A _
      · omega
      · omega

theorem pointOnlyUpdate_appends : AppendsIn (pointOnlyUpdate A i lo hi l r value) := by
  induction hk : hi - lo using Nat.strong_induction_on generalizing i lo hi with
  | _ k ih =>
    rw [pointOnlyUpdate]
    refine .bind (.readNodeIn i) fun node => .ite (fun _ => ?_) fun _ => .ite (fun hlt => ?_)
      fun _ => .throw _
    · exact .bind (.except _) fun _ => .pushBackIn A _
    · have h1 := Segment.le_midpoint lo hi
      have h2 := Segment.midpoint_lt hlt
      refine .bind (.ite (fun _ => ih _ ?_ _ _ _ rfl) fun _ => .pure _) fun j =>
        .bind (.ite (fun _ => ih _ ?_ _ _ _ rfl) fun _ => .pure _) fun k =>
          .bind (.readNodeIn j) fun _ => .bind (.readNodeIn k) fun _ => .bind (.except _) fun _ =>
            .pushBackIn A _
      · omega
      · omega

def parts : AllocatingPathCopying PointOnlyPersistentSegmentTree.parts where
  preflight _ _ _ _ _ _ := pure ()
  update := pointOnlyUpdate
  preflight_follows _ _ _ _ _ _ := .pure ()
  preflight_reads _ _ _ _ _ _ := .pure (R := OnState Eq) (fun _ => rfl) ()
  update_follows := pointOnlyUpdate_follows
  update_appends := pointOnlyUpdate_appends

/-- The structure and its writing operations. -/
abbrev engine : AllocatingEngine PointOnlyPersistentSegmentTree.engine TreeVector := parts.engine

end PointOnlyPersistentSegmentTree.Allocating

end Valseg
