import Valseg.AllocatingEngine
import Valseg.BufferedPathCopyingSegmentTree

/-!
# Buffered path copying where allocations may fail

An update records a node before it gives it an entry, and every `push_back` on the way may fail:
of the record, of a copy, of the root. `update_undoable` says that what was done by then can be
undone with the record, which is what the catch block does (`strong`).
-/

namespace Valseg

open Allocation

namespace BufferedPathCopyingSegmentTree.Allocating

/-- The vectors of the tree. -/
inductive TreeVector where
  | nodes
  | roots
  | bufferedThisUpdate
  deriving DecidableEq, Repr

def modify (A : Allocator) (nodeIndex version : ℕ) (deltaSum deltaLazy : ValueType) :
    AllocM TreeVector Exception State ℕ := do
  let this ← getThe State
  let node ← vectorAt this.nodes nodeIndex
  let latest ← snapshotAt node version
  let nextSum ← checkedAdd latest.sum deltaSum
  let nextLazy ← checkedAdd latest.lazy deltaLazy
  if h : node.bufferSize < bufferCapacity then do
    A.oneMore .bufferedThisUpdate State.bufferedThisUpdate
    modifyThe State fun s => { s with
      nodes := s.nodes.set nodeIndex (node.pushEntry ⟨version, deltaSum, deltaLazy⟩ h)
      bufferedThisUpdate := s.bufferedThisUpdate ++ [nodeIndex] }
    return nodeIndex
  else do
    A.oneMore .nodes State.nodes
    pushNode ⟨node.leftChild, node.rightChild, nextSum, nextLazy, 0, emptyBuffer⟩

def update (A : Allocator) (nodeIndex version segmentLeft segmentRight queryLeft queryRight : ℕ)
    (value : ValueType) : AllocM TreeVector Exception State ℕ := do
  let length ← segmentLength segmentLeft segmentRight
  if queryLeft ≤ segmentLeft ∧ segmentRight ≤ queryRight then do
    let deltaSum ← checkedMultiply value (← checkedLength length)
    modify A nodeIndex version deltaSum value
  else if segmentLeft < segmentRight then do
    let this ← getThe State
    let current ← vectorAt this.nodes nodeIndex
    let middle := Segment.midpoint segmentLeft segmentRight
    let newLeft ← (if queryLeft ≤ middle then
      update A current.leftChild version segmentLeft middle queryLeft queryRight value
      else pure current.leftChild)
    let newRight ← (if queryRight > middle then
      update A current.rightChild version (middle + 1) segmentRight queryLeft queryRight value
      else pure current.rightChild)
    let overlap ← segmentLength (max segmentLeft queryLeft) (min segmentRight queryRight)
    let deltaSum ← checkedMultiply value (← checkedLength overlap)
    if newLeft = current.leftChild ∧ newRight = current.rightChild then
      modify A nodeIndex version deltaSum 0
    else do
      let latest ← snapshotAt current version
      let sum ← checkedAdd latest.sum deltaSum
      A.oneMore .nodes State.nodes
      pushNode ⟨newLeft, newRight, sum, latest.lazy, 0, emptyBuffer⟩
  else throw (.thrown .undefined)
termination_by segmentRight - segmentLeft
decreasing_by all_goals (simp only [Segment.midpoint] at *; omega)

/-- The vector of the record is cleared, and keeps its capacity. -/
def initializeFrom (A : Allocator) (values : List ValueType) :
    AllocM TreeVector Exception State Unit := do
  let newNumericDomain := SumAddDomainGuard.ofValues values
  if values = [] then do
    let newRoots ← A.request 1
    swapIn ⟨[], [noNode], 0, newNumericDomain, []⟩ fun
      | _, .nodes => 0
      | _, .roots => newRoots
      | old, .bufferedThisUpdate => old .bufferedThisUpdate
  else do
    let nodeCount ← canonicalNodeCount values.length
    checkVectorLength "vector::reserve" 88 nodeCount
    let nodeCapacity ← A.request nodeCount
    let (root, newNodes) ← Effect.onLocal (build values 0 (values.length - 1)) []
    let newRoots ← A.request 1
    swapIn ⟨newNodes, [root], values.length, newNumericDomain, []⟩ fun
      | _, .nodes => nodeCapacity
      | _, .roots => newRoots
      | old, .bufferedThisUpdate => old .bufferedThisUpdate

/-- The try block of a range addition. -/
def publishUpdate (A : Allocator) (latestRoot version arraySize left right : ℕ)
    (value : ValueType) : AllocM TreeVector Exception State Unit := do
  let newRoot ← update A latestRoot version 0 (arraySize - 1) left right value
  A.oneMore .roots State.roots
  modifyThe State fun s => { s with roots := s.roots ++ [newRoot] }

def rangeAdd (A : Allocator) (left right : ℕ) (value : ValueType) :
    AllocM TreeVector Exception State ℕ := do
  let this ← getThe State
  validateInitialized this.roots.length
  validateNonEmpty this.arraySize
  validateRange this.arraySize left right
  let latestRoot ← vectorAt this.roots (this.roots.length - 1)
  if value = 0 then do
    A.oneMore .roots State.roots
    modifyThe State fun s => { s with roots := s.roots ++ [latestRoot] }
    return (← getThe State).roots.length - 1
  else do
    let latestVersion := this.roots.length - 1
    let nextDomain ← this.numericDomain.preflightStored A this.arraySize left right value
      fun values => materialize this.nodes latestVersion latestRoot 0 (this.arraySize - 1) 0 values
    let version := this.roots.length
    let checkpoint := this.nodes.length
    modifyThe State fun s => { s with bufferedThisUpdate := [] }
    Effect.onThrow (publishUpdate A latestRoot version this.arraySize left right value)
      (liftM (rollback checkpoint))
    modifyThe State fun s => { s with numericDomain := nextDomain }
    return (← getThe State).roots.length - 1

/-! ## Without failed requests -/

section Follows

variable (A : Allocator) (i v lo hi l r : ℕ) (value : ValueType)

theorem modify_follows (deltaSum deltaLazy : ValueType) :
    Follows (modify A i v deltaSum deltaLazy)
      (BufferedPathCopyingSegmentTree.modify i v deltaSum deltaLazy) := by
  refine .bind (.lift _) fun this => .bind (.except _) fun node => .bind (.except _) fun latest =>
    .bind (.except _) fun nextSum => .bind (.except _) fun nextLazy => .dite (fun _ => ?_)
      fun _ => ?_
  · exact .prepare_bind (.room _ _) fun _ => .bind (.lift _) fun _ => .pure _
  · exact .prepare_bind (.room _ _) fun _ => .lift _

theorem update_follows : Follows (update A i v lo hi l r value)
    (BufferedPathCopyingSegmentTree.update i v lo hi l r value) := by
  induction hk : hi - lo using Nat.strong_induction_on generalizing i lo hi with
  | _ k ih =>
    rw [update, BufferedPathCopyingSegmentTree.update]
    refine .bind (.except _) fun length => .ite (fun _ => ?_) fun _ => .ite (fun hlt => ?_)
      fun _ => .throw _
    · exact .bind (.except _) fun _ => .bind (.except _) fun _ => modify_follows A _ _ _ _
    · have h1 := Segment.le_midpoint lo hi
      have h2 := Segment.midpoint_lt hlt
      refine .bind (.lift _) fun this => .bind (.except _) fun current =>
        .bind (.ite (fun _ => ih _ ?_ _ _ _ rfl) fun _ => .pure _) fun newLeft =>
        .bind (.ite (fun _ => ih _ ?_ _ _ _ rfl) fun _ => .pure _) fun newRight =>
        .bind (.except _) fun overlap => .bind (.except _) fun _ => .bind (.except _) fun deltaSum =>
        .ite (fun _ => modify_follows A _ _ _ _) fun _ => .bind (.except _) fun latest =>
          .bind (.except _) fun sum => .prepare_bind (.room _ _) fun _ => .lift _
      · omega
      · omega

theorem initializeFrom_follows (values : List ValueType) :
    Follows (initializeFrom A values) (BufferedPathCopyingSegmentTree.initializeFrom values) :=
  .ite (fun _ => .prepare_bind (.request _) fun _ => .swapIn _ _) fun _ =>
    .bind (.except _) fun _ => .bind (.except _) fun _ => .prepare_bind (.request _) fun _ =>
      .bind (.except _) fun _ => .prepare_bind (.request _) fun _ => .swapIn _ _

theorem rangeAdd_follows :
    Follows (rangeAdd A l r value) (BufferedPathCopyingSegmentTree.rangeAdd l r value) := by
  refine .bind (.lift _) fun this => .bind (.except _) fun _ => .bind (.except _) fun _ =>
    .bind (.except _) fun _ => .bind (.except _) fun root => .ite (fun _ => ?_) fun _ => ?_
  · exact .prepare_bind (.room _ _) fun _ => .bind (.lift _) fun _ => .bind (.lift _) fun _ =>
      .pure _
  · have hpublish : Follows (publishUpdate A root this.roots.length this.arraySize l r value)
        (BufferedPathCopyingSegmentTree.publishUpdate root this.roots.length this.arraySize l r
          value) :=
      .bind (update_follows A _ _ _ _ _ _ _) fun _ => .prepare_bind (.room _ _) fun _ => .lift _
    exact .bind SumAddDomainGuard.preflightStored_follows fun domain => .bind (.lift _) fun _ =>
      .bind (hpublish.onThrow _) fun _ => .bind (.lift _) fun _ => .bind (.lift _) fun _ => .pure _

end Follows

/-- The structure and its writing operations. -/
def engine : AllocatingEngine BufferedPathCopyingSegmentTree.engine TreeVector where
  initializeFrom := initializeFrom
  rangeAdd := rangeAdd
  initialize_follows := initializeFrom_follows
  rangeAdd_follows := rangeAdd_follows

/-! ## Failed requests -/

section Fails

variable (A : Allocator) (i v lo hi l r : ℕ) (value : ValueType)

/-- Nothing is written before the request. -/
theorem modify_failsIn (deltaSum deltaLazy : ValueType) (this : State) :
    FailsIn (modify A i v deltaSum deltaLazy) this (Undoable this) := by
  refine .bind_get (.bind_except fun node _ => .bind_except fun latest _ =>
    .bind_except fun nextSum _ => .bind_except fun nextLazy _ => .dite (fun _ => ?_) fun _ => ?_)
  · exact .bind_prepares (.room _ _) (.refl this) fun _ =>
      NeverFails.failsIn (.bind (.lift _) fun _ => .pure _) _ _
  · exact .bind_prepares (.room _ _) (.refl this) fun _ => NeverFails.failsIn (.lift _) _ _

theorem modify_undoable (deltaSum deltaLazy : ValueType) :
    Effect.Within (OnState Undoable) (modify A i v deltaSum deltaLazy) :=
  FailsIn.within (modify_failsIn A i v deltaSum deltaLazy) (modify_follows A i v deltaSum deltaLazy)
    (BufferedPathCopyingSegmentTree.modify_undoable i v deltaSum deltaLazy)

/-- **An update can be undone**, wherever a request fails. -/
theorem update_undoable : Effect.Within (OnState Undoable) (update A i v lo hi l r value) := by
  have refl : ∀ s : Allocated TreeVector State, OnState Undoable s s := fun s => .refl s.state
  have lift : ∀ {α : Type} (z : Except Exception α), Effect.Within (OnState Undoable)
      (liftM z : AllocM TreeVector Exception State α) := fun z =>
    within_lift (Effect.Within.lift Undoable.refl z)
  have andThen : ∀ {α β : Type} {x : AllocM TreeVector Exception State α}
      {f : α → AllocM TreeVector Exception State β}, Effect.Within (OnState Undoable) x →
        (∀ a, Effect.Within (OnState Undoable) (f a)) →
          Effect.Within (OnState Undoable) (x >>= f) :=
    Effect.Within.bind (R := OnState Undoable) fun h h' => Undoable.trans h h'
  induction hk : hi - lo using Nat.strong_induction_on generalizing i lo hi with
  | _ k ih =>
    rw [update]
    refine andThen (lift _) fun length => .ite (fun _ => ?_) fun _ => .ite (fun hlt => ?_)
      fun _ => .throw refl _
    · exact andThen (lift _) fun _ => andThen (lift _) fun _ => modify_undoable A _ _ _ _
    · have h1 := Segment.le_midpoint lo hi
      have h2 := Segment.midpoint_lt hlt
      refine andThen (.of_state refl fun _ => rfl) fun this => andThen (lift _) fun current =>
        andThen (.ite (fun _ => ih _ ?_ _ _ _ rfl) fun _ => .pure refl _) fun newLeft =>
        andThen (.ite (fun _ => ih _ ?_ _ _ _ rfl) fun _ => .pure refl _) fun newRight =>
        andThen (lift _) fun overlap => andThen (lift _) fun _ => andThen (lift _) fun deltaSum =>
        .ite (fun _ => modify_undoable A _ _ _ _) fun _ => andThen (lift _) fun latest =>
          andThen (lift _) fun sum => andThen ((Prepares.room _ _).within Undoable.refl) fun _ =>
            within_lift (pushNode_undoable _)
      · omega
      · omega

/-- **Failed requests.** Where no node has more entries than its buffer holds, the catch block
restores the tree. -/
theorem rangeAdd_failsIn {this : State} (hcap : 0 < this.roots.length →
      ∀ node ∈ this.nodes, node.bufferSize ≤ bufferCapacity) :
    FailsIn (rangeAdd A l r value) this (Restored this) := by
  refine .bind_get (.bind_except fun _ hpos => .bind_except fun _ _ => .bind_except fun _ _ =>
    .bind_except fun root _ => .ite (fun _ => ?_) fun _ => ?_)
  · exact .bind_prepares (.room _ _) (.refl this) fun _ => NeverFails.failsIn
      (.bind (.lift _) fun _ => .bind (.lift _) fun _ => .pure _) _ _
  refine .bind_read SumAddDomainGuard.preflightStored_reads (.refl this) fun domain =>
    .bind_modify (.bind_never ?_ fun _ => .bind (.lift _) fun _ => .bind (.lift _) fun _ => .pure _)
  have hpublish : FailsIn (publishUpdate A root this.roots.length this.arraySize l r value)
      { this with bufferedThisUpdate := [] } (Undoable { this with bufferedThisUpdate := [] }) :=
    .bind (update_undoable A _ _ _ _ _ _ _) (fun _ h => h) fun _ _ h =>
      .bind_never (.of_prepares (.room _ _) h) fun _ => .lift _
  refine hpublish.onThrow _ fun u hu => ?_
  have h := hu.rollback rfl (hcap (validateInitialized_eq_ok.mp hpos))
  exact ⟨h.roots, h.arraySize, h.numericDomain, h.length, h.nodes⟩

theorem initializeFrom_failsIn (values : List ValueType) (this : State) :
    FailsIn (initializeFrom A values) this (this = ·) := by
  refine .ite (fun _ => ?_) fun _ => ?_
  · exact .bind_prepares (.request _) rfl fun _ => NeverFails.failsIn (.swapIn _ _) _ _
  · exact .bind_except fun _ _ => .bind_except fun _ _ => .bind_prepares (.request _) rfl
      fun _ => .bind_except fun _ _ => .bind_prepares (.request _) rfl fun _ =>
        NeverFails.failsIn (.swapIn _ _) _ _

end Fails

/-! ## The strong guarantee -/

/-- The state stores valid trees, or none. -/
def Sound (s : State) : Prop := ∃ o, simulation.Inv (s, o)

variable {s s' : State}

theorem Sound.capacity (h : Sound s) (hpos : 0 < s.roots.length) :
    ∀ node ∈ s.nodes, node.bufferSize ≤ bufferCapacity := by
  obtain ⟨o, ⟨-, hfresh⟩ | ⟨h, m, -, -, hs, -⟩⟩ := h
  · have hfresh' : s.roots = [] := hfresh
    rw [hfresh'] at hpos
    exact absurd hpos (lt_irrefl 0)
  · exact fun node hn => (hs.all.recent node hn).1

theorem Sound.restored (h : Sound s) (hr : Restored s s') : Sound s' := by
  obtain ⟨o, ⟨hn, hfresh⟩ | ⟨h, m, ho, hsize, hs, hv⟩⟩ := h
  · exact ⟨o, .inl ⟨hn, hr.roots.trans hfresh⟩⟩
  · exact ⟨o, .inr ⟨h, m, ho, hsize, hr.stores hs, hv⟩⟩

/-- An addition that throws without a failed request. -/
theorem Sound.rangeAdd_error {l r : ℕ} {value : ValueType} {e : Exception} (h : Sound s)
    (hx : BufferedPathCopyingSegmentTree.rangeAdd l r value s = .error e s') : Restored s s' := by
  obtain ⟨o, ⟨-, hfresh⟩ | ⟨h, m, -, -, hs, hv⟩⟩ := h
  · rw [rangeAdd_fresh hfresh] at hx
    cases hx
    exact .refl s
  · rcases rangeAdd_outcome hs hv l r value with ⟨m', s'', -, hr, -⟩ | ⟨e', s'', -, hr, hrest⟩ <;>
      rw [hr] at hx <;> cases hx
    exact hrest

theorem run_sound (A : Allocator) (calls : List (Call (List ValueType))) :
    Sound (engine.run A calls).state :=
  AllocatingEngine.run_induction (P := Sound) ⟨none, .inl ⟨rfl, simulation.empty⟩⟩
    simulation.exists_inv.1 simulation.exists_inv.2
    (fun a s hs => (initializeFrom_failsIn A a s).mono fun _ h => h ▸ hs)
    (fun l r value _ hs => (rangeAdd_failsIn A l r value hs.capacity).mono fun _ h => hs.restored h)
    calls

/-- **The strong guarantee**, up to what the buffers hold past their entries. -/
theorem strong : engine.Strong Restored :=
  AllocatingEngine.strong_of run_sound Sound.rangeAdd_error
    fun A l r value _ hs => rangeAdd_failsIn A l r value hs.capacity

end BufferedPathCopyingSegmentTree.Allocating

end Valseg
