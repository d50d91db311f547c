import Valseg.AllocatingEngine
import Valseg.FatNodePersistentSegmentTree
import Valseg.Lib.FrontierBounds

/-!
# Fat nodes where allocations may fail

An update appends states in place, which nothing undoes. So all that may request memory comes
first (`prepareUpdate`), and what comes after (`publishUpdate`) finds the room it needs: a range
addition visits at most four nodes a level (`update_fits`), and that much was reserved
(`publishUpdate_fits`).
-/

namespace Valseg

open Allocation

namespace FatNodePersistentSegmentTree.Allocating

def record (A : Allocator) (nodeIndex : ℕ) (state : Modification) :
    AllocM Unit Exception (List Node) ℕ := do
  let node ← readNodeIn nodeIndex
  if h : node.count < historyCapacity then do
    (liftM (writeSlot nodeIndex ⟨node.count + 1, node.history.set node.count state⟩ :
      ArenaM Node Unit) : AllocM Unit Exception (List Node) Unit)
    return nodeIndex
  else pushBackIn A (.fresh state)

def update (A : Allocator)
    (nodeIndex version segmentLeft segmentRight queryLeft queryRight : ℕ) (value : ValueType) :
    AllocM Unit Exception (List Node) ℕ := do
  let next ← latestState (← readNodeIn nodeIndex)
  let length ← segmentLength segmentLeft segmentRight
  if queryLeft ≤ segmentLeft ∧ segmentRight ≤ queryRight then do
    let sum ← SumAddPolicy.apply value next.sum length
    let lazy ← checkedAdd next.lazy value
    record A nodeIndex ⟨version, next.leftChild, next.rightChild, sum, lazy⟩
  else if segmentLeft < segmentRight then do
    let middle := Segment.midpoint segmentLeft segmentRight
    let leftChild ← (if queryLeft ≤ middle then
      update A next.leftChild version segmentLeft middle queryLeft queryRight value
      else pure next.leftChild)
    let rightChild ← (if queryRight > middle then
      update A next.rightChild version (middle + 1) segmentRight queryLeft queryRight value
      else pure next.rightChild)
    let leftState ← latestState (← readNodeIn leftChild)
    let rightState ← latestState (← readNodeIn rightChild)
    let childSum ← checkedAdd leftState.sum rightState.sum
    let sum ← SumAddPolicy.apply next.lazy childSum length
    record A nodeIndex ⟨version, leftChild, rightChild, sum, next.lazy⟩
  else throw (.thrown .undefined)
termination_by segmentRight - segmentLeft
decreasing_by all_goals (simp only [Segment.midpoint] at *; omega)

/-- How much more than the requested room the vectors get is the allocator's choice, which covers
the doubling of the source. -/
def reserveForUpdate (A : Allocator) (this : State) : AllocM TreeVector Exception State Unit := do
  FatNodePersistentSegmentTree.reserveForUpdate this
  A.room .nodes fun s => s.nodes.length + 4 * (s.treeHeight + 1)
  A.room .roots fun s => s.roots.length + 1

/-- The part of a range addition that may request memory. -/
def prepareUpdate (A : Allocator) (this : State) (latestRoot left right : ℕ) (value : ValueType) :
    AllocM TreeVector Exception State SumAddDomainGuard := do
  let nextDomain ← this.numericDomain.preflightStored A this.arraySize left right value
    fun values => materialize this.nodes latestRoot 0 (this.arraySize - 1) 0 values
  let _ ← validateUpdate this.nodes latestRoot 0 (this.arraySize - 1) left right value
  reserveForUpdate A this
  return nextDomain

/-- The part that appends states. -/
def publishUpdate (A : Allocator) (this : State) (latestRoot left right : ℕ) (value : ValueType)
    (nextDomain : SumAddDomainGuard) : AllocM TreeVector Exception State ℕ := do
  let version := this.roots.length
  let newRoot ← onVector .nodes State.nodes (fun nodes s => { s with nodes := nodes })
    (update A latestRoot version 0 (this.arraySize - 1) left right value)
  A.oneMore .roots State.roots
  modifyThe State fun s =>
    { s with roots := s.roots ++ [newRoot], numericDomain := nextDomain }
  return version

/-- The new vectors take the place of the old ones when both are complete. -/
def initializeFrom (A : Allocator) (values : List ValueType) :
    AllocM TreeVector Exception State Unit := do
  let newNumericDomain := SumAddDomainGuard.ofValues values
  if values = [] then do
    let newRoots ← A.request 1
    swapIn ⟨[], [noNode], 0, newNumericDomain, 0⟩ fun
      | _, .nodes => 0
      | _, .roots => newRoots
  else do
    let nodeCount ← canonicalNodeCount values.length
    checkVectorLength "vector::reserve" 128 nodeCount
    let nodeCapacity ← A.request nodeCount
    let (root, newNodes) ← Effect.onLocal (build values 0 (values.length - 1)) []
    let newRoots ← A.request 1
    let height ← treeHeight values.length
    swapIn ⟨newNodes, [root], values.length, newNumericDomain, height⟩ fun
      | _, .nodes => nodeCapacity
      | _, .roots => newRoots

def rangeAdd (A : Allocator) (left right : ℕ) (value : ValueType) :
    AllocM TreeVector Exception State ℕ := do
  let this ← getThe State
  validateInitialized this.roots.length
  validateNonEmpty this.arraySize
  validateRange this.arraySize left right
  let latestRoot ← vectorAt this.roots (this.roots.length - 1)
  if value = 0 then do
    A.oneMore .roots State.roots
    modifyThe State fun s => { s with roots := s.roots ++ [latestRoot] }
    return (← getThe State).roots.length - 1
  else do
    let nextDomain ← prepareUpdate A this latestRoot left right value
    publishUpdate A this latestRoot left right value nextDomain

/-! ## Without failed requests -/

section Follows

variable (A : Allocator) (i v lo hi l r : ℕ) (value : ValueType)

theorem record_follows (state : Modification) :
    Follows (record A i state) (FatNodePersistentSegmentTree.record i state) := by
  refine .bind (readNodeIn_follows i) fun node => .dite (fun _ => ?_) fun _ => ?_
  · exact .bind (.lift _) fun _ => .pure _
  · exact pushBackIn_follows A _

theorem update_follows : Follows (update A i v lo hi l r value)
    (FatNodePersistentSegmentTree.update i v lo hi l r value) := by
  induction hk : hi - lo using Nat.strong_induction_on generalizing i lo hi with
  | _ k ih =>
    rw [update, FatNodePersistentSegmentTree.update]
    refine .bind (readNodeIn_follows i) fun node => .bind (.except _) fun next =>
      .bind (.except _) fun length => .ite (fun _ => ?_) fun _ => .ite (fun hlt => ?_)
        fun _ => .throw _
    · exact .bind (.except _) fun sum => .bind (.except _) fun lazy => record_follows A _ _
    · have h1 := Segment.le_midpoint lo hi
      have h2 := Segment.midpoint_lt hlt
      refine .bind (.ite (fun _ => ih _ ?_ _ _ _ rfl) fun _ => .pure _) fun j =>
        .bind (.ite (fun _ => ih _ ?_ _ _ _ rfl) fun _ => .pure _) fun k =>
          .bind (readNodeIn_follows j) fun _ => .bind (.except _) fun _ =>
            .bind (readNodeIn_follows k) fun _ => .bind (.except _) fun _ =>
              .bind (.except _) fun _ => .bind (.except _) fun _ => record_follows A _ _
      · omega
      · omega

theorem initializeFrom_follows (values : List ValueType) :
    Follows (initializeFrom A values) (FatNodePersistentSegmentTree.initializeFrom values) :=
  .ite (fun _ => .prepare_bind (.request _) fun _ => .swapIn _ _) fun _ =>
    .bind (.except _) fun _ => .bind (.except _) fun _ => .prepare_bind (.request _) fun _ =>
      .bind (.except _) fun _ => .prepare_bind (.request _) fun _ => .bind (.except _) fun _ =>
        .swapIn _ _

theorem reserveForUpdate_follows (this : State) : Follows (reserveForUpdate A this)
    (liftM (FatNodePersistentSegmentTree.reserveForUpdate this)) :=
  .bind_prepare (.except _) (.bind (.room _ _) fun _ => .room _ _)

theorem rangeAdd_follows :
    Follows (rangeAdd A l r value) (FatNodePersistentSegmentTree.rangeAdd l r value) := by
  refine .bind (.lift _) fun this => .bind (.except _) fun _ => .bind (.except _) fun _ =>
    .bind (.except _) fun _ => .bind (.except _) fun root => .ite (fun _ => ?_) fun _ => ?_
  · exact .prepare_bind (.room _ _) fun _ => .bind (.lift _) fun _ => .bind (.lift _) fun _ =>
      .pure _
  · unfold prepareUpdate
    simp only [bind_assoc, pure_bind]
    refine .bind SumAddDomainGuard.preflightStored_follows fun domain => .bind (.except _) fun _ =>
      .bind (reserveForUpdate_follows A this) fun _ => ?_
    exact .bind ((update_follows A _ _ _ _ _ _ _).onVector _ _ _) fun _ =>
      .prepare_bind (.room _ _) fun _ => .bind (.lift _) fun _ => .pure _

end Follows

/-- The structure and its writing operations. -/
def engine : AllocatingEngine FatNodePersistentSegmentTree.engine TreeVector where
  initializeFrom := initializeFrom
  rangeAdd := rangeAdd
  initialize_follows := initializeFrom_follows
  rangeAdd_follows := rangeAdd_follows

/-! ## Reserved room -/

section Room

variable (A : Allocator) (i v lo hi l r : ℕ) (value : ValueType)

/-- A state needs room for one node, if its node is full. -/
theorem record_fits (state : Modification) : Fits 1 (record A i state) := by
  refine .bind_read (readNodeIn_fits i) fun node => ?_
  by_cases h : node.count < historyCapacity
  · rw [dif_pos h]
    exact .mono (.bind_read (.lift (writeSlot_length _ _)) fun _ => .pure _) (Nat.zero_le 1)
  · rw [dif_neg h]
    exact pushBackIn_fits A _

/-- An update needs room for the nodes it visits. -/
theorem update_fits : Fits (Segment.visits lo hi l r) (update A i v lo hi l r value) := by
  induction hk : hi - lo using Nat.strong_induction_on generalizing i lo hi with
  | _ k ih =>
    rw [update]
    refine .bind_read (readNodeIn_fits i) fun node => .bind_read (.except _) fun next =>
      .bind_read (.except _) fun length => .ite (fun hin => ?_) fun hin => .ite (fun hlt => ?_)
        fun _ => .mono (.throw _) (Nat.zero_le _)
    · rw [Segment.visits_of_inside hin]
      exact .bind_read (.except _) fun sum => .bind_read (.except _) fun lazy => record_fits A _ _
    · have h1 := Segment.le_midpoint lo hi
      have h2 := Segment.midpoint_lt hlt
      rw [Segment.visits_split hin hlt]
      refine .mono (.bind (.optional fun _ => ih _ ?_ _ _ _ rfl) fun j =>
        .bind (.optional fun _ => ih _ ?_ _ _ _ rfl) fun k => .bind_read (readNodeIn_fits j)
          fun _ => .bind_read (.except _) fun _ => .bind_read (readNodeIn_fits k)
            fun _ => .bind_read (.except _) fun _ => .bind_read (.except _)
              fun _ => .bind_read (.except _) fun _ => record_fits A _ _) ?_
      · omega
      · omega
      · omega

/-- No range visits more than four nodes a level. -/
theorem visits_le_reserved {n : ℕ} (h1 : l ≤ r) (h2 : r < n) :
    Segment.visits 0 (n - 1) l r ≤ 4 * (Nat.clog 2 n + 1) := by
  have hheight : Segment.height 0 (n - 1) = Nat.clog 2 n := by
    rw [Segment.height, Segment.length, Nat.sub_zero, Nat.sub_add_cancel (by omega)]
  rcases Nat.eq_zero_or_pos (n - 1) with h0 | hpos
  · rw [Segment.visits_of_inside (by omega)]
    omega
  by_cases hend : l = 0 ∨ r = n - 1
  · have := Segment.visits_le_of_end hpos (Nat.zero_le l) h1 (by omega) hend
    omega
  · have := Segment.visits_le_of_inner (show 0 < l by omega) h1 (show r < n - 1 by omega)
    omega

/-- What the reservation guarantees: the state is as it was, and there is room. -/
def Reserved (this : State) (t : Allocated TreeVector State) : Prop :=
  t.state = this ∧ this.nodes.length + 4 * (this.treeHeight + 1) ≤ t.capacity .nodes ∧
    this.roots.length + 1 ≤ t.capacity .roots

theorem reserveForUpdate_cases (s : Allocated TreeVector State) :
    (∃ f t, reserveForUpdate A s.state s = .error f t ∧ t.state = s.state) ∨
      ∃ t, reserveForUpdate A s.state s = .ok () t ∧ Reserved s.state t := by
  unfold reserveForUpdate
  rcases FatNodePersistentSegmentTree.reserveForUpdate s.state with e | ⟨⟩
  · exact .inl ⟨_, s, rfl, rfl⟩
  rw [Effect.run_bind_ok (except_ok _ s)]
  rcases room_cases Exception A .nodes (fun s : State => s.nodes.length + 4 * (s.treeHeight + 1)) s
    with ⟨t, h1, hs⟩ | ⟨t, h1, hs, hnodes, -⟩
  · exact .inl ⟨_, t, by rw [Effect.run_bind_error h1], hs⟩
  rw [Effect.run_bind_ok h1]
  rcases room_cases Exception A .roots (fun s : State => s.roots.length + 1) t
    with ⟨u, h2, hu⟩ | ⟨u, h2, hu, hroots, hothers⟩
  · exact .inl ⟨_, u, h2, hu.trans hs⟩
  · refine .inr ⟨u, h2, hu.trans hs, ?_, hs ▸ hroots⟩
    rw [hothers .nodes nofun]
    exact hnodes

/-- **Preparation.** It throws and leaves the state as it was, or it reserves. -/
theorem prepareUpdate_cases (root : ℕ) (s : Allocated TreeVector State) :
    (∃ f t, prepareUpdate A s.state root l r value s = .error f t ∧ t.state = s.state) ∨
      ∃ domain t, prepareUpdate A s.state root l r value s = .ok domain t ∧
        Reserved s.state t := by
  unfold prepareUpdate
  have hread : OnState Eq s (Effect.finalState (s.state.numericDomain.preflightStored A
      s.state.arraySize l r value
      (fun values => materialize s.state.nodes root 0 (s.state.arraySize - 1) 0 values) s)) :=
    SumAddDomainGuard.preflightStored_reads s
  rcases h1 : s.state.numericDomain.preflightStored A s.state.arraySize l r value
    (fun values => materialize s.state.nodes root 0 (s.state.arraySize - 1) 0 values) s with
    ⟨domain, s₁⟩ | ⟨f, s₁⟩ <;> rw [h1] at hread
  swap
  · exact .inl ⟨f, s₁, by rw [Effect.run_bind_error h1], hread.symm⟩
  have hs₁ : s.state = s₁.state := hread
  rw [Effect.run_bind_ok h1]
  rcases validateUpdate s.state.nodes root 0 (s.state.arraySize - 1) l r value with e | w
  · exact .inl ⟨.thrown e, s₁, rfl, hs₁.symm⟩
  rw [Effect.run_bind_ok (except_ok w s₁), hs₁]
  rcases reserveForUpdate_cases A s₁ with ⟨f, t, h2, ht⟩ | ⟨t, h2, ht⟩
  · exact .inl ⟨f, t, by rw [Effect.run_bind_error h2], ht⟩
  · exact .inr ⟨domain, t, by rw [Effect.run_bind_ok h2]; rfl, ht⟩

/-- **Publication.** In the reserved room it makes no request. -/
theorem publishUpdate_fits {this : State} {t : Allocated TreeVector State} (root : ℕ)
    (domain : SumAddDomainGuard) (ht : Reserved this t) (h1 : l ≤ r) (h2 : r < this.arraySize)
    (hheight : this.treeHeight = Nat.clog 2 this.arraySize) :
    (∀ u, publishUpdate A this root l r value domain t ≠ .error .badAlloc u) ∧
      (Effect.finalState (publishUpdate A this root l r value domain t)).requests = t.requests ∧
      (Effect.finalState (publishUpdate A this root l r value domain t)).capacity = t.capacity := by
  obtain ⟨rfl, hnodes, hroots⟩ := ht
  have hvisits := visits_le_reserved l r h1 h2
  rw [← hheight] at hvisits
  have hfits := (update_fits A root t.state.roots.length 0 (t.state.arraySize - 1) l r value).mono
    hvisits
  obtain ⟨k1, k2, k3⟩ := hfits.onVector TreeVector.nodes State.nodes
    (fun nodes s => { s with nodes := nodes }) hnodes
  unfold publishUpdate
  rcases hr : onVector TreeVector.nodes State.nodes (fun nodes s => { s with nodes := nodes })
    (update A root t.state.roots.length 0 (t.state.arraySize - 1) l r value) t with
    ⟨j, u⟩ | ⟨f, u⟩ <;> rw [hr] at k1 k2 k3
  swap
  · rw [Effect.run_bind_error hr]
    exact ⟨fun v hv => k1 u (by cases hv; rfl), k2, k3⟩
  rw [Effect.run_bind_ok hr]
  have hu : OnState (fun s s' : State => s'.roots = s.roots) t (Effect.finalState (onVector
      TreeVector.nodes State.nodes (fun nodes s => { s with nodes := nodes })
      (update A root t.state.roots.length 0 (t.state.arraySize - 1) l r value) t)) :=
    within_onVector (S := fun _ _ => True) (R := fun s s' : State => s'.roots = s.roots)
      (fun _ => trivial) .nodes State.nodes (fun nodes s => { s with nodes := nodes })
      (fun _ _ _ => rfl) t
  rw [hr] at hu
  have hroom : (A.oneMore .roots State.roots : AllocM TreeVector Exception State Unit) u =
      .ok () u := room_of_le (by
    have hcap : u.capacity .roots = t.capacity .roots := congrFun k3 _
    rw [hcap, show u.state.roots = t.state.roots from hu]
    exact hroots)
  rw [Effect.run_bind_ok hroom]
  exact ⟨nofun, k2, k3⟩

/-- **Failed requests.** Wherever one fails, the tree is as it was. -/
theorem rangeAdd_failsIn {this : State} (hmeasured : Measured this) :
    FailsIn (rangeAdd A l r value) this (this = ·) := by
  refine .bind_get (.bind_except fun _ _ => .bind_except fun _ hne => .bind_except fun _ hlr =>
    .bind_except fun root _ => .ite (fun _ => ?_) fun _ => ?_)
  · exact .bind_prepares (.room _ _) rfl fun _ => NeverFails.failsIn
      (.bind (.lift _) fun _ => .bind (.lift _) fun _ => .pure _) _ _
  rintro s t rfl h
  obtain ⟨h1, h2⟩ := validateRange_eq_ok.mp hlr
  rcases prepareUpdate_cases A l r value root s with ⟨f, u, hp, hu⟩ | ⟨domain, u, hp, hu⟩
  · rw [Effect.run_bind_error hp] at h
    cases h
    exact hu.symm
  · rw [Effect.run_bind_ok hp] at h
    exact absurd h ((publishUpdate_fits A l r value root domain hu h1 h2
      (hmeasured (validateNonEmpty_eq_ok.mp hne))).1 t)

theorem initializeFrom_failsIn (values : List ValueType) (this : State) :
    FailsIn (initializeFrom A values) this (this = ·) := by
  refine .ite (fun _ => ?_) fun _ => ?_
  · exact .bind_prepares (.request _) rfl fun _ => NeverFails.failsIn (.swapIn _ _) _ _
  · exact .bind_except fun _ _ => .bind_except fun _ _ => .bind_prepares (.request _) rfl
      fun _ => .bind_except fun _ _ => .bind_prepares (.request _) rfl fun _ =>
        .bind_except fun _ _ => NeverFails.failsIn (.swapIn _ _) _ _

end Room

/-! ## The strong guarantee -/

/-- The state stores valid trees, or none, and their height. -/
def Sound (s : State) : Prop := (∃ o, simulation.Inv (s, o)) ∧ Measured s

theorem Sound.rangeAdd_error {s s' : State} {l r : ℕ} {value : ValueType} {e : Exception}
    (h : Sound s) (hx : FatNodePersistentSegmentTree.rangeAdd l r value s = .error e s') :
    s = s' := by
  obtain ⟨⟨o, ⟨-, hfresh⟩ | ⟨h, m, -, -, hs, hv⟩⟩, -⟩ := h
  · rw [rangeAdd_fresh hfresh] at hx
    cases hx
    rfl
  · rcases rangeAdd_outcome hs hv l r value with ⟨m', s'', -, hr, -⟩ | ⟨e', hr, -⟩ <;>
      rw [hr] at hx <;> cases hx
    rfl

theorem run_sound (A : Allocator) (calls : List (Call (List ValueType))) :
    Sound (engine.run A calls).state :=
  AllocatingEngine.run_induction (P := Sound)
    ⟨⟨none, .inl ⟨rfl, simulation.empty⟩⟩, fun h => absurd h (lt_irrefl 0)⟩
    (fun a s hs => ⟨simulation.exists_inv.1 a s hs.1, initializeFrom_measured hs.2 a⟩)
    (fun l r value s hs =>
      ⟨simulation.exists_inv.2 l r value s hs.1, rangeAdd_measured hs.2 l r value⟩)
    (fun a s hs => (initializeFrom_failsIn A a s).mono fun _ h => h ▸ hs)
    (fun l r value _ hs => (rangeAdd_failsIn A l r value hs.2).mono fun _ h => h ▸ hs)
    calls

/-- **The strong guarantee.** -/
theorem strong : engine.Strong Eq :=
  AllocatingEngine.strong_of run_sound Sound.rangeAdd_error
    fun A l r value _ hs => rangeAdd_failsIn A l r value hs.2

/-- **Nothing to fail.** Once an addition is prepared, its publication makes no request and moves
no vector. -/
theorem publishes_in_place (A : Allocator) (calls : List (Call (List ValueType))) {l r root : ℕ}
    {value : ValueType} {domain : SumAddDomainGuard} {t : Allocated TreeVector State}
    (h1 : l ≤ r) (h2 : r < (engine.run A calls).state.arraySize)
    (hp : prepareUpdate A (engine.run A calls).state root l r value (engine.run A calls) =
      .ok domain t) :
    (∀ u, publishUpdate A (engine.run A calls).state root l r value domain t ≠
        .error .badAlloc u) ∧
      (Effect.finalState (publishUpdate A (engine.run A calls).state root l r value domain
        t)).requests = t.requests ∧
      (Effect.finalState (publishUpdate A (engine.run A calls).state root l r value domain
        t)).capacity = t.capacity := by
  have hmeasured := (run_sound A calls).2 (Nat.zero_lt_of_lt h2)
  rcases prepareUpdate_cases A l r value root (engine.run A calls) with
    ⟨f, u, hu, -⟩ | ⟨domain', u, hu, hreserved⟩ <;> rw [hu] at hp <;> cases hp
  exact publishUpdate_fits A l r value root domain hreserved h1 h2 hmeasured

end FatNodePersistentSegmentTree.Allocating

end Valseg
