import Valseg.StampedArena
import Valseg.Slots
import Valseg.NumericDomain

/-!
# FatNodePersistentSegmentTree

`fat_node_persistent_segment_tree.cpp`: a node holds up to three states, each stamped with the
version that made it. An update appends a state to every node it visits, in place; a node that is
full is left as it is and a fresh node takes its place in the new state of its parent.

1. `stamping`: the stamp search reads a node as of a version, whatever later versions append.
2. `update_amends`: an update stores the tree of the next version and keeps all others.
3. `versions_kept` puts exactness, isolation and the failed additions together.
-/

namespace Valseg


namespace FatNodePersistentSegmentTree

/-- One stamped state of a node. -/
structure Modification where
  version : ℕ
  leftChild : ℕ
  rightChild : ℕ
  sum : ValueType
  lazy : ValueType
  deriving DecidableEq, Repr

/-- `HISTORY_CAPACITY`. -/
abbrev historyCapacity : ℕ := 3

/-- A node; `history[0 .. count)` are its states. -/
structure Node where
  count : ℕ
  history : Vector Modification historyCapacity
  deriving DecidableEq, Repr

/-- The states of a node. -/
def Node.states (node : Node) : List Modification := node.history.toList.take node.count

/-- `Node{}` with its first state. -/
def Node.fresh (state : Modification) : Node where
  count := 1
  history := (Vector.replicate historyCapacity ⟨0, 0, 0, 0, 0⟩).set 0 state

/-- The state of the tree. -/
structure State where
  nodes : List Node
  roots : List ℕ
  arraySize : ℕ
  numericDomain : SumAddDomainGuard
  treeHeight : ℕ
  deriving DecidableEq, Repr

def segmentLength (segmentLeft segmentRight : ℕ) : Except Exception ℕ :=
  inclusiveLength segmentLeft segmentRight

/-- The first state stamped after the version, where `std::upper_bound` ends. -/
def upperBound (states : List Modification) (version : ℕ) : ℕ :=
  states.findIdx fun state => version < state.version

def stateAt (node : Node) (version : ℕ) : Except Exception Modification :=
  let after := upperBound node.states version
  if after = 0 then .error .undefined else vectorAt node.states (after - 1)

def latestState (node : Node) : Except Exception Modification :=
  if node.count = 0 then .error .undefined else vectorAt node.history.toList (node.count - 1)

/-- Nodes are read as of a version. -/
def readingAt (version : ℕ) : NodeReading Node where
  state node := do
    let current ← stateAt node version
    return (current.sum, current.lazy)
  childrenOf node := do
    let current ← stateAt node version
    return (current.leftChild, current.rightChild)

/-- Nodes are read in their latest states. -/
def latestReading : NodeReading Node where
  state node := do
    let current ← latestState node
    return (current.sum, current.lazy)
  childrenOf node := do
    let current ← latestState node
    return (current.leftChild, current.rightChild)

def build : List ValueType → (segmentLeft segmentRight : ℕ) → ArenaM Node ℕ :=
  buildArena (fun value => .fresh ⟨0, noNode, noNode, value, 0⟩)
    (fun leftRoot rightRoot sum => .fresh ⟨0, leftRoot, rightRoot, sum, 0⟩)
    fun node => node.history[0].sum

def record (nodeIndex : ℕ) (state : Modification) : ArenaM Node ℕ := do
  let node ← readNode nodeIndex
  if h : node.count < historyCapacity then do
    writeSlot nodeIndex ⟨node.count + 1, node.history.set node.count state⟩
    return nodeIndex
  else pushBack (.fresh state)

def validateUpdate (nodes : List Node) :
    (nodeIndex segmentLeft segmentRight queryLeft queryRight : ℕ) → ValueType →
      Except Exception ValueType := (latestReading.on nodes).validateUpdate

def update (nodeIndex version segmentLeft segmentRight queryLeft queryRight : ℕ)
    (value : ValueType) : ArenaM Node ℕ := do
  let next ← latestState (← readNode nodeIndex)
  let length ← segmentLength segmentLeft segmentRight
  if queryLeft ≤ segmentLeft ∧ segmentRight ≤ queryRight then do
    let sum ← SumAddPolicy.apply value next.sum length
    let lazy ← checkedAdd next.lazy value
    record nodeIndex ⟨version, next.leftChild, next.rightChild, sum, lazy⟩
  else if segmentLeft < segmentRight then do
    let middle := Segment.midpoint segmentLeft segmentRight
    let leftChild ← (if queryLeft ≤ middle then
      update next.leftChild version segmentLeft middle queryLeft queryRight value
      else pure next.leftChild)
    let rightChild ← (if queryRight > middle then
      update next.rightChild version (middle + 1) segmentRight queryLeft queryRight value
      else pure next.rightChild)
    let leftState ← latestState (← readNode leftChild)
    let rightState ← latestState (← readNode rightChild)
    let sum ← SumAddPolicy.apply next.lazy (← checkedAdd leftState.sum rightState.sum) length
    record nodeIndex ⟨version, leftChild, rightChild, sum, next.lazy⟩
  else throw .undefined
termination_by segmentRight - segmentLeft
decreasing_by all_goals (simp only [Segment.midpoint] at *; omega)

def query (nodes : List Node) (version : ℕ) :
    (nodeIndex segmentLeft segmentRight queryLeft queryRight : ℕ) → (inheritedLazy : ValueType) →
      Except Exception ValueType := ((readingAt version).on nodes).query

def materialize (nodes : List Node) : (nodeIndex segmentLeft segmentRight : ℕ) →
    (inheritedLazy : ValueType) → List ValueType → Except Exception (List ValueType) :=
  (latestReading.on nodes).materialize

/-- The checks of the reservation. They do not depend on the capacity, which is at most the
maximal size: a reservation within the capacity throws nothing, and neither do they. -/
def reserveForUpdate (this : State) : Except Exception Unit := do
  let visitLimit ← checkedSizeMultiply 4 (← checkedSizeAdd this.treeHeight 1)
  let required ← checkedSizeAdd this.nodes.length visitLimit
  checkVectorLength "vector::reserve" 128 required

def initializeFrom (values : List ValueType) : EStateM Exception State Unit := do
  let newNumericDomain := SumAddDomainGuard.ofValues values
  if values = [] then set (⟨[], [noNode], 0, newNumericDomain, 0⟩ : State)
  else do
    let nodeCount ← canonicalNodeCount values.length
    checkVectorLength "vector::reserve" 128 nodeCount
    let (root, newNodes) ← Effect.onLocal (build values 0 (values.length - 1)) []
    let height ← treeHeight values.length
    set (⟨newNodes, [root], values.length, newNumericDomain, height⟩ : State)

def rangeAdd (left right : ℕ) (value : ValueType) : EStateM Exception State ℕ := do
  let this ← get
  validateInitialized this.roots.length
  validateNonEmpty this.arraySize
  validateRange this.arraySize left right
  let latestRoot ← vectorAt this.roots (this.roots.length - 1)
  if value = 0 then do
    modify fun s => { s with roots := s.roots ++ [latestRoot] }
    return (← get).roots.length - 1
  else do
    let nextDomain ← this.numericDomain.preflight this.arraySize left right value
      fun values => materialize this.nodes latestRoot 0 (this.arraySize - 1) 0 values
    let _ ← validateUpdate this.nodes latestRoot 0 (this.arraySize - 1) left right value
    reserveForUpdate this
    let version := this.roots.length
    let newRoot ← Effect.zoom State.nodes (fun nodes s => { s with nodes := nodes })
      (update latestRoot version 0 (this.arraySize - 1) left right value)
    modify fun s => { s with roots := s.roots ++ [newRoot], numericDomain := nextDomain }
    return version

def rangeSum (this : State) (version left right : ℕ) : Except Exception ValueType := do
  validateInitialized this.roots.length
  validateVersion version this.roots.length
  validateNonEmpty this.arraySize
  validateRange this.arraySize left right
  let root ← vectorAt this.roots version
  query this.nodes version root 0 (this.arraySize - 1) left right 0

def versionCount (this : State) : ℕ := this.roots.length

/-- The structure and its writing operations. -/
def engine : Engine (List ValueType) ℕ State where
  empty := ⟨[], [], 0, {}, 0⟩
  values := id
  initializeFrom := initializeFrom
  rangeAdd := rangeAdd

/-! ## The stamp search -/

section Stamps

variable {node node' : Node} {version v w : ℕ} {state : Modification}

/-- No state is stamped after the version, and there is one. -/
def Recent (version : ℕ) (node : Node) : Prop :=
  (0 < node.count ∧ node.count ≤ historyCapacity) ∧ ∀ state ∈ node.states, state.version ≤ version

/-- States stamped with the version were appended. -/
def Amends (version : ℕ) (node node' : Node) : Prop :=
  ∃ more, node'.states = node.states ++ more ∧ ∀ state ∈ more, state.version = version

theorem states_length (h : node.count ≤ historyCapacity) : node.states.length = node.count := by
  unfold Node.states
  rw [List.length_take, Vector.length_toList]
  omega

/-- A node is read in its latest state as of every version from its last stamp on. -/
theorem stateAt_of_recent (h : Recent v node) (hw : v ≤ w) : stateAt node w = latestState node := by
  obtain ⟨⟨hpos, hle⟩, hall⟩ := h
  have hlen := states_length hle
  have hub : upperBound node.states w = node.count := by
    rw [← hlen]
    refine List.findIdx_eq_length_of_false fun state hs => ?_
    simpa using (hall state hs).trans hw
  unfold stateAt latestState
  rw [hub, if_neg hpos.ne', if_neg hpos.ne']
  unfold vectorAt Node.states
  rw [List.getElem?_take_of_lt (by omega)]

/-- What later versions append is not found. -/
theorem stateAt_of_amends (h : Amends w node node') (hv : v < w) :
    stateAt node' v = stateAt node v := by
  obtain ⟨more, hmore, hall⟩ := h
  have hub : upperBound node'.states v = upperBound node.states v := by
    unfold upperBound
    rw [hmore, List.findIdx_append]
    split_ifs with hlt
    · rfl
    · have hend : node.states.findIdx (fun state => decide (v < state.version)) =
          node.states.length := le_antisymm List.findIdx_le_length (not_lt.mp hlt)
      rw [hend]
      cases more with
      | nil => simp
      | cons state more =>
        have hst := hall state List.mem_cons_self
        rw [List.findIdx_cons]
        simp [hst, hv]
  unfold stateAt
  rw [hub]
  have hle : upperBound node.states v ≤ node.states.length := List.findIdx_le_length
  refine ite_congr rfl (fun _ => rfl) fun hne => ?_
  unfold vectorAt
  rw [hmore, List.getElem?_append_left (by omega)]

/-- **Stamps.** -/
def stamping : Stamping Node where
  reading := readingAt
  recent := Recent
  amends := Amends
  amends_refl _ node := ⟨[], (List.append_nil _).symm, fun _ h => nomatch h⟩
  amends_trans := by
    rintro v a b c ⟨more, h1, h2⟩ ⟨more', h3, h4⟩
    refine ⟨more ++ more', by rw [h3, h1, List.append_assoc], fun state hs => ?_⟩
    rcases List.mem_append.mp hs with hs | hs
    · exact h2 state hs
    · exact h4 state hs
  recent_mono hvw h := ⟨h.1, fun state hs => (h.2 state hs).trans hvw⟩
  recent_state hvw h := by
    simp only [readingAt, stateAt_of_recent h hvw, stateAt_of_recent h le_rfl]
  recent_children hvw h := by
    simp only [readingAt, stateAt_of_recent h hvw, stateAt_of_recent h le_rfl]
  amends_state hvw h := by simp only [readingAt, stateAt_of_amends h hvw]
  amends_children hvw h := by simp only [readingAt, stateAt_of_amends h hvw]

/-- A node with a free slot has one state more. -/
theorem states_append (state : Modification) (h : node.count < historyCapacity) :
    Node.states ⟨node.count + 1, node.history.set node.count state⟩ = node.states ++ [state] := by
  have hlen : node.count < node.history.toList.length := by rw [Vector.length_toList]; exact h
  unfold Node.states
  rw [Vector.toList_set, List.take_add_one, List.take_set_of_le le_rfl,
    List.getElem?_set_self hlen]
  rfl

theorem states_fresh : (Node.fresh state).states = [state] := rfl

theorem recent_fresh (h : state.version ≤ v) : Recent v (Node.fresh state) :=
  ⟨⟨Nat.one_pos, show 1 ≤ 3 by decide⟩, fun x hx => by
    rw [states_fresh, List.mem_singleton] at hx
    exact hx ▸ h⟩

/-- A node is read in a state it ends with. -/
theorem readingAt_last {states : List Modification} (hr : Recent v node)
    (hs : node.states = states ++ [state]) :
    (readingAt v).state node = .ok (state.sum, state.lazy) ∧
      (readingAt v).childrenOf node = .ok (state.leftChild, state.rightChild) := by
  have hcount := states_length hr.1.2
  rw [hs, List.length_append, List.length_singleton] at hcount
  have hlast : latestState node = .ok state := by
    unfold latestState
    rw [if_neg hr.1.1.ne', vectorAt_eq_ok]
    have hget : node.states[node.count - 1]? = some state := by
      rw [hs, ← hcount, Nat.add_sub_cancel, List.getElem?_concat_length]
    rw [← hget]
    unfold Node.states
    rw [List.getElem?_take_of_lt (by omega)]
  simp only [readingAt, stateAt_of_recent hr le_rfl, hlast]
  exact ⟨rfl, rfl⟩

/-- **Recording.** A state of the version is appended, or a fresh node has it. -/
theorem record_spec {nodes : List Node} {i l r : ℕ} {s z : ValueType}
    (hn : nodes[i]? = some node) (hr : Recent v node) :
    ∃ j nodes', record i ⟨v, l, r, s, z⟩ nodes = .ok j nodes' ∧
      stamping.Recorded v nodes nodes' i j s z (.ok (l, r)) := by
  have hi := (List.getElem?_eq_some_iff.mp hn).1
  unfold record
  rw [Effect.run_bind_ok (readNode_run hn)]
  by_cases hlt : node.count < historyCapacity
  · have hstates := states_append ⟨v, l, r, s, z⟩ hlt
    have hrec : Recent v ⟨node.count + 1, node.history.set node.count ⟨v, l, r, s, z⟩⟩ := by
      refine ⟨⟨Nat.succ_pos _, hlt⟩, fun x hx => ?_⟩
      rw [hstates, List.mem_append, List.mem_singleton] at hx
      rcases hx with hx | rfl
      · exact hr.2 x hx
      · exact le_rfl
    obtain ⟨hs, hc⟩ := readingAt_last hrec hstates
    rw [dif_pos hlt, Effect.run_bind_ok (writeSlot_run hi)]
    refine ⟨i, _, rfl, _, hs, hc, hrec, .inl ⟨rfl, rfl, fun old hold => ?_⟩⟩
    rw [hn, Option.some.injEq] at hold
    subst hold
    exact ⟨[_], hstates, fun x hx => by rw [List.mem_singleton.mp hx]⟩
  · have hfresh : (Node.fresh ⟨v, l, r, s, z⟩).states = [] ++ [⟨v, l, r, s, z⟩] := rfl
    obtain ⟨hs, hc⟩ := readingAt_last (recent_fresh le_rfl) hfresh
    rw [dif_neg hlt, pushBack_run]
    exact ⟨_, _, rfl, _, hs, hc, recent_fresh le_rfl, .inr ⟨rfl, rfl⟩⟩

end Stamps

/-! ## One update -/

section Update

variable {nodes : List Node} {types : List (ℕ × ℕ)} {t : SumTree} {v i lo hi l r : ℕ}
  {value : ValueType}

theorem build_reads : BuildReads (readingAt 0)
    (fun value => Node.fresh ⟨0, noNode, noNode, value, 0⟩)
    (fun leftRoot rightRoot sum => .fresh ⟨0, leftRoot, rightRoot, sum, 0⟩)
    fun node => node.history[0].sum where
  leaf_state _ := rfl
  inner_state _ _ _ := rfl
  inner_children _ _ _ := rfl
  leaf_sum _ := rfl
  inner_sum _ _ _ := rfl

/-- A stored root is read in its latest state. -/
theorem exists_state (hr : ∀ node ∈ nodes, Recent v node)
    (h : ((readingAt v).on nodes).Stores (typed types) t i lo hi) :
    ∃ node state, nodes[i]? = some node ∧ Recent v node ∧ latestState node = .ok state ∧
      (readingAt v).childrenOf node = .ok (state.leftChild, state.rightChild) ∧
      state.sum = t.sum ∧ state.lazy = t.tag := by
  obtain ⟨node, hn, hs⟩ := NodeReading.exists_of_stores h
  have hrec := hr node (List.mem_of_getElem? hn)
  simp only [readingAt, stateAt_of_recent hrec le_rfl] at hs
  obtain ⟨state, hlast, hs⟩ := Effect.bind_eq_ok.mp hs
  simp only [pure, Except.pure, Except.ok.injEq, Prod.mk.injEq] at hs
  refine ⟨node, state, hn, hrec, hlast, ?_, hs.1, hs.2⟩
  simp only [readingAt, stateAt_of_recent hrec le_rfl, hlast]
  rfl

/-- A covered segment. -/
theorem cover_amends {node : Node} {state : Modification} (value : ValueType)
    (hlen : types.length = nodes.length)
    (hr : ∀ node ∈ nodes, Recent v node)
    (h : ((readingAt v).on nodes).Stores (typed types) t i lo hi) (hn : nodes[i]? = some node)
    (hc : (readingAt v).childrenOf node = .ok (state.leftChild, state.rightChild))
    (hs : state.sum = t.sum) (hz : state.lazy = t.tag) :
    stamping.AmendsTo id v types (do
      let sum ← SumAddPolicy.apply value state.sum (Segment.length lo hi)
      let lazy ← checkedAdd state.lazy value
      record i ⟨v, state.leftChild, state.rightChild, sum, lazy⟩) nodes
      (t.cover lo hi value) lo hi := by
  unfold SumTree.cover
  rw [hs, hz]
  rcases SumAddPolicy.apply value t.sum (Segment.length lo hi) with e | sum
  · exact .throw rfl
  rcases checkedAdd t.tag value with e | lazy
  · exact .throw rfl
  obtain ⟨j, nodes', hrun, hrec⟩ := record_spec (l := state.leftChild) (r := state.rightChild)
    (s := sum) (z := lazy) hn (hr node (List.mem_of_getElem? hn))
  obtain ⟨more, hg, hst⟩ := hrec.cover hlen hr h hn hc.symm
  exact .inl ⟨_, j, nodes', more, rfl, hrun, hg, hst⟩

/-- **One update.** It makes the tree of the version in the nodes of its segment, or throws what
the update of the tree throws. -/
theorem update_amends (value : ValueType) (hhi : hi < maxLength) (h1 : l ≤ hi) (h2 : lo ≤ r)
    (hlen : types.length = nodes.length) (hr : ∀ node ∈ nodes, Recent v node)
    (h : ((readingAt v).on nodes).Stores (typed types) t i lo hi) :
    stamping.AmendsTo id v types (update i v lo hi l r value) nodes
      (SumTree.updateWith SumTree.rebuildFromChildren l r value t lo hi) lo hi := by
  induction t generalizing i lo hi nodes types with
  | leaf s z =>
    obtain ⟨node, state, hn, hrec, hlast, hc, hs, hz⟩ := exists_state hr h
    have hle : lo = hi := h.1
    have hin : l ≤ lo ∧ hi ≤ r := by omega
    rw [SumTree.updateWith, if_pos hin]
    have hx := cover_amends value hlen hr h hn hc hs hz
    unfold Stamping.AmendsTo at hx ⊢
    rw [update, Effect.run_bind_ok (readNode_run hn), hlast,
      Effect.run_bind_ok (Effect.liftM_ok _ _), segmentLength,
      inclusiveLength_eq hle.le (Layout.lt_sizeMax hhi), Effect.run_bind_ok (Effect.liftM_ok _ _),
      if_pos hin]
    exact hx
  | node s z a b iha ihb =>
    obtain ⟨node, state, hn, hrec, hlast, hc, hs, hz⟩ := exists_state hr h
    have hlt := h.1
    have hm := Segment.midpoint_lt hlt
    by_cases hin : l ≤ lo ∧ hi ≤ r
    · rw [SumTree.updateWith, if_pos hin]
      have hx := cover_amends value hlen hr h hn hc hs hz
      unfold Stamping.AmendsTo at hx ⊢
      rw [update, Effect.run_bind_ok (readNode_run hn), hlast,
        Effect.run_bind_ok (Effect.liftM_ok _ _), segmentLength,
        inclusiveLength_eq hlt.le (Layout.lt_sizeMax hhi),
        Effect.run_bind_ok (Effect.liftM_ok _ _), if_pos hin]
      exact hx
    obtain ⟨-, ho, -, j, k, hjk, ha, hb⟩ := h
    rw [NodeReading.children_of_getElem? hn, hc] at hjk
    cases hjk
    rw [SumTree.updateWith, if_neg hin]
    have hx := Stamping.AmendsTo.halves (S := stamping) id nodes
      (f := fun leftChild rightChild => do
        let leftState ← latestState (← readNode leftChild)
        let rightState ← latestState (← readNode rightChild)
        let sum ← SumAddPolicy.apply state.lazy (← checkedAdd leftState.sum rightState.sum)
          (Segment.length lo hi)
        record i ⟨v, leftChild, rightChild, sum, state.lazy⟩) hlt ho hn hb
      (.half hlen hr (fun hl => iha (by omega) hl h2 hlen hr ha) ha)
      (fun nodes₁ types₁ hlen₁ hr₁ hb₁ =>
        .half hlen₁ hr₁ (fun hl => ihb hhi h1 hl hlen₁ hr₁ hb₁) hb₁)
      (g := fun a' b' => do
        let sum ← SumTree.rebuildFromChildren s z a' b' lo hi
        return .node sum z a' b') ?_
    · unfold Stamping.AmendsTo at hx ⊢
      rw [update, Effect.run_bind_ok (readNode_run hn), hlast,
        Effect.run_bind_ok (Effect.liftM_ok _ _), segmentLength,
        inclusiveLength_eq hlt.le (Layout.lt_sizeMax hhi),
        Effect.run_bind_ok (Effect.liftM_ok _ _), if_neg hin, if_pos hlt]
      exact hx
    · intro a' b' j' k' nodes₂ types₂ (hlen₂ : types₂.length = nodes₂.length)
        (hr₂ : ∀ n ∈ nodes₂, Recent v n) ho₂ (hn₂ : nodes₂[i]? = some node) ha₂ hb₂
      obtain ⟨na, sa, hna, -, hla, -, hsa, -⟩ := exists_state hr₂ ha₂
      obtain ⟨nb, sb, hnb, -, hlb, -, hsb, -⟩ := exists_state hr₂ hb₂
      obtain rfl : state.lazy = z := hz
      unfold SumTree.rebuildFromChildren Stamping.AmendsTo
      rw [Effect.run_bind_ok (readNode_run hna), hla, Effect.run_bind_ok (Effect.liftM_ok _ _),
        Effect.run_bind_ok (readNode_run hnb), hlb, Effect.run_bind_ok (Effect.liftM_ok _ _), hsa,
        hsb]
      rcases checkedAdd a'.sum b'.sum with e | childSum
      · exact .inr ⟨e, nodes₂, rfl, rfl⟩
      rw [Effect.run_bind_ok (Effect.liftM_ok _ _), Effect.ok_bind]
      rcases SumAddPolicy.apply state.lazy childSum (Segment.length lo hi) with e | sum
      · exact .inr ⟨e, nodes₂, rfl, rfl⟩
      rw [Effect.run_bind_ok (Effect.liftM_ok _ _), Effect.ok_bind]
      obtain ⟨j, nodes', hrun, hrec⟩ := record_spec (l := j') (r := k') (s := sum)
        (z := state.lazy) hn₂ (hr₂ node (List.mem_of_getElem? hn₂))
      obtain ⟨more, hg, hst⟩ := hrec.halves ho₂ hlen₂ hr₂ hlt ha₂ hb₂
      exact .inl ⟨_, j, nodes', more, rfl, hrun, hg, hst⟩

end Update

/-! ## Whole runs -/

/-- The state stores the trees. -/
structure StoresVersions (s : State) (m : VersionedTrees) : Prop where
  size : s.arraySize = m.size
  domain : s.numericDomain = m.guard
  all : stamping.StoresAll m.size s.nodes s.roots m.trees

variable {s s' : State} {m : VersionedTrees} {h : History (List ValueType)} {v l r : ℕ}
  {value : ValueType}

/-- The latest reading of a tree without later stamps. -/
theorem stores_latest {nodes : List Node} {types : List (ℕ × ℕ)} {t : SumTree} {i lo hi : ℕ}
    (hr : ∀ node ∈ nodes, Recent v node)
    (h : ((readingAt v).on nodes).Stores (typed types) t i lo hi) :
    (latestReading.on nodes).Stores (typed types) t i lo hi :=
  NodeReading.stores_congr (fun node hn => by
    simp only [readingAt, latestReading, stateAt_of_recent (hr node hn) le_rfl, and_self]) h

/-- The reservation throws for lack of room only. -/
theorem reserveForUpdate_error {e : Exception} (h : reserveForUpdate s = .error e) :
    e.OutOfRoom := by
  rcases Effect.bind_eq_error.mp h with h1 | ⟨height, -, h⟩
  · exact checkedSizeAdd_error h1
  rcases Effect.bind_eq_error.mp h with h2 | ⟨limit, -, h⟩
  · exact checkedSizeMultiply_error h2
  rcases Effect.bind_eq_error.mp h with h3 | ⟨required, -, h⟩
  · exact checkedSizeAdd_error h3
  · exact checkVectorLength_error h

/-- **One addition.** It returns the number of the next version, which the versioned trees have
too, or it throws, as they do or for lack of room, and leaves the state as it was. -/
theorem rangeAdd_outcome (hs : StoresVersions s m) (hv : m.Valid .retaining h.adds) (l r : ℕ)
    (value : ValueType) :
    (∃ m' s', m.rangeAdd .retaining l r value = .ok m' ∧
        rangeAdd l r value s = .ok m.trees.length s' ∧ StoresVersions s' m') ∨
      ∃ e, rangeAdd l r value s = .error e s ∧
        (e.OutOfRoom ∨ ∃ e', e.kind = e'.kind ∧ m.rangeAdd .retaining l r value = .error e') := by
  obtain ⟨t, ht, -⟩ := hv.latest
  have hcount : s.roots.length = m.trees.length := hs.all.count
  have hpos : 0 < m.trees.length := by
    rw [hv.versions]
    exact RangeAdds.versionCount_pos
  unfold rangeAdd
  rw [Effect.run_bind_ok (Effect.run_get s), hs.size, hs.domain,
    validateInitialized_eq_ok.mpr (hcount ▸ hpos), Effect.run_bind_ok (Effect.liftM_ok _ s)]
  rcases h1 : validateNonEmpty m.size with e | ⟨⟩
  · exact .inr ⟨e, rfl, .inr ⟨e, rfl, hv.rangeAdd_not_admitted (by rw [h1]; rfl)⟩⟩
  rcases h2 : validateRange m.size l r with e | ⟨⟩
  · exact .inr ⟨e, rfl, .inr ⟨e, rfl, hv.rangeAdd_not_admitted (by rw [h1, h2]; rfl)⟩⟩
  rw [Effect.run_bind_ok (Effect.liftM_ok _ s), Effect.run_bind_ok (Effect.liftM_ok _ s)]
  have hn := validateNonEmpty_eq_ok.mp h1
  obtain ⟨hlr, hr⟩ := validateRange_eq_ok.mp h2
  have hsize := hv.size_le
  obtain ⟨types, hlen, hst⟩ := hs.all.stores hn
  obtain ⟨root, hroot, hlatest⟩ := hs.all.latest hst ht
  rw [vectorAt_eq_ok.mpr hroot, Effect.run_bind_ok (Effect.liftM_ok _ s)]
  by_cases h0 : value = 0
  · subst h0
    rw [if_pos rfl, Effect.run_bind_ok (Effect.run_modify _ s),
      Effect.run_bind_ok (Effect.run_get _)]
    refine .inl ⟨_, { s with roots := s.roots ++ [root] }, VersionedTrees.rangeAdd_zero hlr hr ht,
      ?_, hs.size, hs.domain, hs.all.republish hroot ht⟩
    rw [Effect.run_pure, List.length_append, hcount]
    rfl
  rw [if_neg h0]
  have hbefore : ∀ node ∈ s.nodes, Recent (s.roots.length - 1) node := hs.all.recent
  rcases hv.preflight_decides hlr hr h0 ht (stores_latest hbefore (hlatest _ le_rfl)) with
    ⟨t', next, w, hm, hu, hp, hy⟩ | ⟨e, e', hk, hm, hp⟩
  swap
  · refine .inr ⟨e', ?_, .inr ⟨e, hk, hm⟩⟩
    unfold materialize validateUpdate
    rcases Effect.bind_eq_error.mp hp with hp | ⟨next, hp, hy⟩
    · simp only [hp]
      rfl
    · rcases Effect.bind_eq_error.mp hy with hy | ⟨w, -, hy⟩
      · simp only [hp, hy]
        rfl
      · cases hy
  unfold materialize validateUpdate
  simp only [hp, hy]
  rw [Effect.run_bind_ok (Effect.liftM_ok _ s), Effect.run_bind_ok (Effect.liftM_ok _ s)]
  rcases hres : reserveForUpdate s with e | ⟨⟩
  · exact .inr ⟨e, rfl, .inl (reserveForUpdate_error hres)⟩
  rw [Effect.run_bind_ok (Effect.liftM_ok _ s)]
  have hrecent : ∀ node ∈ s.nodes, Recent s.roots.length node :=
    fun node hnode => stamping.recent_mono (Nat.sub_le _ _) (hs.all.recent node hnode)
  rcases update_amends (l := l) (r := r) value (show m.size - 1 < maxLength by omega)
    (by omega) (Nat.zero_le r) hlen hrecent (hlatest _ (Nat.sub_le _ _)) with
    ⟨t'', j, nodes', more, hu', hx, hg, hst'⟩ | ⟨e, nodes', hu', -⟩
  swap
  · rw [hu] at hu'
    cases hu'
  rw [hu] at hu'
  cases hu'
  rw [Effect.run_bind_ok (Effect.zoom_ok hx), Effect.run_bind_ok (Effect.run_modify _ _),
    Effect.run_pure]
  exact .inl ⟨_, { s with nodes := nodes', roots := s.roots ++ [j], numericDomain := next }, hm,
    by rw [hcount], hs.size, rfl, hs.all.publish hst hg hst'⟩

/-- A successful initialization stores the tree of its array. -/
theorem initialize_outcome {values : List ValueType} {u : Unit}
    (hi : initializeFrom values s = .ok u s') : values.length ≤ maxLength ∧
      ∃ m, VersionedTrees.initializeFrom values = .ok m ∧ StoresVersions s' m := by
  unfold initializeFrom at hi
  unfold VersionedTrees.initializeFrom
  by_cases h0 : values = []
  · simp only [if_pos h0] at hi ⊢
    cases hi
    subst h0
    exact ⟨Nat.zero_le _, _, rfl, rfl, rfl, .of_empty⟩
  have hn : 0 < values.length := List.length_pos_of_ne_nil h0
  simp only [if_neg h0] at hi ⊢
  obtain ⟨hlen, root, nodes, hb, hi⟩ := run_reserved_build_eq_ok hn hi
  obtain ⟨height, h4, hi⟩ := Effect.run_liftM_bind_eq_ok.mp hi
  cases hi
  obtain ⟨t, ht, hall⟩ := Stamping.StoresAll.of_build (S := stamping) build_reads
    (fun _ => recent_fresh le_rfl) (fun _ _ _ => recent_fresh le_rfl) hb
  exact ⟨hlen, ⟨values.length, [t], .ofValues values⟩, by rw [ht]; rfl, rfl, rfl, hall⟩

/-- One that fails has no room, or the tree of its array throws the same. -/
theorem initialize_error {values : List ValueType} {e : Exception}
    (hi : initializeFrom values s = .error e s') :
    e.OutOfRoom ∨ VersionedTrees.initializeFrom values = .error e := by
  unfold initializeFrom at hi
  by_cases h0 : values = []
  · simp only [if_pos h0] at hi
    cases hi
  have hn : 0 < values.length := List.length_pos_of_ne_nil h0
  simp only [if_neg h0] at hi
  rcases run_reserved_build_eq_error hi with hroom | ⟨nodes, hb⟩ | ⟨root, nodes, -, hi⟩
  · exact .inl hroom
  · right
    rw [VersionedTrees.initializeFrom, if_neg h0, buildArena_error build_reads (Nat.zero_le _) hb]
    rfl
  rcases Effect.run_bind_eq_error.mp hi with h4 | ⟨height, s₄, -, hi⟩
  · have h4 := (Effect.run_liftM_eq_error.mp h4).1
    rw [treeHeight, if_neg hn.ne'] at h4
    cases h4
  · cases hi

/-- A failed initialization leaves the state as it was. -/
theorem initializeFrom_atomic (values : List ValueType) : Effect.Atomic (initializeFrom values) :=
  .ite (fun _ => .set _) fun _ => .bind_lift fun _ => .bind_lift fun _ => .bind_lift fun _ =>
    .bind_lift fun _ => .set _

/-- A tree without versions admits no addition. -/
theorem rangeAdd_fresh (hs : s.roots = []) (l r : ℕ) (value : ValueType) :
    rangeAdd l r value s = .error (.runtimeError "Tree has no versions.") s := by
  unfold rangeAdd
  rw [Effect.run_bind_ok (Effect.run_get s), hs]
  rfl

/-- The stored height is that of the tree. -/
def Measured (s : State) : Prop := 0 < s.arraySize → s.treeHeight = Nat.clog 2 s.arraySize

theorem initializeFrom_measured {s : State} (h : Measured s) (values : List ValueType) :
    Measured (Effect.finalState (initializeFrom values s)) := by
  rcases hr : initializeFrom values s with ⟨u, t⟩ | ⟨e, t⟩
  swap
  · rw [initializeFrom_atomic values _ _ _ hr]
    exact h
  unfold initializeFrom at hr
  by_cases h0 : values = []
  · simp only [if_pos h0] at hr
    cases hr
    exact fun h => absurd h (lt_irrefl 0)
  · simp only [if_neg h0] at hr
    obtain ⟨count, -, hr⟩ := Effect.run_liftM_bind_eq_ok.mp hr
    obtain ⟨⟨⟩, -, hr⟩ := Effect.run_liftM_bind_eq_ok.mp hr
    obtain ⟨⟨root, nodes⟩, -, hr⟩ := Effect.run_liftM_bind_eq_ok.mp hr
    obtain ⟨height, hheight, hr⟩ := Effect.run_liftM_bind_eq_ok.mp hr
    cases hr
    rw [treeHeight_eq (List.length_pos_of_ne_nil h0)] at hheight
    cases hheight
    exact fun _ => rfl

/-- An addition leaves the size and the height as they are. -/
theorem rangeAdd_size (l r : ℕ) (value : ValueType) : Effect.Within
    (fun s t : State => t.arraySize = s.arraySize ∧ t.treeHeight = s.treeHeight)
    (rangeAdd l r value) := by
  have refl : ∀ s : State, s.arraySize = s.arraySize ∧ s.treeHeight = s.treeHeight :=
    fun _ => ⟨rfl, rfl⟩
  have lift : ∀ {α : Type} (z : Except Exception α), Effect.Within
      (fun s t : State => t.arraySize = s.arraySize ∧ t.treeHeight = s.treeHeight)
      (liftM z : EStateM Exception State α) := Effect.Within.lift refl
  have andThen : ∀ {α β : Type} {x : EStateM Exception State α}
      {f : α → EStateM Exception State β},
      Effect.Within (fun s t : State => t.arraySize = s.arraySize ∧ t.treeHeight = s.treeHeight) x →
      (∀ a, Effect.Within
        (fun s t : State => t.arraySize = s.arraySize ∧ t.treeHeight = s.treeHeight) (f a)) →
      Effect.Within
        (fun s t : State => t.arraySize = s.arraySize ∧ t.treeHeight = s.treeHeight) (x >>= f) :=
    Effect.Within.bind fun h h' => ⟨h'.1.trans h.1, h'.2.trans h.2⟩
  refine andThen (.of_state refl fun _ => rfl) fun this => andThen (lift _) fun _ =>
    andThen (lift _) fun _ => andThen (lift _) fun _ => andThen (lift _) fun root =>
      .ite (fun _ => ?_) fun _ => ?_
  · exact andThen (fun _ => ⟨rfl, rfl⟩) fun _ => andThen (.of_state refl fun _ => rfl) fun _ =>
      .pure refl _
  · refine andThen (lift _) fun domain => andThen (lift _) fun _ => andThen (lift _) fun _ =>
      andThen (fun s => ?_) fun _ => andThen (fun _ => ⟨rfl, rfl⟩) fun _ => .pure refl _
    rcases hx : update root this.roots.length 0 (this.arraySize - 1) l r value s.nodes with
      ⟨j, nodes⟩ | ⟨e, nodes⟩
    · rw [Effect.zoom_ok hx]
      exact ⟨rfl, rfl⟩
    · rw [Effect.zoom_error hx]
      exact ⟨rfl, rfl⟩

theorem rangeAdd_measured {s : State} (h : Measured s) (l r : ℕ) (value : ValueType) :
    Measured (Effect.finalState (rangeAdd l r value s)) := by
  obtain ⟨hsize, hheight⟩ := rangeAdd_size l r value s
  unfold Measured
  rw [hsize, hheight]
  exact h

/-- **Fat nodes publish versioned trees.** -/
def simulation : Simulation engine .retaining where
  Fresh s := s.roots = []
  Rel _ s m := StoresVersions s m
  empty := rfl
  initialize_ok hi := initialize_outcome hi
  initialize_error hi := initializeFrom_atomic _ _ _ _ hi
  rangeAdd_fresh l r value hs := ⟨_, rangeAdd_fresh hs l r value⟩
  rangeAdd_ok {h l r value s s' x m} hs hv hi := by
    have hi' : rangeAdd l r value s = .ok x s' := hi
    rcases rangeAdd_outcome hs hv l r value with ⟨m', s'', hm, hr, hs'⟩ | ⟨e, hr, -⟩ <;>
      rw [hr] at hi' <;> cases hi'
    exact ⟨m', hm, hs'⟩
  rangeAdd_error {h l r value s s' e m} hs hv hi := by
    have hi' : rangeAdd l r value s = .error e s' := hi
    rcases rangeAdd_outcome hs hv l r value with ⟨m', s'', hm, hr, hs'⟩ | ⟨e, hr, -⟩ <;>
      rw [hr] at hi' <;> cases hi'
    exact hs

/-- Sums are those of the stored trees. -/
theorem rangeSum_eq (hs : StoresVersions s m) (hsize : m.size ≤ maxLength) :
    rangeSum s v l r = m.rangeSum v l r := by
  unfold rangeSum
  rw [hs.size]
  exact VersionedTrees.rangeSum_congr hs.all.count rfl fun hn hv => hs.all.query_eq hsize hn hv

/-- **Reachable states.** They store valid trees of their histories, and a sum is the trees'. -/
theorem reaches (hr : engine.Reachable s h) : ∃ m : VersionedTrees, m.size = h.size ∧
    StoresVersions s m ∧ m.Valid .retaining h.adds ∧
      ∀ v l r, rangeSum s v l r = m.rangeSum v l r := by
  obtain ⟨m, hsize, hrel, hvalid⟩ := simulation.reaches hr
  exact ⟨m, hsize, hrel, hvalid, fun v l r => rangeSum_eq hrel hvalid.size_le⟩

/-- **Versions are kept.** A sum that is returned is exact, a published version answers every sum
the same way until an initialization succeeds, and an addition that throws changes nothing. -/
theorem versions_kept (hr : engine.Reachable s h) :
    (∀ v l r x, rangeSum s v l r = .ok x → x.toInt = Segment.sum (h.adds.array v) l r) ∧
      (∀ more, engine.Steady (s, some h) more → ∀ v < versionCount s, ∀ l r,
        rangeSum (engine.runFrom (s, some h) more).1 v l r = rangeSum s v l r) ∧
        ∀ l r value e s', rangeAdd l r value s = .error e s' → s' = s := by
  obtain ⟨m, -, hrel, hvalid, hsum⟩ := reaches hr
  have hcount : versionCount s = h.adds.versionCount := hrel.all.count.trans hvalid.versions
  refine ⟨fun v l r x hx => ?_, fun more hsteady v hv l r => ?_, fun l r value e s' hx => ?_⟩
  · rw [hsum] at hx
    exact hvalid.rangeSum_exact hx
  · exact simulation.steady_sums rangeSum (fun hrel hsize v l r => rangeSum_eq hrel hsize) hr hsteady
      (hcount ▸ hv) l r
  · rcases rangeAdd_outcome hrel hvalid l r value with ⟨m', s'', -, hadd, -⟩ | ⟨e', hadd, -⟩ <;>
      rw [hadd] at hx <;> cases hx
    rfl

/-- Three elements and an addition. -/
abbrev threeCalls : List (Call (List ValueType)) := [.initializeFrom [1, 2, 3], .rangeAdd 0 1 5]

/-- More additions; one throws, and the last replaces a full root. -/
abbrev threeLater : List (Call (List ValueType)) :=
  [.rangeAdd 0 0 1, .rangeAdd 9 9 1, .rangeAdd 1 1 7]

theorem versions_kept_three :
    rangeSum (engine.run threeCalls).1 1 0 2 = .ok 16 ∧
      rangeSum (engine.run (threeCalls ++ threeLater)).1 1 0 2 = .ok 16 := by
  have hsum : rangeSum (engine.run threeCalls).1 1 0 2 = .ok 16 := by decide +kernel
  have hrun : engine.run threeCalls = ((engine.run threeCalls).1,
      some (engine.historyOf [1, 2, 3] [⟨0, 1, 5⟩])) := Engine.run_eq_historyOf (by decide +kernel)
  have hsteady : engine.Steady (engine.run threeCalls) threeLater :=
    ⟨nofun, nofun, nofun, trivial⟩
  refine ⟨hsum, ?_⟩
  have hkept := (versions_kept ⟨threeCalls, hrun⟩).2.1 threeLater (hrun ▸ hsteady) 1
    (by decide +kernel) 0 2
  rw [← hrun] at hkept
  rw [Engine.run, Engine.runFrom_append]
  exact hkept.trans hsum

end FatNodePersistentSegmentTree

end Valseg
