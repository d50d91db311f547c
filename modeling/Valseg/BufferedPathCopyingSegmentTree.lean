import Valseg.StampedArena
import Valseg.NumericDomain

/-!
# BufferedPathCopyingSegmentTree

`buffered_path_copying_segment_tree.cpp`: a node has base fields and a buffer of two entries, each
stamped with the version that made it. An update adds its share of the delta to a node in place
while the buffer has a free slot; a node that is full is copied with its entries flushed into the
base fields, and so is every visited ancestor of a copy. A failed update takes its entries off
again, and its copies.

1. `stamping`: a reader folds the entries up to its version, whatever later versions buffer.
2. `update_amends`: an update stores the tree of the next version and keeps all others.
3. `update_undoable`: however it ends, taking off the entries it recorded undoes it
   (`Undoable.rollback`).
4. `buffers_isolated` puts exactness, isolation and the rollback together.
5. `latestExact_iff` says when the latest version can be read into an array.
-/

namespace Valseg


namespace BufferedPathCopyingSegmentTree

/-- One buffered modification. -/
structure Modification where
  version : ℕ
  deltaSum : ValueType
  deltaLazy : ValueType
  deriving DecidableEq, Repr

abbrev bufferCapacity : ℕ := 2

/-- `std::array<Modification, bufferCapacity>{}`. -/
def emptyBuffer : Vector Modification bufferCapacity := .replicate bufferCapacity ⟨0, 0, 0⟩

/-- A node; `buffer[0 .. bufferSize)` are its entries. -/
structure Node where
  leftChild : ℕ
  rightChild : ℕ
  baseSum : ValueType
  baseLazy : ValueType
  bufferSize : ℕ
  buffer : Vector Modification bufferCapacity
  deriving DecidableEq, Repr

/-- The entries of a node. -/
def Node.entries (node : Node) : List Modification := node.buffer.toList.take node.bufferSize

/-- `node.buffer[node.bufferSize] = entry; ++node.bufferSize;` -/
def Node.pushEntry (node : Node) (entry : Modification) (h : node.bufferSize < bufferCapacity) :
    Node :=
  { node with bufferSize := node.bufferSize + 1, buffer := node.buffer.set node.bufferSize entry }

/-- A node as it is read at a version. -/
structure Snapshot where
  sum : ValueType
  lazy : ValueType

/-- The state of the tree. -/
structure State where
  nodes : List Node
  roots : List ℕ
  arraySize : ℕ
  numericDomain : SumAddDomainGuard
  bufferedThisUpdate : List ℕ
  deriving DecidableEq, Repr

def segmentLength (segmentLeft segmentRight : ℕ) : Except Exception ℕ :=
  inclusiveLength segmentLeft segmentRight

/-- One turn of the loop over the entries. -/
def Snapshot.fold (version : ℕ) (snapshot : Snapshot) (entry : Modification) :
    Except Exception Snapshot :=
  if entry.version ≤ version then do
    let sum ← checkedAdd snapshot.sum entry.deltaSum
    let lazy ← checkedAdd snapshot.lazy entry.deltaLazy
    return ⟨sum, lazy⟩
  else .ok snapshot

def snapshotAt (node : Node) (version : ℕ) : Except Exception Snapshot :=
  node.entries.foldlM (Snapshot.fold version) ⟨node.baseSum, node.baseLazy⟩

/-- Nodes are read as of a version. -/
def readingAt (version : ℕ) : NodeReading Node where
  state node := do
    let state ← snapshotAt node version
    return (state.sum, state.lazy)
  childrenOf node := .ok (node.leftChild, node.rightChild)

def build : List ValueType → (segmentLeft segmentRight : ℕ) → ArenaM Node ℕ :=
  buildArena (fun value => ⟨noNode, noNode, value, 0, 0, emptyBuffer⟩)
    (fun leftRoot rightRoot sum => ⟨leftRoot, rightRoot, sum, 0, 0, emptyBuffer⟩) Node.baseSum

/-- `nodes.push_back(node); return nodes.size() - 1;` -/
def pushNode (node : Node) : EStateM Exception State ℕ := do
  modifyThe State fun s => { s with nodes := s.nodes ++ [node] }
  return (← get).nodes.length - 1

def modify (nodeIndex version : ℕ) (deltaSum deltaLazy : ValueType) :
    EStateM Exception State ℕ := do
  let this ← get
  let node ← vectorAt this.nodes nodeIndex
  let latest ← snapshotAt node version
  let nextSum ← checkedAdd latest.sum deltaSum
  let nextLazy ← checkedAdd latest.lazy deltaLazy
  if h : node.bufferSize < bufferCapacity then do
    modifyThe State fun s => { s with
      nodes := s.nodes.set nodeIndex (node.pushEntry ⟨version, deltaSum, deltaLazy⟩ h)
      bufferedThisUpdate := s.bufferedThisUpdate ++ [nodeIndex] }
    return nodeIndex
  else pushNode ⟨node.leftChild, node.rightChild, nextSum, nextLazy, 0, emptyBuffer⟩

def update (nodeIndex version segmentLeft segmentRight queryLeft queryRight : ℕ)
    (value : ValueType) : EStateM Exception State ℕ := do
  let length ← segmentLength segmentLeft segmentRight
  if queryLeft ≤ segmentLeft ∧ segmentRight ≤ queryRight then do
    let deltaSum ← checkedMultiply value (← checkedLength length)
    modify nodeIndex version deltaSum value
  else if segmentLeft < segmentRight then do
    let this ← get
    let current ← vectorAt this.nodes nodeIndex
    let middle := Segment.midpoint segmentLeft segmentRight
    let newLeft ← (if queryLeft ≤ middle then
      update current.leftChild version segmentLeft middle queryLeft queryRight value
      else pure current.leftChild)
    let newRight ← (if queryRight > middle then
      update current.rightChild version (middle + 1) segmentRight queryLeft queryRight value
      else pure current.rightChild)
    let overlap ← segmentLength (max segmentLeft queryLeft) (min segmentRight queryRight)
    let deltaSum ← checkedMultiply value (← checkedLength overlap)
    if newLeft = current.leftChild ∧ newRight = current.rightChild then
      modify nodeIndex version deltaSum 0
    else do
      let latest ← snapshotAt current version
      let sum ← checkedAdd latest.sum deltaSum
      pushNode ⟨newLeft, newRight, sum, latest.lazy, 0, emptyBuffer⟩
  else throw .undefined
termination_by segmentRight - segmentLeft
decreasing_by all_goals (simp only [Segment.midpoint] at *; omega)

def query (nodes : List Node) (version : ℕ) :
    (nodeIndex segmentLeft segmentRight queryLeft queryRight : ℕ) → (inheritedLazy : ValueType) →
      Except Exception ValueType := ((readingAt version).on nodes).query

def materialize (nodes : List Node) (version : ℕ) :
    (nodeIndex segmentLeft segmentRight : ℕ) → (inheritedLazy : ValueType) → List ValueType →
      Except Exception (List ValueType) := ((readingAt version).on nodes).materialize

def initializeFrom (values : List ValueType) : EStateM Exception State Unit := do
  let newNumericDomain := SumAddDomainGuard.ofValues values
  if values = [] then set (⟨[], [noNode], 0, newNumericDomain, []⟩ : State)
  else do
    let nodeCount ← canonicalNodeCount values.length
    checkVectorLength "vector::reserve" 88 nodeCount
    let (root, newNodes) ← Effect.onLocal (build values 0 (values.length - 1)) []
    set (⟨newNodes, [root], values.length, newNumericDomain, []⟩ : State)

/-- `--node.bufferSize`, which wraps around below zero. -/
def Node.popEntry (node : Node) : Node :=
  { node with bufferSize := (node.bufferSize + sizeMax) % (sizeMax + 1) }

/-- The catch block: the entries this update appended are popped, then the copies are dropped. -/
def rollback (checkpoint : ℕ) : EStateM Exception State PUnit :=
  modifyThe State fun s =>
    let popped := s.bufferedThisUpdate.foldl (fun nodes i => nodes.modify i Node.popEntry) s.nodes
    { s with nodes := popped.take checkpoint }

/-- The try block of a range addition. -/
def publishUpdate (latestRoot version arraySize left right : ℕ) (value : ValueType) :
    EStateM Exception State Unit := do
  let newRoot ← update latestRoot version 0 (arraySize - 1) left right value
  modifyThe State fun s => { s with roots := s.roots ++ [newRoot] }

def rangeAdd (left right : ℕ) (value : ValueType) : EStateM Exception State ℕ := do
  let this ← get
  validateInitialized this.roots.length
  validateNonEmpty this.arraySize
  validateRange this.arraySize left right
  let latestRoot ← vectorAt this.roots (this.roots.length - 1)
  if value = 0 then do
    modifyThe State fun s => { s with roots := s.roots ++ [latestRoot] }
    return (← get).roots.length - 1
  else do
    let latestVersion := this.roots.length - 1
    let nextDomain ← this.numericDomain.preflight this.arraySize left right value
      fun values => materialize this.nodes latestVersion latestRoot 0 (this.arraySize - 1) 0 values
    let version := this.roots.length
    let checkpoint := this.nodes.length
    modifyThe State fun s => { s with bufferedThisUpdate := [] }
    Effect.onThrow (publishUpdate latestRoot version this.arraySize left right value)
      (rollback checkpoint)
    modifyThe State fun s => { s with numericDomain := nextDomain }
    return (← get).roots.length - 1

def rangeSum (this : State) (version left right : ℕ) : Except Exception ValueType := do
  validateInitialized this.roots.length
  validateVersion version this.roots.length
  validateNonEmpty this.arraySize
  validateRange this.arraySize left right
  let root ← vectorAt this.roots version
  query this.nodes version root 0 (this.arraySize - 1) left right 0

def versionCount (this : State) : ℕ := this.roots.length

/-- The structure and its writing operations. -/
def engine : Engine (List ValueType) ℕ State where
  empty := ⟨[], [], 0, {}, []⟩
  values := id
  initializeFrom := initializeFrom
  rangeAdd := rangeAdd

theorem pushNode_run (node : Node) (s : State) :
    pushNode node s = .ok s.nodes.length { s with nodes := s.nodes ++ [node] } := by
  unfold pushNode
  rw [Effect.run_bind_ok (Effect.run_modifyThe _ s), Effect.run_bind_ok (Effect.run_get _),
    Effect.run_pure, List.length_append]
  rfl

/-! ## The entries a reader folds -/

section Stamps

variable {a b node : Node} {version v w : ℕ} {entries more : List Modification}
  {snapshot : Snapshot}

/-- The fields of a node that no update changes. -/
def Node.base (node : Node) : ℕ × ℕ × ValueType × ValueType :=
  (node.leftChild, node.rightChild, node.baseSum, node.baseLazy)

/-- No entry is stamped after the version. -/
def Recent (version : ℕ) (node : Node) : Prop :=
  node.bufferSize ≤ bufferCapacity ∧ ∀ entry ∈ node.entries, entry.version ≤ version

/-- Entries stamped with the version were appended. -/
def Amends (version : ℕ) (a b : Node) : Prop :=
  b.base = a.base ∧ ∃ more, b.entries = a.entries ++ more ∧ ∀ entry ∈ more, entry.version = version

/-- Two versions on the same side of every stamp fold the same. -/
theorem fold_congr (h : ∀ entry ∈ entries, entry.version ≤ w ↔ entry.version ≤ v) :
    entries.foldlM (Snapshot.fold w) snapshot = entries.foldlM (Snapshot.fold v) snapshot := by
  induction entries generalizing snapshot with
  | nil => rfl
  | cons entry entries ih =>
    have hfold : Snapshot.fold w snapshot entry = Snapshot.fold v snapshot entry :=
      if_congr (h entry List.mem_cons_self) rfl rfl
    rw [List.foldlM_cons, List.foldlM_cons, hfold]
    exact bind_congr fun _ => ih fun x hx => h x (List.mem_cons_of_mem _ hx)

/-- Later entries are skipped. -/
theorem fold_later (h : ∀ entry ∈ more, ¬ entry.version ≤ v) :
    more.foldlM (Snapshot.fold v) snapshot = .ok snapshot := by
  induction more with
  | nil => rfl
  | cons entry more ih =>
    have hfold : Snapshot.fold v snapshot entry = .ok snapshot :=
      if_neg (h entry List.mem_cons_self)
    rw [List.foldlM_cons, hfold]
    exact ih fun x hx => h x (List.mem_cons_of_mem _ hx)

theorem snapshotAt_of_base (hb : b.base = a.base) :
    snapshotAt b v = b.entries.foldlM (Snapshot.fold v) ⟨a.baseSum, a.baseLazy⟩ := by
  simp only [Node.base, Prod.mk.injEq] at hb
  obtain ⟨-, -, hs, hz⟩ := hb
  rw [snapshotAt, hs, hz]

theorem children_of_base (hb : b.base = a.base) :
    (readingAt v).childrenOf b = (readingAt w).childrenOf a := by
  simp only [Node.base, Prod.mk.injEq] at hb
  simp only [readingAt, hb]

/-- A node is read the same from its last stamp on. -/
theorem snapshotAt_of_recent (h : Recent v node) (hw : v ≤ w) :
    snapshotAt node w = snapshotAt node v :=
  fold_congr fun entry he => iff_of_true ((h.2 entry he).trans hw) (h.2 entry he)

/-- What later versions buffer is not read. -/
theorem snapshotAt_of_amends (h : Amends w a b) (hv : v < w) : snapshotAt b v = snapshotAt a v := by
  obtain ⟨hb, more, hmore, hall⟩ := h
  rw [snapshotAt_of_base hb, hmore, List.foldlM_append, snapshotAt]
  have hskip : ∀ snapshot : Snapshot, more.foldlM (Snapshot.fold v) snapshot = .ok snapshot :=
    fun snapshot => fold_later fun entry he => by rw [hall entry he]; omega
  simp only [hskip]
  exact bind_pure _

/-- **Stamps.** -/
def stamping : Stamping Node where
  reading := readingAt
  recent := Recent
  amends := Amends
  amends_refl _ node := ⟨rfl, [], (List.append_nil _).symm, fun _ h => nomatch h⟩
  amends_trans := by
    rintro v a b c ⟨hb, more, h1, h2⟩ ⟨hb', more', h3, h4⟩
    refine ⟨hb'.trans hb, more ++ more', by rw [h3, h1, List.append_assoc], fun entry he => ?_⟩
    rcases List.mem_append.mp he with he | he
    · exact h2 entry he
    · exact h4 entry he
  recent_mono hvw h := ⟨h.1, fun entry he => (h.2 entry he).trans hvw⟩
  recent_state hvw h := by simp only [readingAt, snapshotAt_of_recent h hvw]
  recent_children _ _ := rfl
  amends_state hvw h := by simp only [readingAt, snapshotAt_of_amends h hvw]
  amends_children _ h := children_of_base h.1

theorem recent_empty {j k : ℕ} {s z : ValueType} : Recent v ⟨j, k, s, z, 0, emptyBuffer⟩ :=
  ⟨Nat.zero_le _, fun _ h => nomatch h⟩

/-- The node with one more entry. -/
theorem entries_pushEntry (entry : Modification) (h : node.bufferSize < bufferCapacity) :
    (node.pushEntry entry h).entries = node.entries ++ [entry] := by
  have hlen : node.bufferSize < node.buffer.toList.length := by
    rw [Vector.length_toList]
    exact h
  unfold Node.entries Node.pushEntry
  rw [Vector.toList_set, List.take_add_one, List.take_set_of_le le_rfl,
    List.getElem?_set_self hlen]
  rfl

/-- **Modifying.** The deltas are buffered or flushed, and read back added. -/
theorem modify_ok {s : State} {i : ℕ} {x x' z z' deltaSum deltaLazy : ValueType}
    (hn : s.nodes[i]? = some node) (hr : Recent v node) (hs : snapshotAt node v = .ok ⟨x, z⟩)
    (hx : checkedAdd x deltaSum = .ok x') (hz : checkedAdd z deltaLazy = .ok z') :
    ∃ j t, modify i v deltaSum deltaLazy s = .ok j t ∧
      stamping.Recorded v s.nodes t.nodes i j x' z' (.ok (node.leftChild, node.rightChild)) := by
  unfold modify
  rw [Effect.run_bind_ok (Effect.run_get s), vectorAt_eq_ok.mpr hn,
    Effect.run_bind_ok (Effect.liftM_ok _ s), hs, Effect.run_bind_ok (Effect.liftM_ok _ s), hx,
    Effect.run_bind_ok (Effect.liftM_ok _ s), hz, Effect.run_bind_ok (Effect.liftM_ok _ s)]
  by_cases hlt : node.bufferSize < bufferCapacity
  · have hentries := entries_pushEntry ⟨v, deltaSum, deltaLazy⟩ hlt
    have hread : snapshotAt (node.pushEntry ⟨v, deltaSum, deltaLazy⟩ hlt) v = .ok ⟨x', z'⟩ := by
      have hbase : (node.pushEntry ⟨v, deltaSum, deltaLazy⟩ hlt).base = node.base := rfl
      rw [snapshotAt_of_base hbase, hentries, List.foldlM_append, ← snapshotAt, hs]
      simp only [Effect.ok_bind, List.foldlM_cons, List.foldlM_nil, Snapshot.fold, if_pos le_rfl,
        hx, hz]
      rfl
    rw [dif_pos hlt]
    refine ⟨i, _, rfl, node.pushEntry ⟨v, deltaSum, deltaLazy⟩ hlt, ?_, rfl,
      ⟨hlt, fun entry he => ?_⟩, .inl ⟨rfl, rfl, fun old hold => ?_⟩⟩
    · simp only [stamping, readingAt, hread]
      rfl
    · rw [hentries, List.mem_append, List.mem_singleton] at he
      rcases he with he | rfl
      · exact hr.2 entry he
      · exact le_rfl
    · rw [hn, Option.some.injEq] at hold
      subst hold
      exact ⟨rfl, [_], hentries, fun entry he => by rw [List.mem_singleton.mp he]⟩
  · rw [dif_neg hlt, pushNode_run]
    exact ⟨_, _, rfl, ⟨node.leftChild, node.rightChild, x', z', 0, emptyBuffer⟩, rfl, rfl,
      recent_empty, .inr ⟨rfl, rfl⟩⟩

/-- Where a sum is not representable, nothing is written. -/
theorem modify_error {s : State} {i : ℕ} {x z deltaSum deltaLazy : ValueType} {e : Exception}
    (hn : s.nodes[i]? = some node) (hs : snapshotAt node v = .ok ⟨x, z⟩)
    (he : checkedAdd x deltaSum = .error e ∨
      ∃ x', checkedAdd x deltaSum = .ok x' ∧ checkedAdd z deltaLazy = .error e) :
    modify i v deltaSum deltaLazy s = .error e s := by
  unfold modify
  rw [Effect.run_bind_ok (Effect.run_get s), vectorAt_eq_ok.mpr hn,
    Effect.run_bind_ok (Effect.liftM_ok _ s), hs, Effect.run_bind_ok (Effect.liftM_ok _ s)]
  rcases he with hx | ⟨x', hx, hz⟩
  · rw [hx]
    rfl
  · rw [hx, Effect.run_bind_ok (Effect.liftM_ok _ s), hz]
    rfl

end Stamps

/-! ## One update -/

section Update

variable {s : State} {types : List (ℕ × ℕ)} {t : SumTree} {v i lo hi l r : ℕ} {value : ValueType}
  {node : Node}

theorem build_reads : BuildReads (readingAt 0)
    (fun value => ⟨noNode, noNode, value, 0, 0, emptyBuffer⟩)
    (fun leftRoot rightRoot sum => ⟨leftRoot, rightRoot, sum, 0, 0, emptyBuffer⟩)
    Node.baseSum where
  leaf_state _ := rfl
  inner_state _ _ _ := rfl
  inner_children _ _ _ := rfl
  leaf_sum _ := rfl
  inner_sum _ _ _ := rfl

/-- A stored root is read as a snapshot. -/
theorem exists_snapshot {nodes : List Node}
    (h : ((readingAt v).on nodes).Stores (typed types) t i lo hi) :
    ∃ node, nodes[i]? = some node ∧ snapshotAt node v = .ok ⟨t.sum, t.tag⟩ := by
  obtain ⟨node, hn, hs⟩ := NodeReading.exists_of_stores h
  obtain ⟨⟨x, z⟩, hx, hs⟩ := Effect.bind_eq_ok.mp hs
  simp only [pure, Except.pure, Except.ok.injEq, Prod.mk.injEq] at hs
  exact ⟨node, hn, by rw [hx, hs.1, hs.2]⟩

/-- A covered segment. -/
theorem cover_amends (value : ValueType) (hlen : types.length = s.nodes.length)
    (hr : ∀ node ∈ s.nodes, Recent v node)
    (h : ((readingAt v).on s.nodes).Stores (typed types) t i lo hi) :
    stamping.AmendsTo State.nodes v types (do
      let deltaSum ← checkedMultiply value (← checkedLength (Segment.length lo hi))
      modify i v deltaSum value) s (t.cover lo hi value) lo hi := by
  obtain ⟨node, hn, hs⟩ := exists_snapshot h
  unfold SumTree.cover SumAddPolicy.apply
  rcases checkedLength (Segment.length lo hi) with e | length
  · exact .throw rfl
  unfold Stamping.AmendsTo
  rw [Effect.ok_bind, Effect.run_bind_ok (Effect.liftM_ok _ s)]
  rcases checkedMultiply value length with e | deltaSum
  · exact .inr ⟨e, s, rfl, rfl⟩
  rw [Effect.ok_bind, Effect.run_bind_ok (Effect.liftM_ok _ s)]
  rcases hx : checkedAdd t.sum deltaSum with e | sum
  · exact .inr ⟨e, s, rfl, modify_error hn hs (.inl hx)⟩
  rcases hz : checkedAdd t.tag value with e | lazy
  · exact .inr ⟨e, s, rfl, modify_error hn hs (.inr ⟨sum, hx, hz⟩)⟩
  obtain ⟨j, s', hrun, hrec⟩ := modify_ok hn (hr node (List.mem_of_getElem? hn)) hs hx hz
  obtain ⟨more, hg, hst⟩ := hrec.cover hlen hr h hn rfl
  exact .inl ⟨_, j, s', more, rfl, hrun, hg, hst⟩

/-- **One update.** It makes the tree of the version in the nodes of its segment, or throws what
the update of the tree throws. -/
theorem update_amends (value : ValueType) (hhi : hi < maxLength) (hlr : l ≤ r) (h1 : l ≤ hi)
    (h2 : lo ≤ r)
    (hlen : types.length = s.nodes.length) (hr : ∀ node ∈ s.nodes, Recent v node)
    (h : ((readingAt v).on s.nodes).Stores (typed types) t i lo hi) :
    stamping.AmendsTo State.nodes v types (update i v lo hi l r value) s
      (SumTree.updateWith (SumTree.rebuildByOverlap l r value) l r value t lo hi) lo hi := by
  induction t generalizing i lo hi s types with
  | leaf x z =>
    have hle : lo = hi := h.1
    have hin : l ≤ lo ∧ hi ≤ r := by omega
    have hx := cover_amends value hlen hr h
    rw [SumTree.updateWith, if_pos hin]
    unfold Stamping.AmendsTo at hx ⊢
    rw [update, segmentLength, inclusiveLength_eq hle.le (Layout.lt_sizeMax hhi),
      Effect.run_bind_ok (Effect.liftM_ok _ _), if_pos hin]
    exact hx
  | node x z a b iha ihb =>
    have hlt := h.1
    have hm := Segment.midpoint_lt hlt
    have hle := Segment.le_midpoint lo hi
    by_cases hin : l ≤ lo ∧ hi ≤ r
    · have hx := cover_amends value hlen hr h
      rw [SumTree.updateWith, if_pos hin]
      unfold Stamping.AmendsTo at hx ⊢
      rw [update, segmentLength, inclusiveLength_eq hlt.le (Layout.lt_sizeMax hhi),
        Effect.run_bind_ok (Effect.liftM_ok _ _), if_pos hin]
      exact hx
    obtain ⟨node, hn, (hs : snapshotAt node v = .ok ⟨x, z⟩)⟩ := exists_snapshot h
    obtain ⟨-, ho, -, j, k, hjk, ha, hb⟩ := h
    rw [NodeReading.children_of_getElem? hn] at hjk
    cases hjk
    rw [SumTree.updateWith, if_neg hin]
    have hx := Stamping.AmendsTo.halves (S := stamping) State.nodes s
      (f := fun newLeft newRight => do
        let deltaSum ← checkedMultiply value
          (← checkedLength (Segment.length (max lo l) (min hi r)))
        if newLeft = node.leftChild ∧ newRight = node.rightChild then modify i v deltaSum 0
        else do
          let latest ← snapshotAt node v
          let sum ← checkedAdd latest.sum deltaSum
          pushNode ⟨newLeft, newRight, sum, latest.lazy, 0, emptyBuffer⟩) hlt ho hn hb
      (.half hlen hr (fun hl => iha (by omega) hl h2 hlen hr ha) ha)
      (fun s₁ types₁ hlen₁ hr₁ hb₁ =>
        .half hlen₁ hr₁ (fun hl => ihb hhi h1 hl hlen₁ hr₁ hb₁) hb₁)
      (g := fun a' b' => do
        let sum ← SumTree.rebuildByOverlap l r value x z a' b' lo hi
        return .node sum z a' b') ?_
    · unfold Stamping.AmendsTo at hx ⊢
      rw [update, segmentLength, inclusiveLength_eq hlt.le (Layout.lt_sizeMax hhi),
        Effect.run_bind_ok (Effect.liftM_ok _ _), if_neg hin, if_pos hlt,
        Effect.run_bind_ok (Effect.run_get s), vectorAt_eq_ok.mpr hn,
        Effect.run_bind_ok (Effect.liftM_ok _ _)]
      simp only [segmentLength, inclusiveLength_eq (show max lo l ≤ min hi r by omega)
        (Layout.lt_sizeMax (show min hi r < maxLength by omega))]
      exact hx
    · intro a' b' j' k' s₂ types₂ hlen₂ hr₂ ho₂ hn₂ ha₂ hb₂
      have hrec₂ : Recent v node := hr₂ node (List.mem_of_getElem? hn₂)
      unfold SumTree.rebuildByOverlap SumAddPolicy.apply
      rcases checkedLength (Segment.length (max lo l) (min hi r)) with e | overlap
      · exact .throw rfl
      unfold Stamping.AmendsTo
      rw [Effect.ok_bind, Effect.run_bind_ok (Effect.liftM_ok _ s₂)]
      rcases checkedMultiply value overlap with e | deltaSum
      · exact .inr ⟨e, s₂, rfl, rfl⟩
      rw [Effect.ok_bind, Effect.run_bind_ok (Effect.liftM_ok _ s₂)]
      by_cases hsame : j' = node.leftChild ∧ k' = node.rightChild
      · obtain ⟨rfl, rfl⟩ := hsame
        rw [if_pos ⟨rfl, rfl⟩]
        rcases hx : checkedAdd x deltaSum with e | sum
        · exact .inr ⟨e, s₂, rfl, modify_error hn₂ hs (.inl hx)⟩
        obtain ⟨j, s₃, hrun, hrec⟩ := modify_ok hn₂ hrec₂ hs hx (checkedAdd_zero z)
        obtain ⟨more, hg, hst⟩ := hrec.halves ho₂ hlen₂ hr₂ hlt ha₂ hb₂
        exact .inl ⟨_, j, s₃, more, rfl, hrun, hg, hst⟩
      · rw [if_neg hsame, hs, Effect.run_bind_ok (Effect.liftM_ok _ s₂)]
        dsimp only
        rcases checkedAdd x deltaSum with e | sum
        · exact .inr ⟨e, s₂, rfl, rfl⟩
        have hrec : stamping.Recorded v s₂.nodes
            (s₂.nodes ++ [⟨j', k', sum, z, 0, emptyBuffer⟩]) i s₂.nodes.length sum z
            (.ok (j', k')) := ⟨_, rfl, rfl, recent_empty, .inr ⟨rfl, rfl⟩⟩
        obtain ⟨more, hg, hst⟩ := hrec.halves ho₂ hlen₂ hr₂ hlt ha₂ hb₂
        refine .inl ⟨_, _, { s₂ with nodes := s₂.nodes ++ [⟨j', k', sum, z, 0, emptyBuffer⟩] }, more,
          rfl, ?_, hg, hst⟩
        rw [Effect.run_bind_ok (Effect.liftM_ok _ s₂), pushNode_run]

end Update

/-! ## The rollback -/

section Rollback

variable {s s' s'' : State} {a b c node : Node} {n k v : ℕ}

/-- The node has `n` entries more. -/
structure Buffers (a b : Node) (n : ℕ) : Prop where
  base : b.base = a.base
  size : b.bufferSize = a.bufferSize + n
  entries : b.entries.take a.bufferSize = a.entries
  capacity : a.bufferSize ≤ bufferCapacity → b.bufferSize ≤ bufferCapacity

theorem Buffers.refl (a : Node) : Buffers a a 0 := by
  refine ⟨rfl, rfl, ?_, id⟩
  unfold Node.entries
  rw [List.take_take, min_self]

theorem Buffers.trans {n' : ℕ} (h : Buffers a b n) (h' : Buffers b c n') :
    Buffers a c (n + n') := by
  refine ⟨h'.base.trans h.base, by rw [h'.size, h.size, Nat.add_assoc], ?_,
    fun ha => h'.capacity (h.capacity ha)⟩
  rw [← h.entries, ← h'.entries, List.take_take, min_eq_left (by rw [h.size]; omega)]

theorem Buffers.pushEntry {entry : Modification} (h : node.bufferSize < bufferCapacity) :
    Buffers node (node.pushEntry entry h) 1 := by
  refine ⟨rfl, rfl, ?_, fun _ => h⟩
  have hlen : node.entries.length = node.bufferSize := by
    unfold Node.entries
    rw [List.length_take, Vector.length_toList]
    omega
  rw [entries_pushEntry entry h, ← hlen, List.take_left]

/-- What an update does, however it ends: its own list says which nodes it gave an entry. -/
structure Undoable (s t : State) : Prop where
  published : (t.roots, t.arraySize, t.numericDomain) = (s.roots, s.arraySize, s.numericDomain)
  recorded : ∃ more, t.bufferedThisUpdate = s.bufferedThisUpdate ++ more ∧
    ∀ (k : ℕ) (a : Node), s.nodes[k]? = some a →
      ∃ b, t.nodes[k]? = some b ∧ Buffers a b (more.count k)

theorem Undoable.refl (s : State) : Undoable s s :=
  ⟨rfl, [], (List.append_nil _).symm, fun _ a ha => ⟨a, ha, .refl a⟩⟩

theorem Undoable.trans (h : Undoable s s') (h' : Undoable s' s'') : Undoable s s'' := by
  obtain ⟨more, hmore, hn⟩ := h.recorded
  obtain ⟨more', hmore', hn'⟩ := h'.recorded
  refine ⟨h'.published.trans h.published, more ++ more',
    by rw [hmore', hmore, List.append_assoc], fun k a ha => ?_⟩
  obtain ⟨b, hb, hab⟩ := hn k a ha
  obtain ⟨c, hc, hbc⟩ := hn' k b hb
  exact ⟨c, hc, by rw [List.count_append]; exact hab.trans hbc⟩

theorem pushNode_undoable (node : Node) : Effect.Within Undoable (pushNode node) := by
  intro s
  rw [pushNode_run]
  refine ⟨rfl, [], (List.append_nil _).symm, fun k a ha => ⟨a, ?_, .refl a⟩⟩
  show (s.nodes ++ [node])[k]? = some a
  rw [List.getElem?_append_left (List.getElem?_eq_some_iff.mp ha).1, ha]

theorem modify_undoable (i v : ℕ) (deltaSum deltaLazy : ValueType) :
    Effect.Within Undoable (modify i v deltaSum deltaLazy) := by
  intro s
  unfold modify
  rw [Effect.run_bind_ok (Effect.run_get s)]
  rcases hn : vectorAt s.nodes i with e | node
  · exact .refl s
  rw [Effect.run_bind_ok (Effect.liftM_ok _ s)]
  rcases snapshotAt node v with e | latest
  · exact .refl s
  rw [Effect.run_bind_ok (Effect.liftM_ok _ s)]
  rcases checkedAdd latest.sum deltaSum with e | nextSum
  · exact .refl s
  rw [Effect.run_bind_ok (Effect.liftM_ok _ s)]
  rcases checkedAdd latest.lazy deltaLazy with e | nextLazy
  · exact .refl s
  rw [Effect.run_bind_ok (Effect.liftM_ok _ s)]
  by_cases hlt : node.bufferSize < bufferCapacity
  · rw [dif_pos hlt]
    refine ⟨rfl, [i], rfl, fun k a ha => ?_⟩
    show ∃ b, (s.nodes.set i (node.pushEntry _ hlt))[k]? = some b ∧ _
    by_cases hk : i = k
    · subst hk
      rw [vectorAt_eq_ok, ha, Option.some.injEq] at hn
      subst hn
      refine ⟨a.pushEntry _ hlt, List.getElem?_set_self (List.getElem?_eq_some_iff.mp ha).1, ?_⟩
      rw [List.count_singleton_self]
      exact .pushEntry hlt
    · refine ⟨a, by rw [List.getElem?_set_ne hk, ha], ?_⟩
      rw [List.count_eq_zero_of_not_mem (by simpa using Ne.symm hk)]
      exact .refl a
  · rw [dif_neg hlt]
    exact pushNode_undoable _ s

/-- **An update can be undone**, in every state and however it ends. -/
theorem update_undoable (i v lo hi l r : ℕ) (value : ValueType) :
    Effect.Within Undoable (update i v lo hi l r value) := by
  have lift : ∀ {α : Type} (x : Except Exception α),
      Effect.Within Undoable (liftM x : EStateM Exception State α) := Effect.Within.lift Undoable.refl
  have andThen : ∀ {α β : Type} {x : EStateM Exception State α} {f : α → EStateM Exception State β},
      Effect.Within Undoable x → (∀ a, Effect.Within Undoable (f a)) →
        Effect.Within Undoable (x >>= f) :=
    Effect.Within.bind (R := Undoable) fun h h' => h.trans h'
  induction hk : hi - lo using Nat.strong_induction_on generalizing i lo hi with
  | _ k ih =>
    rw [update]
    refine andThen (lift _) fun length => .ite (fun _ => ?_) fun _ => .ite (fun hlt => ?_)
      fun _ => .throw Undoable.refl _
    · exact andThen (lift _) fun _ => andThen (lift _) fun _ => modify_undoable _ _ _ _
    · have h1 := Segment.le_midpoint lo hi
      have h2 := Segment.midpoint_lt hlt
      refine andThen (.of_state Undoable.refl fun _ => rfl) fun this =>
        andThen (lift _) fun current =>
        andThen (.ite (fun _ => ih _ ?_ _ _ _ rfl) fun _ => .pure Undoable.refl _) fun newLeft =>
        andThen (.ite (fun _ => ih _ ?_ _ _ _ rfl) fun _ => .pure Undoable.refl _) fun newRight =>
        andThen (lift _) fun overlap => andThen (lift _) fun _ => andThen (lift _) fun deltaSum =>
        .ite (fun _ => modify_undoable _ _ _ _) fun _ =>
          andThen (lift _) fun latest => andThen (lift _) fun sum => pushNode_undoable _
      · omega
      · omega

/-- The node is as it was, but for what its buffer holds past the entries. -/
def SameNode (a b : Node) : Prop :=
  b.base = a.base ∧ b.bufferSize = a.bufferSize ∧ b.entries = a.entries

/-- The state is as it was, node for node. -/
structure Restored (s t : State) : Prop where
  roots : t.roots = s.roots
  arraySize : t.arraySize = s.arraySize
  numericDomain : t.numericDomain = s.numericDomain
  length : t.nodes.length = s.nodes.length
  nodes : ∀ (k : ℕ) (a : Node), s.nodes[k]? = some a → ∃ b, t.nodes[k]? = some b ∧ SameNode a b

theorem Restored.refl (s : State) : Restored s s :=
  ⟨rfl, rfl, rfl, rfl, fun _ a ha => ⟨a, ha, rfl, rfl, rfl⟩⟩

/-- Without its last entries a node is the one before them. -/
theorem Buffers.pop (h : Buffers a b n) : SameNode a { b with bufferSize := b.bufferSize - n } := by
  have hsize : b.bufferSize - n = a.bufferSize := by rw [h.size, Nat.add_sub_cancel]
  refine ⟨h.base, hsize, ?_⟩
  have hentries := h.entries
  unfold Node.entries at hentries ⊢
  rw [List.take_take, min_eq_left (by rw [h.size]; omega)] at hentries
  rw [hsize, hentries]

/-- No entry count below zero is reached. -/
theorem popEntry_eq (hpos : 0 < b.bufferSize) (hmax : b.bufferSize ≤ sizeMax) :
    b.popEntry = { b with bufferSize := b.bufferSize - 1 } := by
  have hmod : (b.bufferSize + sizeMax) % (sizeMax + 1) = b.bufferSize - 1 := by
    have hsum : b.bufferSize + sizeMax = b.bufferSize - 1 + (sizeMax + 1) := by omega
    rw [hsum, Nat.add_mod_right, Nat.mod_eq_of_lt (by omega)]
  unfold Node.popEntry
  rw [hmod]

/-- A node is popped once for each time it is listed. -/
theorem popped_getElem? {nodes : List Node} {indices : List ℕ} (hb : nodes[k]? = some b)
    (hc : indices.count k ≤ b.bufferSize) (hmax : b.bufferSize ≤ sizeMax) :
    (indices.foldl (fun nodes i => nodes.modify i Node.popEntry) nodes)[k]? =
      some { b with bufferSize := b.bufferSize - indices.count k } := by
  induction indices generalizing nodes b with
  | nil => rw [List.foldl_nil, hb]; rfl
  | cons i indices ih =>
    rw [List.foldl_cons]
    by_cases hi : i = k
    · subst hi
      rw [List.count_cons_self] at hc ⊢
      have hb' : (nodes.modify i Node.popEntry)[i]? =
          some { b with bufferSize := b.bufferSize - 1 } := by
        rw [List.getElem?_modify_eq, hb, ← popEntry_eq (by omega) hmax]
        rfl
      rw [ih hb' (by simp only; omega) (by simp only; omega)]
      simp only [Nat.sub_sub, Nat.add_comm 1]
    · rw [List.count_cons_of_ne hi] at hc ⊢
      exact ih (by rw [List.getElem?_modify_ne _ _ hi, hb]) hc hmax

theorem popped_length (indices : List ℕ) (nodes : List Node) :
    (indices.foldl (fun nodes i => nodes.modify i Node.popEntry) nodes).length = nodes.length := by
  induction indices generalizing nodes with
  | nil => rfl
  | cons i indices ih => rw [List.foldl_cons, ih, List.length_modify]

/-- **Rolling back.** -/
theorem Undoable.rollback (h : Undoable s s') (hs : s.bufferedThisUpdate = [])
    (hcap : ∀ node ∈ s.nodes, node.bufferSize ≤ bufferCapacity) :
    Restored s (Effect.finalState (rollback s.nodes.length s')) := by
  obtain ⟨more, hmore, hn⟩ := h.recorded
  rw [hs, List.nil_append] at hmore
  have hpub := h.published
  simp only [Prod.mk.injEq] at hpub
  have hlen : s.nodes.length ≤ s'.nodes.length := by
    by_contra hlt
    obtain ⟨b, hb, -⟩ := hn s'.nodes.length _ (List.getElem?_eq_getElem (not_le.mp hlt))
    exact absurd (List.getElem?_eq_some_iff.mp hb).1 (lt_irrefl _)
  refine ⟨hpub.1, hpub.2.1, hpub.2.2, ?_, fun k a ha => ?_⟩
  · show (List.take _ (s'.bufferedThisUpdate.foldl _ s'.nodes)).length = _
    rw [List.length_take, popped_length, min_eq_left hlen]
  · obtain ⟨b, hb, hab⟩ := hn k a ha
    have hk := (List.getElem?_eq_some_iff.mp ha).1
    have hbcap := hab.capacity (hcap a (List.mem_of_getElem? ha))
    refine ⟨{ b with bufferSize := b.bufferSize - more.count k }, ?_, hab.pop⟩
    show (List.take _ (s'.bufferedThisUpdate.foldl _ s'.nodes))[k]? = _
    rw [List.getElem?_take_of_lt hk, hmore]
    exact popped_getElem? hb (by rw [hab.size]; omega)
      (hbcap.trans (by unfold sizeMax bufferCapacity; omega))

/-- A restored node is read the same. -/
theorem SameNode.alike (h : SameNode a b) : stamping.Alike a b := by
  obtain ⟨hbase, hsize, hentries⟩ := h
  refine ⟨fun v => ⟨?_, children_of_base hbase⟩, fun v hr => ⟨hsize ▸ hr.1, ?_⟩⟩
  · have hsnapshot : snapshotAt b v = snapshotAt a v := by
      rw [snapshotAt_of_base hbase, hentries, snapshotAt]
    simp only [stamping, readingAt, hsnapshot]
  · rw [hentries]
    exact hr.2

end Rollback

/-! ## Whole runs -/

/-- The state stores the trees. -/
structure StoresVersions (s : State) (m : VersionedTrees) : Prop where
  size : s.arraySize = m.size
  domain : s.numericDomain = m.guard
  all : stamping.StoresAll m.size s.nodes s.roots m.trees

variable {s s' : State} {m : VersionedTrees} {h : History (List ValueType)} {v l r : ℕ}
  {value : ValueType}

/-- A restored state stores what it did. -/
theorem Restored.stores (hr : Restored s s') (hs : StoresVersions s m) : StoresVersions s' m := by
  refine ⟨hr.arraySize.trans hs.size, hr.numericDomain.trans hs.domain, ?_⟩
  rw [hr.roots]
  refine hs.all.congr hr.length fun k a ha => ?_
  obtain ⟨b, hb, hab⟩ := hr.nodes k a ha
  exact ⟨b, hb, hab.alike⟩

/-- **One addition.** It returns the number of the next version, which the versioned trees have
too, or it throws what they throw and restores the state. -/
theorem rangeAdd_outcome (hs : StoresVersions s m) (hv : m.Valid .absorbing h.adds) (l r : ℕ)
    (value : ValueType) :
    (∃ m' s', m.rangeAdd .absorbing l r value = .ok m' ∧
        rangeAdd l r value s = .ok m.trees.length s' ∧ StoresVersions s' m') ∨
      ∃ e s', m.rangeAdd .absorbing l r value = .error e ∧
        rangeAdd l r value s = .error e s' ∧ Restored s s' := by
  obtain ⟨t, ht, -⟩ := hv.latest
  have hcount : s.roots.length = m.trees.length := hs.all.count
  have hpos : 0 < m.trees.length := by
    rw [hv.versions]
    exact RangeAdds.versionCount_pos
  unfold rangeAdd
  rw [Effect.run_bind_ok (Effect.run_get s), hs.size, hs.domain,
    validateInitialized_eq_ok.mpr (hcount ▸ hpos), Effect.run_bind_ok (Effect.liftM_ok _ s)]
  rcases h1 : validateNonEmpty m.size with e | ⟨⟩
  · exact .inr ⟨e, s, hv.rangeAdd_not_admitted (by rw [h1]; rfl), rfl, .refl s⟩
  rcases h2 : validateRange m.size l r with e | ⟨⟩
  · exact .inr ⟨e, s, hv.rangeAdd_not_admitted (by rw [h1, h2]; rfl), rfl, .refl s⟩
  rw [Effect.run_bind_ok (Effect.liftM_ok _ s), Effect.run_bind_ok (Effect.liftM_ok _ s)]
  have hn := validateNonEmpty_eq_ok.mp h1
  obtain ⟨hlr, hr⟩ := validateRange_eq_ok.mp h2
  have hsize := hv.size_le
  obtain ⟨types, hlen, hst⟩ := hs.all.stores hn
  obtain ⟨root, hroot, hlatest⟩ := hs.all.latest hst ht
  rw [vectorAt_eq_ok.mpr hroot, Effect.run_bind_ok (Effect.liftM_ok _ s)]
  by_cases h0 : value = 0
  · subst h0
    rw [if_pos rfl]
    refine .inl ⟨_, { s with roots := s.roots ++ [root] }, VersionedTrees.rangeAdd_zero hlr hr ht,
      ?_, hs.size, hs.domain, hs.all.republish hroot ht⟩
    rw [Effect.run_bind_ok (Effect.run_modifyThe _ s), Effect.run_bind_ok (Effect.run_get _),
      Effect.run_pure, List.length_append, hcount]
    rfl
  rw [if_neg h0]
  have hmat : ∀ values, materialize s.nodes (s.roots.length - 1) root 0 (m.size - 1) 0 values =
      t.materialize 0 values := fun values => Layout.materialize_eq (hlatest _ le_rfl)
  simp only [hmat]
  rcases hb : m.guard.preflight m.size l r value (fun values => t.materialize 0 values) with e | next
  · refine .inr ⟨e, s, VersionedTrees.rangeAdd_throws hlr hr h0 ht (.inl ?_), rfl, .refl s⟩
    exact (SumAddDomainGuard.preflight_eq_error.mp hb)
  rw [SumAddDomainGuard.preflight_eq_ok] at hb
  rw [Effect.run_bind_ok (Effect.liftM_ok next s), Effect.run_bind_ok (Effect.run_modifyThe _ s)]
  have hrecent : ∀ node ∈ s.nodes, Recent s.roots.length node :=
    fun node hnode => stamping.recent_mono (Nat.sub_le _ _) (hs.all.recent node hnode)
  have hund := update_undoable root s.roots.length 0 (m.size - 1) l r value
    { s with bufferedThisUpdate := [] }
  rcases update_amends (s := { s with bufferedThisUpdate := [] }) (l := l) (r := r)
    value (show m.size - 1 < maxLength by omega) hlr (by omega) (Nat.zero_le r) hlen
    hrecent (hlatest _ (Nat.sub_le _ _)) with
    ⟨t', j, s₁, more, hu, hx, hg, hst'⟩ | ⟨e, s₁, hu, hx⟩ <;> rw [hx] at hund
  · obtain ⟨hroots, harray, -⟩ : s₁.roots = s.roots ∧ s₁.arraySize = s.arraySize ∧ _ := by
      simpa only [Effect.finalState_ok, Prod.mk.injEq] using hund.published
    have hrun : publishUpdate root s.roots.length m.size l r value
        { s with bufferedThisUpdate := [] } = .ok ⟨⟩ { s₁ with roots := s₁.roots ++ [j] } := by
      unfold publishUpdate
      rw [Effect.run_bind_ok hx]
      rfl
    rw [Effect.run_bind_ok (Effect.onThrow_ok hrun), Effect.run_bind_ok (Effect.run_modifyThe _ _),
      Effect.run_bind_ok (Effect.run_get _), Effect.run_pure]
    refine .inl ⟨⟨m.size, m.trees ++ [t'], next⟩,
      { s₁ with roots := s₁.roots ++ [j], numericDomain := next }, ?_, ?_, harray.trans hs.size,
      rfl, ?_⟩
    · exact VersionedTrees.rangeAdd_publishes hlr hr h0 ht hb hu
    · rw [List.length_append, hroots, hcount]
      rfl
    · rw [hroots]
      exact hs.all.publish hst hg hst'
  · have hrun : publishUpdate root s.roots.length m.size l r value
        { s with bufferedThisUpdate := [] } = .error e s₁ := Effect.run_bind_error hx
    have hback := hund.rollback rfl fun node hnode => (hrecent node hnode).1
    rw [Effect.run_bind_error (Effect.onThrow_error hrun)]
    exact .inr ⟨e, _, VersionedTrees.rangeAdd_throws hlr hr h0 ht (.inr ⟨⟨_, hb⟩, hu⟩), rfl,
      hback.roots, hback.arraySize, hback.numericDomain, hback.length, hback.nodes⟩

/-- A successful initialization stores the tree of its array. -/
theorem initialize_outcome {values : List ValueType} {u : Unit}
    (hi : initializeFrom values s = .ok u s') : values.length ≤ maxLength ∧
      ∃ m, VersionedTrees.initializeFrom values = .ok m ∧ StoresVersions s' m := by
  unfold initializeFrom at hi
  unfold VersionedTrees.initializeFrom
  by_cases h0 : values = []
  · simp only [if_pos h0] at hi ⊢
    cases hi
    subst h0
    exact ⟨Nat.zero_le _, _, rfl, rfl, rfl, .of_empty⟩
  have hn : 0 < values.length := List.length_pos_of_ne_nil h0
  simp only [if_neg h0] at hi ⊢
  obtain ⟨hlen, root, nodes, hb, hi⟩ := run_reserved_build_eq_ok hn hi
  cases hi
  obtain ⟨t, ht, hall⟩ := Stamping.StoresAll.of_build (S := stamping) build_reads
    (fun _ => recent_empty) (fun _ _ _ => recent_empty) hb
  exact ⟨hlen, ⟨values.length, [t], .ofValues values⟩, by rw [ht]; rfl, rfl, rfl, hall⟩

/-- One that fails has no room, or the tree of its array throws the same. -/
theorem initialize_error {values : List ValueType} {e : Exception}
    (hi : initializeFrom values s = .error e s') :
    e.OutOfRoom ∨ VersionedTrees.initializeFrom values = .error e := by
  unfold initializeFrom at hi
  by_cases h0 : values = []
  · simp only [if_pos h0] at hi
    cases hi
  simp only [if_neg h0] at hi
  rcases run_reserved_build_eq_error hi with hroom | ⟨nodes, hb⟩ | ⟨root, nodes, -, hi⟩
  · exact .inl hroom
  · right
    rw [VersionedTrees.initializeFrom, if_neg h0, buildArena_error build_reads (Nat.zero_le _) hb]
    rfl
  · cases hi

/-- A failed initialization leaves the state as it was. -/
theorem initializeFrom_atomic (values : List ValueType) : Effect.Atomic (initializeFrom values) :=
  .ite (fun _ => .set _) fun _ => .bind_lift fun _ => .bind_lift fun _ => .bind_lift fun _ => .set _

/-- A tree without versions admits no addition. -/
theorem rangeAdd_fresh (hs : s.roots = []) (l r : ℕ) (value : ValueType) :
    rangeAdd l r value s = .error (.runtimeError "Tree has no versions.") s := by
  unfold rangeAdd
  rw [Effect.run_bind_ok (Effect.run_get s), hs]
  rfl

/-- **Buffered nodes publish versioned trees.** -/
def simulation : Simulation engine .absorbing where
  Fresh s := s.roots = []
  Rel _ s m := StoresVersions s m
  empty := rfl
  initialize_ok hi := initialize_outcome hi
  initialize_error hi := initializeFrom_atomic _ _ _ _ hi
  rangeAdd_fresh l r value hs := ⟨_, rangeAdd_fresh hs l r value⟩
  rangeAdd_ok {h l r value s s' x m} hs hv hi := by
    have hi' : rangeAdd l r value s = .ok x s' := hi
    rcases rangeAdd_outcome hs hv l r value with ⟨m', s'', hm, hr, hs'⟩ | ⟨e, s'', -, hr, -⟩ <;>
      rw [hr] at hi' <;> cases hi'
    exact ⟨m', hm, hs'⟩
  rangeAdd_error {h l r value s s' e m} hs hv hi := by
    have hi' : rangeAdd l r value s = .error e s' := hi
    rcases rangeAdd_outcome hs hv l r value with ⟨m', s'', hm, hr, hs'⟩ | ⟨e, s'', -, hr, hback⟩ <;>
      rw [hr] at hi' <;> cases hi'
    exact hback.stores hs

/-- Sums are those of the stored trees. -/
theorem rangeSum_eq (hs : StoresVersions s m) (hsize : m.size ≤ maxLength) :
    rangeSum s v l r = m.rangeSum v l r := by
  unfold rangeSum
  rw [hs.size]
  exact VersionedTrees.rangeSum_congr hs.all.count rfl fun hn hv => hs.all.query_eq hsize hn hv

/-- **Reachable states.** They store valid trees of their histories, and a sum is the trees'. -/
theorem reaches (hr : engine.Reachable s h) : ∃ m : VersionedTrees, m.size = h.size ∧
    StoresVersions s m ∧ m.Valid .absorbing h.adds ∧
      ∀ v l r, rangeSum s v l r = m.rangeSum v l r := by
  obtain ⟨m, hsize, hrel, hvalid⟩ := simulation.reaches hr
  exact ⟨m, hsize, hrel, hvalid, fun v l r => rangeSum_eq hrel hvalid.size_le⟩

/-- **Buffers are isolated.** A sum that is returned is exact; after an addition, whether it returns
or throws, the versions published before answer every sum the same way; and an addition that
throws restores the state. -/
theorem buffers_isolated (hr : engine.Reachable s h) :
    (∀ v l r x, rangeSum s v l r = .ok x → x.toInt = Segment.sum (h.adds.array v) l r) ∧
      (∀ a b value, ∀ v < versionCount s, ∀ l r,
        rangeSum (Effect.finalState (rangeAdd a b value s)) v l r = rangeSum s v l r) ∧
        ∀ a b value e s', rangeAdd a b value s = .error e s' → Restored s s' := by
  obtain ⟨m, -, hrel, hvalid, hsum⟩ := reaches hr
  have hcount : versionCount s = m.trees.length := hrel.all.count
  refine ⟨fun v l r x hx => ?_, fun a b value v hv l r => ?_, fun a b value e s' hx => ?_⟩
  · rw [hsum] at hx
    exact hvalid.rangeSum_exact hx
  · rw [hcount] at hv
    rcases rangeAdd_outcome hrel hvalid a b value with ⟨m', s', hm, hadd, hrel'⟩ |
      ⟨e, s', -, hadd, hback⟩
    · obtain ⟨hsize, hpre, hvalid'⟩ := hvalid.rangeAdd hm
      rw [hadd, Effect.finalState_ok, hsum, rangeSum_eq hrel' hvalid'.size_le,
        VersionedTrees.rangeSum_of_prefix hpre hsize hv]
    · rw [hadd, Effect.finalState_error, hsum, rangeSum_eq (hback.stores hrel) hvalid.size_le]
  · rcases rangeAdd_outcome hrel hvalid a b value with ⟨m', s'', -, hadd, -⟩ |
      ⟨e', s'', -, hadd, hback⟩ <;>
      rw [hadd] at hx <;> cases hx
    exact hback

/-- Two deltas that cancel are stacked on the tag of `[2, 3]`. -/
abbrev cancellingCalls : List (Call (List ValueType)) :=
  [.initializeFrom [0, 0, 0, 0], .rangeAdd 2 3 (2 ^ 62 - 1), .rangeAdd 2 2 (-(2 ^ 62 - 1)),
    .rangeAdd 3 3 (-(2 ^ 62 - 1)), .rangeAdd 2 3 (2 ^ 62 - 1), .rangeAdd 2 2 (-(2 ^ 62 - 1)),
    .rangeAdd 3 3 (-(2 ^ 62 - 1))]

/-- The next addition reaches the left half before the tag overflows; version 4 keeps its sum. -/
theorem buffers_isolated_cancelling :
    Overflows (Effect.outcome (rangeAdd 1 3 2 (engine.run cancellingCalls).1)) ∧
      rangeSum (Effect.finalState (rangeAdd 1 3 2 (engine.run cancellingCalls).1)) 4 0 3 =
        .ok (2 ^ 63 - 2) := by
  have hsum : rangeSum (engine.run cancellingCalls).1 4 0 3 = .ok (2 ^ 63 - 2) := by
    decide +kernel
  have hr : engine.Reachable (engine.run cancellingCalls).1 (engine.historyOf [0, 0, 0, 0]
      [⟨2, 3, 2 ^ 62 - 1⟩, ⟨2, 2, -(2 ^ 62 - 1)⟩, ⟨3, 3, -(2 ^ 62 - 1)⟩, ⟨2, 3, 2 ^ 62 - 1⟩,
        ⟨2, 2, -(2 ^ 62 - 1)⟩, ⟨3, 3, -(2 ^ 62 - 1)⟩]) := Engine.reachable_run (by decide +kernel)
  refine ⟨⟨"policy addition is not representable", by decide +kernel⟩, ?_⟩
  rw [(buffers_isolated hr).2.1 1 3 2 4 (by decide +kernel), hsum]

/-! ## Reading the latest version -/

/-- The traversal that the tree hands to its guard. -/
def materializeLatest (this : State) (values : List ValueType) :
    Except Exception (List ValueType) := do
  let latestRoot ← vectorAt this.roots (this.roots.length - 1)
  materialize this.nodes (this.roots.length - 1) latestRoot 0 (this.arraySize - 1) 0 values

/-- The guard decides exactly, and every element of the latest version is returned. -/
def LatestExact (s : State) (h : History (List ValueType)) : Prop :=
  GuardExact s.numericDomain s.arraySize (materializeLatest s) h.adds.latest ∧
    ∀ i < h.size, ∃ x, rangeSum s (versionCount s - 1) i i = .ok x ∧ x.toInt = h.adds.latest i

/-- **The latest version.** It is read exactly as long as what the additions gave to all of a
canonical segment of two or more indices is representable, for each of these segments. -/
theorem latestExact_iff (hr : engine.Reachable s h) (hn : 0 < h.size) :
    LatestExact s h ↔ ∀ a b, Segment.Canonical 0 (h.size - 1) a b → a < b →
      Representable (h.adds.covering h.adds.updates.length a b) := by
  obtain ⟨m, hsize, hrel, hvalid, hsum⟩ := reaches hr
  rw [← hsize] at hn
  obtain ⟨t, ht, -⟩ := hvalid.latest
  obtain ⟨types, -, hst⟩ := hrel.all.stores hn
  obtain ⟨root, hroot, hlatest⟩ := hrel.all.latest hst ht
  have hmat : materializeLatest s = fun values => t.materialize 0 values := by
    funext values
    unfold materializeLatest
    rw [vectorAt_eq_ok.mpr hroot, Effect.ok_bind, hrel.size]
    exact Layout.materialize_eq (hlatest _ le_rfl)
  have hcount : m.trees.length - 1 = h.adds.updates.length := by
    rw [hvalid.versions]
    rfl
  have hver : versionCount s - 1 = m.trees.length - 1 := by
    rw [versionCount, hrel.all.count]
  have hin := hvalid.innerTags_iff hn ht
  rw [hcount, hsize] at hin
  rw [← hin, LatestExact, hmat, hrel.size, hrel.domain, hver, ← hsize]
  constructor
  · rintro ⟨⟨⟨xs, hxs, -⟩, -, -⟩, -⟩
    exact (hvalid.materialize_returns hn ht).mp ⟨xs, hxs⟩
  · intro htags
    have hleaves := hvalid.leaves hn ht ((hvalid.materialize_returns hn ht).mpr htags)
    refine ⟨.of_leaves hleaves (hvalid.bound rfl), fun i hi => ?_⟩
    obtain ⟨x, hx, hexact⟩ := hvalid.rangeSum_element ht hi htags
    rw [hcount] at hx hexact
    exact ⟨x, by rw [hsum, hcount, hx], hexact⟩

/-- `2 ^ 62 - 1` is added to two elements twice, and taken off each of them in between. -/
def stackedCalls : List (Call (List ValueType)) :=
  [.initializeFrom [-2 ^ 62, -2 ^ 62, 0], .rangeAdd 0 1 (2 ^ 62 - 1), .rangeAdd 0 0 (-(2 ^ 62 - 1)),
    .rangeAdd 1 1 (-(2 ^ 62 - 1)), .rangeAdd 0 1 (2 ^ 62 - 1), .rangeAdd 0 2 2]

/-- All of the additions return. -/
def stackedHistory : History (List ValueType) := engine.historyOf [-2 ^ 62, -2 ^ 62, 0]
  [⟨0, 1, 2 ^ 62 - 1⟩, ⟨0, 0, -(2 ^ 62 - 1)⟩, ⟨1, 1, -(2 ^ 62 - 1)⟩, ⟨0, 1, 2 ^ 62 - 1⟩, ⟨0, 2, 2⟩]

theorem stackedCalls_reachable : engine.Reachable (engine.run stackedCalls).1 stackedHistory :=
  Engine.reachable_run (by decide +kernel)

/-- The first element is 1, and is not returned. -/
theorem stackedCalls_not_exact : ¬ LatestExact (engine.run stackedCalls).1 stackedHistory := by
  rintro ⟨-, hall⟩
  obtain ⟨x, hx, -⟩ := hall 0 (by decide)
  have hsum : rangeSum (engine.run stackedCalls).1
      (versionCount (engine.run stackedCalls).1 - 1) 0 0 =
      .error (.overflowError "policy addition is not representable") := by decide +kernel
  rw [hsum] at hx
  cases hx

/-- The latest version is not always read. -/
theorem latestExact_fails : ¬ ∀ s h, engine.Reachable s h → 0 < h.size → LatestExact s h :=
  fun hall => stackedCalls_not_exact (hall _ _ stackedCalls_reachable (by decide))

/-- Some segment was given more than a `long long`. -/
theorem latestExact_iff_stacked : ¬ ∀ a b, Segment.Canonical 0 2 a b → a < b →
    Representable (stackedHistory.adds.covering 5 a b) := fun hfits =>
  stackedCalls_not_exact ((latestExact_iff stackedCalls_reachable (by decide)).mpr hfits)

end BufferedPathCopyingSegmentTree

end Valseg
