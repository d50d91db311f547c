import Valseg.PathCopying

/-!
# PersistentLazySegmentTree

`persistent_lazy_segment_tree.cpp`: path copying in which a tag is never pushed. A fully covered
node is copied with the delta in its sum and its tag; a partially covered one is copied with its
own tag and rebuilt over its new children. `update_mirrors` says that one update does this to the
stored tree, and `simulation` that whole runs publish versioned trees of the retaining discipline.
-/

namespace Valseg


namespace PersistentLazySegmentTree

structure Node where
  leftChild : ℕ
  rightChild : ℕ
  sum : ValueType
  lazy : ValueType
  deriving DecidableEq, Repr

def reading : NodeReading Node where
  state node := .ok (node.sum, node.lazy)
  childrenOf node := .ok (node.leftChild, node.rightChild)

def build : List ValueType → (segmentLeft segmentRight : ℕ) → ArenaM Node ℕ :=
  buildArena (fun value => ⟨noNode, noNode, value, 0⟩)
    (fun leftRoot rightRoot sum => ⟨leftRoot, rightRoot, sum, 0⟩) Node.sum

def update (nodeIndex segmentLeft segmentRight queryLeft queryRight : ℕ) (value : ValueType) :
    ArenaM Node ℕ := do
  let current ← readNode nodeIndex
  let length ← inclusiveLength segmentLeft segmentRight
  if queryLeft ≤ segmentLeft ∧ segmentRight ≤ queryRight then do
    let sum ← SumAddPolicy.apply value current.sum length
    let lazy ← checkedAdd current.lazy value
    pushBack ⟨current.leftChild, current.rightChild, sum, lazy⟩
  else if segmentLeft < segmentRight then do
    let middle := Segment.midpoint segmentLeft segmentRight
    let newLeft ← (if queryLeft ≤ middle then
      update current.leftChild segmentLeft middle queryLeft queryRight value
      else pure current.leftChild)
    let newRight ← (if queryRight > middle then
      update current.rightChild (middle + 1) segmentRight queryLeft queryRight value
      else pure current.rightChild)
    let leftNode ← readNode newLeft
    let rightNode ← readNode newRight
    let childSum ← checkedAdd leftNode.sum rightNode.sum
    let sum ← SumAddPolicy.apply current.lazy childSum length
    pushBack ⟨newLeft, newRight, sum, current.lazy⟩
  else throw .undefined
termination_by segmentRight - segmentLeft
decreasing_by all_goals (simp only [Segment.midpoint] at *; omega)

def query (nodes : List Node) : (nodeIndex segmentLeft segmentRight queryLeft queryRight : ℕ) →
    (inheritedLazy : ValueType) → Except Exception ValueType := (reading.on nodes).query

def materialize (nodes : List Node) : (nodeIndex segmentLeft segmentRight : ℕ) →
    (inheritedLazy : ValueType) → List ValueType → Except Exception (List ValueType) :=
  (reading.on nodes).materialize

def parts : PathCopying Node SumAddDomainGuard where
  nodeSize := 32
  emptyDomain := {}
  domainOf := SumAddDomainGuard.ofValues
  preflight this latestRoot left right value :=
    this.numericDomain.preflight this.arraySize left right value
      fun values => materialize this.nodes latestRoot 0 (this.arraySize - 1) 0 values
  build := build
  update := update

/-- The state of the tree. -/
abbrev State := PathCopyingTree Node SumAddDomainGuard

def initializeFrom : List ValueType → EStateM Exception State Unit := parts.initializeFrom

def rangeAdd : (left right : ℕ) → ValueType → EStateM Exception State ℕ := parts.rangeAdd

def rangeSum (this : State) (version left right : ℕ) : Except Exception ValueType := do
  validateInitialized this.roots.length
  validateVersion version this.roots.length
  validateNonEmpty this.arraySize
  validateRange this.arraySize left right
  let root ← vectorAt this.roots version
  query this.nodes root 0 (this.arraySize - 1) left right 0

def versionCount (this : State) : ℕ := this.roots.length

/-- The structure and its writing operations. -/
abbrev engine : Engine (List ValueType) ℕ State := parts.engine

/-! ## One update -/

theorem build_reads : BuildReads reading (fun value => (⟨noNode, noNode, value, 0⟩ : Node))
    (fun leftRoot rightRoot sum => ⟨leftRoot, rightRoot, sum, 0⟩) Node.sum where
  leaf_state _ := rfl
  inner_state _ _ _ := rfl
  inner_children _ _ _ := rfl
  leaf_sum _ := rfl
  inner_sum _ _ _ := rfl

section Update

variable {nodes : List Node} {t a b : SumTree} {i j k lo hi l r : ℕ} {value : ValueType}
  {node : Node}

/-- A stored root is read as its node. -/
theorem exists_node (h : (reading.on nodes).Stores anyone t i lo hi) :
    ∃ node, nodes[i]? = some node ∧ node.sum = t.sum ∧ node.lazy = t.tag := by
  obtain ⟨node, hn, hs⟩ := NodeReading.exists_of_stores h
  simp only [reading, Except.ok.injEq, Prod.mk.injEq] at hs
  exact ⟨node, hn, hs.1, hs.2⟩

/-- A fully covered node is copied with the delta. -/
theorem cover_mirrors (h : (reading.on nodes).Stores anyone t i lo hi)
    (hn : nodes[i]? = some node) (hs : node.sum = t.sum) (hz : node.lazy = t.tag) :
    Mirrors reading nodes ((do
        let sum ← SumAddPolicy.apply value node.sum (Segment.length lo hi)
        let lazy ← checkedAdd node.lazy value
        pushBack (⟨node.leftChild, node.rightChild, sum, lazy⟩ : Node) : ArenaM Node ℕ) nodes)
      (t.cover lo hi value) lo hi := by
  unfold SumTree.cover
  rw [hs, hz]
  rcases SumAddPolicy.apply value t.sum (Segment.length lo hi) with e | sum
  · exact Mirrors.throw e
  rcases checkedAdd t.tag value with e | lazy
  · exact Mirrors.throw e
  · refine .inl ⟨t.setRoot sum lazy, nodes.length, [⟨node.leftChild, node.rightChild, sum, lazy⟩],
      rfl, pushBack_run _ _, ?_⟩
    exact NodeReading.stores_push_setRoot h trivial hn rfl rfl

/-- **One update.** It appends the nodes of the updated tree, or throws what the tree throws. -/
theorem update_mirrors (hhi : hi < maxLength) (h1 : l ≤ hi) (h2 : lo ≤ r)
    (h : (reading.on nodes).Stores anyone t i lo hi) :
    Mirrors reading nodes (update i lo hi l r value nodes)
      (SumTree.updateWith SumTree.rebuildFromChildren l r value t lo hi) lo hi := by
  induction t generalizing i lo hi nodes with
  | leaf s z =>
    obtain ⟨node, hn, hs, hz⟩ := exists_node h
    have hle : lo = hi := h.1
    have hin : l ≤ lo ∧ hi ≤ r := by omega
    rw [update, SumTree.updateWith, if_pos hin, Effect.run_bind_ok (readNode_run hn),
      inclusiveLength_eq hle.le (Layout.lt_sizeMax hhi)]
    simp only [if_pos hin]
    exact cover_mirrors h hn hs hz
  | node s z a b iha ihb =>
    obtain ⟨node, hn, hs, hz⟩ := exists_node h
    obtain ⟨hlt, -, -, j, k, hc, ha, hb⟩ := id h
    rw [NodeReading.children_of_getElem? hn] at hc
    cases hc
    have hm := Segment.midpoint_lt hlt
    rw [update, Effect.run_bind_ok (readNode_run hn),
      inclusiveLength_eq hlt.le (Layout.lt_sizeMax hhi), Effect.run_bind_ok (Effect.liftM_ok _ _)]
    by_cases hin : l ≤ lo ∧ hi ≤ r
    · rw [SumTree.updateWith, if_pos hin, if_pos hin]
      exact cover_mirrors h hn hs hz
    rw [SumTree.updateWith, if_neg hin, if_neg hin, if_pos hlt]
    refine Mirrors.halves (Mirrors.half (fun hl => iha (by omega) hl h2 ha) ha)
      (fun more => ?_) fun a' b' j k more _ _ ha' hb' => ?_
    · have hb' := NodeReading.stores_append more hb fun _ _ _ h => h
      exact Mirrors.half (fun hl => ihb hhi h1 hl hb') hb'
    · obtain ⟨na, hna, hsa, -⟩ := exists_node ha'
      obtain ⟨nb, hnb, hsb, -⟩ := exists_node hb'
      rw [Effect.run_bind_ok (readNode_run hna), Effect.run_bind_ok (readNode_run hnb), hsa, hsb,
        SumTree.rebuildFromChildren, hz]
      rcases checkedAdd a'.sum b'.sum with e | childSum
      · exact Mirrors.throw e
      rw [Effect.ok_bind, Effect.run_bind_ok (Effect.liftM_ok _ _), TagTree.tag_node]
      rcases SumAddPolicy.apply z childSum (Segment.length lo hi) with e | sum
      · exact Mirrors.throw e
      rw [Effect.run_bind_ok (Effect.liftM_ok _ _)]
      refine .inl ⟨.node sum z a' b', _, [⟨j, k, sum, z⟩], rfl, pushBack_run _ _, ?_⟩
      exact NodeReading.stores_push_node hlt ha' hb' trivial rfl rfl

/-- An update only appends, in any arena and however it ends. -/
theorem update_appends (i lo hi l r : ℕ) (value : ValueType) :
    Appends (update i lo hi l r value) := by
  induction hk : hi - lo using Nat.strong_induction_on generalizing i lo hi with
  | _ k ih =>
    rw [update]
    refine .bind (.readNode i) fun node => .bind (.lift _) fun length => .ite (fun _ => ?_)
      fun _ => .ite (fun hlt => ?_) fun _ => .throw _
    · exact .bind (.lift _) fun sum => .bind (.lift _) fun lazy => .pushBack _
    · have h1 := Segment.le_midpoint lo hi
      have h2 := Segment.midpoint_lt hlt
      refine .bind (.ite (fun _ => ih _ ?_ _ _ _ rfl) fun _ => .pure _) fun j =>
        .bind (.ite (fun _ => ih _ ?_ _ _ _ rfl) fun _ => .pure _) fun k =>
          .bind (.readNode j) fun _ => .bind (.readNode k) fun _ =>
            .bind (.lift _) fun _ => .bind (.lift _) fun _ => .pushBack _
      · omega
      · omega

end Update

/-! ## Whole runs -/

/-- **Refinement.** -/
def refines : parts.Refines Discipline.retaining where
  reading := reading
  agrees := Eq
  agrees_values _ := rfl
  build_spec := buildArena_stores build_reads
  preflight_spec _ _ _ hag hst := PathCopying.Refines.guard_preflight_spec rfl hag hst
  update_spec _ hhi hlr hr h := update_mirrors hhi (hlr.trans hr) (Nat.zero_le _) h

variable {s : State} {m : VersionedTrees} {h : History (List ValueType)} {v l r : ℕ}

/-- Sums are those of the stored trees. -/
theorem rangeSum_eq (hs : refines.StoresTrees s m) (hsize : m.size ≤ maxLength) :
    rangeSum s v l r = m.rangeSum v l r := by
  unfold rangeSum
  exact VersionedTrees.rangeSum_congr hs.roots hs.size fun hn hv => hs.query_eq hsize hn hv

/-- **Reachable states.** They store valid trees of their histories, and a sum is the trees'. -/
theorem reaches (hr : engine.Reachable s h) : ∃ m : VersionedTrees, m.size = h.size ∧
    refines.StoresTrees s m ∧ m.Valid .retaining h.adds ∧
      ∀ v l r, rangeSum s v l r = m.rangeSum v l r := by
  obtain ⟨m, hsize, hrel, hvalid⟩ := refines.simulation.reaches hr
  exact ⟨m, hsize, hrel, hvalid, fun v l r => rangeSum_eq hrel hvalid.size_le⟩

/-- **Versions of the array.** A tree has one version more than additions returned, each of
which returned its own number, and the sums of a version are the sums of its array. -/
theorem refines_versionedArray (hr : engine.Reachable s h) :
    versionCount s = h.adds.updates.length + 1 ∧
      (∀ l r value x s', rangeAdd l r value s = .ok x s' → x = h.adds.updates.length + 1) ∧
        ∀ v l r x, v ≤ h.adds.updates.length → l ≤ r → r < h.size →
          rangeSum s v l r = .ok x → x.toInt = Segment.sum (h.adds.array v) l r := by
  obtain ⟨m, -, hrel, hvalid, hsum⟩ := reaches hr
  refine ⟨hrel.roots.trans hvalid.versions, fun l r value x s' hx => ?_,
    fun v l r x _ _ _ hx => ?_⟩
  · rcases PathCopying.Refines.rangeAdd_outcome hrel hvalid l r value with
      ⟨m', s'', -, hadd, -⟩ | ⟨e, -, hadd⟩
    · have hx' : parts.rangeAdd l r value s = .ok x s' := hx
      rw [hadd] at hx'
      cases hx'
      exact hvalid.versions
    · have hx' : parts.rangeAdd l r value s = .ok x s' := hx
      rw [hadd] at hx'
      cases hx'
  · rw [hsum] at hx
    exact hvalid.rangeSum_exact hx

/-- Two versions of three elements. -/
theorem refines_versionedArray_three :
    rangeSum (engine.run [.initializeFrom [1, 2, 3], .rangeAdd 0 1 5]).1 1 0 2 = .ok 16 ∧
      Segment.sum ((engine.historyOf [1, 2, 3] [⟨0, 1, 5⟩]).adds.array 1) 0 2 = 16 := by
  have hsum : rangeSum (engine.run [.initializeFrom [1, 2, 3], .rangeAdd 0 1 5]).1 1 0 2 =
      .ok 16 := by decide +kernel
  have hr : engine.Reachable (engine.run [.initializeFrom [1, 2, 3], .rangeAdd 0 1 5]).1
      (engine.historyOf [1, 2, 3] [⟨0, 1, 5⟩]) := Engine.reachable_run (by decide +kernel)
  exact ⟨hsum, ((refines_versionedArray hr).2.2 1 0 2 16 (by decide) (by decide) (by decide)
    hsum).symm⟩

/-- Old sums stay until an initialization succeeds. -/
theorem rangeSum_steady {calls more : List (Call (List ValueType))}
    (hsteady : engine.Steady (engine.run calls) more) (hv : v < versionCount (engine.run calls).1) :
    rangeSum (engine.runFrom (engine.run calls) more).1 v l r =
      rangeSum (engine.run calls).1 v l r := by
  rcases hrun : engine.run calls with ⟨s, _ | h⟩ <;> rw [hrun] at hsteady hv
  · have hfresh : s.roots = [] := refines.simulation.fresh_of_run hrun
    unfold versionCount at hv
    rw [hfresh] at hv
    exact absurd hv (Nat.not_lt_zero v)
  · obtain ⟨m, -, hrel, hvalid⟩ := refines.simulation.reaches ⟨calls, hrun⟩
    have hcount : versionCount s = h.adds.versionCount := hrel.roots.trans hvalid.versions
    exact refines.simulation.steady_sums rangeSum
      (fun hrel hsize v l r => rangeSum_eq hrel hsize) ⟨calls, hrun⟩ hsteady (hcount ▸ hv) l r

/-- **Isolation and atomicity.** In every state an addition keeps the nodes and roots it finds,
or throws and leaves the state as it was; a failed initialization leaves the state as it was; and
until one succeeds, a published version answers every sum the same way. -/
theorem versions_isolated :
    (∀ (s : State) (l r : ℕ) (value : ValueType),
      (∃ x s', rangeAdd l r value s = .ok x s' ∧ s.nodes <+: s'.nodes ∧ s.roots <+: s'.roots) ∨
        ∃ e, rangeAdd l r value s = .error e s) ∧
      (∀ (s : State) (values : List ValueType) (e : Exception) (s' : State),
        initializeFrom values s = .error e s' → s' = s) ∧
        ∀ calls more, engine.Steady (engine.run calls) more →
          ∀ v < versionCount (engine.run calls).1, ∀ l r,
            rangeSum (engine.runFrom (engine.run calls) more).1 v l r =
              rangeSum (engine.run calls).1 v l r :=
  ⟨fun _ _ _ _ => PathCopying.rangeAdd_frame update_appends,
    fun s values e s' h => PathCopying.initializeFrom_atomic values s e s' h,
    fun _ _ hsteady _ hv _ _ => rangeSum_steady hsteady hv⟩

/-! ## Which sums are returned -/

/-- The call returns the sum, or overflows and the sum is not representable. -/
def Complete (s : State) (h : History (List ValueType)) (v l r : ℕ) : Prop :=
  (∃ x, rangeSum s v l r = .ok x ∧ x.toInt = Segment.sum (h.adds.array v) l r) ∨
    (Overflows (rangeSum s v l r) ∧ ¬ Representable (Segment.sum (h.adds.array v) l r))

/-- **Completeness.** A representable sum is returned exactly when everything its query computes
is representable. -/
theorem complete_iff (hr : engine.Reachable s h) (hv : v < versionCount s) (hlr : l ≤ r)
    (hn : r < h.size) :
    Complete s h v l r ↔ ¬ Representable (Segment.sum (h.adds.array v) l r) ∨
      SumTree.QueryFits (h.adds.array v) (h.adds.covering v) 0 (h.size - 1) l r := by
  obtain ⟨m, hsize, hrel, hvalid, hsum⟩ := reaches hr
  have hver : v < h.adds.versionCount := by
    rw [← hvalid.versions, ← hrel.roots]
    exact hv
  rw [← hsize] at hn ⊢
  rw [← hvalid.rangeSum_returns hver hlr hn]
  unfold Complete
  rw [hsum]
  rcases hvalid.rangeSum_cases hver hlr hn with ⟨x, hx, hexact⟩ | hover
  · exact iff_of_true (.inl ⟨x, hx, hexact⟩) (.inr ⟨x, hx⟩)
  · have hno : ¬ Returns (m.rangeSum v l r) := hover.not_returns
    constructor
    · rintro (⟨x, hx, -⟩ | ⟨-, hrep⟩)
      · exact absurd ⟨x, hx⟩ hno
      · exact .inl hrep
    · rintro (hrep | hret)
      · exact .inr ⟨hover, hrep⟩
      · exact absurd hret hno

/-- An array whose part inside `[1, 4]` has a representable sum, over halves that do not. -/
def cancellingArray : List ValueType :=
  [-Int64.maxValue, Int64.maxValue, Int64.maxValue, -Int64.maxValue, 0]

theorem cancellingArray_reachable : engine.Reachable
    (engine.run [.initializeFrom cancellingArray]).1 (engine.historyOf cancellingArray []) :=
  Engine.reachable_run (by decide +kernel)

theorem cancellingArray_not_complete : ¬ Complete
    (engine.run [.initializeFrom cancellingArray]).1 (engine.historyOf cancellingArray []) 0 1 4 := by
  have hsum : rangeSum (engine.run [.initializeFrom cancellingArray]).1 0 1 4 =
      .error (.overflowError "policy addition is not representable") := by decide +kernel
  rintro (⟨x, hx, -⟩ | ⟨-, hrep⟩)
  · rw [hsum] at hx
    cases hx
  · exact hrep (by decide +kernel)

/-- A representable sum is not always returned. -/
theorem complete_fails : ¬ ∀ s h, engine.Reachable s h → ∀ v < versionCount s, ∀ l r, l ≤ r →
    r < h.size → Complete s h v l r := fun hall =>
  cancellingArray_not_complete (hall _ _ cancellingArray_reachable 0 (by decide +kernel) 1 4
    (by decide) (by decide))

/-- The query of that sum computes a number that is not representable. -/
theorem complete_iff_cancellingArray :
    ¬ SumTree.QueryFits (leafArray cancellingArray) (fun _ _ => 0) 0 4 1 4 := fun hfits =>
  cancellingArray_not_complete ((complete_iff cancellingArray_reachable (by decide +kernel)
    (by decide) (by decide)).mpr (.inr hfits))

end PersistentLazySegmentTree

end Valseg
