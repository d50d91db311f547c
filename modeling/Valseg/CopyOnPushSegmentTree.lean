import Valseg.PersistentLazySegmentTree

/-!
# CopyOnPushSegmentTree

`bench/copy_on_push_segment_tree.hpp`: path copying in which an update pushes the tag of a node
into copies of both children before it descends past it. The node and the recursions that only
read are those of `PersistentLazySegmentTree`. `update_mirrors` says that one update does this to
the stored tree, and `reaches` that every run publishes versioned trees of the pushing discipline.
-/

namespace Valseg


namespace CopyOnPushSegmentTree

/-- The same 32-byte node. -/
abbrev Node := PersistentLazySegmentTree.Node

def reading : NodeReading Node := PersistentLazySegmentTree.reading

def span (left right : ℕ) : Except Exception ℕ := inclusiveLength left right

def build : List ValueType → (segmentLeft segmentRight : ℕ) → ArenaM Node ℕ :=
  buildArena (fun value => ⟨noNode, noNode, value, 0⟩)
    (fun leftRoot rightRoot sum => ⟨leftRoot, rightRoot, sum, 0⟩) PersistentLazySegmentTree.Node.sum

def pushInto (source : ℕ) (tag : ValueType) (length : ℕ) : ArenaM Node ℕ := do
  let child ← readNode source
  let sum ← SumAddPolicy.apply tag child.sum length
  let lazy ← checkedAdd child.lazy tag
  pushBack ⟨child.leftChild, child.rightChild, sum, lazy⟩

def update (nodeIndex segmentLeft segmentRight queryLeft queryRight : ℕ) (value : ValueType) :
    ArenaM Node ℕ := do
  let current ← readNode nodeIndex
  let length ← span segmentLeft segmentRight
  if queryLeft ≤ segmentLeft ∧ segmentRight ≤ queryRight then do
    let sum ← SumAddPolicy.apply value current.sum length
    let lazy ← checkedAdd current.lazy value
    pushBack ⟨current.leftChild, current.rightChild, sum, lazy⟩
  else if segmentLeft < segmentRight then do
    let middle := Segment.midpoint segmentLeft segmentRight
    let (leftChild, rightChild) ← (if current.lazy ≠ 0 then do
        let leftChild ← pushInto current.leftChild current.lazy (← span segmentLeft middle)
        let rightChild ←
          pushInto current.rightChild current.lazy (← span (middle + 1) segmentRight)
        pure (leftChild, rightChild)
      else pure (current.leftChild, current.rightChild))
    let newLeft ← (if queryLeft ≤ middle then
      update leftChild segmentLeft middle queryLeft queryRight value else pure leftChild)
    let newRight ← (if queryRight > middle then
      update rightChild (middle + 1) segmentRight queryLeft queryRight value else pure rightChild)
    let leftNode ← readNode newLeft
    let rightNode ← readNode newRight
    let sum ← checkedAdd leftNode.sum rightNode.sum
    pushBack ⟨newLeft, newRight, sum, 0⟩
  else throw .undefined
termination_by segmentRight - segmentLeft
decreasing_by all_goals (simp only [Segment.midpoint] at *; omega)

def query (nodes : List Node) : (nodeIndex segmentLeft segmentRight queryLeft queryRight : ℕ) →
    (inherited : ValueType) → Except Exception ValueType := (reading.on nodes).query

def materialize (nodes : List Node) : (nodeIndex segmentLeft segmentRight : ℕ) →
    (inherited : ValueType) → List ValueType → Except Exception (List ValueType) :=
  (reading.on nodes).materialize

def parts : PathCopying Node SumAddDomainGuard where
  nodeSize := 32
  emptyDomain := {}
  domainOf := SumAddDomainGuard.ofValues
  preflight this latestRoot left right value :=
    this.numericDomain.preflight this.arraySize left right value
      fun values => materialize this.nodes latestRoot 0 (this.arraySize - 1) 0 values
  build := build
  update := update

/-- The state of the tree. -/
abbrev State := PathCopyingTree Node SumAddDomainGuard

def initializeFrom : List ValueType → EStateM Exception State Unit := parts.initializeFrom

def rangeAdd : (left right : ℕ) → ValueType → EStateM Exception State ℕ := parts.rangeAdd

def rangeSum (this : State) (version left right : ℕ) : Except Exception ValueType := do
  validateVersion version this.roots.length
  validateInitialized this.roots.length
  validateNonEmpty this.arraySize
  validateRange this.arraySize left right
  let root ← vectorAt this.roots version
  query this.nodes root 0 (this.arraySize - 1) left right 0

def versionCount (this : State) : ℕ := this.roots.length

/-- The structure and its writing operations. -/
abbrev engine : Engine (List ValueType) ℕ State := parts.engine

/-! ## One update -/

section Update

variable {nodes : List Node} {t a b : SumTree} {i j k lo hi l r : ℕ} {value z : ValueType}

/-- A child is copied with the tag. -/
theorem pushInto_mirrors (h : (reading.on nodes).Stores anyone t i lo hi) :
    Mirrors reading nodes (pushInto i value (Segment.length lo hi) nodes) (t.cover lo hi value)
      lo hi := by
  obtain ⟨node, hn, hs, hz⟩ := PersistentLazySegmentTree.exists_node h
  unfold pushInto
  rw [Effect.run_bind_ok (readNode_run hn)]
  exact PersistentLazySegmentTree.cover_mirrors h hn hs hz

/-- Both children are copied with the tag where there is one, and left alone otherwise. -/
theorem pushed_run {f : ℕ × ℕ → ArenaM Node ℕ} (hlt : lo < hi) (hhi : hi < maxLength) :
    ((if value ≠ 0 then do
        let leftChild ← pushInto j value (← span lo (Segment.midpoint lo hi))
        let rightChild ← pushInto k value (← span (Segment.midpoint lo hi + 1) hi)
        pure (leftChild, rightChild)
      else pure (j, k)) >>= f) nodes =
    (do
      let leftChild ←
        (if value ≠ 0 then pushInto j value (Segment.length lo (Segment.midpoint lo hi)) else pure j)
      let rightChild ←
        (if value ≠ 0 then pushInto k value (Segment.length (Segment.midpoint lo hi + 1) hi)
          else pure k)
      f (leftChild, rightChild)) nodes := by
  have hm := Segment.midpoint_lt hlt
  unfold span
  rw [inclusiveLength_eq (Segment.le_midpoint lo hi) (Layout.lt_sizeMax (by omega)),
    inclusiveLength_eq hm (Layout.lt_sizeMax hhi)]
  by_cases hv : value ≠ 0
  · simp only [if_pos hv, bind_assoc, pure_bind]
    rfl
  · simp only [if_neg hv, pure_bind]

/-- **One update.** It appends the nodes of the updated tree, or throws what the tree throws. -/
theorem update_mirrors (value : ValueType) : ∀ lo hi, lo ≤ hi →
    ∀ {t : SumTree} {i : ℕ} {nodes : List Node}, hi < maxLength → l ≤ hi → lo ≤ r →
      (reading.on nodes).Stores anyone t i lo hi →
      Mirrors reading nodes (update i lo hi l r value nodes)
        (SumTree.updatePush l r value t lo hi) lo hi := by
  refine Segment.halving_induction ?_ ?_
  · intro m t i nodes hhi h1 h2 h
    obtain ⟨node, hn, hs, hz⟩ := PersistentLazySegmentTree.exists_node h
    cases t with
    | leaf s z =>
      have hin : l ≤ m ∧ m ≤ r := ⟨h1, h2⟩
      rw [update, SumTree.updatePush, if_pos hin, Effect.run_bind_ok (readNode_run hn), span,
        inclusiveLength_eq le_rfl (Layout.lt_sizeMax hhi)]
      simp only [if_pos hin]
      exact PersistentLazySegmentTree.cover_mirrors h hn hs hz
    | node s z a b => exact absurd h.1 (lt_irrefl m)
  · intro lo hi hlt ihl ihr t i nodes hhi h1 h2 h
    obtain ⟨node, hn, hs, hz⟩ := PersistentLazySegmentTree.exists_node h
    cases t with
    | leaf s z => exact absurd h.1 hlt.ne
    | node s z a b =>
      rw [update, Effect.run_bind_ok (readNode_run hn), span,
        inclusiveLength_eq hlt.le (Layout.lt_sizeMax hhi), Effect.run_bind_ok (Effect.liftM_ok _ _)]
      by_cases hin : l ≤ lo ∧ hi ≤ r
      · rw [SumTree.updatePush, if_pos hin, if_pos hin]
        exact PersistentLazySegmentTree.cover_mirrors h hn hs hz
      obtain ⟨-, -, -, j, k, hc, ha, hb⟩ := h
      rw [NodeReading.children_of_getElem? hn] at hc
      cases hc
      have hm := Segment.midpoint_lt hlt
      have hmax : Segment.midpoint lo hi < maxLength := by omega
      rw [SumTree.updatePush, if_neg hin, if_neg hin, if_pos hlt, if_pos hlt, hz,
        pushed_run hlt hhi]
      refine Mirrors.halves (Mirrors.half (fun _ => pushInto_mirrors ha) ha) (fun more => ?_)
        fun pa pb j k more _ _ hpa hpb => Mirrors.halves
          (Mirrors.half (fun hl => ihl hmax hl h2 hpa) hpa) (fun more => ?_)
          fun a' b' j k more _ _ ha' hb' => ?_
      · have hb' := NodeReading.stores_append more hb fun _ _ _ h => h
        exact Mirrors.half (fun _ => pushInto_mirrors hb') hb'
      · have hpb' := NodeReading.stores_append more hpb fun _ _ _ h => h
        exact Mirrors.half (fun hl => ihr hhi h1 hl hpb') hpb'
      · obtain ⟨na, hna, hsa, -⟩ := PersistentLazySegmentTree.exists_node ha'
        obtain ⟨nb, hnb, hsb, -⟩ := PersistentLazySegmentTree.exists_node hb'
        rw [Effect.run_bind_ok (readNode_run hna), Effect.run_bind_ok (readNode_run hnb), hsa, hsb]
        rcases checkedAdd a'.sum b'.sum with e | sum
        · exact Mirrors.throw e
        rw [Effect.run_bind_ok (Effect.liftM_ok _ _)]
        refine .inl ⟨.node sum 0 a' b', _, [⟨j, k, sum, 0⟩], rfl, pushBack_run _ _, ?_⟩
        exact NodeReading.stores_push_node hlt ha' hb' trivial rfl rfl

end Update

/-! ## Whole runs -/

/-- **Refinement.** -/
def refines : parts.Refines Discipline.pushing where
  reading := reading
  agrees := Eq
  agrees_values _ := rfl
  build_spec := buildArena_stores PersistentLazySegmentTree.build_reads
  preflight_spec _ _ _ hag hst := PathCopying.Refines.guard_preflight_spec rfl hag hst
  update_spec value hhi hlr hr h := update_mirrors value 0 _ (Nat.zero_le _) hhi (hlr.trans hr)
    (Nat.zero_le _) h

variable {s : State} {m : VersionedTrees} {h : History (List ValueType)} {v l r : ℕ}

/-- Sums are those of the stored trees. -/
theorem rangeSum_eq (hs : refines.StoresTrees s m) (hv : m.Valid .pushing h.adds) :
    rangeSum s v l r = m.rangeSum v l r := by
  have hcount : 0 < m.trees.length := by
    rw [hv.versions]
    exact RangeAdds.versionCount_pos
  unfold rangeSum VersionedTrees.rangeSum
  rw [hs.roots, validateInitialized_eq_ok.mpr hcount]
  rcases h2 : validateVersion v m.trees.length with e | ⟨⟩
  · rfl
  rw [hs.size]
  rcases h3 : validateNonEmpty m.size with e | ⟨⟩
  · rfl
  have key := hs.query_eq (l := l) (r := r) hv.size_le (validateNonEmpty_eq_ok.mp h3)
    (validateVersion_eq_ok.mp h2)
  rw [hs.size] at key
  simp only [Effect.ok_bind]
  exact bind_congr fun _ => key

/-- **Reachable states.** They store valid trees of their histories, and a sum is the trees'. -/
theorem reaches (hr : engine.Reachable s h) : ∃ m : VersionedTrees, m.size = h.size ∧
    refines.StoresTrees s m ∧ m.Valid .pushing h.adds ∧
      ∀ v l r, rangeSum s v l r = m.rangeSum v l r := by
  obtain ⟨m, hsize, hrel, hvalid⟩ := refines.simulation.reaches hr
  exact ⟨m, hsize, hrel, hvalid, fun v l r => rangeSum_eq hrel hvalid⟩

end CopyOnPushSegmentTree

end Valseg
