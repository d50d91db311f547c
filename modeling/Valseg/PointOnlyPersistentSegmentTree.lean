import Valseg.FullCopyPersistentSegmentTree

/-!
# PointOnlyPersistentSegmentTree

`point_only_persistent_segment_tree.cpp`: the baseline without tags that shares what an update
does not meet. Its update goes down to every leaf of the range; the children outside the range
keep their old index. On a tree without tags whose sums are those of its array this is what a full
copy computes (`SumTree.pointOnlyUpdate_eq`), so its runs publish the versioned trees of
`Discipline.copying` too (`rangeAdd_sharing`).
-/

namespace Valseg

open Segment (addOn)

namespace SumTree

/-- An update that copies the nodes that meet the range, and stores no tag. -/
def pointOnlyUpdate (l r : ℕ) (value : ValueType) : SumTree → ℕ → ℕ → Except Exception SumTree
  | .leaf s _, _, _ => do return .leaf (← checkedAdd s value) 0
  | .node _ _ left right, lo, hi => do
    let newLeft ← (if l ≤ Segment.midpoint lo hi then
      pointOnlyUpdate l r value left lo (Segment.midpoint lo hi) else pure left)
    let newRight ← (if r > Segment.midpoint lo hi then
      pointOnlyUpdate l r value right (Segment.midpoint lo hi + 1) hi else pure right)
    let sum ← checkedAdd newLeft.sum newRight.sum
    return .node sum 0 newLeft newRight

variable {t : SumTree} {lo hi l r : ℕ} {A : ℕ → ℤ}

/-- The tag of a node without a tag. -/
theorem Untagged.tag_eq (h : t.Untagged lo hi) : t.tag = 0 := by
  have h0 := h.root
  rw [zero_add] at h0
  rw [← Int64.toInt_inj, h0, Int64.toInt_zero]

/-- A full copy of a tree that does not meet the range is that tree. -/
theorem fullCopyUpdate_apart (value : ValueType) (h : t.Represents Int64.toInt lo hi A)
    (ht : t.Untagged lo hi) (hd : hi < l ∨ r < lo) : fullCopyUpdate l r value t lo hi = .ok t := by
  induction t generalizing lo hi A with
  | leaf s z =>
    obtain rfl : z = 0 := ht.tag_eq
    have hle : lo = hi := h.1
    rw [fullCopyUpdate, if_neg (by omega)]
    rfl
  | node s z a b iha ihb =>
    obtain rfl : z = 0 := ht.tag_eq
    have hlt := h.1
    have hs := h.2.1
    obtain ⟨ha, hat, hb, hbt⟩ := untagged_halves h ht
    have h1 := Segment.le_midpoint lo hi
    have h2 := Segment.midpoint_lt hlt
    have hsum : checkedAdd a.sum b.sum = .ok s := by
      rw [checkedAdd_eq_ok, hs, Segment.sum_split hlt, ha.sum_eq, hb.sum_eq]
    rw [fullCopyUpdate, iha ha hat (by omega), ihb hb hbt (by omega), Effect.ok_bind,
      Effect.ok_bind, hsum]
    rfl

/-- **Sharing.** Where the range meets the segment, the update is a full copy. -/
theorem pointOnlyUpdate_eq (value : ValueType) (h1 : l ≤ hi) (h2 : lo ≤ r)
    (h : t.Represents Int64.toInt lo hi A) (ht : t.Untagged lo hi) :
    pointOnlyUpdate l r value t lo hi = fullCopyUpdate l r value t lo hi := by
  induction t generalizing lo hi A with
  | leaf s z =>
    have hle : lo = hi := h.1
    rw [pointOnlyUpdate, fullCopyUpdate, if_pos (by omega)]
  | node s z a b iha ihb =>
    obtain ⟨ha, hat, hb, hbt⟩ := untagged_halves h ht
    have keya : (if l ≤ Segment.midpoint lo hi then
        pointOnlyUpdate l r value a lo (Segment.midpoint lo hi) else pure a) =
        fullCopyUpdate l r value a lo (Segment.midpoint lo hi) := by
      split_ifs with hl
      · exact iha hl h2 ha hat
      · rw [fullCopyUpdate_apart value ha hat (.inl (by omega))]
        rfl
    have keyb : (if r > Segment.midpoint lo hi then
        pointOnlyUpdate l r value b (Segment.midpoint lo hi + 1) hi else pure b) =
        fullCopyUpdate l r value b (Segment.midpoint lo hi + 1) hi := by
      split_ifs with hl
      · exact ihb h1 hl hb hbt
      · rw [fullCopyUpdate_apart value hb hbt (.inr (by omega))]
        rfl
    rw [pointOnlyUpdate, fullCopyUpdate, keya, keyb]

theorem pointOnlyUpdate_error {value : ValueType} {e : Exception}
    (h : pointOnlyUpdate l r value t lo hi = .error e) : ∃ w, e = .overflowError w := by
  induction t generalizing lo hi e with
  | leaf s z =>
    rcases Effect.bind_eq_error.mp h with h | ⟨x, -, h⟩
    · exact ⟨_, (checkedAdd_error h).1⟩
    · cases h
  | node s z a b iha ihb =>
    rcases Effect.bind_eq_error.mp h with h | ⟨a', -, h⟩
    · exact iha (half_eq_error.mp h).2
    rcases Effect.bind_eq_error.mp h with h | ⟨b', -, h⟩
    · exact ihb (half_eq_error.mp h).2
    rcases Effect.bind_eq_error.mp h with h | ⟨x, -, h⟩
    · exact ⟨_, (checkedAdd_error h).1⟩
    · cases h

end SumTree

/-- The nodes that meet the range are copied and the others are shared. -/
def Discipline.sharing : Discipline where
  update l r value t lo hi := SumTree.pointOnlyUpdate l r value t lo hi
  guarded := false
  keeps _ t hi := t.Untagged 0 hi
  keeps_build ht _ _ := ht
  update_ok {t t' hi l r A cov value} hhi hlr hr h hk hu := by
    rw [SumTree.pointOnlyUpdate_eq value (hlr.trans hr) (Nat.zero_le _) h hk] at hu
    exact Discipline.copying.update_ok hhi hlr hr h (show Discipline.copying.keeps cov t hi from hk)
      hu
  update_error _ _ _ _ hu := SumTree.pointOnlyUpdate_error hu

namespace VersionedTrees

variable {h : RangeAdds ℤ} {m : VersionedTrees} {l r : ℕ}

/-- The two disciplines keep the same of a tree. -/
theorem Valid.sharing (hv : m.Valid .copying h) : m.Valid .sharing h :=
  ⟨hv.size_le, hv.versions, hv.represents, hv.keeps, hv.fit, hv.bound⟩

theorem Valid.copying (hv : m.Valid .sharing h) : m.Valid .copying h :=
  ⟨hv.size_le, hv.versions, hv.represents, hv.keeps, hv.fit, hv.bound⟩

/-- **Sharing publishes the trees of full copies.** -/
theorem Valid.rangeAdd_sharing (hv : m.Valid .copying h) (l r : ℕ) (value : ValueType) :
    m.rangeAdd .sharing l r value = m.rangeAdd .copying l r value := by
  unfold VersionedTrees.rangeAdd
  refine bind_congr fun _ => ?_
  rcases h2 : validateNonEmpty m.size with e | ⟨⟩
  · rfl
  have hn := validateNonEmpty_eq_ok.mp h2
  refine bind_congr fun _ => ?_
  rcases h3 : validateRange m.size l r with e | ⟨⟩
  · rfl
  obtain ⟨hlr, hr⟩ := validateRange_eq_ok.mp h3
  obtain ⟨t, ht, hlatest⟩ := hv.latest
  obtain ⟨hrep, hun, -⟩ := hlatest hn
  rw [vectorAt_eq_ok.mpr ht]
  refine bind_congr fun _ => ?_
  have hupdate : Discipline.sharing.update l r value t 0 (m.size - 1) =
      Discipline.copying.update l r value t 0 (m.size - 1) :=
    SumTree.pointOnlyUpdate_eq value (show l ≤ m.size - 1 by omega) (Nat.zero_le r) hrep hun
  rw [Effect.ok_bind, Effect.ok_bind, hupdate]
  rfl

end VersionedTrees

namespace PointOnlyPersistentSegmentTree

/-- A node has the fields of the other structure without tags. -/
abbrev Node := FullCopyPersistentSegmentTree.Node

def build : List ValueType → (segmentLeft segmentRight : ℕ) → ArenaM Node ℕ :=
  buildArena (fun value => ⟨noNode, noNode, value⟩)
    (fun leftRoot rightRoot sum => ⟨leftRoot, rightRoot, sum⟩) FullCopyPersistentSegmentTree.Node.sum

def pointOnlyUpdate (nodeIndex segmentLeft segmentRight queryLeft queryRight : ℕ)
    (value : ValueType) : ArenaM Node ℕ := do
  let current ← readNode nodeIndex
  if segmentLeft = segmentRight then do
    let newValue ← checkedAdd current.sum value
    pushBack ⟨noNode, noNode, newValue⟩
  else if segmentLeft < segmentRight then do
    let middle := Segment.midpoint segmentLeft segmentRight
    let newLeft ← (if queryLeft ≤ middle then
      pointOnlyUpdate current.leftChild segmentLeft middle queryLeft queryRight value
      else pure current.leftChild)
    let newRight ← (if queryRight > middle then
      pointOnlyUpdate current.rightChild (middle + 1) segmentRight queryLeft queryRight value
      else pure current.rightChild)
    let leftNode ← readNode newLeft
    let rightNode ← readNode newRight
    let sum ← checkedAdd leftNode.sum rightNode.sum
    pushBack ⟨newLeft, newRight, sum⟩
  else throw .undefined
termination_by segmentRight - segmentLeft
decreasing_by all_goals (simp only [Segment.midpoint] at *; omega)

/-- The query is the same code as that of the full copies. -/
def query : List Node → (nodeIndex segmentLeft segmentRight queryLeft queryRight : ℕ) →
    Except Exception ValueType := FullCopyPersistentSegmentTree.query

/-- There is no guard. -/
def parts : PathCopying Node Unit where
  nodeSize := 24
  emptyDomain := ()
  domainOf _ := ()
  preflight _ _ _ _ _ := .ok ()
  build := build
  update := pointOnlyUpdate

/-- The state of the tree. -/
abbrev State := PathCopyingTree Node Unit

def initializeFrom : List ValueType → EStateM Exception State Unit := parts.initializeFrom

def rangeAdd : (left right : ℕ) → ValueType → EStateM Exception State ℕ := parts.rangeAdd

def rangeSum (this : State) (version left right : ℕ) : Except Exception ValueType := do
  validateInitialized this.roots.length
  validateVersion version this.roots.length
  validateNonEmpty this.arraySize
  validateRange this.arraySize left right
  let root ← vectorAt this.roots version
  query this.nodes root 0 (this.arraySize - 1) left right

def versionCount (this : State) : ℕ := this.roots.length

/-- The structure and its writing operations. -/
abbrev engine : Engine (List ValueType) ℕ State := parts.engine

section Update

open FullCopyPersistentSegmentTree (reading exists_node leaf_mirrors pull_mirrors)

variable {nodes : List Node} {t : SumTree} {i lo hi l r : ℕ} {value : ValueType}

/-- **One update.** It appends the nodes of the updated tree, or throws what the tree throws. -/
theorem pointOnlyUpdate_mirrors (h : (reading.on nodes).Stores anyone t i lo hi) :
    Mirrors reading nodes (pointOnlyUpdate i lo hi l r value nodes)
      (SumTree.pointOnlyUpdate l r value t lo hi) lo hi := by
  induction t generalizing i lo hi nodes with
  | leaf s z =>
    obtain ⟨node, hn, hs⟩ := exists_node h
    obtain rfl : lo = hi := h.1
    obtain rfl : node.sum = s := hs
    rw [pointOnlyUpdate, SumTree.pointOnlyUpdate, Effect.run_bind_ok (readNode_run hn)]
    simp only [if_true]
    rcases checkedAdd node.sum value with e | x
    · exact Mirrors.throw e
    · exact leaf_mirrors x
  | node s z a b iha ihb =>
    obtain ⟨node, hn, -⟩ := exists_node h
    obtain ⟨hlt, -, -, j, k, hc, ha, hb⟩ := h
    rw [NodeReading.children_of_getElem? hn] at hc
    cases hc
    rw [pointOnlyUpdate, SumTree.pointOnlyUpdate, Effect.run_bind_ok (readNode_run hn),
      if_neg hlt.ne, if_pos hlt]
    refine Mirrors.halves (Mirrors.half (fun _ => iha ha) ha) (fun more => ?_)
      fun a' b' j k more _ _ ha' hb' => pull_mirrors hlt ha' hb'
    have hb' := NodeReading.stores_append more hb fun _ _ _ h => h
    exact Mirrors.half (fun _ => ihb hb') hb'

/-- An update only appends, in any arena and however it ends. -/
theorem pointOnlyUpdate_appends (i lo hi l r : ℕ) (value : ValueType) :
    Appends (pointOnlyUpdate i lo hi l r value) := by
  induction hk : hi - lo using Nat.strong_induction_on generalizing i lo hi with
  | _ k ih =>
    rw [pointOnlyUpdate]
    refine .bind (.readNode i) fun node => .ite (fun _ => ?_) fun _ => .ite (fun hlt => ?_)
      fun _ => .throw _
    · exact .bind (.lift _) fun _ => .pushBack _
    · have h1 := Segment.le_midpoint lo hi
      have h2 := Segment.midpoint_lt hlt
      refine .bind (.ite (fun _ => ih _ ?_ _ _ _ rfl) fun _ => .pure _) fun j =>
        .bind (.ite (fun _ => ih _ ?_ _ _ _ rfl) fun _ => .pure _) fun k =>
          .bind (.readNode j) fun _ => .bind (.readNode k) fun _ => .bind (.lift _) fun _ =>
            .pushBack _
      · omega
      · omega

end Update

/-! ## Whole runs -/

/-- **Refinement.** -/
def refines : parts.Refines Discipline.sharing where
  reading := FullCopyPersistentSegmentTree.reading
  agrees _ _ := True
  agrees_values _ := trivial
  build_spec := buildArena_stores FullCopyPersistentSegmentTree.build_reads
  preflight_spec _ _ _ _ _ := .inl ⟨(), _, rfl, rfl, trivial⟩
  update_spec _ _ _ _ h := pointOnlyUpdate_mirrors h

variable {s : State} {m : VersionedTrees} {h : History (List ValueType)} {v l r : ℕ}

/-- Sums are those of the stored trees. -/
theorem rangeSum_eq (hs : refines.StoresTrees s m) (hv : m.Valid .copying h.adds) :
    rangeSum s v l r = m.rangeSum v l r :=
  FullCopyPersistentSegmentTree.rangeSum_eq (s := s)
    ⟨hs.size, trivial, hs.roots, hs.stores⟩ hv

/-- The tree publishes what a copying one does. -/
def simulation : Simulation engine .copying where
  Fresh := refines.simulation.Fresh
  Rel := refines.simulation.Rel
  empty := refines.simulation.empty
  initialize_ok := refines.simulation.initialize_ok
  initialize_error := refines.simulation.initialize_error
  rangeAdd_fresh := refines.simulation.rangeAdd_fresh
  rangeAdd_ok hs hv hi := by
    obtain ⟨m', hm, hs'⟩ := refines.simulation.rangeAdd_ok hs hv.sharing hi
    exact ⟨m', (hv.rangeAdd_sharing _ _ _).symm.trans hm, hs'⟩
  rangeAdd_error hs hv hi := refines.simulation.rangeAdd_error hs hv.sharing hi

/-- **Reachable states.** They store valid trees of their histories, and a sum is the trees'. -/
theorem reaches (hr : engine.Reachable s h) : ∃ m : VersionedTrees, m.size = h.size ∧
    refines.StoresTrees s m ∧ m.Valid .copying h.adds ∧
      ∀ v l r, rangeSum s v l r = m.rangeSum v l r := by
  obtain ⟨m, hsize, hrel, hvalid⟩ := simulation.reaches hr
  exact ⟨m, hsize, hrel, hvalid, fun v l r => rangeSum_eq hrel hvalid⟩

end PointOnlyPersistentSegmentTree

end Valseg
