import Valseg.PathCopying

/-!
# FullCopyPersistentSegmentTree

`full_copy_persistent_segment_tree.cpp`: the baseline without tags and without a guard. An update
of a non-zero value copies every node, and the checked additions of the copy are the guard:
`SumTree.fullCopyUpdate_spec` says that it returns exactly on the arrays of the domain. The trees
it publishes carry no tags, under the discipline `Discipline.copying`.
-/

namespace Valseg

open Segment (addOn)

namespace SumTree

/-- An update that copies every node and stores no tag. -/
def fullCopyUpdate (l r : ℕ) (value : ValueType) : SumTree → ℕ → ℕ → Except Exception SumTree
  | .leaf s _, lo, hi => do
    return .leaf (← (if l ≤ lo ∧ hi ≤ r then checkedAdd s value else pure s)) 0
  | .node _ _ left right, lo, hi => do
    let newLeft ← fullCopyUpdate l r value left lo (Segment.midpoint lo hi)
    let newRight ← fullCopyUpdate l r value right (Segment.midpoint lo hi + 1) hi
    let sum ← checkedAdd newLeft.sum newRight.sum
    return .node sum 0 newLeft newRight

/-- No node has a tag. -/
def Untagged (t : SumTree) (lo hi : ℕ) : Prop := t.Tagged Int64.toInt (fun _ _ => 0) lo hi 0

variable {t t' : SumTree} {lo hi l r : ℕ} {A : ℕ → ℤ} {value : ValueType}

/-- A node without a tag over children that stand for the array. -/
theorem represents_untagged {a b : SumTree} {s : ValueType} (hlt : lo < hi)
    (ha : a.Represents Int64.toInt lo (Segment.midpoint lo hi) A)
    (hat : a.Untagged lo (Segment.midpoint lo hi))
    (hb : b.Represents Int64.toInt (Segment.midpoint lo hi + 1) hi A)
    (hbt : b.Untagged (Segment.midpoint lo hi + 1) hi) (hs : s.toInt = a.sum.toInt + b.sum.toInt) :
    (TagTree.node s 0 a b).Represents Int64.toInt lo hi A ∧
      Untagged (.node s 0 a b) lo hi := by
  have hz : (0 : ValueType).toInt = 0 := Int64.toInt_zero
  refine ⟨TagTree.Represents.node hlt (ha.congr fun i _ _ => ?_) (hb.congr fun i _ _ => ?_) ?_,
    ?_, ?_, ?_⟩
  · rw [hz, sub_zero]
  · rw [hz, sub_zero]
  · rw [hs, hz, zero_mul, add_zero]
  · rw [hz, add_zero]
  · rw [hz, add_zero]; exact hat
  · rw [hz, add_zero]; exact hbt

/-- The halves of a node without a tag. -/
theorem untagged_halves {s z : ValueType} {a b : SumTree}
    (h : (TagTree.node s z a b).Represents Int64.toInt lo hi A)
    (ht : Untagged (.node s z a b) lo hi) :
    a.Represents Int64.toInt lo (Segment.midpoint lo hi) A ∧ a.Untagged lo (Segment.midpoint lo hi) ∧
      b.Represents Int64.toInt (Segment.midpoint lo hi + 1) hi A ∧
        b.Untagged (Segment.midpoint lo hi + 1) hi := by
  obtain ⟨-, -, ha, hb⟩ := h
  obtain ⟨h0, hat, hbt⟩ := ht
  have hz : z.toInt = 0 := (zero_add _).symm.trans h0
  rw [hz, add_zero] at hat hbt
  exact ⟨ha.congr fun i _ _ => by rw [hz, sub_zero], hat,
    hb.congr fun i _ _ => by rw [hz, sub_zero], hbt⟩

/-- **Full copies.** One returns exactly on the arrays of the domain, and is exact. -/
theorem fullCopyUpdate_spec (l r : ℕ) (value : ValueType) (h : t.Represents Int64.toInt lo hi A)
    (ht : t.Untagged lo hi) :
    (∃ t', fullCopyUpdate l r value t lo hi = .ok t' ∧
        t'.Represents Int64.toInt lo hi (addOn A l r value.toInt) ∧ t'.Untagged lo hi ∧
          CanonicalFit (addOn A l r value.toInt) lo hi) ∨
      (Overflows (fullCopyUpdate l r value t lo hi) ∧
        ¬ CanonicalFit (addOn A l r value.toInt) lo hi) := by
  induction t generalizing lo hi A with
  | leaf s z =>
    obtain ⟨rfl, hs⟩ := h
    have hsingle : CanonicalFit (addOn A l r value.toInt) lo lo ↔
        Representable (addOn A l r value.toInt lo) := by
      unfold CanonicalFit
      rw [Segment.forall_canonical_single (P := fun a b => Representable (Segment.sum _ a b)),
        Segment.sum_single]
    have huntagged : ∀ x, Untagged (.leaf x 0) lo lo := fun x => by
      show 0 + (0 : ValueType).toInt = 0
      rw [Int64.toInt_zero, add_zero]
    rw [hsingle, fullCopyUpdate]
    by_cases hin : l ≤ lo ∧ lo ≤ r
    · rw [if_pos hin, Segment.addOn, if_pos hin, ← hs]
      by_cases hr : Representable (s.toInt + value.toInt)
      · obtain ⟨x, hx, hxs⟩ := checkedAdd_of_representable hr
        exact .inl ⟨.leaf x 0, by rw [hx]; rfl, ⟨rfl, by
          rw [hxs, hs, Segment.addOn, if_pos hin]⟩, huntagged x, hr⟩
      · exact .inr ⟨⟨_, by rw [checkedAdd_overflows hr]; rfl⟩, hr⟩
    · rw [if_neg hin, Segment.addOn, if_neg hin, ← hs]
      exact .inl ⟨.leaf s 0, rfl, ⟨rfl, by rw [hs, Segment.addOn, if_neg hin]⟩, huntagged s,
        representable_toInt s⟩
  | node s z a b iha ihb =>
    have hlt := h.1
    obtain ⟨ha, hat, hb, hbt⟩ := untagged_halves h ht
    rw [canonicalFit_split hlt, fullCopyUpdate]
    rcases iha ha hat with ⟨a', ha', har, hau, haf⟩ | ⟨⟨w, hw⟩, hf⟩
    · rcases ihb hb hbt with ⟨b', hb', hbr, hbu, hbf⟩ | ⟨⟨w, hw⟩, hf⟩
      · rw [ha', hb', Effect.ok_bind, Effect.ok_bind, Segment.sum_split hlt, ← har.sum_eq,
          ← hbr.sum_eq]
        by_cases hr : Representable (a'.sum.toInt + b'.sum.toInt)
        · obtain ⟨x, hx, hxs⟩ := checkedAdd_of_representable hr
          obtain ⟨hrep, hun⟩ := represents_untagged hlt har hau hbr hbu hxs
          exact .inl ⟨.node x 0 a' b', by rw [hx]; rfl, hrep, hun, hr, haf, hbf⟩
        · exact .inr ⟨⟨_, by rw [checkedAdd_overflows hr]; rfl⟩, fun hf => hr hf.1⟩
      · rw [ha', hw]
        exact .inr ⟨⟨w, rfl⟩, fun hf' => hf hf'.2.2⟩
    · rw [hw]
      exact .inr ⟨⟨w, rfl⟩, fun hf' => hf hf'.2.1⟩

theorem fullCopyUpdate_error {e : Exception} (h : fullCopyUpdate l r value t lo hi = .error e) :
    ∃ w, e = .overflowError w := by
  induction t generalizing lo hi e with
  | leaf s z =>
    rcases Effect.bind_eq_error.mp h with h | ⟨x, -, h⟩
    · split_ifs at h with hin
      · exact ⟨_, (checkedAdd_error h).1⟩
      · cases h
    · cases h
  | node s z a b iha ihb =>
    rcases Effect.bind_eq_error.mp h with h | ⟨a', -, h⟩
    · exact iha h
    rcases Effect.bind_eq_error.mp h with h | ⟨b', -, h⟩
    · exact ihb h
    rcases Effect.bind_eq_error.mp h with h | ⟨x, -, h⟩
    · exact ⟨_, (checkedAdd_error h).1⟩
    · cases h

end SumTree

/-- Every node is copied, no tag is stored, and the copy itself checks the domain. -/
def Discipline.copying : Discipline where
  update l r value t lo hi := SumTree.fullCopyUpdate l r value t lo hi
  guarded := false
  keeps _ t hi := t.Untagged 0 hi
  keeps_build ht _ _ := ht
  update_ok _ _ _ h hk hu := by
    rcases SumTree.fullCopyUpdate_spec _ _ _ h hk with ⟨t'', h1, h2, h3, h4⟩ | ⟨⟨w, hw⟩, -⟩
    · rw [hu, Except.ok.injEq] at h1
      subst h1
      exact ⟨h2, h3, fun _ => h4⟩
    · rw [hu] at hw
      cases hw
  update_error _ _ _ _ hu := SumTree.fullCopyUpdate_error hu

/-- **Additions.** With valid arguments one is admitted exactly when it adds nothing or the
proposed array is in the domain; otherwise it overflows. -/
theorem VersionedTrees.Valid.rangeAdd_copying {h : RangeAdds ℤ} {m : VersionedTrees} {l r : ℕ}
    {value : ValueType} (hv : m.Valid .copying h) (hlr : l ≤ r) (hr : r < m.size) :
    (Returns (m.rangeAdd .copying l r value) ↔ value = 0 ∨
        CanonicalFit (addOn h.latest l r value.toInt) 0 (m.size - 1)) ∧
      (¬ Returns (m.rangeAdd .copying l r value) →
        Overflows (m.rangeAdd .copying l r value)) := by
  obtain ⟨t, ht, hlatest⟩ := hv.latest
  obtain ⟨hrep, hkeep, -⟩ := hlatest (by omega)
  have hpre : Discipline.copying.preflight m.guard m.size l r value t =
      .ok m.guard.magnitudeBound := rfl
  have hupdate : Returns (Discipline.copying.update l r value t 0 (m.size - 1)) ↔
      CanonicalFit (addOn h.latest l r value.toInt) 0 (m.size - 1) := by
    rcases SumTree.fullCopyUpdate_spec l r value hrep hkeep with
      ⟨t', h1, -, -, h2⟩ | ⟨h1, h2⟩
    · exact iff_of_true ⟨t', h1⟩ h2
    · exact iff_of_false h1.not_returns h2
  rw [← hupdate]
  rcases hv.rangeAdd_cases hlr hr ht (.inl ⟨_, hpre⟩) with ⟨h1, h2⟩ | ⟨h1, h2⟩
  · exact ⟨iff_of_true h1 (h2.imp_right And.right), fun h3 => absurd h1 h3⟩
  · refine ⟨iff_of_false h1.not_returns fun h3 => h2 (h3.imp_right fun h4 => ⟨⟨_, hpre⟩, h4⟩),
      fun _ => h1⟩

namespace FullCopyPersistentSegmentTree

structure Node where
  leftChild : ℕ
  rightChild : ℕ
  sum : ValueType
  deriving DecidableEq, Repr

def reading : NodeReading Node where
  state node := .ok (node.sum, 0)
  childrenOf node := .ok (node.leftChild, node.rightChild)

def build : List ValueType → (segmentLeft segmentRight : ℕ) → ArenaM Node ℕ :=
  buildArena (fun value => ⟨noNode, noNode, value⟩)
    (fun leftRoot rightRoot sum => ⟨leftRoot, rightRoot, sum⟩) Node.sum

def fullCopyUpdate (nodeIndex segmentLeft segmentRight queryLeft queryRight : ℕ)
    (value : ValueType) : ArenaM Node ℕ := do
  let current ← readNode nodeIndex
  if segmentLeft = segmentRight then do
    let newValue ← (if queryLeft ≤ segmentLeft ∧ segmentRight ≤ queryRight then
      liftM (checkedAdd current.sum value) else pure current.sum)
    pushBack ⟨noNode, noNode, newValue⟩
  else if segmentLeft < segmentRight then do
    let middle := Segment.midpoint segmentLeft segmentRight
    let newLeft ← fullCopyUpdate current.leftChild segmentLeft middle queryLeft queryRight value
    let newRight ←
      fullCopyUpdate current.rightChild (middle + 1) segmentRight queryLeft queryRight value
    let leftNode ← readNode newLeft
    let rightNode ← readNode newRight
    let sum ← checkedAdd leftNode.sum rightNode.sum
    pushBack ⟨newLeft, newRight, sum⟩
  else throw .undefined
termination_by segmentRight - segmentLeft
decreasing_by all_goals (simp only [Segment.midpoint] at *; omega)

def query (nodes : List Node) (nodeIndex segmentLeft segmentRight queryLeft queryRight : ℕ) :
    Except Exception ValueType :=
  if segmentRight < queryLeft ∨ segmentLeft > queryRight then .ok 0
  else do
    let current ← vectorAt nodes nodeIndex
    if queryLeft ≤ segmentLeft ∧ segmentRight ≤ queryRight then .ok current.sum
    else if segmentLeft < segmentRight then do
      let middle := Segment.midpoint segmentLeft segmentRight
      let leftSum ← query nodes current.leftChild segmentLeft middle queryLeft queryRight
      let rightSum ← query nodes current.rightChild (middle + 1) segmentRight queryLeft queryRight
      checkedAdd leftSum rightSum
    else .error .undefined
termination_by segmentRight - segmentLeft
decreasing_by all_goals (simp only [Segment.midpoint] at *; omega)

/-- There is no guard. -/
def parts : PathCopying Node Unit where
  nodeSize := 24
  emptyDomain := ()
  domainOf _ := ()
  preflight _ _ _ _ _ := .ok ()
  build := build
  update := fullCopyUpdate

/-- The state of the tree. -/
abbrev State := PathCopyingTree Node Unit

def initializeFrom : List ValueType → EStateM Exception State Unit := parts.initializeFrom

def rangeAdd : (left right : ℕ) → ValueType → EStateM Exception State ℕ := parts.rangeAdd

def rangeSum (this : State) (version left right : ℕ) : Except Exception ValueType := do
  validateInitialized this.roots.length
  validateVersion version this.roots.length
  validateNonEmpty this.arraySize
  validateRange this.arraySize left right
  let root ← vectorAt this.roots version
  query this.nodes root 0 (this.arraySize - 1) left right

def versionCount (this : State) : ℕ := this.roots.length

/-- The structure and its writing operations. -/
abbrev engine : Engine (List ValueType) ℕ State := parts.engine

/-! ## One update -/

theorem build_reads : BuildReads reading (fun value => (⟨noNode, noNode, value⟩ : Node))
    (fun leftRoot rightRoot sum => ⟨leftRoot, rightRoot, sum⟩) Node.sum where
  leaf_state _ := rfl
  inner_state _ _ _ := rfl
  inner_children _ _ _ := rfl
  leaf_sum _ := rfl
  inner_sum _ _ _ := rfl

section Update

variable {nodes : List Node} {t a b : SumTree} {i lo hi l r : ℕ} {value : ValueType}

/-- A stored root is read as its node. -/
theorem exists_node (h : (reading.on nodes).Stores anyone t i lo hi) :
    ∃ node, nodes[i]? = some node ∧ node.sum = t.sum := by
  obtain ⟨node, hn, hs⟩ := NodeReading.exists_of_stores h
  simp only [reading, Except.ok.injEq, Prod.mk.injEq] at hs
  exact ⟨node, hn, hs.1⟩

/-- A new leaf. -/
theorem leaf_mirrors (x : ValueType) : Mirrors reading nodes
    ((pushBack ⟨noNode, noNode, x⟩ : ArenaM Node ℕ) nodes) (.ok (.leaf x 0)) lo lo :=
  .inl ⟨.leaf x 0, _, [⟨noNode, noNode, x⟩], rfl, pushBack_run _ _, rfl, trivial,
    NodeReading.read_of_getElem? List.getElem?_concat_length⟩

/-- The new node over two halves has the sum of their roots. -/
theorem pull_mirrors {j k : ℕ} (hlt : lo < hi)
    (ha : (reading.on nodes).Stores anyone a j lo (Segment.midpoint lo hi))
    (hb : (reading.on nodes).Stores anyone b k (Segment.midpoint lo hi + 1) hi) :
    Mirrors reading nodes ((do
        let leftNode ← readNode j
        let rightNode ← readNode k
        let sum ← checkedAdd leftNode.sum rightNode.sum
        pushBack ⟨j, k, sum⟩ : ArenaM Node ℕ) nodes)
      (do
        let sum ← checkedAdd a.sum b.sum
        return .node sum 0 a b) lo hi := by
  obtain ⟨na, hna, hsa⟩ := exists_node ha
  obtain ⟨nb, hnb, hsb⟩ := exists_node hb
  rw [Effect.run_bind_ok (readNode_run hna), Effect.run_bind_ok (readNode_run hnb), hsa, hsb]
  rcases checkedAdd a.sum b.sum with e | sum
  · exact Mirrors.throw e
  rw [Effect.run_bind_ok (Effect.liftM_ok _ _)]
  refine .inl ⟨.node sum 0 a b, _, [⟨j, k, sum⟩], rfl, pushBack_run _ _, ?_⟩
  exact NodeReading.stores_push_node hlt ha hb trivial rfl rfl

/-- **One update.** It appends the nodes of the copied tree, or throws what the copy throws. -/
theorem fullCopyUpdate_mirrors (h : (reading.on nodes).Stores anyone t i lo hi) :
    Mirrors reading nodes (fullCopyUpdate i lo hi l r value nodes)
      (SumTree.fullCopyUpdate l r value t lo hi) lo hi := by
  induction t generalizing i lo hi nodes with
  | leaf s z =>
    obtain ⟨node, hn, hs⟩ := exists_node h
    obtain rfl : lo = hi := h.1
    obtain rfl : node.sum = s := hs
    rw [fullCopyUpdate, SumTree.fullCopyUpdate, Effect.run_bind_ok (readNode_run hn)]
    simp only [if_true]
    by_cases hin : l ≤ lo ∧ lo ≤ r
    · rw [if_pos hin, if_pos hin]
      rcases checkedAdd node.sum value with e | x
      · exact Mirrors.throw e
      · exact leaf_mirrors x
    · rw [if_neg hin, if_neg hin]
      exact leaf_mirrors node.sum
  | node s z a b iha ihb =>
    obtain ⟨node, hn, -⟩ := exists_node h
    obtain ⟨hlt, -, -, j, k, hc, ha, hb⟩ := h
    rw [NodeReading.children_of_getElem? hn] at hc
    cases hc
    rw [fullCopyUpdate, SumTree.fullCopyUpdate, Effect.run_bind_ok (readNode_run hn),
      if_neg hlt.ne, if_pos hlt]
    exact Mirrors.halves (iha ha)
      (fun more => ihb (NodeReading.stores_append more hb fun _ _ _ h => h))
      fun a' b' j k more _ _ ha' hb' => pull_mirrors hlt ha' hb'

/-- An update only appends, in any arena and however it ends. -/
theorem fullCopyUpdate_appends (i lo hi l r : ℕ) (value : ValueType) :
    Appends (fullCopyUpdate i lo hi l r value) := by
  induction hk : hi - lo using Nat.strong_induction_on generalizing i lo hi with
  | _ k ih =>
    rw [fullCopyUpdate]
    refine .bind (.readNode i) fun node => .ite (fun _ => ?_) fun _ => .ite (fun hlt => ?_)
      fun _ => .throw _
    · exact .bind (.ite (fun _ => .lift _) fun _ => .pure _) fun _ => .pushBack _
    · have h1 := Segment.le_midpoint lo hi
      have h2 := Segment.midpoint_lt hlt
      refine .bind (ih _ ?_ _ _ _ rfl) fun j => .bind (ih _ ?_ _ _ _ rfl) fun k =>
        .bind (.readNode j) fun _ => .bind (.readNode k) fun _ => .bind (.lift _) fun _ =>
          .pushBack _
      · omega
      · omega

/-- A query without tags is the query of the stored tree. -/
theorem query_eq {A : ℕ → ℤ} (hhi : hi < maxLength) (h : (reading.on nodes).Stores anyone t i lo hi)
    (hrep : t.Represents Int64.toInt lo hi A) (hu : t.Untagged lo hi) :
    query nodes i lo hi l r = t.query lo hi l r 0 := by
  have plain : ∀ {s : ValueType} {n : ℕ}, n ≤ maxLength → SumAddPolicy.apply 0 s n = .ok s := by
    intro s n hn
    rw [SumAddPolicy.apply_eq_ok hn, Int64.toInt_zero, zero_mul, add_zero]
    exact ⟨representable_zero, rfl⟩
  induction t generalizing i lo hi with
  | leaf s z =>
    obtain ⟨node, hn, hs⟩ := exists_node h
    have hle : lo = hi := h.1
    rw [query, SumTree.query, vectorAt_eq_ok.mpr hn, plain (SumTree.length_le hhi), Effect.ok_bind, hs]
    refine ite_congr rfl (fun _ => rfl) fun _ => ite_congr rfl (fun _ => rfl) fun _ => ?_
    exact if_neg (by omega)
  | node s z a b iha ihb =>
    obtain ⟨node, hn, hs⟩ := exists_node h
    obtain ⟨har, hau, hbr, hbu⟩ := SumTree.untagged_halves hrep hu
    have hz : z = 0 := by
      have h0 : 0 + z.toInt = 0 := hu.1
      rw [← Int64.toInt_inj, Int64.toInt_zero, ← h0, zero_add]
    obtain ⟨hlt, -, -, j, k, hc, ha, hb⟩ := h
    rw [NodeReading.children_of_getElem? hn] at hc
    cases hc
    have hm := Segment.midpoint_lt hlt
    rw [query, SumTree.query, vectorAt_eq_ok.mpr hn, plain (SumTree.length_le hhi), Effect.ok_bind,
      hs, hz]
    refine ite_congr rfl (fun _ => rfl) fun _ => ite_congr rfl (fun _ => rfl) fun _ => ?_
    rw [if_pos hlt]
    simp only [iha (by omega) ha har hau, ihb hhi hb hbr hbu]
    rfl

end Update

/-! ## Whole runs -/

/-- **Refinement.** -/
def refines : parts.Refines Discipline.copying where
  reading := reading
  agrees _ _ := True
  agrees_values _ := trivial
  build_spec := buildArena_stores build_reads
  preflight_spec _ _ _ _ _ := .inl ⟨(), _, rfl, rfl, trivial⟩
  update_spec _ _ _ _ h := fullCopyUpdate_mirrors h

variable {s : State} {m : VersionedTrees} {h : History (List ValueType)} {v l r : ℕ}

/-- Sums are those of the stored trees. -/
theorem rangeSum_eq (hs : refines.StoresTrees s m) (hv : m.Valid .copying h.adds) :
    rangeSum s v l r = m.rangeSum v l r := by
  unfold rangeSum
  rw [hs.size]
  refine VersionedTrees.rangeSum_congr hs.roots rfl fun hn hver => ?_
  obtain ⟨t, root, ht, hroot, hst⟩ := hs.root hn hver
  have hsize := hv.size_le
  rw [vectorAt_eq_ok.mpr ht, vectorAt_eq_ok.mpr hroot]
  exact query_eq (by omega) hst (hv.represents hn v t ht) (hv.keeps hn v t ht)

/-- **Reachable states.** They store valid trees of their histories, and a sum is the trees'. -/
theorem reaches (hr : engine.Reachable s h) : ∃ m : VersionedTrees, m.size = h.size ∧
    refines.StoresTrees s m ∧ m.Valid .copying h.adds ∧
      ∀ v l r, rangeSum s v l r = m.rangeSum v l r := by
  obtain ⟨m, hsize, hrel, hvalid⟩ := refines.simulation.reaches hr
  exact ⟨m, hsize, hrel, hvalid, fun v l r => rangeSum_eq hrel hvalid⟩

end FullCopyPersistentSegmentTree

end Valseg
