import Valseg.CommutativityBoundary
import Valseg.PushedLazyTree

/-!
# The order-preserving strategies

Three of the policy-generic trees answer with the elements that the updates made in chronological
order, whether or not the actions of the policy commute: `PathCopyingActionTree` where it pushes
on partial descents, `PointMaterializedPersistentTree`, which applies an action to every element of
its range, and `PushedLazyTree`, which pushes wherever it goes.
-/

namespace Valseg

namespace PointMaterializedPersistentTree

open SegmentAction (actOn partAggregate)

variable {X F : Type} {M : SegmentAction X F} {S : Set X} {sizes : RecordSizes}
  {nodes : List (Node X)} {i j k lo hi l r : ℕ} {A B : ℕ → X}

/-- Nothing is pending at a record. -/
def view (M : SegmentAction X F) (node : Node X) : PathCopyingActionTree.Node X F :=
  ⟨node.leftChild, node.rightChild, node.aggregate, M.identity⟩

/-- The children of a node hold the array the node holds. -/
theorem holds_children (hM : M.Lawful S) {node : Node X}
    (hA : ∀ j, lo ≤ j → j ≤ hi → A j = M.act (view M node).tag (B j))
    (hl : HoldsArray M S (view M) nodes node.leftChild lo (Segment.midpoint lo hi) B)
    (hr : HoldsArray M S (view M) nodes node.rightChild (Segment.midpoint lo hi + 1) hi B) :
    HoldsArray M S (view M) nodes node.leftChild lo (Segment.midpoint lo hi) A ∧
      HoldsArray M S (view M) nodes node.rightChild (Segment.midpoint lo hi + 1) hi A := by
  have hm := hl.le
  have hm' := hr.le
  refine ⟨hl.congr fun j h1 h2 => ?_, hr.congr fun j h1 h2 => ?_⟩
  · rw [hA j h1 (by omega)]
    exact (hM.act_identity (hl.reached j h1 h2)).symm
  · rw [hA j (by omega) h2]
    exact (hM.act_identity (hr.reached j h1 h2)).symm

/-- A query answers with the part of the array inside the range. -/
theorem query_holds (hM : M.Lawful S) (l r : ℕ) : ∀ lo hi, lo ≤ hi → ∀ {i : ℕ} {A : ℕ → X},
    HoldsArray M S (view M) nodes i lo hi A →
      query (totalPolicy M sizes) nodes i lo hi l r = .ok (M.partAggregate A lo hi l r) := by
  refine Segment.halving_induction ?_ ?_
  · intro m i A h
    obtain ⟨node, hn, ha⟩ := h.root hM
    rw [query]
    by_cases hout : m < l ∨ m > r
    · rw [if_pos hout, SegmentAction.partAggregate_of_apart le_rfl hout]
      rfl
    have hin : l ≤ m ∧ m ≤ r := by omega
    rw [if_neg hout, vectorAt_eq_ok.mpr hn, Effect.ok_bind, if_pos hin,
      SegmentAction.partAggregate_of_inside le_rfl hin, ← ha]
    rfl
  · intro lo hi hlt ihl ihr i A h
    have hreach := h.reached
    obtain ⟨node, hn, ha⟩ := h.root hM
    rw [query]
    by_cases hout : hi < l ∨ lo > r
    · rw [if_pos hout, SegmentAction.partAggregate_of_apart hlt.le hout]
      rfl
    rw [if_neg hout, vectorAt_eq_ok.mpr hn, Effect.ok_bind]
    by_cases hin : l ≤ lo ∧ hi ≤ r
    · rw [if_pos hin, SegmentAction.partAggregate_of_inside hlt.le hin, ← ha]
      rfl
    rw [if_neg hin, if_pos hlt, hM.partAggregate_split hlt hreach]
    cases h with
    | leaf => exact absurd hlt (lt_irrefl _)
    | inner _ hn' _ hA hl hr =>
      obtain rfl := Option.some.inj (hn.symm.trans hn')
      obtain ⟨hl', hr'⟩ := holds_children hM hA hl hr
      simp only [ihl hl', ihr hr', Effect.ok_bind]
      rfl

/-- The record over two halves. -/
theorem rebuild_appends (hM : M.Lawful S) (hlt : lo < hi)
    (hl : HoldsArray M S (view M) nodes j lo (Segment.midpoint lo hi) A)
    (hr : HoldsArray M S (view M) nodes k (Segment.midpoint lo hi + 1) hi A) :
    AppendsArray M S (view M) nodes ((do
        let leftNode ← readNode j
        let rightNode ← readNode k
        let aggregate ← (totalPolicy M sizes).combine leftNode.aggregate rightNode.aggregate
        pushBack ⟨j, k, aggregate⟩ : ArenaM (Node X) ℕ) nodes) lo hi A := by
  obtain ⟨nl, hnl, hal⟩ := hl.root hM
  obtain ⟨nr, hnr, har⟩ := hr.root hM
  have hreach : M.AllReached S A lo hi := fun i h1 h2 => by
    by_cases hm : i ≤ Segment.midpoint lo hi
    · exact hl.reached i h1 hm
    · exact hr.reached i (by omega) h2
  rw [Effect.run_bind_ok (readNode_run hnl), Effect.run_bind_ok (readNode_run hnr),
    show nl.aggregate = _ from hal, show nr.aggregate = _ from har]
  have hid := hM.apply_identity_halves hlt hreach
  refine .push ((HoldsArray.node hM hlt hl hr M.identity ?_).congr fun i h1 h2 =>
    hM.act_identity (hreach i h1 h2))
  rw [hid]
  rfl

/-- An update acts on every element of its range. -/
theorem update_appends (hM : M.Lawful S) (f : F) : ∀ lo hi, lo ≤ hi →
    ∀ {nodes : List (Node X)} {i : ℕ} {A : ℕ → X}, l ≤ hi → lo ≤ r →
      HoldsArray M S (view M) nodes i lo hi A →
      AppendsArray M S (view M) nodes (update (totalPolicy M sizes) i lo hi l r f nodes) lo hi
        (M.actOn A l r f) := by
  refine Segment.halving_induction ?_ ?_
  · intro m nodes i A h1 h2 h
    obtain ⟨node, hn, ha⟩ := h.root hM
    have hm := h.reached m le_rfl le_rfl
    have hleaf : M.apply f node.aggregate 1 = M.actOn A l r f m := by
      rw [show node.aggregate = _ from ha, hM.aggregate_single hm,
        SegmentAction.actOn_of_inside h1 h2]
      rfl
    rw [update, Effect.run_bind_ok (readNode_run hn), if_pos rfl]
    exact .push (.leaf List.getElem?_concat_length hleaf hm.actOn)
  · intro lo hi hlt ihl ihr nodes i A h1 h2 h
    cases h with
    | leaf => exact absurd hlt (lt_irrefl _)
    | @inner _ _ _ _ B node _ hn ha hA hl hr =>
      obtain ⟨hl', hr'⟩ := holds_children hM hA hl hr
      rw [update, Effect.run_bind_ok (readNode_run hn), if_neg hlt.ne, if_pos hlt]
      refine AppendsArray.halves (AppendsArray.half (fun hc => ihl hc h2 hl') ?_ hl')
        (fun more => ?_) fun j k more hl hr => rebuild_appends hM hlt hl hr
      · omega
      · exact AppendsArray.half (fun hc => ihr h1 hc (hr'.append more)) (by omega)
          (hr'.append more)

/-- **Order kept.** -/
theorem keepsOrder (hM : M.Lawful S) :
    KeepsOrder M S (view M) (parts (totalPolicy M sizes)) where
  actionIdentity := rfl
  build hv hA := buildArena_holds hM (fun _ => rfl) (fun _ _ _ => rfl) (fun _ => rfl) 0 _
    (Nat.zero_le _) (fun i _ hi => hv i hi) hA
  update f hlr hr h := update_appends hM f 0 _ (Nat.zero_le _) (hlr.trans hr) (Nat.zero_le _) h
  query l r h := query_holds hM l r 0 _ (Nat.zero_le _) h

end PointMaterializedPersistentTree

/-! ## The three strategies -/

section Strategies

variable {X F Node : Type} [DecidableEq F]

/-- Every update with a range of the array publishes a version, no other does, and every query of
every published version is answered chronologically. A query leaves a persistent structure as it
is, so the queries between the updates do not matter. -/
def AnswersVersions (T : ActionTreeParts Node X F) (M : SegmentAction X F) (values : List X) :
    Prop :=
  (∀ calls, (T.run values calls).roots.length = (validUpdates values.length calls).length + 1) ∧
    Chronological T M values

/-- After every interleaving of updates and queries, every query is answered with the index-order
combine of the elements that the updates made in chronological order. -/
def AnswersLatest (P : Policy X F) (M : SegmentAction X F) (values : List X) : Prop :=
  ∀ operations l r, l ≤ r → r < values.length →
    ∃ s, PushedLazyTree.rangeAggregate P l r (PushedLazyTree.run P values operations) =
      .ok (M.aggregate (M.elements (fun i => values.getD i M.empty)
        (validUpdates values.length (PushedLazyTree.updatesOf operations))) l r) s

theorem KeepsOrder.answersVersions {M : SegmentAction X F} {S : Set X}
    {view : Node → PathCopyingActionTree.Node X F} {T : ActionTreeParts Node X F}
    (hT : KeepsOrder M S view T) (hM : M.Lawful S) {values : List X} (hpos : 0 < values.length)
    (hroom : 2 * values.length - 1 ≤ vectorMaxSize T.recordBytes) (hS : ∀ x ∈ values, x ∈ S) :
    AnswersVersions T M values :=
  ⟨fun calls => (hT.run hM hpos hroom hS calls).count, hT.answers hM hpos hroom hS⟩

/-- **Order kept, commuting or not.** For every lawful policy of total operations and every array
of admissible elements that the vectors of the structure have room for. -/
theorem strategies_keep_order (M : SegmentAction X F) (S : Set X) (sizes : RecordSizes)
    (hM : M.Lawful S) (values : List X) (hpos : 0 < values.length) (hS : ∀ x ∈ values, x ∈ S) :
    (2 * values.length - 1 ≤ vectorMaxSize sizes.recordBytes →
      AnswersVersions (copyOnPushPersistentTree (totalPolicy M sizes)) M values) ∧
    (2 * values.length - 1 ≤ vectorMaxSize sizes.taglessRecordBytes →
      AnswersVersions (PointMaterializedPersistentTree.parts (totalPolicy M sizes)) M values) ∧
    (4 * values.length ≤ vectorMaxSize sizes.aggregateBytes →
      4 * values.length ≤ vectorMaxSize sizes.actionBytes →
        AnswersLatest (totalPolicy M sizes) M values) := by
  refine ⟨fun hroom => ?_, fun hroom => ?_, fun haggregates hactions operations l r hlr hr => ?_⟩
  · exact (PathCopyingActionTree.keepsOrder hM (.inl rfl)).answersVersions hM hpos hroom hS
  · exact (PointMaterializedPersistentTree.keepsOrder hM).answersVersions hM hpos hroom hS
  · have h := PushedLazyTree.run_spec hM hpos haggregates hactions hS operations
    exact (PushedLazyTree.rangeAggregate_spec hM h hlr hr).imp fun _ h => h.1

/-- Affine maps do not commute, and all three keep their order. -/
theorem strategies_keep_order_affine :
    AnswersVersions (copyOnPushPersistentTree
        (totalPolicy (AffineSumModPolicy.operations 7) ⟨8, 16, 40, 24⟩))
      (AffineSumModPolicy.operations 7) [1, 2, 3] ∧
    AnswersVersions (PointMaterializedPersistentTree.parts
        (totalPolicy (AffineSumModPolicy.operations 7) ⟨8, 16, 40, 24⟩))
      (AffineSumModPolicy.operations 7) [1, 2, 3] ∧
    AnswersLatest (totalPolicy (AffineSumModPolicy.operations 7) ⟨8, 16, 40, 24⟩)
      (AffineSumModPolicy.operations 7) [1, 2, 3] := by
  obtain ⟨h1, h2, h3⟩ := strategies_keep_order (AffineSumModPolicy.operations 7) Set.univ
    ⟨8, 16, 40, 24⟩ (AffineSumModPolicy.lawful 7 _) [1, 2, 3] (by decide) fun _ _ => trivial
  exact ⟨h1 (by decide), h2 (by decide), h3 (by decide) (by decide)⟩

end Strategies

end Valseg
