import Valseg.ActionArrays
import Valseg.PushedLazyTree

/-!
# Images of policies

Aggregates seen through a map that the operations of two policies respect, with the same actions.
A tree over one policy does to its nodes what a tree over the other does to their images: it is
never looked at an aggregate to decide what to do. So a whole run from an array has the run from
the image of the array as its image (`PartsMap.run`, `PushedLazyTree.run_map`), and the answers of
the two are images of each other.
-/

namespace Valseg

open Effect (Image mapEnd)

variable {X Y F : Type} {P : Policy X F} {Q : Policy Y F} {g : X → Y}

/-- The map takes the operations of one policy to those of the other. -/
structure Policy.Maps (P : Policy X F) (Q : Policy Y F) (g : X → Y) : Prop where
  sizes : Q.toRecordSizes = P.toRecordSizes
  combine : ∀ x y, Q.combine (g x) (g y) = g <$> P.combine x y
  aggregateIdentity : Q.aggregateIdentity = g P.aggregateIdentity
  compose : Q.compose = P.compose
  actionIdentity : Q.actionIdentity = P.actionIdentity
  apply : ∀ f x length, Q.apply f (g x) length = g <$> P.apply f x length

/-- Mapping the results of two computations that are combined. -/
theorem Policy.Maps.combine_bind (hg : P.Maps Q g) (x y : Except Exception X) :
    (do Q.combine (← g <$> x) (← g <$> y)) = g <$> (do P.combine (← x) (← y)) := by
  rcases x with e | x
  · rfl
  rcases y with e | y
  · rfl
  exact hg.combine x y

section Build

variable {Node Node' : Type}

theorem Policy.Maps.buildArena (hg : P.Maps Q g) {leaf : X → Node} {leaf' : Y → Node'}
    {inner : ℕ → ℕ → X → Node} {inner' : ℕ → ℕ → Y → Node'} {aggregateOf : Node → X}
    {aggregateOf' : Node' → Y} (h : Node → Node') (hleaf : ∀ x, h (leaf x) = leaf' (g x))
    (hinner : ∀ j k x, h (inner j k x) = inner' j k (g x))
    (hof : ∀ node, aggregateOf' (h node) = g (aggregateOf node)) (values : List X) (lo hi : ℕ) :
    Image (List.map h) id (P.buildArena leaf inner aggregateOf values lo hi)
      (Q.buildArena leaf' inner' aggregateOf' (values.map g) lo hi) := by
  induction hk : hi - lo using Nat.strong_induction_on generalizing lo hi with
  | _ k ih =>
    rw [Policy.buildArena, Policy.buildArena]
    refine .ite (fun _ => ?_) fun _ => .ite (fun hlt => ?_) fun _ => .throw _
    · rw [vectorAt_map]
      refine .bind (.liftMap g _) fun value => ?_
      rw [← hleaf]
      exact pushBack_map h _
    · have h1 := Segment.le_midpoint lo hi
      have h2 := Segment.midpoint_lt hlt
      refine .bind (ih _ ?_ _ _ rfl) fun j => .bind (ih _ ?_ _ _ rfl) fun k =>
        .bind (readNode_map h j) fun leftNode => .bind (readNode_map h k) fun rightNode => ?_
      · omega
      · omega
      · rw [hof, hof, hg.combine]
        refine .bind (.liftMap g _) fun aggregate => ?_
        show Image _ _ (pushBack (inner j k aggregate)) (pushBack (inner' j k (g aggregate)))
        rw [← hinner]
        exact pushBack_map h _

end Build

/-! ## PathCopyingActionTree -/

namespace PathCopyingActionTree

/-- The node with the image of its aggregate. -/
def Node.map (g : X → Y) (node : Node X F) : Node Y F :=
  ⟨node.leftChild, node.rightChild, g node.aggregate, node.tag⟩

theorem cover_map (hg : P.Maps Q g) (node : Node X F) (f : F) (length : ℕ) :
    Image (List.map (Node.map g)) id
      (do
        let aggregate ← P.apply f node.aggregate length
        let tag ← P.compose f node.tag
        pushBack ⟨node.leftChild, node.rightChild, aggregate, tag⟩ : ArenaM (Node X F) ℕ)
      (do
        let aggregate ← Q.apply f (node.map g).aggregate length
        let tag ← Q.compose f (node.map g).tag
        pushBack ⟨(node.map g).leftChild, (node.map g).rightChild, aggregate, tag⟩ :
          ArenaM (Node Y F) ℕ) := by
  rw [hg.compose, show (node.map g).aggregate = g node.aggregate from rfl, hg.apply]
  exact .bind (.liftMap g _) fun aggregate => .bind (.lift _) fun tag =>
    pushBack_map (Node.map g) _

theorem pushInto_map (hg : P.Maps Q g) (source : ℕ) (tag : F) (length : ℕ) :
    Image (List.map (Node.map g)) id (pushInto P source tag length)
      (pushInto Q source tag length) :=
  .bind (readNode_map (Node.map g) source) fun child => cover_map hg child tag length

variable [DecidableEq F]

theorem pushDown_map (hg : P.Maps Q g) (kPush : Bool) (current : Node X F) (m n : ℕ) :
    Image (List.map (Node.map g)) id (pushDown P kPush current m n)
      (pushDown Q kPush (current.map g) m n) := by
  unfold pushDown
  rw [hg.actionIdentity]
  exact .ite (fun _ => .bind (pushInto_map hg _ _ _) fun leftChild =>
    .bind (pushInto_map hg _ _ _) fun rightChild => .pure _) fun _ => .pure _

theorem update_map (hg : P.Maps Q g) (kPush : Bool) (i lo hi l r : ℕ) (f : F) :
    Image (List.map (Node.map g)) id (update P kPush i lo hi l r f)
      (update Q kPush i lo hi l r f) := by
  induction hk : hi - lo using Nat.strong_induction_on generalizing i lo hi with
  | _ k ih =>
    rw [update, update]
    refine .bind (readNode_map (Node.map g) i) fun current => .ite (fun _ => cover_map hg _ _ _)
      fun _ => .ite (fun hlt => ?_) fun _ => .throw _
    have h1 := Segment.le_midpoint lo hi
    have h2 := Segment.midpoint_lt hlt
    refine .bind (pushDown_map hg kPush current _ _) fun p =>
      .bind (.ite (fun _ => ih _ ?_ _ _ _ rfl) fun _ => .pure _) fun newLeft =>
        .bind (.ite (fun _ => ih _ ?_ _ _ _ rfl) fun _ => .pure _) fun newRight =>
          .bind (readNode_map (Node.map g) newLeft) fun leftNode =>
            .bind (readNode_map (Node.map g) newRight) fun rightNode => ?_
    · omega
    · omega
    · rw [show (leftNode.map g).aggregate = g leftNode.aggregate from rfl,
        show (rightNode.map g).aggregate = g rightNode.aggregate from rfl, hg.combine]
      refine .bind (.liftMap g _) fun children => ?_
      rw [hg.apply]
      exact .bind (.liftMap g _) fun aggregate => pushBack_map (Node.map g) _

omit [DecidableEq F] in
theorem query_map (hg : P.Maps Q g) (nodes : List (Node X F)) (i lo hi l r : ℕ) (f : F) :
    query Q (nodes.map (Node.map g)) i lo hi l r f = g <$> query P nodes i lo hi l r f := by
  induction hk : hi - lo using Nat.strong_induction_on generalizing i lo hi f with
  | _ k ih =>
    rw [query, query, vectorAt_map, hg.aggregateIdentity, hg.compose]
    by_cases hout : hi < l ∨ lo > r
    · rw [if_pos hout, if_pos hout]
      rfl
    rw [if_neg hout, if_neg hout]
    rcases vectorAt nodes i with e | node
    · rfl
    show (if _ then _ else _) = g <$> (if _ then _ else _)
    by_cases hin : l ≤ lo ∧ hi ≤ r
    · rw [if_pos hin, if_pos hin]
      exact hg.apply _ _ _
    rw [if_neg hin, if_neg hin]
    by_cases hlt : lo < hi
    swap
    · rw [if_neg hlt, if_neg hlt]
      rfl
    have h1 := Segment.le_midpoint lo hi
    have h2 := Segment.midpoint_lt hlt
    rw [if_pos hlt, if_pos hlt]
    show (P.compose f node.tag >>= _) = g <$> (P.compose f node.tag >>= _)
    rcases P.compose f node.tag with e | next
    · rfl
    have hleft := ih _ (by omega) node.leftChild lo (Segment.midpoint lo hi) next rfl
    have hright := ih _ (by omega) node.rightChild (Segment.midpoint lo hi + 1) hi next rfl
    refine Eq.trans ?_ (hg.combine_bind _ _)
    rw [← hleft, ← hright]
    rfl

end PathCopyingActionTree

/-! ## PointMaterializedPersistentTree -/

namespace PointMaterializedPersistentTree

/-- The node with the image of its aggregate. -/
def Node.map (g : X → Y) (node : Node X) : Node Y :=
  ⟨node.leftChild, node.rightChild, g node.aggregate⟩

theorem update_map (hg : P.Maps Q g) (i lo hi l r : ℕ) (f : F) :
    Image (List.map (Node.map g)) id (update P i lo hi l r f) (update Q i lo hi l r f) := by
  induction hk : hi - lo using Nat.strong_induction_on generalizing i lo hi with
  | _ k ih =>
    rw [update, update]
    refine .bind (readNode_map (Node.map g) i) fun current => .ite (fun _ => ?_) fun _ =>
      .ite (fun hlt => ?_) fun _ => .throw _
    · rw [show (current.map g).aggregate = g current.aggregate from rfl, hg.apply]
      exact .bind (.liftMap g _) fun aggregate => pushBack_map (Node.map g) _
    have h1 := Segment.le_midpoint lo hi
    have h2 := Segment.midpoint_lt hlt
    refine .bind (.ite (fun _ => ih _ ?_ _ _ _ rfl) fun _ => .pure _) fun newLeft =>
      .bind (.ite (fun _ => ih _ ?_ _ _ _ rfl) fun _ => .pure _) fun newRight =>
        .bind (readNode_map (Node.map g) newLeft) fun leftNode =>
          .bind (readNode_map (Node.map g) newRight) fun rightNode => ?_
    · omega
    · omega
    · rw [show (leftNode.map g).aggregate = g leftNode.aggregate from rfl,
        show (rightNode.map g).aggregate = g rightNode.aggregate from rfl, hg.combine]
      exact .bind (.liftMap g _) fun aggregate => pushBack_map (Node.map g) _

theorem query_map (hg : P.Maps Q g) (nodes : List (Node X)) (i lo hi l r : ℕ) :
    query Q (nodes.map (Node.map g)) i lo hi l r = g <$> query P nodes i lo hi l r := by
  induction hk : hi - lo using Nat.strong_induction_on generalizing i lo hi with
  | _ k ih =>
    rw [query, query, vectorAt_map, hg.aggregateIdentity]
    by_cases hout : hi < l ∨ lo > r
    · rw [if_pos hout, if_pos hout]
      rfl
    rw [if_neg hout, if_neg hout]
    rcases vectorAt nodes i with e | node
    · rfl
    show (if _ then _ else _) = g <$> (if _ then _ else _)
    by_cases hin : l ≤ lo ∧ hi ≤ r
    · rw [if_pos hin, if_pos hin]
      rfl
    rw [if_neg hin, if_neg hin]
    by_cases hlt : lo < hi
    swap
    · rw [if_neg hlt, if_neg hlt]
      rfl
    have h1 := Segment.le_midpoint lo hi
    have h2 := Segment.midpoint_lt hlt
    rw [if_pos hlt, if_pos hlt]
    have hleft := ih _ (by omega) node.leftChild lo (Segment.midpoint lo hi) rfl
    have hright := ih _ (by omega) node.rightChild (Segment.midpoint lo hi + 1) hi rfl
    refine Eq.trans ?_ (hg.combine_bind _ _)
    rw [← hleft, ← hright]
    rfl

end PointMaterializedPersistentTree

/-! ## Whole runs of the persistent trees -/

section Parts

variable {Node Node' : Type}

/-- The state with the images of its nodes. -/
def ActionTree.map (h : Node → Node') (s : ActionTree Node) : ActionTree Node' :=
  ⟨s.nodes.map h, s.roots, s.arraySize⟩

/-- The parts of two trees do the same on nodes and on their images. -/
structure PartsMap (T : ActionTreeParts Node X F) (T' : ActionTreeParts Node' Y F) (g : X → Y)
    (h : Node → Node') : Prop where
  recordBytes : T'.recordBytes = T.recordBytes
  actionIdentity : T'.actionIdentity = T.actionIdentity
  build : ∀ values lo hi, Image (List.map h) id (T.build values lo hi)
    (T'.build (values.map g) lo hi)
  update : ∀ i lo hi l r f, Image (List.map h) id (T.update i lo hi l r f) (T'.update i lo hi l r f)
  query : ∀ nodes i lo hi l r,
    T'.query (nodes.map h) i lo hi l r = g <$> T.query nodes i lo hi l r

theorem PathCopyingActionTree.partsMap [DecidableEq F] (hg : P.Maps Q g) (kPush : Bool) :
    PartsMap (parts P kPush) (parts Q kPush) g (PathCopyingActionTree.Node.map g) where
  recordBytes := congrArg RecordSizes.recordBytes hg.sizes
  actionIdentity := hg.actionIdentity
  build values lo hi := by
    show Image _ _ (build P values lo hi) (build Q (values.map g) lo hi)
    unfold build
    rw [hg.actionIdentity]
    exact hg.buildArena (PathCopyingActionTree.Node.map g) (fun _ => rfl) (fun _ _ _ => rfl)
      (fun _ => rfl) values lo hi
  update := update_map hg kPush
  query nodes i lo hi l r := by
    show query Q _ i lo hi l r Q.actionIdentity = _
    rw [hg.actionIdentity]
    exact query_map hg nodes i lo hi l r _

theorem PointMaterializedPersistentTree.partsMap (hg : P.Maps Q g) :
    PartsMap (parts P) (parts Q) g (PointMaterializedPersistentTree.Node.map g) where
  recordBytes := congrArg RecordSizes.taglessRecordBytes hg.sizes
  actionIdentity := hg.actionIdentity
  build := hg.buildArena (PointMaterializedPersistentTree.Node.map g) (fun _ => rfl)
    (fun _ _ _ => rfl) fun _ => rfl
  update := update_map hg
  query := query_map hg

variable {T : ActionTreeParts Node X F} {T' : ActionTreeParts Node' Y F} {h : Node → Node'}

namespace PartsMap

theorem initializeFrom (hT : PartsMap T T' g h) (values : List X) :
    Image (ActionTree.map h) id (T.initializeFrom values) (T'.initializeFrom (values.map g)) := by
  unfold ActionTreeParts.initializeFrom
  rw [hT.recordBytes, List.length_map]
  simp only [List.map_eq_nil_iff]
  refine .ite (fun _ => .set _) fun _ => .bind (.lift _) fun _ => .bind (.lift _) fun _ => ?_
  exact .bind (.liftLocal (hT.build values 0 (values.length - 1)) []) fun _ => .set _

variable [DecidableEq F]

theorem rangeApply (hT : PartsMap T T' g h) (l r : ℕ) (f : F) :
    Image (ActionTree.map h) id (T.rangeApply l r f) (T'.rangeApply l r f) := by
  intro s
  rcases ha : ActionTreeParts.admitted s l r with e | root
  · rw [ActionTreeParts.rangeApply_not_admitted ha,
      ActionTreeParts.rangeApply_not_admitted (s := s.map h) ha]
    rfl
  rw [ActionTreeParts.rangeApply_admitted ha,
    ActionTreeParts.rangeApply_admitted (s := s.map h) ha, hT.actionIdentity]
  by_cases h0 : f = T.actionIdentity
  · rw [if_pos h0, if_pos h0]
    rfl
  rw [if_neg h0, if_neg h0]
  unfold ActionTreeParts.published
  rw [show T'.update root 0 ((s.map h).arraySize - 1) l r f (s.map h).nodes =
    mapEnd (List.map h) id (T.update root 0 (s.arraySize - 1) l r f s.nodes) from
      hT.update root 0 _ l r f s.nodes]
  rcases T.update root 0 (s.arraySize - 1) l r f s.nodes with ⟨j, nodes⟩ | ⟨e, nodes⟩
  · rfl
  · simp only [mapEnd, ActionTree.map, List.length_map, List.map_take]

/-- **Runs.** -/
theorem run (hT : PartsMap T T' g h) (values : List X) (calls : List (RangeAction F)) :
    T'.run (values.map g) calls = (T.run values calls).map h := by
  induction calls using List.reverseRecOn with
  | nil => exact (hT.initializeFrom values).finalState_eq ActionTreeParts.empty
  | append_singleton calls u ih =>
    rw [T'.run_concat, T.run_concat, ih]
    exact (hT.rangeApply u.left u.right u.action).finalState_eq _

omit [DecidableEq F] in
/-- **Queries.** -/
theorem rangeAggregate (hT : PartsMap T T' g h) (s : ActionTree Node) (v l r : ℕ) :
    T'.rangeAggregate (s.map h) v l r = g <$> T.rangeAggregate s v l r := by
  unfold ActionTreeParts.rangeAggregate
  simp only [map_bind]
  refine bind_congr fun _ => bind_congr fun _ => bind_congr fun _ => bind_congr fun _ =>
    bind_congr fun root => hT.query s.nodes root 0 _ l r

end PartsMap

end Parts

/-! ## PushedLazyTree -/

namespace PushedLazyTree

/-- The vectors with the images of the aggregates. -/
def Storage.map (g : X → Y) (st : Storage X F) : Storage Y F := ⟨st.aggregates.map g, st.tags⟩

def State.map (g : X → Y) (s : State X F) : State Y F := ⟨s.toStorage.map g, s.arraySize⟩

theorem readAggregate_map (i : ℕ) :
    Image (Storage.map (F := F) g) g (readAggregate i) (readAggregate i) := by
  refine .bind .get fun this => ?_
  show Image _ _ _ (liftM (vectorAt (this.aggregates.map g) i))
  rw [vectorAt_map]
  exact .liftMap g _

theorem readTag_map (i : ℕ) : Image (Storage.map (F := F) g) id (readTag i) (readTag i) :=
  .bind .get fun _ => .lift _

theorem writeAggregate_map (i : ℕ) (x : X) :
    Image (Storage.map (F := F) g) id (writeAggregate i x) (writeAggregate i (g x)) :=
  .zoom (writeSlot_map g i x) (fun _ => rfl) fun _ _ => rfl

theorem writeTag_map (i : ℕ) (f : F) :
    Image (Storage.map (F := F) g) id (writeTag i f) (writeTag i f) :=
  .zoom (.refl (writeSlot i f)) (fun _ => rfl) fun _ _ => rfl

theorem composeInto_map (hg : P.Maps Q g) (tag : F) (child : ℕ) :
    Image (Storage.map g) id (composeInto P tag child) (composeInto Q tag child) := by
  unfold composeInto
  rw [hg.compose]
  exact .bind (readTag_map child) fun older => .bind (.lift _) fun f => writeTag_map child f

theorem build_map (hg : P.Maps Q g) (values : List X) (node lo hi : ℕ) :
    Image (List.map g) id (build P values node lo hi) (build Q (values.map g) node lo hi) := by
  induction hk : hi - lo using Nat.strong_induction_on generalizing node lo hi with
  | _ k ih =>
    rw [build, build]
    refine .ite (fun _ => ?_) fun _ => .ite (fun hlt => ?_) fun _ => .throw _
    · rw [vectorAt_map]
      exact .bind (.liftMap g _) fun value => writeSlot_map g node value
    · have h1 := Segment.le_midpoint lo hi
      have h2 := Segment.midpoint_lt hlt
      refine .bind (ih _ ?_ _ _ _ rfl) fun _ => .bind (ih _ ?_ _ _ _ rfl) fun _ =>
        .bind (readNode_map g _) fun left => .bind (readNode_map g _) fun right => ?_
      · omega
      · omega
      · rw [hg.combine]
        exact .bind (.liftMap g _) fun aggregate => writeSlot_map g node aggregate

variable [DecidableEq F]

theorem push_map (hg : P.Maps Q g) (node lo hi : ℕ) :
    Image (Storage.map g) id (push P node lo hi) (push Q node lo hi) := by
  unfold push
  rw [hg.actionIdentity]
  refine .bind (readTag_map node) fun tag => .ite (fun _ => .pure _) fun _ =>
    .bind (readAggregate_map node) fun aggregate => ?_
  rw [hg.apply]
  exact .bind (.liftMap g _) fun x => .bind (writeAggregate_map node x) fun _ =>
    .bind (.ite (fun _ => .bind (composeInto_map hg _ _) fun _ => composeInto_map hg _ _)
      fun _ => .pure _) fun _ => writeTag_map node _

theorem update_map (hg : P.Maps Q g) (node lo hi l r : ℕ) (f : F) :
    Image (Storage.map g) id (update P node lo hi l r f) (update Q node lo hi l r f) := by
  induction hk : hi - lo using Nat.strong_induction_on generalizing node lo hi with
  | _ k ih =>
    rw [update, update]
    refine .bind (push_map hg node lo hi) fun _ => .ite (fun _ => .pure _) fun _ =>
      .ite (fun _ => .bind (composeInto_map hg f node) fun _ => push_map hg node lo hi) fun _ =>
        .ite (fun hlt => ?_) fun _ => .throw _
    have h1 := Segment.le_midpoint lo hi
    have h2 := Segment.midpoint_lt hlt
    refine .bind (ih _ ?_ _ _ _ rfl) fun _ => .bind (ih _ ?_ _ _ _ rfl) fun _ =>
      .bind (readAggregate_map _) fun left => .bind (readAggregate_map _) fun right => ?_
    · omega
    · omega
    · rw [hg.combine]
      exact .bind (.liftMap g _) fun aggregate => writeAggregate_map node aggregate

theorem query_map (hg : P.Maps Q g) (node lo hi l r : ℕ) :
    Image (Storage.map g) g (query P node lo hi l r) (query Q node lo hi l r) := by
  induction hk : hi - lo using Nat.strong_induction_on generalizing node lo hi with
  | _ k ih =>
    rw [query, query, hg.aggregateIdentity]
    refine .bind (push_map hg node lo hi) fun _ => .ite (fun _ => .pure _) fun _ =>
      .ite (fun _ => readAggregate_map node) fun _ => .ite (fun hlt => ?_) fun _ => .throw _
    have h1 := Segment.le_midpoint lo hi
    have h2 := Segment.midpoint_lt hlt
    refine .bind (ih _ ?_ _ _ _ rfl) fun left => .bind (ih _ ?_ _ _ _ rfl) fun right => ?_
    · omega
    · omega
    · rw [hg.combine]
      exact .liftMap g _

omit [DecidableEq F] in
theorem initializeFrom_map (hg : P.Maps Q g) (values : List X) :
    Image (State.map g) id (initializeFrom P values) (initializeFrom Q (values.map g)) := by
  unfold initializeFrom
  rw [hg.sizes, hg.aggregateIdentity, hg.actionIdentity, List.length_map]
  refine .bind (.lift _) fun count => .bind (.lift _) fun _ => .bind (.lift _) fun _ => ?_
  have hmap : ∀ n, List.replicate n (g P.aggregateIdentity) =
      (List.replicate n P.aggregateIdentity).map g := fun n => List.map_replicate.symm
  simp only [hmap, ne_eq, List.map_eq_nil_iff]
  refine .bind (g := List.map g) (.ite (fun _ => ?_) fun _ => .pure _) fun built => .set _
  exact .bind (.liftLocal (build_map hg values 0 0 (values.length - 1)) _) fun p => .pure _

omit [DecidableEq F] in
theorem onStorage_map {α β : Type} {k : α → β} {x : EStateM Exception (Storage X F) α}
    {y : EStateM Exception (Storage Y F) β} (h : Image (Storage.map g) k x y) :
    Image (State.map g) k (onStorage x) (onStorage y) :=
  .zoom h (fun _ => rfl) fun _ _ => rfl

theorem rangeApply_map (hg : P.Maps Q g) (l r : ℕ) (f : F) :
    Image (State.map g) id (rangeApply P l r f) (rangeApply Q l r f) :=
  .bind .get fun _ => .bind (.lift _) fun _ => .bind (.lift _) fun _ =>
    onStorage_map (update_map hg _ _ _ _ _ _)

/-- **Queries.** -/
theorem rangeAggregate_map (hg : P.Maps Q g) (l r : ℕ) :
    Image (State.map g) g (rangeAggregate P l r) (rangeAggregate Q l r) :=
  .bind .get fun _ => .bind (.lift _) fun _ => .bind (.lift _) fun _ =>
    onStorage_map (query_map hg _ _ _ _ _)

/-- **Runs.** -/
theorem run_map (hg : P.Maps Q g) (values : List X) (operations : List (Operation F)) :
    run Q (values.map g) operations = (run P values operations).map g := by
  induction operations using List.reverseRecOn with
  | nil => exact (initializeFrom_map hg values).finalState_eq empty
  | append_singleton operations operation ih =>
    unfold run at ih ⊢
    rw [List.foldl_append, List.foldl_append, ih]
    cases operation with
    | rangeApply l r f => exact (rangeApply_map hg l r f).finalState_eq _
    | rangeAggregate l r => exact (rangeAggregate_map hg l r).finalState_eq _

end PushedLazyTree

end Valseg
