import Valseg.ActionArrays
import Mathlib.Data.ZMod.Basic

/-!
# The observational-commutativity boundary

`PathCopyingActionTree` over a lawful policy of total operations. A query answers with the array
the nodes hold (`query_holds`), and an update that pushes tags keeps the chronological order
(`pushed_keepsOrder`). One that retains them applies an older tag outside a newer action, which is
the same where length-one applications commute on reached elements (`retained_keepsOrder`), and
`chronological_iff_commute` says that it is the same nowhere else.
-/

namespace Valseg

namespace PathCopyingActionTree

open SegmentAction (AllReached actOn partAggregate)

variable {X F : Type} {M : SegmentAction X F} {S : Set X} {sizes : RecordSizes}
  {nodes more : List (Node X F)} {i j k lo hi l r : ℕ} {A B : ℕ → X} {f : F}

/-- A query answers with the part of the array inside the range, under the inherited action. -/
theorem query_holds (hM : M.Lawful S) (l r : ℕ) (inherited : F)
    (h : HoldsArray M S id nodes i lo hi A) :
    query (totalPolicy M sizes) nodes i lo hi l r inherited =
      .ok (M.partAggregate (fun j => M.act inherited (A j)) lo hi l r) := by
  induction h generalizing inherited with
  | @leaf i lo A node hn ha hA =>
    rw [query]
    by_cases hout : lo < l ∨ lo > r
    · rw [if_pos hout, SegmentAction.partAggregate_of_apart le_rfl hout]
      rfl
    have hin : l ≤ lo ∧ lo ≤ r := by omega
    rw [if_neg hout, vectorAt_eq_ok.mpr hn, Effect.ok_bind, if_pos hin,
      SegmentAction.partAggregate_of_inside le_rfl hin,
      hM.aggregate_single (A := fun j => M.act inherited (A j)) (hA.act inherited),
      Segment.length, Nat.sub_self, show node.aggregate = A lo from ha]
    rfl
  | @inner i lo hi A B node hlt hn ha hA hl hr ihl ihr =>
    have hreach := (HoldsArray.inner hlt hn ha hA hl hr).reached
    rw [query]
    by_cases hout : hi < l ∨ lo > r
    · rw [if_pos hout, SegmentAction.partAggregate_of_apart hlt.le hout]
      rfl
    rw [if_neg hout, vectorAt_eq_ok.mpr hn, Effect.ok_bind]
    by_cases hin : l ≤ lo ∧ hi ≤ r
    · rw [if_pos hin, SegmentAction.partAggregate_of_inside hlt.le hin,
        ← hM.apply_aggregate inherited hlt.le hreach,
        show node.aggregate = M.aggregate A lo hi from ha]
      rfl
    -- the children hold what the tag makes the elements of this node out of
    have hnext : ∀ j, lo ≤ j → j ≤ hi →
        M.act (M.compose inherited node.tag) (B j) = M.act inherited (A j) := by
      intro j h1 h2
      have hB : M.Reached S (B j) := by
        by_cases hm : j ≤ Segment.midpoint lo hi
        · exact hl.reached j h1 hm
        · exact hr.reached j (by omega) h2
      rw [hM.act_compose hB, hA j h1 h2]
      rfl
    have h1 := Segment.le_midpoint lo hi
    have h2 := Segment.midpoint_lt hlt
    rw [if_neg hin, if_pos hlt, hM.partAggregate_split hlt (hreach.act inherited)]
    simp only [totalPolicy, Effect.ok_bind] at ihl ihr ⊢
    rw [show query _ nodes node.leftChild _ _ _ _ _ = _ from ihl _,
      show query _ nodes node.rightChild _ _ _ _ _ = _ from ihr _,
      SegmentAction.partAggregate_congr (fun j h3 h4 => hnext j h3 (by omega)) h1,
      SegmentAction.partAggregate_congr (fun j h3 h4 => hnext j (by omega) h4) h2]
    rfl

/-- A fully covered node, and a child that a tag is pushed into. -/
theorem cover_appends (hM : M.Lawful S) {node : Node X F} (h : HoldsArray M S id nodes i lo hi A)
    (hn : nodes[i]? = some node) :
    AppendsArray M S id nodes ((do
        let aggregate ← (totalPolicy M sizes).apply f node.aggregate (Segment.length lo hi)
        let tag ← (totalPolicy M sizes).compose f node.tag
        pushBack ⟨node.leftChild, node.rightChild, aggregate, tag⟩ : ArenaM (Node X F) ℕ) nodes)
      lo hi fun j => M.act f (A j) :=
  .push (h.cover hM hn rfl)

theorem pushInto_appends (hM : M.Lawful S) (h : HoldsArray M S id nodes i lo hi A) (z : F) :
    AppendsArray M S id nodes
      (pushInto (totalPolicy M sizes) i z (Segment.length lo hi) nodes) lo hi
      fun j => M.act z (A j) := by
  obtain ⟨node, hn, -⟩ := h.root hM
  unfold pushInto
  rw [Effect.run_bind_ok (readNode_run hn)]
  exact cover_appends hM h hn

/-- The record over the updated halves. -/
theorem rebuild_appends (hM : M.Lawful S) (hlt : lo < hi)
    (hl : HoldsArray M S id nodes j lo (Segment.midpoint lo hi) B)
    (hr : HoldsArray M S id nodes k (Segment.midpoint lo hi + 1) hi B) (z : F) :
    AppendsArray M S id nodes ((do
        let leftNode ← readNode j
        let rightNode ← readNode k
        let children ← (totalPolicy M sizes).combine leftNode.aggregate rightNode.aggregate
        let aggregate ← (totalPolicy M sizes).apply z children (Segment.length lo hi)
        pushBack ⟨j, k, aggregate, z⟩ : ArenaM (Node X F) ℕ) nodes) lo hi fun i => M.act z (B i) := by
  obtain ⟨nl, hnl, hal⟩ := hl.root hM
  obtain ⟨nr, hnr, har⟩ := hr.root hM
  rw [Effect.run_bind_ok (readNode_run hnl), Effect.run_bind_ok (readNode_run hnr),
    show nl.aggregate = _ from hal, show nr.aggregate = _ from har]
  exact .push (HoldsArray.node hM hlt hl hr z rfl)

/-- Covered or not, what is done to the whole segment is done to the range. -/
theorem actOn_of_covered (hin : l ≤ lo ∧ hi ≤ r) :
    ∀ j, lo ≤ j → j ≤ hi → M.act f (A j) = M.actOn A l r f j := fun _ h1 h2 =>
  (SegmentAction.actOn_of_inside (hin.1.trans h1) (h2.trans hin.2)).symm

/-! ## One update -/

/-- Length-one applications commute on the reached elements. -/
def ActionsCommute (M : SegmentAction X F) (S : Set X) : Prop :=
  ∀ f g x, M.Reached S x → M.apply f (M.apply g x 1) 1 = M.apply g (M.apply f x 1) 1

variable [DecidableEq F]

/-- After a push, or where there is nothing to push, the children hold the array itself. -/
theorem pushDown_run (hM : M.Lawful S) (hlt : lo < hi) {node : Node X F}
    (hA : ∀ j, lo ≤ j → j ≤ hi → A j = M.act node.tag (B j))
    (hl : HoldsArray M S id nodes node.leftChild lo (Segment.midpoint lo hi) B)
    (hr : HoldsArray M S id nodes node.rightChild (Segment.midpoint lo hi + 1) hi B) :
    ∃ j k more, pushDown (totalPolicy M sizes) true node (Segment.midpoint lo hi - lo + 1)
        (hi - Segment.midpoint lo hi) nodes = .ok (j, k, M.identity) (nodes ++ more) ∧
      HoldsArray M S id (nodes ++ more) j lo (Segment.midpoint lo hi) A ∧
      HoldsArray M S id (nodes ++ more) k (Segment.midpoint lo hi + 1) hi A := by
  have h1 := Segment.le_midpoint lo hi
  have h2 := Segment.midpoint_lt hlt
  have hlength : hi - Segment.midpoint lo hi = Segment.length (Segment.midpoint lo hi + 1) hi := by
    unfold Segment.length
    omega
  unfold pushDown
  by_cases hz : node.tag = M.identity
  · have hz' : ¬ (true = true ∧ node.tag ≠ (totalPolicy M sizes).actionIdentity) := fun h => h.2 hz
    have hsame : ∀ j, lo ≤ j → j ≤ hi → M.Reached S (B j) → B j = A j := by
      intro j h3 h4 hB
      rw [hA j h3 h4, hz, hM.act_identity hB]
    rw [if_neg hz', hz]
    refine ⟨node.leftChild, node.rightChild, [], by rw [List.append_nil]; rfl, ?_, ?_⟩
    · rw [List.append_nil]
      exact hl.congr fun j h3 h4 => hsame j h3 (by omega) (hl.reached j h3 h4)
    · rw [List.append_nil]
      exact hr.congr fun j h3 h4 => hsame j (by omega) h4 (hr.reached j h3 h4)
  · have hz' : true = true ∧ node.tag ≠ (totalPolicy M sizes).actionIdentity := ⟨rfl, hz⟩
    rw [if_pos hz', hlength]
    obtain ⟨j, moreL, hx, hl'⟩ := pushInto_appends hM hl node.tag
    obtain ⟨k, moreR, hy, hr'⟩ := pushInto_appends hM (hr.append moreL) node.tag
    refine ⟨j, k, moreL ++ moreR, ?_, ?_, ?_⟩
    · rw [show Segment.midpoint lo hi - lo + 1 = Segment.length lo (Segment.midpoint lo hi) from rfl,
        Effect.run_bind_ok hx, Effect.run_bind_ok hy, List.append_assoc]
      rfl
    · rw [← List.append_assoc]
      exact (hl'.append moreR).congr fun j h3 h4 => (hA j h3 (by omega)).symm
    · rw [← List.append_assoc]
      exact hr'.congr fun j h3 h4 => (hA j (by omega) h4).symm

/-- What a partial descent goes on with: children that hold an array, and a tag that makes the
updated array out of it once it is updated. -/
theorem pushDown_cases (hM : M.Lawful S) {push : Bool} (horder : push = true ∨ ActionsCommute M S)
    (hlt : lo < hi) (l r : ℕ) (f : F) (node : Node X F)
    (hA : ∀ j, lo ≤ j → j ≤ hi → A j = M.act node.tag (B j))
    (hl : HoldsArray M S id nodes node.leftChild lo (Segment.midpoint lo hi) B)
    (hr : HoldsArray M S id nodes node.rightChild (Segment.midpoint lo hi + 1) hi B) :
    ∃ j k z C more, pushDown (totalPolicy M sizes) push node (Segment.midpoint lo hi - lo + 1)
        (hi - Segment.midpoint lo hi) nodes = .ok (j, k, z) (nodes ++ more) ∧
      HoldsArray M S id (nodes ++ more) j lo (Segment.midpoint lo hi) C ∧
      HoldsArray M S id (nodes ++ more) k (Segment.midpoint lo hi + 1) hi C ∧
      ∀ i, lo ≤ i → i ≤ hi → M.act z (M.actOn C l r f i) = M.actOn A l r f i := by
  have hreach : ∀ {C : ℕ → X} {nodes : List (Node X F)} {j k : ℕ},
      HoldsArray M S id nodes j lo (Segment.midpoint lo hi) C →
      HoldsArray M S id nodes k (Segment.midpoint lo hi + 1) hi C → M.AllReached S C lo hi := by
    intro C nodes j k hj hk i h1 h2
    by_cases hm : i ≤ Segment.midpoint lo hi
    · exact hj.reached i h1 hm
    · exact hk.reached i (by omega) h2
  cases push with
  | true =>
    obtain ⟨j, k, more, hp, hl', hr'⟩ := pushDown_run hM hlt hA hl hr
    exact ⟨j, k, M.identity, A, more, hp, hl', hr', fun i h1 h2 =>
      hM.act_identity (hreach hl' hr' i h1 h2).actOn⟩
  | false =>
    refine ⟨node.leftChild, node.rightChild, node.tag, B, [], ?_, ?_, ?_, fun i h1 h2 => ?_⟩
    · unfold pushDown
      rw [List.append_nil]
      exact congrFun (if_neg fun h => nomatch h.1) nodes
    · rw [List.append_nil]
      exact hl
    · rw [List.append_nil]
      exact hr
    · have hcomm := horder.resolve_left nofun f node.tag (B i) (hreach hl hr i h1 h2)
      unfold SegmentAction.actOn
      split_ifs with hin
      · rw [hA i h1 h2]
        exact hcomm.symm
      · exact (hA i h1 h2).symm

/-- **One update.** Where tags are pushed, or the actions commute, it makes the array the action
makes on the range. -/
theorem update_appends (hM : M.Lawful S) {push : Bool} (horder : push = true ∨ ActionsCommute M S)
    (f : F) : ∀ lo hi, lo ≤ hi → ∀ {nodes : List (Node X F)} {i : ℕ} {A : ℕ → X}, l ≤ hi → lo ≤ r →
      HoldsArray M S id nodes i lo hi A →
      AppendsArray M S id nodes (update (totalPolicy M sizes) push i lo hi l r f nodes) lo hi
        (M.actOn A l r f) := by
  refine Segment.halving_induction ?_ ?_
  · intro m nodes i A h1 h2 h
    obtain ⟨node, hn, -⟩ := h.root hM
    have hin : l ≤ m ∧ m ≤ r := ⟨h1, h2⟩
    rw [update, Effect.run_bind_ok (readNode_run hn)]
    simp only [if_pos hin]
    exact (cover_appends hM h hn).congr (actOn_of_covered hin)
  · intro lo hi hlt ihl ihr nodes i A h1 h2 h
    cases h with
    | leaf => exact absurd hlt (lt_irrefl _)
    | @inner _ _ _ _ B node _ hn ha hA hl hr =>
      rw [update, Effect.run_bind_ok (readNode_run hn)]
      by_cases hin : l ≤ lo ∧ hi ≤ r
      · simp only [if_pos hin]
        exact (cover_appends hM (.inner hlt hn ha hA hl hr) hn).congr (actOn_of_covered hin)
      obtain ⟨j, k, z, C, more, hp, hl', hr', hz⟩ :=
        pushDown_cases hM horder hlt l r f node hA hl hr
      simp only [if_neg hin, if_pos hlt]
      rw [Effect.run_bind_ok hp]
      refine AppendsArray.after more (AppendsArray.congr (AppendsArray.halves
        (AppendsArray.half (fun hc => ihl hc h2 hl') ?_ hl') (fun more => ?_)
        fun j k more hl hr => rebuild_appends hM hlt hl hr z) hz)
      · omega
      · exact AppendsArray.half (fun hc => ihr h1 hc (hr'.append more)) (by omega)
          (hr'.append more)

omit [DecidableEq F] in
/-- The build. -/
theorem build_appends (hM : M.Lawful S) (sizes : RecordSizes) {values : List X} (hle : lo ≤ hi)
    (nodes : List (Node X F)) (hv : ∀ i, lo ≤ i → i ≤ hi → values[i]? = some (A i))
    (hA : M.AllReached S A lo hi) :
    AppendsArray M S id nodes (build (totalPolicy M sizes) values lo hi nodes) lo hi A :=
  buildArena_holds hM (fun _ => rfl) (fun _ _ _ => rfl) (fun _ => rfl) lo hi hle hv hA

/-- **Order kept.** -/
theorem keepsOrder (hM : M.Lawful S) {push : Bool} (horder : push = true ∨ ActionsCommute M S) :
    KeepsOrder M S id (parts (totalPolicy M sizes) push) where
  actionIdentity := rfl
  build hv hA := build_appends hM sizes (Nat.zero_le _) [] (fun i _ hi => hv i hi) hA
  update f hlr hr h := update_appends hM horder f 0 _ (Nat.zero_le _) (hlr.trans hr)
    (Nat.zero_le _) h
  query {nodes i hi A} l r h := by
    show query (totalPolicy M sizes) nodes i 0 hi l r M.identity = _
    rw [query_holds hM l r M.identity h]
    exact congrArg _ (SegmentAction.partAggregate_congr
      (fun j h1 h2 => hM.act_identity (h.reached j h1 h2)) h.le)

/-! ## The order that retained tags lose -/

variable (M) in
/-- The leftmost element of a segment, below identity tags. -/
inductive Leftmost (nodes : List (Node X F)) : ℕ → ℕ → ℕ → X → Prop
  | leaf {i lo : ℕ} {node : Node X F} (hn : nodes[i]? = some node) :
      Leftmost nodes i lo lo node.aggregate
  | inner {i lo hi : ℕ} {x : X} {node right : Node X F} (hlt : lo < hi) (hn : nodes[i]? = some node)
      (hz : node.tag = M.identity) (hr : nodes[node.rightChild]? = some right)
      (hl : Leftmost nodes node.leftChild lo (Segment.midpoint lo hi) x) : Leftmost nodes i lo hi x

variable {x : X}

omit [DecidableEq F] in
theorem Leftmost.root (h : Leftmost M nodes i lo hi x) : ∃ node, nodes[i]? = some node := by
  cases h with
  | leaf hn => exact ⟨_, hn⟩
  | inner hlt hn hz hr hl => exact ⟨_, hn⟩

omit [DecidableEq F] in
theorem Leftmost.append (more : List (Node X F)) (h : Leftmost M nodes i lo hi x) :
    Leftmost M (nodes ++ more) i lo hi x := by
  induction h with
  | leaf hn => exact .leaf (getElem?_more more hn)
  | inner hlt hn hz hr hl ih =>
    exact .inner hlt (getElem?_more more hn) hz (getElem?_more more hr) ih

omit [DecidableEq F] in
/-- It is what a query of its index answers, under the inherited action. -/
theorem Leftmost.query_eq (sizes : RecordSizes) (hM : M.Lawful S) (hx : M.Reached S x) (inherited : F)
    (h : Leftmost M nodes i lo hi x) :
    query (totalPolicy M sizes) nodes i lo hi lo lo inherited = .ok (M.act inherited x) := by
  induction h with
  | @leaf i lo node hn =>
    rw [query, if_neg (by omega), vectorAt_eq_ok.mpr hn, Effect.ok_bind, if_pos ⟨le_rfl, le_rfl⟩,
      Segment.length, Nat.sub_self]
    rfl
  | @inner i lo hi x node right hlt hn hz hr hl ih =>
    have h1 := Segment.le_midpoint lo hi
    have hright : query (totalPolicy M sizes) nodes node.rightChild (Segment.midpoint lo hi + 1) hi
        lo lo inherited = .ok M.empty := by
      rw [query, if_pos (.inr (by omega))]
      rfl
    rw [query, if_neg (by omega), vectorAt_eq_ok.mpr hn, Effect.ok_bind, if_neg (by omega),
      if_pos hlt, hz]
    simp only [totalPolicy, Effect.ok_bind, hM.compose_identity] at ih hright ⊢
    rw [ih hx, hright]
    exact congrArg Except.ok (hM.combine_empty (.single (hx.act inherited)))

/-- What a descent to it does above, whatever the tag: the copy keeps the tag. -/
theorem update_leftmost_above {tag : F} {node right : Node X F} (hlt : lo < hi)
    (hn : nodes[i]? = some node) (hz : node.tag = tag) (hr : nodes[node.rightChild]? = some right)
    (hu : ∃ j more, update (totalPolicy M sizes) false node.leftChild lo (Segment.midpoint lo hi)
      lo lo f nodes = .ok j (nodes ++ more) ∧ Leftmost M (nodes ++ more) j lo
        (Segment.midpoint lo hi) x) :
    ∃ more new, update (totalPolicy M sizes) false i lo hi lo lo f nodes =
        .ok (nodes ++ more).length (nodes ++ more ++ [new]) ∧ new.tag = tag ∧
      Leftmost M (nodes ++ more) new.leftChild lo (Segment.midpoint lo hi) x ∧
      (nodes ++ more)[new.rightChild]? = some right := by
  have h1 := Segment.le_midpoint lo hi
  obtain ⟨j, more, hu, hl⟩ := hu
  obtain ⟨left, hleft⟩ := hl.root
  have hright := getElem?_more more hr
  have hkeep : pushDown (totalPolicy M sizes) false node (Segment.midpoint lo hi - lo + 1)
      (hi - Segment.midpoint lo hi) = pure (node.leftChild, node.rightChild, node.tag) := by
    unfold pushDown
    exact if_neg fun h => nomatch h.1
  refine ⟨more, ⟨j, node.rightChild, M.apply node.tag (M.combine left.aggregate right.aggregate)
    (Segment.length lo hi), node.tag⟩, ?_, hz, hl, hright⟩
  rw [update, Effect.run_bind_ok (readNode_run hn)]
  simp only [if_neg (show ¬ (lo ≤ lo ∧ hi ≤ lo) by omega), if_pos hlt, hkeep, pure_bind, if_pos h1,
    if_neg (show ¬ lo > Segment.midpoint lo hi by omega)]
  rw [Effect.run_bind_ok hu, Effect.run_bind_ok (readNode_run hleft),
    Effect.run_bind_ok (readNode_run hright)]
  exact pushBack_run _ _

/-- An update of its index makes the action on it. -/
theorem Leftmost.update (h : Leftmost M nodes i lo hi x) :
    ∃ j more, PathCopyingActionTree.update (totalPolicy M sizes) false i lo hi lo lo f nodes =
      .ok j (nodes ++ more) ∧ Leftmost M (nodes ++ more) j lo hi (M.act f x) := by
  induction h with
  | @leaf i lo node hn =>
    refine ⟨nodes.length, [⟨node.leftChild, node.rightChild, M.act f node.aggregate,
      M.compose f node.tag⟩], ?_, .leaf List.getElem?_concat_length⟩
    rw [PathCopyingActionTree.update, Effect.run_bind_ok (readNode_run hn)]
    simp only [le_refl, and_self, if_true, Segment.length, Nat.sub_self]
    exact pushBack_run _ _
  | @inner i lo hi x node right hlt hn hz hr hl ih =>
    obtain ⟨more, new, hu, htag, hleft, hright⟩ := update_leftmost_above hlt hn hz hr ih
    refine ⟨_, more ++ [new], by rw [← List.append_assoc]; exact hu, ?_⟩
    rw [← List.append_assoc]
    exact .inner hlt List.getElem?_concat_length htag (getElem?_more _ hright) (hleft.append _)

omit [DecidableEq F] in
/-- A build puts its first element under identity tags. -/
theorem build_leftmost (sizes : RecordSizes) (hM : M.Lawful S) {values : List X} : ∀ lo hi, lo ≤ hi →
    ∀ (nodes : List (Node X F)) {A : ℕ → X}, (∀ i, lo ≤ i → i ≤ hi → values[i]? = some (A i)) →
      M.AllReached S A lo hi → ∃ j more, build (totalPolicy M sizes) values lo hi nodes =
        .ok j (nodes ++ more) ∧ Leftmost M (nodes ++ more) j lo hi (A lo) := by
  refine Segment.halving_induction ?_ ?_
  · intro i nodes A hv hA
    refine ⟨nodes.length, [⟨noNode, noNode, A i, M.identity⟩], ?_,
      .leaf List.getElem?_concat_length⟩
    rw [build, Policy.buildArena, if_pos rfl, vectorAt_eq_ok.mpr (hv i le_rfl le_rfl),
      Effect.run_bind_ok (Effect.liftM_ok _ _)]
    exact pushBack_run _ _
  · intro lo hi hlt ihl ihr nodes A hv hA
    have h1 := Segment.le_midpoint lo hi
    have h2 := Segment.midpoint_lt hlt
    obtain ⟨j, moreL, hj, hl⟩ := ihl nodes (fun i h3 h4 => hv i h3 (by omega)) (hA.left hlt)
    obtain ⟨k, moreR, hk, hr⟩ := build_appends hM sizes h2 (nodes ++ moreL)
      (fun i h3 h4 => hv i (by omega) h4) hA.right
    obtain ⟨right, hright, -⟩ := hr.root hM
    have hl' := hl.append moreR
    obtain ⟨left, hleft⟩ := hl'.root
    refine ⟨(nodes ++ moreL ++ moreR).length,
      moreL ++ (moreR ++ [⟨j, k, M.combine left.aggregate right.aggregate, M.identity⟩]),
      ?_, ?_⟩
    · unfold build at hj hk ⊢
      rw [Policy.buildArena, if_neg hlt.ne, if_pos hlt, Effect.run_bind_ok hj,
        Effect.run_bind_ok hk, Effect.run_bind_ok (readNode_run hleft),
        Effect.run_bind_ok (readNode_run hright)]
      simp only [← List.append_assoc]
      exact pushBack_run _ _
    · simp only [← List.append_assoc]
      exact .inner hlt List.getElem?_concat_length rfl (getElem?_more _ hright) (hl'.append _)

/-! ## Runs that tell two actions apart -/

/-- The number of versions, and what is below the root of the latest. -/
structure Latest (s : ActionTree (Node X F)) (size count : ℕ)
    (below : List (Node X F) → ℕ → Prop) : Prop where
  arraySize : s.arraySize = size
  roots : s.roots.length = count + 1
  root : ∃ root, s.roots[count]? = some root ∧ below s.nodes root

section Latest

variable {s : ActionTree (Node X F)} {size count : ℕ} {below below' : List (Node X F) → ℕ → Prop}

omit [DecidableEq F] in
theorem Latest.admitted (h : Latest s size count below) (hlr : l ≤ r) (hr : r < size) :
    ∃ root, ActionTreeParts.admitted s l r = .ok root ∧ below s.nodes root := by
  obtain ⟨root, hroot, hb⟩ := h.root
  refine ⟨root, ActionTreeParts.admitted_eq_ok hlr (h.arraySize.symm ▸ hr) ?_, hb⟩
  rwa [h.roots, Nat.add_sub_cancel]

/-- An update with the identity publishes the same root again. -/
theorem Latest.identity (h : Latest s size count below) (hlr : l ≤ r) (hr : r < size) :
    Latest (Effect.finalState ((parts (totalPolicy M sizes) false).rangeApply l r M.identity s))
      size (count + 1) below := by
  obtain ⟨root, ha, hb⟩ := h.admitted hlr hr
  have hid : (parts (totalPolicy M sizes) false).actionIdentity = M.identity := rfl
  rw [ActionTreeParts.rangeApply_admitted ha, if_pos hid.symm]
  refine ⟨h.arraySize, ?_, root, ?_, hb⟩
  · exact (List.length_append ..).trans (by rw [h.roots]; rfl)
  · show (s.roots ++ [root])[count + 1]? = some root
    rw [← h.roots, List.getElem?_concat_length]

/-- Any other publishes what it appends. -/
theorem Latest.rangeApply (h : Latest s size count below) (hlr : l ≤ r) (hr : r < size)
    (hf : f ≠ M.identity) (hu : ∀ root, below s.nodes root → ∃ j more,
      update (totalPolicy M sizes) false root 0 (size - 1) l r f s.nodes = .ok j (s.nodes ++ more) ∧
        below' (s.nodes ++ more) j) :
    Latest (Effect.finalState ((parts (totalPolicy M sizes) false).rangeApply l r f s)) size
      (count + 1) below' := by
  obtain ⟨root, ha, hb⟩ := h.admitted hlr hr
  obtain ⟨j, more, hu, hb'⟩ := hu root hb
  have hpublished : ActionTreeParts.published (parts (totalPolicy M sizes) false) s root l r f =
      .ok s.roots.length ⟨s.nodes ++ more, s.roots ++ [j], s.arraySize⟩ := by
    unfold ActionTreeParts.published
    rw [h.arraySize, show (parts (totalPolicy M sizes) false).update root 0 (size - 1) l r f
      s.nodes = _ from hu]
  have hid : (parts (totalPolicy M sizes) false).actionIdentity = M.identity := rfl
  rw [ActionTreeParts.rangeApply_admitted ha, hid, if_neg hf, hpublished]
  refine ⟨h.arraySize, ?_, j, ?_, hb'⟩
  · exact (List.length_append ..).trans (by rw [h.roots]; rfl)
  · show (s.roots ++ [j])[count + 1]? = some j
    rw [← h.roots, List.getElem?_concat_length]

/-- The root has a tag, and the leftmost element is below it. -/
def BelowTag (tag : F) (hi : ℕ) (x : X) (nodes : List (Node X F)) (root : ℕ) : Prop :=
  ∃ node right, nodes[root]? = some node ∧ node.tag = tag ∧
    nodes[node.rightChild]? = some right ∧
    Leftmost M nodes node.leftChild 0 (Segment.midpoint 0 hi) x

end Latest

variable {n : ℕ}

/-- A reached element is reached at index 0 by updates of that index. -/
theorem exists_leftmost_run (sizes : RecordSizes) (hM : M.Lawful S) (hn : 2 ≤ n)
    (hroom : 2 * n - 1 ≤ vectorMaxSize sizes.recordBytes) (hx : M.Reached S x) :
    ∃ x₀ ∈ S, ∃ calls, validUpdates n calls = calls ∧
      M.elements (fun i => (List.replicate n x₀).getD i M.empty) calls 0 = x ∧
      Latest ((parts (totalPolicy M sizes) false).run (List.replicate n x₀) calls) n calls.length
        fun nodes root => Leftmost M nodes root 0 (n - 1) x := by
  induction hx with
  | @initial x₀ hx₀ =>
    have hget : ∀ i ≤ n - 1, (List.replicate n x₀)[i]? = some x₀ := fun i hi => by
      rw [List.getElem?_replicate, if_pos (by omega)]
    refine ⟨x₀, hx₀, [], rfl, ?_, ?_⟩
    · show (List.replicate n x₀).getD 0 M.empty = x₀
      rw [List.getD_eq_getElem?_getD, hget 0 (Nat.zero_le _)]
      rfl
    obtain ⟨j, nodes, hb, hl⟩ := build_leftmost sizes hM 0 (n - 1) (Nat.zero_le _) []
      (fun i _ hi => hget i hi) fun _ _ _ => .initial hx₀
    have hlen : (List.replicate n x₀).length = n := List.length_replicate
    have hrun := (parts (totalPolicy M sizes) false).initialize_run (List.replicate n x₀)
      (by omega) (by rw [hlen]; exact hroom) (by rw [hlen]; exact hb) ActionTreeParts.empty
    unfold ActionTreeParts.run
    rw [hrun, hlen]
    exact ⟨rfl, rfl, j, rfl, hl⟩
  | @act x f hx ih =>
    obtain ⟨x₀, hx₀, calls, hvalid, helements, hlatest⟩ := ih
    have hpos : 0 < n := by omega
    refine ⟨x₀, hx₀, calls ++ [⟨0, 0, f⟩], ?_, ?_, ?_⟩
    · rw [validUpdates_concat, hvalid, if_pos ⟨le_rfl, hpos⟩]
    · rw [SegmentAction.elements_concat, SegmentAction.actOn_of_inside le_rfl le_rfl, helements]
    rw [ActionTreeParts.run_concat, List.length_append]
    by_cases hf : f = M.identity
    · subst hf
      rw [hM.act_identity hx]
      exact hlatest.identity le_rfl hpos
    · exact hlatest.rangeApply le_rfl hpos hf fun root h => h.update

/-- An action on the whole array becomes the tag of the root. -/
theorem tag_of_whole (hM : M.Lawful S) {root : ℕ} {g : F} (hn : 2 ≤ n)
    (h : Leftmost M nodes root 0 (n - 1) x) :
    ∃ j more, update (totalPolicy M sizes) false root 0 (n - 1) 0 (n - 1) g nodes =
      .ok j (nodes ++ more) ∧ BelowTag (M := M) g (n - 1) x (nodes ++ more) j := by
  generalize hhi : n - 1 = hi at h
  cases h with
  | leaf hn' => omega
  | @inner _ _ _ _ node right hlt hn' hz hr hl =>
    refine ⟨nodes.length, [⟨node.leftChild, node.rightChild,
      M.apply g node.aggregate (Segment.length 0 hi), M.compose g node.tag⟩], ?_, _, right,
      List.getElem?_concat_length, ?_, getElem?_more _ hr, hl.append _⟩
    · rw [update, Effect.run_bind_ok (readNode_run hn')]
      simp only [le_refl, and_self, if_true]
      exact pushBack_run _ _
    · exact (congrArg _ hz).trans (hM.compose_identity g)

/-- An action below the root does not touch the tag. -/
theorem BelowTag.update {root : ℕ} {g : F} (hn : 2 ≤ n)
    (h : BelowTag (M := M) g (n - 1) x nodes root) :
    ∃ j more, PathCopyingActionTree.update (totalPolicy M sizes) false root 0 (n - 1) 0 0 f nodes =
      .ok j (nodes ++ more) ∧ BelowTag (M := M) g (n - 1) (M.act f x) (nodes ++ more) j := by
  obtain ⟨node, right, hroot, htag, hright, hleft⟩ := h
  obtain ⟨more, new, hu, hz, hl, hr⟩ :=
    update_leftmost_above (f := f) (by omega) hroot htag hright hleft.update
  refine ⟨_, more ++ [new], by rw [← List.append_assoc]; exact hu, new, right, ?_, hz, ?_, ?_⟩
  · rw [← List.append_assoc]
    exact List.getElem?_concat_length
  · rw [← List.append_assoc]
    exact getElem?_more _ hr
  · rw [← List.append_assoc]
    exact hl.append _

/-- An action on the whole array and a newer one on index 0: the older is the tag above. -/
theorem Latest.tagged {s : ActionTree (Node X F)} {count : ℕ} {g : F} (sizes : RecordSizes)
    (hM : M.Lawful S) (hn : 2 ≤ n) (hf : f ≠ M.identity) (hg : g ≠ M.identity)
    (h : Latest s n count fun nodes root => Leftmost M nodes root 0 (n - 1) x) :
    Latest (Effect.finalState ((parts (totalPolicy M sizes) false).rangeApply 0 0 f
      (Effect.finalState ((parts (totalPolicy M sizes) false).rangeApply 0 (n - 1) g s)))) n
      (count + 1 + 1) (BelowTag (M := M) g (n - 1) (M.act f x)) := by
  have hpos : 0 < n := by omega
  have hlast : n - 1 < n := by omega
  exact (h.rangeApply (Nat.zero_le _) hlast hg fun root h => tag_of_whole hM hn h).rangeApply le_rfl
    hpos hf fun root h => h.update hn

/-- The query of index 0 applies the tag outside. -/
theorem Latest.answer {s : ActionTree (Node X F)} {count : ℕ} {g : F} (sizes : RecordSizes)
    (hM : M.Lawful S) (hx : M.Reached S x) (hn : 2 ≤ n)
    (h : Latest s n count (BelowTag (M := M) g (n - 1) x)) :
    (parts (totalPolicy M sizes) false).rangeAggregate s count 0 0 = .ok (M.act g x) := by
  obtain ⟨root, hroot, node, right, hnode, htag, hright, hleft⟩ := h.root
  have hapart : query (totalPolicy M sizes) s.nodes node.rightChild
      (Segment.midpoint 0 (n - 1) + 1) (n - 1) 0 0 g = .ok M.empty := by
    rw [query, if_pos (.inr (Nat.succ_pos _))]
    rfl
  have hanswer : query (totalPolicy M sizes) s.nodes root 0 (n - 1) 0 0 M.identity =
      .ok (M.act g x) := by
    rw [query, if_neg (by omega), vectorAt_eq_ok.mpr hnode, Effect.ok_bind, if_neg (by omega),
      if_pos (by omega), htag]
    have hleft' := hleft.query_eq sizes hM hx g
    simp only [totalPolicy, Effect.ok_bind, hM.identity_compose] at hleft' hapart ⊢
    rw [hleft', hapart]
    exact congrArg Except.ok (hM.combine_empty (.single (hx.act g)))
  rw [ActionTreeParts.rangeAggregate_eq le_rfl (by rw [h.arraySize]; omega) hroot, h.arraySize]
  exact hanswer

/-- **The boundary.** Retained tags answer every query of every history over every array of `S`
with the chronological elements exactly when length-one applications commute on all elements
reached from `S`. -/
theorem chronological_iff_commute (M : SegmentAction X F) (S : Set X) (sizes : RecordSizes)
    (hM : M.Lawful S) (n : ℕ) (hn : 2 ≤ n)
    (hroom : 2 * n - 1 ≤ vectorMaxSize sizes.recordBytes) :
    (∀ values : List X, values.length = n → (∀ x ∈ values, x ∈ S) →
      Chronological (parts (totalPolicy M sizes) false) M values) ↔ ActionsCommute M S := by
  constructor
  swap
  · rintro hcomm values rfl hS
    exact (keepsOrder hM (.inr hcomm)).answers hM (by omega) hroom hS
  intro hall f g x hx
  show M.act f (M.act g x) = M.act g (M.act f x)
  by_cases hf : f = M.identity
  · rw [hf, hM.act_identity hx, hM.act_identity (hx.act g)]
  by_cases hg : g = M.identity
  · rw [hg, hM.act_identity hx, hM.act_identity (hx.act f)]
  obtain ⟨x₀, hx₀, calls, hvalid, helements, hlatest⟩ :=
    exists_leftmost_run sizes hM hn hroom hx
  have hpos : 0 < n := by omega
  have hlen : (List.replicate n x₀).length = n := List.length_replicate
  -- `g` on the whole array, and then `f` on index 0
  have hretained := (hlatest.tagged sizes hM hn hf hg).answer sizes hM (hx.act f) hn
  rw [← ActionTreeParts.run_concat _ _ _ ⟨0, n - 1, g⟩,
    ← ActionTreeParts.run_concat _ _ _ ⟨0, 0, f⟩] at hretained
  have hlast : 0 ≤ n - 1 ∧ n - 1 < n := by omega
  have hvalid' : validUpdates n (calls ++ [⟨0, n - 1, g⟩] ++ [⟨0, 0, f⟩]) =
      calls ++ [⟨0, n - 1, g⟩] ++ [⟨0, 0, f⟩] := by
    rw [validUpdates_concat, validUpdates_concat, hvalid, if_pos hlast, if_pos ⟨le_rfl, hpos⟩]
  have hlength : (calls ++ [RangeAction.mk 0 (n - 1) g] ++ [RangeAction.mk 0 0 f]).length =
      calls.length + 1 + 1 := by
    rw [List.length_append, List.length_append]
    rfl
  have hchrono := hall (List.replicate n x₀) hlen (fun y hy => List.eq_of_mem_replicate hy ▸ hx₀)
    (calls ++ [⟨0, n - 1, g⟩] ++ [⟨0, 0, f⟩]) (calls.length + 1 + 1) 0 0
  unfold versionArray at hchrono
  rw [hlen, hvalid', hlength, List.take_of_length_le hlength.le, hretained] at hchrono
  have hlatest : M.elements (fun i => (List.replicate n x₀).getD i M.empty)
      (calls ++ [⟨0, n - 1, g⟩] ++ [⟨0, 0, f⟩]) 0 = M.act f (M.act g x) := by
    rw [SegmentAction.elements_concat, SegmentAction.actOn_of_inside le_rfl le_rfl,
      SegmentAction.elements_concat, SegmentAction.actOn_of_inside le_rfl (Nat.zero_le _), helements]
  have hreached : M.Reached S (M.elements (fun i => (List.replicate n x₀).getD i M.empty)
      (calls ++ [⟨0, n - 1, g⟩] ++ [⟨0, 0, f⟩]) 0) := by
    rw [hlatest]
    exact (hx.act g).act f
  have hanswer := hchrono le_rfl le_rfl hpos
  rw [hM.aggregate_single hreached, hlatest] at hanswer
  exact (Except.ok.inj hanswer).symm

end PathCopyingActionTree

/-! ## The affine policy -/

namespace AffineSumModPolicy

/-- The affine map `x ↦ scale * x + shift`. -/
structure Action (Modulus : ℕ) where
  scale : ZMod Modulus
  shift : ZMod Modulus
  deriving DecidableEq

/-- Affine actions over range-sum aggregates. -/
def operations (Modulus : ℕ) : SegmentAction (ZMod Modulus) (Action Modulus) where
  combine left right := left + right
  empty := 0
  compose newer older := ⟨newer.scale * older.scale, newer.scale * older.shift + newer.shift⟩
  identity := ⟨1, 0⟩
  apply action aggregate length := action.scale * aggregate + action.shift * (length : ZMod Modulus)

theorem lawful (Modulus : ℕ) (S : Set (ZMod Modulus)) : (operations Modulus).Lawful S where
  combine_assoc _ _ _ := add_assoc _ _ _
  empty_combine _ := zero_add _
  combine_empty _ := add_zero _
  compose_assoc f g h := by
    simp only [operations, Action.mk.injEq]
    exact ⟨by ring, by ring⟩
  identity_compose f := by
    simp only [operations, one_mul, add_zero]
  compose_identity f := by
    simp only [operations, mul_one, mul_zero, zero_add]
  apply_identity _ := by
    simp only [operations, one_mul, zero_mul, add_zero]
  apply_compose g f _ := by
    simp only [operations]
    ring
  apply_combine f _ _ := by
    simp only [operations, Nat.cast_add]
    ring
  apply_empty f := by
    simp only [operations, Nat.cast_zero, mul_zero, add_zero]

end AffineSumModPolicy

/-- Affine maps modulo 7. -/
abbrev affinePolicy : Policy (ZMod 7) (AffineSumModPolicy.Action 7) :=
  totalPolicy (AffineSumModPolicy.operations 7) ⟨8, 16, 40, 24⟩

namespace PathCopyingActionTree

/-- Retained tags do not keep the order of affine maps: `x ↦ 2 x` after `x ↦ x + 1`. -/
theorem chronological_iff_commute_affine : ¬ ∀ values : List (ZMod 7), values.length = 2 →
    (∀ x ∈ values, x ∈ Set.univ) → Chronological (parts (totalPolicy (AffineSumModPolicy.operations 7)
      ⟨8, 16, 40, 24⟩) false) (AffineSumModPolicy.operations 7) values := fun hall => by
  have hcomm := (chronological_iff_commute (AffineSumModPolicy.operations 7) Set.univ ⟨8, 16, 40, 24⟩
    (AffineSumModPolicy.lawful 7 _) 2 le_rfl (by decide)).mp hall
  exact absurd (hcomm ⟨2, 0⟩ ⟨1, 1⟩ 0 (.initial trivial)) (by decide)

end PathCopyingActionTree

end Valseg
