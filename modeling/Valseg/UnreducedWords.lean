import Valseg.AffineWords
import Valseg.OrderPreserving
import Valseg.PolicyImages

/-!
# Unreduced words

The operations of `AffineSumModPolicy` reduce the aggregates they are given, but an initial array
is stored as it is. Two of the three order-preserving trees return the aggregate of a covered node
itself, so where an initial element is that aggregate they return it unreduced.

1. `reduces`: reduction is a map of the policy to itself, so what a tree answers is reduced to what
   it answers from the reduced array (`exists_answer`), which is the same for all three.
2. What the first tree answers is reduced already (`copyOnPush_reduced`). What the other two answer
   is where the aggregate of their root is (`root_run`, `settled_run`).
3. `strategies_agree_iff`: it is not exactly where the array is one unreduced element and no update
   has acted on it (`Unreduced`).
-/

namespace Valseg

/-- A query of the latest version. -/
def ActionTreeParts.latestAggregate {Node X F : Type} (T : ActionTreeParts Node X F)
    (s : ActionTree Node) (l r : ℕ) : Except Exception X :=
  T.rangeAggregate s (s.roots.length - 1) l r

namespace AffineSumModPolicy

variable {M : Modulus} {x y : UInt64}

/-- The words below the modulus. -/
def reducedWords (M : Modulus) : Set UInt64 := {x | x.toNat < M.value.toNat}

theorem mod_mem (M : Modulus) (x : UInt64) : x % M.value ∈ reducedWords M := M.mod_lt x

theorem forall_mod_mem (M : Modulus) (values : List UInt64) :
    ∀ x ∈ values.map (· % M.value), x ∈ reducedWords M := by
  intro x hx
  obtain ⟨y, -, rfl⟩ := List.mem_map.mp hx
  exact mod_mem M y

theorem mod_of_mem (h : x ∈ reducedWords M) : x % M.value = x := by
  apply UInt64.toNat_inj.mp
  rw [UInt64.toNat_mod, Nat.mod_eq_of_lt h]

theorem zero_mem : (0 : UInt64) ∈ reducedWords M := M.pos

theorem mem_iff : x ∈ reducedWords M ↔ ¬ M.value ≤ x := by
  rw [UInt64.le_iff_toNat_le, not_le]
  rfl

/-- The aggregates of reduced words are reduced, and the laws hold of them. -/
theorem words_lawful (M : Modulus) : (words M).Lawful (reducedWords M) := by
  have hvalid : ∀ {a x}, (words M).Valid (reducedWords M) a x → x ∈ reducedWords M := by
    intro a x h
    cases h with
    | empty => exact zero_mem
    | single h =>
      cases h with
      | initial h => exact h
      | act f h => exact apply_lt _ _ _
    | combine _ _ => exact combine_lt _ _
  constructor
  case combine_assoc => exact fun _ _ _ => words_combine_assoc
  case empty_combine => exact fun h => words_empty_combine (hvalid h)
  case combine_empty => exact fun h => words_combine_empty (hvalid h)
  case compose_assoc => exact fun _ _ _ => words_compose_assoc
  case identity_compose => exact fun _ => words_identity_compose
  case compose_identity => exact fun _ => words_compose_identity
  case apply_identity => exact fun h => words_apply_identity (hvalid h)
  case apply_compose => exact fun _ _ _ => words_apply_compose
  case apply_combine => exact fun _ _ _ => words_apply_combine
  case apply_empty => exact fun _ => words_apply_empty

/-- **Reduction.** It is a map of the policy to itself. -/
theorem reduces (M : Modulus) :
    (affineSumModPolicy M).Maps (affineSumModPolicy M) (· % M.value) := by
  rw [affineSumModPolicy_eq]
  have hmod : ∀ x, x % M.value % M.value = x % M.value := fun x => mod_of_mem (mod_mem M x)
  constructor
  case sizes => rfl
  case combine =>
    intro x y
    show Except.ok _ = Except.ok _
    simp only [words, hmod]
  case aggregateIdentity => exact (mod_of_mem zero_mem).symm
  case compose => rfl
  case actionIdentity => rfl
  case apply =>
    intro f x length
    show Except.ok _ = Except.ok _
    simp only [words, hmod]

/-! ## What the trees answer, reduced -/

section Answers

variable {values : List UInt64} {l r : ℕ}

/-- The answer of the reduced array. -/
def reducedAnswer (M : Modulus) (values : List UInt64) (calls : List (RangeAction (WordAction M)))
    (l r : ℕ) : UInt64 :=
  (words M).aggregate ((words M).elements
    (fun i => (values.map (· % M.value)).getD i (words M).empty) (validUpdates values.length calls))
    l r

section Persistent

variable {Node : Type} {T : ActionTreeParts Node UInt64 (WordAction M)}
  {view : Node → PathCopyingActionTree.Node UInt64 (WordAction M)} {h : Node → Node}

/-- A persistent tree that keeps the order holds the versions of the reduced array, reduced. -/
theorem run_reduced (hT : KeepsOrder (words M) (reducedWords M) view T)
    (hm : PartsMap T T (· % M.value) h) (hpos : 0 < values.length)
    (hroom : 2 * values.length - 1 ≤ vectorMaxSize T.recordBytes)
    (calls : List (RangeAction (WordAction M))) :
    HoldsVersions (words M) (reducedWords M) view
      (fun i => (values.map (· % M.value)).getD i (words M).empty) values.length
      (validUpdates values.length calls) ((T.run values calls).map h) := by
  have hlen : (values.map (· % M.value)).length = values.length := List.length_map _
  have hrun := hT.run (words_lawful M) (hlen ▸ hpos) (hlen ▸ hroom) (forall_mod_mem M values) calls
  rwa [hm.run, hlen] at hrun

/-- An update with a range of the array returns. -/
theorem exists_rangeApply (hT : KeepsOrder (words M) (reducedWords M) view T)
    (hm : PartsMap T T (· % M.value) h) (hpos : 0 < values.length)
    (hroom : 2 * values.length - 1 ≤ vectorMaxSize T.recordBytes)
    (calls : List (RangeAction (WordAction M))) {u : RangeAction (WordAction M)}
    (hin : u.left ≤ u.right ∧ u.right < values.length) :
    ∃ v s, T.rangeApply u.left u.right u.action (T.run values calls) = .ok v s := by
  rcases hT.rangeApply (words_lawful M) (run_reduced hT hm hpos hroom calls) u with
    ⟨-, -, s', hs', -⟩ | ⟨hout, -⟩
  · obtain ⟨v, s, hs, -⟩ := (hm.rangeApply u.left u.right u.action).exists_ok hs'
    exact ⟨v, s, hs⟩
  · exact absurd hin hout

/-- Its answers, reduced, are those of the reduced array. -/
theorem exists_answer (hT : KeepsOrder (words M) (reducedWords M) view T)
    (hm : PartsMap T T (· % M.value) h) (hpos : 0 < values.length)
    (hroom : 2 * values.length - 1 ≤ vectorMaxSize T.recordBytes)
    (calls : List (RangeAction (WordAction M))) (hlr : l ≤ r) (hr : r < values.length) :
    ∃ x, T.latestAggregate (T.run values calls) l r = .ok x ∧
      x % M.value = reducedAnswer M values calls l r := by
  have hlen : (values.map (· % M.value)).length = values.length := List.length_map _
  have hcount := (run_reduced hT hm hpos hroom calls).count
  have hanswer := hT.answers (words_lawful M) (hlen ▸ hpos) (hlen ▸ hroom)
    (forall_mod_mem M values) calls (validUpdates values.length calls).length l r (by rw [hlen])
    hlr (hlen ▸ hr)
  rw [hm.run, hm.rangeAggregate, versionArray, hlen, List.take_length] at hanswer
  have hversion : (T.run values calls).roots.length - 1 =
      (validUpdates values.length calls).length := by
    rw [show (T.run values calls).roots.length = _ from hcount, Nat.add_sub_cancel]
  unfold ActionTreeParts.latestAggregate
  rw [hversion]
  rcases hx : T.rangeAggregate (T.run values calls) (validUpdates values.length calls).length l r
    with e | x <;> rw [hx] at hanswer
  · cases hanswer
  · exact ⟨x, rfl, Except.ok.inj hanswer⟩

end Persistent

section Pushed

variable (hpos : 0 < values.length) (haggregates : 4 * values.length ≤ vectorMaxSize 8)
  (hactions : 4 * values.length ≤ vectorMaxSize 16)

include hpos haggregates hactions

/-- The tree that pushes in place holds the latest version of the reduced array, reduced. -/
theorem pushed_run_reduced (operations : List (PushedLazyTree.Operation (WordAction M))) :
    PushedLazyTree.HoldsLatest (words M) (reducedWords M) values.length
      ((words M).elements (fun i => (values.map (· % M.value)).getD i (words M).empty)
        (validUpdates values.length (PushedLazyTree.updatesOf operations)))
      ((PushedLazyTree.run (affineSumModPolicy M) values operations).map (· % M.value)) := by
  have hlen : (values.map (· % M.value)).length = values.length := List.length_map _
  have h := PushedLazyTree.run_spec (words_lawful M) (hlen ▸ hpos)
    (show _ ≤ vectorMaxSize (affineSumModPolicy M).aggregateBytes from hlen ▸ haggregates)
    (show _ ≤ vectorMaxSize (affineSumModPolicy M).actionBytes from hlen ▸ hactions)
    (forall_mod_mem M values) operations
  rw [hlen, affineSumModPolicy_eq] at h
  rw [← PushedLazyTree.run_map (reduces M), affineSumModPolicy_eq]
  exact h

/-- An initialization returns. -/
theorem exists_pushed_initialize : ∃ s, PushedLazyTree.initializeFrom (affineSumModPolicy M) values
    PushedLazyTree.empty = .ok () s := by
  have hlen : (values.map (· % M.value)).length = values.length := List.length_map _
  have hspec : ∃ s', PushedLazyTree.initializeFrom (affineSumModPolicy M)
      (values.map (· % M.value)) PushedLazyTree.empty = .ok () s' := by
    rw [affineSumModPolicy_eq]
    refine (PushedLazyTree.initialize_spec (words_lawful M) (hlen ▸ hpos) ?_ ?_
      (forall_mod_mem M values)).imp fun _ h => h.1
    · rw [hlen]
      exact haggregates
    · rw [hlen]
      exact hactions
  obtain ⟨s', hs'⟩ := hspec
  obtain ⟨_, s, hs, -⟩ := (PushedLazyTree.initializeFrom_map (reduces M) values).exists_ok
    (s := PushedLazyTree.empty) hs'
  exact ⟨s, hs⟩

/-- An update with a range of the array returns. -/
theorem exists_pushed_rangeApply (operations : List (PushedLazyTree.Operation (WordAction M)))
    (f : WordAction M) (hlr : l ≤ r) (hr : r < values.length) :
    ∃ s, PushedLazyTree.rangeApply (affineSumModPolicy M) l r f
      (PushedLazyTree.run (affineSumModPolicy M) values operations) = .ok () s := by
  have hspec : ∀ {A s}, PushedLazyTree.HoldsLatest (words M) (reducedWords M) values.length A s →
      ∃ s', PushedLazyTree.rangeApply (affineSumModPolicy M) l r f s = .ok () s' := by
    intro A s h
    rw [affineSumModPolicy_eq]
    exact (PushedLazyTree.rangeApply_spec (words_lawful M) h hlr hr).imp fun _ h => h.1
  obtain ⟨s', hs'⟩ := hspec (pushed_run_reduced hpos haggregates hactions operations)
  obtain ⟨_, s, hs, -⟩ := (PushedLazyTree.rangeApply_map (reduces M) l r f).exists_ok hs'
  exact ⟨s, hs⟩

/-- Its answers, reduced, are those of the reduced array. -/
theorem exists_pushed_answer (operations : List (PushedLazyTree.Operation (WordAction M)))
    (hlr : l ≤ r) (hr : r < values.length) :
    ∃ x s, PushedLazyTree.rangeAggregate (affineSumModPolicy M) l r
        (PushedLazyTree.run (affineSumModPolicy M) values operations) = .ok x s ∧
      x % M.value = reducedAnswer M values (PushedLazyTree.updatesOf operations) l r := by
  have hspec : ∀ {A s}, PushedLazyTree.HoldsLatest (words M) (reducedWords M) values.length A s →
      ∃ s', PushedLazyTree.rangeAggregate (affineSumModPolicy M) l r s =
        .ok ((words M).aggregate A l r) s' := by
    intro A s h
    rw [affineSumModPolicy_eq]
    exact (PushedLazyTree.rangeAggregate_spec (words_lawful M) h hlr hr).imp fun _ h => h.1
  obtain ⟨s', hs'⟩ := hspec (pushed_run_reduced hpos haggregates hactions operations)
  obtain ⟨x, s, hx, hanswer, -⟩ := (PushedLazyTree.rangeAggregate_map (reduces M) l r).exists_ok hs'
  exact ⟨x, s, hx, hanswer⟩

end Pushed

end Answers

/-! ## Answers that are reduced -/

section CopyOnPush

variable {nodes : List (PathCopyingActionTree.Node UInt64 (WordAction M))} {i lo hi l r : ℕ}
  {f : WordAction M}

/-- Every branch of the query ends in an operation of the policy. -/
theorem query_reduced
    (h : PathCopyingActionTree.query (affineSumModPolicy M) nodes i lo hi l r f = .ok x) :
    x ∈ reducedWords M := by
  rw [affineSumModPolicy_eq, PathCopyingActionTree.query] at h
  by_cases hout : hi < l ∨ lo > r
  · rw [if_pos hout] at h
    cases h
    exact zero_mem
  rw [if_neg hout] at h
  obtain ⟨node, -, h⟩ := Effect.bind_eq_ok.mp h
  by_cases hin : l ≤ lo ∧ hi ≤ r
  · rw [if_pos hin] at h
    cases h
    exact apply_lt _ _ _
  rw [if_neg hin] at h
  by_cases hlt : lo < hi
  · rw [if_pos hlt] at h
    obtain ⟨next, -, h⟩ := Effect.bind_eq_ok.mp h
    obtain ⟨left, -, h⟩ := Effect.bind_eq_ok.mp h
    obtain ⟨right, -, h⟩ := Effect.bind_eq_ok.mp h
    cases h
    exact combine_lt _ _
  · rw [if_neg hlt] at h
    cases h

/-- Every answer of the tree that pushes into copies is reduced. -/
theorem copyOnPush_reduced {s : ActionTree (PathCopyingActionTree.Node UInt64 (WordAction M))}
    (h : (copyOnPushPersistentTree (affineSumModPolicy M)).latestAggregate s l r = .ok x) :
    x ∈ reducedWords M := by
  obtain ⟨root, -, hq⟩ := ActionTreeParts.rangeAggregate_eq_ok h
  exact query_reduced hq

end CopyOnPush

/-! ## Where nothing has acted -/

section Untouched

variable {values : List UInt64} {calls : List (RangeAction (WordAction M))}
  {u : RangeAction (WordAction M)}

/-- The array is one unreduced element, and every update with its range was the identity. -/
def Unreduced (M : Modulus) (values : List UInt64) (calls : List (RangeAction (WordAction M))) :
    Prop :=
  ∃ v, values = [v] ∧ M.value ≤ v ∧
    ∀ u ∈ validUpdates 1 calls, u.action = (affineSumModPolicy M).actionIdentity

theorem Unreduced.length (h : Unreduced M values calls) : values.length = 1 := by
  obtain ⟨v, rfl, -⟩ := h
  rfl

theorem unreduced_nil : Unreduced M values [] ↔ ∃ v, values = [v] ∧ v ∉ reducedWords M := by
  simp [Unreduced, mem_iff, validUpdates]

/-- One more update acts, or changes nothing. -/
theorem unreduced_concat : Unreduced M values (calls ++ [u]) ↔ Unreduced M values calls ∧
    ((u.left ≤ u.right ∧ u.right < values.length) →
      u.action = (affineSumModPolicy M).actionIdentity) := by
  unfold Unreduced
  rw [validUpdates_concat]
  constructor
  · rintro ⟨v, rfl, hv, hcalls⟩
    refine ⟨⟨v, rfl, hv, fun w hw => hcalls w (List.mem_append_left _ hw)⟩, fun hin => ?_⟩
    refine hcalls u (List.mem_append_right _ ?_)
    rw [if_pos (show u.left ≤ u.right ∧ u.right < 1 from hin)]
    exact List.mem_singleton_self u
  · rintro ⟨⟨v, rfl, hv, hcalls⟩, hu⟩
    refine ⟨v, rfl, hv, fun w hw => ?_⟩
    rcases List.mem_append.mp hw with hw | hw
    · exact hcalls w hw
    · split_ifs at hw with hin
      · rw [List.mem_singleton.mp hw]
        exact hu hin
      · cases hw

end Untouched

/-! ## The tree that applies at the leaves -/

section PointMaterialized

open PointMaterializedPersistentTree (Node parts)

variable {nodes : List (Node UInt64)} {s : ActionTree (Node UInt64)} {i j k lo hi l r : ℕ}
  {values : List UInt64} {calls : List (RangeAction (WordAction M))}
  {u : RangeAction (WordAction M)}

/-- The record is there, with a reduced aggregate. -/
def ReducedNode (M : Modulus) (i : ℕ) (nodes : List (Node UInt64)) : Prop :=
  ∃ node, nodes[i]? = some node ∧ node.aggregate ∈ reducedWords M

theorem pushBack_reduced (hx : x ∈ reducedWords M) :
    Effect.Ends (ReducedNode M) (pushBack ⟨j, k, x⟩) := by
  intro nodes i nodes' h
  rw [pushBack_run] at h
  cases h
  exact ⟨_, List.getElem?_concat_length, hx⟩

/-- The record an update ends with has the result of an operation. -/
theorem update_reduced (f : WordAction M) : Effect.Ends (ReducedNode M)
    (PointMaterializedPersistentTree.update (affineSumModPolicy M) i lo hi l r f) := by
  rw [affineSumModPolicy_eq, PointMaterializedPersistentTree.update]
  refine .bind fun current => .ite (fun _ => ?_) fun _ => .ite (fun _ => ?_) fun _ => .throw _
  · exact pushBack_reduced (apply_lt f current.aggregate 1)
  · exact .bind fun _ => .bind fun _ => .bind fun leftNode => .bind fun rightNode =>
      pushBack_reduced (combine_lt leftNode.aggregate rightNode.aggregate)

/-- So has the root of the build, unless it is a leaf. -/
theorem build_reduced (values : List UInt64) (hlt : lo < hi) : Effect.Ends (ReducedNode M)
    (PointMaterializedPersistentTree.build (affineSumModPolicy M) values lo hi) := by
  rw [affineSumModPolicy_eq, PointMaterializedPersistentTree.build, Policy.buildArena,
    if_neg hlt.ne, if_pos hlt]
  exact .bind fun _ => .bind fun _ => .bind fun leftNode => .bind fun rightNode =>
    pushBack_reduced (combine_lt leftNode.aggregate rightNode.aggregate)

/-- A query that does not return the aggregate of the node returns the result of an operation. -/
theorem materialized_query_reduced
    (hnode : ∀ node, nodes[i]? = some node → node.aggregate ∈ reducedWords M)
    (h : PointMaterializedPersistentTree.query (affineSumModPolicy M) nodes i lo hi l r = .ok x) :
    x ∈ reducedWords M := by
  rw [affineSumModPolicy_eq, PointMaterializedPersistentTree.query] at h
  by_cases hout : hi < l ∨ lo > r
  · rw [if_pos hout] at h
    cases h
    exact zero_mem
  rw [if_neg hout] at h
  obtain ⟨node, hn, h⟩ := Effect.bind_eq_ok.mp h
  by_cases hin : l ≤ lo ∧ hi ≤ r
  · rw [if_pos hin] at h
    cases h
    exact hnode node (vectorAt_eq_ok.mp hn)
  rw [if_neg hin] at h
  by_cases hlt : lo < hi
  · rw [if_pos hlt] at h
    obtain ⟨left, -, h⟩ := Effect.bind_eq_ok.mp h
    obtain ⟨right, -, h⟩ := Effect.bind_eq_ok.mp h
    cases h
    exact combine_lt _ _
  · rw [if_neg hlt] at h
    cases h

/-- The aggregate of the latest root. -/
def HasRoot (s : ActionTree (Node UInt64)) (x : UInt64) : Prop :=
  ∃ root node, s.roots[s.roots.length - 1]? = some root ∧ s.nodes[root]? = some node ∧
    node.aggregate = x

theorem HasRoot.publish {root : ℕ} {node : Node UInt64} (hn : nodes[root]? = some node)
    (roots : List ℕ) (n : ℕ) : HasRoot ⟨nodes, roots ++ [root], n⟩ node.aggregate :=
  ⟨root, node, by simp, hn, rfl⟩

/-- A query of the whole array returns it. -/
theorem HasRoot.latestAggregate (h : HasRoot s x) (hpos : 0 < s.arraySize) :
    (parts (affineSumModPolicy M)).latestAggregate s 0 (s.arraySize - 1) = .ok x := by
  obtain ⟨root, node, hroot, hn, rfl⟩ := h
  rw [ActionTreeParts.latestAggregate,
    ActionTreeParts.rangeAggregate_eq (Nat.zero_le _) (Nat.sub_lt hpos Nat.one_pos) hroot]
  show PointMaterializedPersistentTree.query _ _ _ _ _ _ _ = _
  rw [PointMaterializedPersistentTree.query, if_neg (by omega), vectorAt_eq_ok.mpr hn,
    Effect.ok_bind, if_pos (by omega)]
  rfl

/-- Where it is reduced, so is every answer. -/
theorem HasRoot.answer_reduced {y : UInt64} (h : HasRoot s x) (hx : x ∈ reducedWords M)
    (hy : (parts (affineSumModPolicy M)).latestAggregate s l r = .ok y) : y ∈ reducedWords M := by
  obtain ⟨root, node, hroot, hn, rfl⟩ := h
  obtain ⟨root', hroot', hq⟩ := ActionTreeParts.rangeAggregate_eq_ok hy
  obtain rfl := Option.some.inj (hroot.symm.trans hroot')
  refine materialized_query_reduced (fun node' hn' => ?_) hq
  obtain rfl := Option.some.inj (hn.symm.trans hn')
  exact hx

theorem materialized_keepsOrder (M : Modulus) : KeepsOrder (words M) (reducedWords M)
    (PointMaterializedPersistentTree.view (words M)) (parts (affineSumModPolicy M)) := by
  rw [affineSumModPolicy_eq]
  exact PointMaterializedPersistentTree.keepsOrder (words_lawful M)

/-- The build returns, as it does on the reduced array. -/
theorem exists_build (hpos : 0 < values.length) : ∃ root nodes,
    (parts (affineSumModPolicy M)).build values 0 (values.length - 1) [] = .ok root nodes := by
  have hlen : (values.map (· % M.value)).length = values.length := List.length_map _
  have hreach := SegmentAction.AllReached.getD (M := words M) (forall_mod_mem M values)
    (hlen ▸ hpos) (words M).empty
  obtain ⟨i, more, hb, -⟩ := (materialized_keepsOrder M).build
    (fun i hi => getElem?_getD (words M).empty (by omega)) hreach
  rw [hlen] at hb
  obtain ⟨root, nodes, hb, -⟩ := Effect.Image.exists_ok
    ((PointMaterializedPersistentTree.partsMap (reduces M)).build values 0 (values.length - 1))
    (s := []) hb
  exact ⟨root, nodes, hb⟩

/-- The first version. -/
theorem initialize_root (hpos : 0 < values.length)
    (hroom : 2 * values.length - 1 ≤ vectorMaxSize 24) :
    ∃ x, HasRoot ((parts (affineSumModPolicy M)).run values []) x ∧
      (x ∈ reducedWords M ↔ ¬ Unreduced M values []) := by
  obtain ⟨root, nodes, hb⟩ := exists_build (M := M) hpos
  rw [ActionTreeParts.run, List.foldl_nil,
    (parts (affineSumModPolicy M)).initialize_run values hpos hroom hb]
  rcases (show values.length = 1 ∨ 1 < values.length by omega) with h1 | h1
  · obtain ⟨v, rfl⟩ := List.length_eq_one_iff.mp h1
    have hx : v ∈ reducedWords M ↔ ¬ Unreduced M [v] [] := by
      rw [unreduced_nil]
      simp
    have hleaf : (parts (affineSumModPolicy M)).build [v] 0 ([v].length - 1) [] =
        .ok 0 [⟨noNode, noNode, v⟩] := by
      show Policy.buildArena _ _ _ _ _ _ _ _ = _
      rw [Policy.buildArena]
      rfl
    rw [hleaf] at hb
    cases hb
    exact ⟨v, ⟨0, ⟨noNode, noNode, v⟩, rfl, rfl, rfl⟩, hx⟩
  · obtain ⟨node, hn, hx⟩ := build_reduced values (show 0 < values.length - 1 by omega) _ _ _ hb
    refine ⟨node.aggregate, HasRoot.publish hn [] _, iff_of_true hx fun h => ?_⟩
    rw [h.length] at h1
    exact lt_irrefl _ h1

/-- One more update keeps the root, or makes its aggregate. -/
theorem root_step (hpos : 0 < values.length) (hroom : 2 * values.length - 1 ≤ vectorMaxSize 24)
    (h : HasRoot ((parts (affineSumModPolicy M)).run values calls) x)
    (hx : x ∈ reducedWords M ↔ ¬ Unreduced M values calls) (u : RangeAction (WordAction M)) :
    ∃ y, HasRoot ((parts (affineSumModPolicy M)).run values (calls ++ [u])) y ∧
      (y ∈ reducedWords M ↔ ¬ Unreduced M values (calls ++ [u])) := by
  have hT := materialized_keepsOrder M
  have hm := PointMaterializedPersistentTree.partsMap (reduces M)
  have hsize := (run_reduced hT hm hpos hroom calls).arraySize
  rw [ActionTreeParts.run_concat, unreduced_concat]
  by_cases hin : u.left ≤ u.right ∧ u.right < values.length
  swap
  · obtain ⟨e, he⟩ := ActionTreeParts.admitted_error
      (s := (parts (affineSumModPolicy M)).run values calls) (hsize.symm ▸ hin)
    rw [ActionTreeParts.rangeApply_not_admitted he]
    refine ⟨x, h, hx.trans (not_congr ?_)⟩
    simp [hin]
  obtain ⟨v, s, hs⟩ := exists_rangeApply hT hm hpos hroom calls hin
  obtain ⟨root, node, hroot, hn, rfl⟩ := h
  have hadm := ActionTreeParts.admitted_eq_ok hin.1 (hsize.symm ▸ hin.2) hroot
  rw [ActionTreeParts.rangeApply_admitted hadm] at hs ⊢
  by_cases h0 : u.action = (affineSumModPolicy M).actionIdentity
  · rw [if_pos (show u.action = (parts (affineSumModPolicy M)).actionIdentity from h0)]
    refine ⟨node.aggregate, HasRoot.publish hn _ _, hx.trans (not_congr ?_)⟩
    simp [h0]
  rw [if_neg (show ¬ u.action = (parts (affineSumModPolicy M)).actionIdentity from h0)] at hs ⊢
  unfold ActionTreeParts.published at hs ⊢
  rcases hu : (parts (affineSumModPolicy M)).update root 0
    (((parts (affineSumModPolicy M)).run values calls).arraySize - 1) u.left u.right u.action
    ((parts (affineSumModPolicy M)).run values calls).nodes with ⟨j, nodes⟩ | ⟨e, nodes⟩ <;>
    rw [hu] at hs
  · obtain ⟨new, hnew, hmem⟩ := update_reduced u.action _ _ _ hu
    exact ⟨new.aggregate, HasRoot.publish hnew _ _, iff_of_true hmem fun hun => h0 (hun.2 hin)⟩
  · cases hs

/-- **The latest root.** After every run its aggregate is reduced, unless nothing has acted on an
unreduced element. -/
theorem root_run (hpos : 0 < values.length) (hroom : 2 * values.length - 1 ≤ vectorMaxSize 24)
    (calls : List (RangeAction (WordAction M))) :
    ∃ x, HasRoot ((parts (affineSumModPolicy M)).run values calls) x ∧
      (x ∈ reducedWords M ↔ ¬ Unreduced M values calls) := by
  induction calls using List.reverseRecOn with
  | nil => exact initialize_root hpos hroom
  | append_singleton calls u ih =>
    obtain ⟨x, h, hx⟩ := ih
    exact root_step hpos hroom h hx u

end PointMaterialized

/-! ## The tree that pushes in place -/

section Pushed

open PushedLazyTree (Storage State Operation readAggregate readTag writeAggregate writeTag
  composeInto push update query updatesOf KeepsAggregates)

variable {st st' : Storage UInt64 (WordAction M)} {i j lo hi l r : ℕ} {f z : WordAction M}
  {values : List UInt64} {operations : List (Operation (WordAction M))}

/-- What is written into a slot is reduced. -/
def Renewed (st st' : Storage UInt64 (WordAction M)) : Prop :=
  ∀ (j : ℕ) (x : UInt64),
    st'.aggregates[j]? = some x → x ∈ reducedWords M ∨ st.aggregates[j]? = some x

theorem Renewed.of_keeps (h : KeepsAggregates st st') : Renewed st st' :=
  fun _ _ hx => .inr (h.symm ▸ hx)

theorem Renewed.refl (st : Storage UInt64 (WordAction M)) : Renewed st st := .of_keeps (.refl st)

theorem Renewed.trans {st₁ st₂ st₃ : Storage UInt64 (WordAction M)} (h : Renewed st₁ st₂)
    (h' : Renewed st₂ st₃) : Renewed st₁ st₃ := by
  intro j x hx
  rcases h' j x hx with hx | hx
  · exact .inl hx
  · exact h j x hx

theorem bind_renewed {α β : Type} {x : EStateM Exception (Storage UInt64 (WordAction M)) α}
    {g : α → EStateM Exception (Storage UInt64 (WordAction M)) β} (hx : Effect.Within Renewed x)
    (hg : ∀ a, Effect.Within Renewed (g a)) : Effect.Within Renewed (x >>= g) :=
  Effect.Within.bind (R := Renewed) Renewed.trans hx hg

theorem readAggregate_renewed (i : ℕ) :
    Effect.Within (Renewed (M := M)) (readAggregate i) :=
  .of_state Renewed.refl (PushedLazyTree.readAggregate_state i)

theorem writeAggregate_renewed (hx : x ∈ reducedWords M) :
    Effect.Within Renewed (writeAggregate (F := WordAction M) i x) := by
  refine .zoom (writeSlot_set i x) ?_
  rintro st aggregates (rfl | rfl)
  · exact .refl st
  · intro j y hy
    rw [List.getElem?_set] at hy
    split_ifs at hy
    · cases hy
      exact .inl hx
    · exact .inr hy

theorem composeInto_renewed (P : Policy UInt64 (WordAction M)) (f : WordAction M) (i : ℕ) :
    Effect.Within Renewed (composeInto P f i) :=
  fun st => .of_keeps (PushedLazyTree.composeInto_keeps P f i st)

theorem push_renewed (i lo hi : ℕ) :
    Effect.Within Renewed (push (affineSumModPolicy M) i lo hi) := by
  rw [affineSumModPolicy_eq]
  unfold push
  refine bind_renewed (.of_state Renewed.refl (PushedLazyTree.readTag_state i)) fun tag =>
    .ite (fun _ => .pure Renewed.refl _) fun _ => bind_renewed (readAggregate_renewed i)
      fun aggregate => ?_
  simp only [totalPolicy, Effect.liftM_ok_bind]
  refine bind_renewed (writeAggregate_renewed (apply_lt tag aggregate _)) fun _ =>
    bind_renewed (.ite (fun _ => ?_) fun _ => .pure Renewed.refl _) fun _ st =>
      .of_keeps (PushedLazyTree.writeTag_keeps i _ st)
  exact bind_renewed (composeInto_renewed _ _ _) fun _ => composeInto_renewed _ _ _

theorem pushed_update_renewed (f : WordAction M) (i lo hi l r : ℕ) :
    Effect.Within Renewed (update (affineSumModPolicy M) i lo hi l r f) := by
  induction hk : hi - lo using Nat.strong_induction_on generalizing i lo hi with
  | _ k ih =>
    rw [update]
    refine bind_renewed (push_renewed i lo hi) fun _ => .ite (fun _ => .pure Renewed.refl _)
      fun _ => .ite (fun _ => ?_) fun _ => .ite (fun hlt => ?_) fun _ => .throw Renewed.refl _
    · exact bind_renewed (composeInto_renewed _ f i) fun _ => push_renewed i lo hi
    have h1 := Segment.le_midpoint lo hi
    have h2 := Segment.midpoint_lt hlt
    refine bind_renewed (ih _ (by omega) _ _ _ rfl) fun _ =>
      bind_renewed (ih _ (by omega) _ _ _ rfl) fun _ => ?_
    rw [affineSumModPolicy_eq]
    simp only [totalPolicy, Effect.liftM_ok_bind]
    exact bind_renewed (readAggregate_renewed _) fun left =>
      bind_renewed (readAggregate_renewed _) fun right =>
        writeAggregate_renewed (combine_lt left right)

theorem pushed_query_renewed (i lo hi l r : ℕ) :
    Effect.Within Renewed (query (affineSumModPolicy M) i lo hi l r) := by
  induction hk : hi - lo using Nat.strong_induction_on generalizing i lo hi with
  | _ k ih =>
    rw [query]
    refine bind_renewed (push_renewed i lo hi) fun _ => .ite (fun _ => .pure Renewed.refl _)
      fun _ => .ite (fun _ => readAggregate_renewed i) fun _ => .ite (fun hlt => ?_)
        fun _ => .throw Renewed.refl _
    have h1 := Segment.le_midpoint lo hi
    have h2 := Segment.midpoint_lt hlt
    exact bind_renewed (ih _ (by omega) _ _ _ rfl) fun left =>
      bind_renewed (ih _ (by omega) _ _ _ rfl) fun right => .lift Renewed.refl _

/-- An update of the whole array that is not the identity leaves a reduced aggregate. -/
theorem covering_reduced (hle : lo ≤ hi) (hin : l ≤ lo ∧ hi ≤ r)
    (hf : f ≠ (affineSumModPolicy M).actionIdentity)
    (h : update (affineSumModPolicy M) i lo hi l r f st = .ok () st') :
    ∃ x ∈ reducedWords M, st'.aggregates[i]? = some x := by
  rw [affineSumModPolicy_eq] at hf h
  obtain ⟨z, aggregate, x, hx, hget⟩ := PushedLazyTree.update_covering hle hin (fun z hz => by
    cases hz
    exact words_compose_identity ▸ hf) h
  cases hx
  exact ⟨_, apply_lt _ _ _, hget⟩

/-- A query that returns the aggregate of the node returns a reduced word if it was one before. -/
theorem pushed_query_reduced (hst : ∀ y, st.aggregates[i]? = some y → y ∈ reducedWords M)
    (h : query (affineSumModPolicy M) i lo hi l r st = .ok x st') : x ∈ reducedWords M := by
  rw [query] at h
  obtain ⟨_, st₁, h1, h⟩ := Effect.run_bind_eq_ok.mp h
  have hpush := push_renewed i lo hi st
  rw [h1] at hpush
  by_cases hout : hi < l ∨ lo > r
  · rw [if_pos hout] at h
    cases h
    exact zero_mem
  rw [if_neg hout] at h
  by_cases hin : l ≤ lo ∧ hi ≤ r
  · rw [if_pos hin] at h
    rcases hpush i x (PushedLazyTree.readAggregate_eq_ok h).1 with hx | hx
    · exact hx
    · exact hst x hx
  rw [if_neg hin] at h
  by_cases hlt : lo < hi
  · rw [if_pos hlt, affineSumModPolicy_eq] at h
    obtain ⟨left, st₂, -, h⟩ := Effect.run_bind_eq_ok.mp h
    obtain ⟨right, st₃, -, h⟩ := Effect.run_bind_eq_ok.mp h
    cases h
    exact combine_lt left right
  · rw [if_neg hlt] at h
    cases h

/-- The build makes the aggregate of the root, unless the root is a leaf. -/
theorem pushed_build_reduced (hlt : lo < hi) :
    Effect.Ends (fun _ aggregates => ∃ x ∈ reducedWords M, aggregates[i]? = some x)
      (PushedLazyTree.build (affineSumModPolicy M) values i lo hi) := by
  rw [affineSumModPolicy_eq, PushedLazyTree.build, if_neg hlt.ne, if_pos hlt]
  refine .bind fun _ => .bind fun _ => .bind fun left => .bind fun right => ?_
  intro aggregates _ aggregates' h
  exact ⟨_, combine_lt left right, writeSlot_ends i _ _ _ _ h⟩

theorem pushed_build_leaf : Effect.Ends (fun _ aggregates => aggregates[i]? = values[lo]?)
    (PushedLazyTree.build (affineSumModPolicy M) values i lo lo) := by
  rw [PushedLazyTree.build, if_pos rfl]
  intro aggregates _ aggregates' h
  obtain ⟨value, hv, h⟩ := Effect.run_liftM_bind_eq_ok.mp h
  rw [vectorAt_eq_ok.mp hv]
  exact writeSlot_ends i value _ _ _ h

/-- The aggregate of the root is reduced. -/
def Settled (s : State UInt64 (WordAction M)) : Prop :=
  ∀ x, s.aggregates[0]? = some x → x ∈ reducedWords M

theorem Settled.renewed {s s' : State UInt64 (WordAction M)} (h : Settled s)
    (hs : Renewed s.toStorage s'.toStorage) : Settled s' := by
  intro x hx
  rcases hs 0 x hx with hx | hx
  · exact hx
  · exact h x hx

/-- A call writes reduced aggregates if what it does to the vectors does. -/
theorem checked_renewed {α : Type} {y : ℕ → EStateM Exception (Storage UInt64 (WordAction M)) α}
    (hy : ∀ size, Effect.Within Renewed (y size)) (s : State UInt64 (WordAction M)) :
    Renewed s.toStorage (Effect.finalState ((do
      let this ← get
      validateNonEmpty this.arraySize
      validateRange this.arraySize l r
      PushedLazyTree.onStorage (y this.arraySize) :
        EStateM Exception (State UInt64 (WordAction M)) α) s)).toStorage := by
  rw [Effect.run_bind_ok (Effect.run_get s)]
  rcases validateNonEmpty s.arraySize with e | ⟨⟩
  · exact .refl _
  rcases validateRange s.arraySize l r with e | ⟨⟩
  · exact .refl _
  · have hz : Effect.Within (fun s s' : State UInt64 (WordAction M) =>
        Renewed s.toStorage s'.toStorage) (PushedLazyTree.onStorage (y s.arraySize)) :=
      .zoom (hy s.arraySize) fun _ _ h => h
    exact hz s

/-- **One call.** -/
theorem step_renewed (s : State UInt64 (WordAction M)) (operation : Operation (WordAction M)) :
    Renewed s.toStorage (PushedLazyTree.step (affineSumModPolicy M) s operation).toStorage := by
  cases operation with
  | rangeApply l r f => exact checked_renewed (fun size => pushed_update_renewed f 0 0 _ l r) s
  | rangeAggregate l r => exact checked_renewed (fun size => pushed_query_renewed 0 0 _ l r) s

/-- A query of a settled tree is answered with a reduced word. -/
theorem Settled.answer_reduced {s s' : State UInt64 (WordAction M)} (h : Settled s)
    (hx : PushedLazyTree.rangeAggregate (affineSumModPolicy M) l r s = .ok x s') :
    x ∈ reducedWords M := by
  unfold PushedLazyTree.rangeAggregate at hx
  rw [Effect.run_bind_ok (Effect.run_get s)] at hx
  obtain ⟨_, -, hx⟩ := Effect.run_liftM_bind_eq_ok.mp hx
  obtain ⟨_, -, hx⟩ := Effect.run_liftM_bind_eq_ok.mp hx
  obtain ⟨st, hq, -⟩ := Effect.zoom_eq_ok.mp hx
  exact pushed_query_reduced h hq

variable (hpos : 0 < values.length) (haggregates : 4 * values.length ≤ vectorMaxSize 8)
  (hactions : 4 * values.length ≤ vectorMaxSize 16)

include hpos haggregates hactions

theorem initialize_settled (h : ¬ Unreduced M values []) :
    Settled (PushedLazyTree.run (affineSumModPolicy M) values []) := by
  obtain ⟨s, hs⟩ := exists_pushed_initialize (M := M) hpos haggregates hactions
  obtain ⟨start, hb⟩ := PushedLazyTree.initializeFrom_ok (List.length_pos_iff.mp hpos) hs
  unfold PushedLazyTree.run
  rw [List.foldl_nil, hs]
  intro x hx
  rcases (show values.length = 1 ∨ 1 < values.length by omega) with h1 | h1
  · obtain ⟨v, rfl⟩ := List.length_eq_one_iff.mp h1
    have hv : s.aggregates[0]? = some v := pushed_build_leaf _ _ _ hb
    obtain rfl := Option.some.inj (hx.symm.trans hv)
    by_contra hout
    exact h (unreduced_nil.mpr ⟨x, rfl, hout⟩)
  · obtain ⟨y, hy, hget⟩ := pushed_build_reduced (show 0 < values.length - 1 by omega) _ _ _ hb
    obtain rfl := Option.some.inj (hx.symm.trans hget)
    exact hy

/-- **The root in place.** After every run its aggregate is reduced, unless nothing has acted on
an unreduced element. -/
theorem settled_run (h : ¬ Unreduced M values (updatesOf operations)) :
    Settled (PushedLazyTree.run (affineSumModPolicy M) values operations) := by
  induction operations using List.reverseRecOn with
  | nil => exact initialize_settled hpos haggregates hactions h
  | append_singleton operations operation ih =>
    have hstep : PushedLazyTree.run (affineSumModPolicy M) values (operations ++ [operation]) =
        PushedLazyTree.step (affineSumModPolicy M)
          (PushedLazyTree.run (affineSumModPolicy M) values operations) operation :=
      List.foldl_append
    rw [hstep]
    by_cases h0 : Unreduced M values (updatesOf operations)
    swap
    · exact (ih h0).renewed (step_renewed _ _)
    cases operation with
    | rangeAggregate l r =>
      rw [PushedLazyTree.updatesOf_concat,
        show updatesOf [Operation.rangeAggregate l r] = [] from rfl, List.append_nil] at h
      exact absurd h0 h
    | rangeApply l r f =>
      rw [PushedLazyTree.updatesOf_concat, show updatesOf [Operation.rangeApply l r f] =
        [⟨l, r, f⟩] from rfl, unreduced_concat] at h
      simp only [h0, true_and, Classical.not_imp] at h
      obtain ⟨⟨hlr, hr⟩, hf⟩ := h
      obtain ⟨s, hs⟩ := exists_pushed_rangeApply hpos haggregates hactions operations f
        hlr hr
      have hsize : (PushedLazyTree.run (affineSumModPolicy M) values operations).arraySize =
          values.length := (pushed_run_reduced hpos haggregates hactions operations).arraySize
      have hone := h0.length
      rw [PushedLazyTree.step, hs]
      unfold PushedLazyTree.rangeApply at hs
      rw [Effect.run_bind_ok (Effect.run_get _)] at hs
      obtain ⟨_, -, hs⟩ := Effect.run_liftM_bind_eq_ok.mp hs
      obtain ⟨_, -, hs⟩ := Effect.run_liftM_bind_eq_ok.mp hs
      obtain ⟨st, hu, rfl⟩ := Effect.zoom_eq_ok.mp hs
      obtain ⟨x, hx, hget⟩ := covering_reduced (Nat.zero_le _) (by omega) hf hu
      intro y hy
      obtain rfl := Option.some.inj (hget.symm.trans hy)
      exact hx

end Pushed

/-! ## The three answers -/

section Strategies

open PushedLazyTree (Operation updatesOf)

/-- The three trees answer every range of the latest version with the same word. -/
def StrategiesAgree (M : Modulus) (values : List UInt64)
    (operations : List (Operation (WordAction M))) : Prop :=
  ∀ l r, l ≤ r → r < values.length → ∃ x s,
    (copyOnPushPersistentTree (affineSumModPolicy M)).latestAggregate
      ((copyOnPushPersistentTree (affineSumModPolicy M)).run values (updatesOf operations)) l r =
        .ok x ∧
    (PointMaterializedPersistentTree.parts (affineSumModPolicy M)).latestAggregate
      ((PointMaterializedPersistentTree.parts (affineSumModPolicy M)).run values
        (updatesOf operations)) l r = .ok x ∧
    PushedLazyTree.rangeAggregate (affineSumModPolicy M) l r
      (PushedLazyTree.run (affineSumModPolicy M) values operations) = .ok x s

variable {values : List UInt64} {operations : List (Operation (WordAction M))}

/-- What the first tree answers is reduced, so it is the answer of the reduced array. -/
theorem copyOnPush_answer {calls : List (RangeAction (WordAction M))} {l r : ℕ}
    (hpos : 0 < values.length) (hroom : 2 * values.length - 1 ≤ vectorMaxSize 40) (hlr : l ≤ r)
    (hr : r < values.length) :
    (copyOnPushPersistentTree (affineSumModPolicy M)).latestAggregate
      ((copyOnPushPersistentTree (affineSumModPolicy M)).run values calls) l r =
        .ok (reducedAnswer M values calls l r) := by
  have hT : KeepsOrder (words M) (reducedWords M) id
      (copyOnPushPersistentTree (affineSumModPolicy M)) := by
    rw [affineSumModPolicy_eq]
    exact PathCopyingActionTree.keepsOrder (words_lawful M) (.inl rfl)
  obtain ⟨x, hx, hanswer⟩ := exists_answer hT
    (PathCopyingActionTree.partsMap (reduces M) true) hpos hroom calls hlr hr
  rw [← hanswer, mod_of_mem (copyOnPush_reduced hx)]
  exact hx

/-- Where an update has acted, or the words are reduced, or there are more of them, all three
answer with the answer of the reduced array. -/
theorem agree_of_not_unreduced (hpos : 0 < values.length)
    (hroom : 2 * values.length - 1 ≤ vectorMaxSize 40)
    (h : ¬ Unreduced M values (updatesOf operations)) : StrategiesAgree M values operations := by
  intro l r hlr hr
  have hrooms : 2 * values.length - 1 ≤ vectorMaxSize 24 ∧ 4 * values.length ≤ vectorMaxSize 8 ∧
      4 * values.length ≤ vectorMaxSize 16 := by
    simp only [vectorMaxSize] at *
    omega
  obtain ⟨h24, h8, h16⟩ := hrooms
  obtain ⟨root, hroot, hmem⟩ := root_run hpos h24 (updatesOf operations)
  obtain ⟨y, hy, hyAnswer⟩ := exists_answer (materialized_keepsOrder M)
    (PointMaterializedPersistentTree.partsMap (reduces M)) hpos h24 (updatesOf operations) hlr hr
  obtain ⟨z, s, hz, hzAnswer⟩ := exists_pushed_answer (M := M) hpos h8 h16 operations hlr hr
  rw [mod_of_mem (hroot.answer_reduced (hmem.mpr h) hy)] at hyAnswer
  rw [mod_of_mem ((settled_run hpos h8 h16 h).answer_reduced hz)] at hzAnswer
  refine ⟨_, s, copyOnPush_answer hpos hroom hlr hr, ?_, ?_⟩
  · rw [← hyAnswer]
    exact hy
  · rw [← hzAnswer]
    exact hz

/-- Otherwise the second tree answers with the unreduced word. -/
theorem not_agree_of_unreduced (hroom : 2 * values.length - 1 ≤ vectorMaxSize 40)
    (h : Unreduced M values (updatesOf operations)) : ¬ StrategiesAgree M values operations := by
  intro hagree
  have hone := h.length
  have h24 : 2 * values.length - 1 ≤ vectorMaxSize 24 := by
    simp only [vectorMaxSize] at *
    omega
  obtain ⟨root, hroot, hmem⟩ := root_run (M := M) (by omega) h24 (updatesOf operations)
  have hsize := (run_reduced (materialized_keepsOrder M)
    (PointMaterializedPersistentTree.partsMap (reduces M)) (by omega) h24
    (updatesOf operations)).arraySize
  have hsize' : ((PointMaterializedPersistentTree.parts (affineSumModPolicy M)).run values
    (updatesOf operations)).arraySize = 1 := hsize.trans hone
  have hraw := hroot.latestAggregate (M := M) (by omega)
  rw [hsize'] at hraw
  obtain ⟨x, s, hcopy, hpoint, -⟩ := hagree 0 0 le_rfl (by omega)
  obtain rfl := Except.ok.inj (hraw.symm.trans hpoint)
  exact hmem.mp (copyOnPush_reduced hcopy) h

/-- **Where the strategies agree.** After every run from an array that the vectors have room for
the three trees agree, unless the array is one unreduced word that no update has acted on. -/
theorem strategies_agree_iff (M : Modulus) (values : List UInt64)
    (operations : List (Operation (WordAction M))) (hpos : 0 < values.length)
    (hroom : 2 * values.length - 1 ≤ vectorMaxSize 40) :
    StrategiesAgree M values operations ↔ ¬ Unreduced M values (updatesOf operations) :=
  ⟨fun hagree h => not_agree_of_unreduced hroom h hagree, agree_of_not_unreduced hpos hroom⟩

/-- The word `9` modulo `7`, doubled. -/
theorem strategies_agree_doubled : StrategiesAgree ⟨7, by decide, by decide⟩ [9]
    [.rangeApply 0 0 (.canonical _ 2 0)] := by
  refine (strategies_agree_iff ⟨7, by decide, by decide⟩ [9]
    [.rangeApply 0 0 (.canonical _ 2 0)] (by decide) (by decide)).mpr ?_
  rintro ⟨v, -, -, hactions⟩
  exact absurd (hactions ⟨0, 0, .canonical _ 2 0⟩ (by decide)) (by decide)

/-- Nothing acts on the word `7` modulo `7`: the first tree answers `0`, the second `7`. -/
theorem strategies_disagree : ¬ StrategiesAgree ⟨7, by decide, by decide⟩ [7] [] := by
  intro hagree
  obtain ⟨x, s, hcopy, hpoint, -⟩ := hagree 0 0 le_rfl (by decide)
  have hzero : (copyOnPushPersistentTree
      (affineSumModPolicy ⟨7, by decide, by decide⟩)).latestAggregate
        ((copyOnPushPersistentTree
          (affineSumModPolicy ⟨7, by decide, by decide⟩)).run [7] []) 0 0 = .ok 0 := by
    decide +kernel
  have hseven : (PointMaterializedPersistentTree.parts
      (affineSumModPolicy ⟨7, by decide, by decide⟩)).latestAggregate
        ((PointMaterializedPersistentTree.parts
          (affineSumModPolicy ⟨7, by decide, by decide⟩)).run [7] []) 0 0 = .ok 7 := by
    decide +kernel
  have hx := Except.ok.inj (hcopy.symm.trans hzero)
  rw [hx] at hpoint
  exact absurd (Except.ok.inj (hpoint.symm.trans hseven)) (by decide)

end Strategies

end AffineSumModPolicy

end Valseg
