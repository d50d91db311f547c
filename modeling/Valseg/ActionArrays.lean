import Valseg.Lib.SegmentAction
import Valseg.PolicyTrees

/-!
# Arrays held by policy-generic trees

A policy whose operations never throw is a `SegmentAction` (`totalPolicy`). `HoldsArray` says which
array the nodes below an index hold: the aggregate of a node is that of its segment, and its
children hold the array its tag makes the elements out of. Whether an update keeps the
chronological order is a question about one update; `KeepsOrder.answers` makes a statement about
whole runs out of it.
-/

namespace Valseg

open SegmentAction (AllReached)

variable {X F Node : Type}

/-- A policy of total operations. -/
def totalPolicy (M : SegmentAction X F) (sizes : RecordSizes) : Policy X F where
  toRecordSizes := sizes
  combine x y := .ok (M.combine x y)
  aggregateIdentity := M.empty
  compose newer older := .ok (M.compose newer older)
  actionIdentity := M.identity
  apply f x length := .ok (M.apply f x length)

section Holding

variable (M : SegmentAction X F) (S : Set X) (view : Node → PathCopyingActionTree.Node X F)

/-- The node at the index and its descendants hold the array over the segment. A record without a
tag is viewed with the identity. -/
inductive HoldsArray (nodes : List Node) : ℕ → ℕ → ℕ → (ℕ → X) → Prop
  | leaf {i lo : ℕ} {A : ℕ → X} {node : Node} (hn : nodes[i]? = some node)
      (ha : (view node).aggregate = A lo) (hA : M.Reached S (A lo)) : HoldsArray nodes i lo lo A
  | inner {i lo hi : ℕ} {A B : ℕ → X} {node : Node} (hlt : lo < hi) (hn : nodes[i]? = some node)
      (ha : (view node).aggregate = M.aggregate A lo hi)
      (hA : ∀ j, lo ≤ j → j ≤ hi → A j = M.act (view node).tag (B j))
      (hl : HoldsArray nodes (view node).leftChild lo (Segment.midpoint lo hi) B)
      (hr : HoldsArray nodes (view node).rightChild (Segment.midpoint lo hi + 1) hi B) :
      HoldsArray nodes i lo hi A

variable {M S view} {nodes more : List Node} {i j k lo hi l r : ℕ} {A B : ℕ → X} {f : F}

theorem HoldsArray.le (h : HoldsArray M S view nodes i lo hi A) : lo ≤ hi := by
  cases h with
  | leaf hn ha hA => exact le_rfl
  | inner hlt hn ha hA hl hr => exact hlt.le

/-- The elements are reached from the admissible ones. -/
theorem HoldsArray.reached (h : HoldsArray M S view nodes i lo hi A) : M.AllReached S A lo hi := by
  induction h with
  | leaf hn ha hA =>
    intro j h1 h2
    obtain rfl := Nat.le_antisymm h2 h1
    exact hA
  | @inner i lo hi A B node hlt hn ha hA hl hr ihl ihr =>
    intro j h1 h2
    rw [hA j h1 h2]
    by_cases hm : j ≤ Segment.midpoint lo hi
    · exact (ihl j h1 hm).act _
    · exact (ihr j (by omega) h2).act _

/-- The aggregate of a node is that of its segment. -/
theorem HoldsArray.root (hM : M.Lawful S) (h : HoldsArray M S view nodes i lo hi A) :
    ∃ node, nodes[i]? = some node ∧ (view node).aggregate = M.aggregate A lo hi := by
  cases h with
  | leaf hn ha hA => exact ⟨_, hn, ha.trans (hM.aggregate_single hA).symm⟩
  | inner hlt hn ha hA hl hr => exact ⟨_, hn, ha⟩

/-- What is appended does not matter. -/
theorem HoldsArray.append (more : List Node) (h : HoldsArray M S view nodes i lo hi A) :
    HoldsArray M S view (nodes ++ more) i lo hi A := by
  induction h with
  | leaf hn ha hA => exact .leaf (getElem?_more more hn) ha hA
  | inner hlt hn ha hA hl hr ihl ihr => exact .inner hlt (getElem?_more more hn) ha hA ihl ihr

/-- Only the elements of the segment matter. -/
theorem HoldsArray.congr (h : HoldsArray M S view nodes i lo hi A)
    (hAB : ∀ j, lo ≤ j → j ≤ hi → A j = B j) :
    HoldsArray M S view nodes i lo hi B := by
  cases h with
  | leaf hn ha hA =>
    have hlo := hAB lo le_rfl le_rfl
    exact .leaf hn (ha.trans hlo) (hlo ▸ hA)
  | inner hlt hn ha hA hl hr =>
    refine .inner hlt hn (ha.trans (SegmentAction.aggregate_congr hAB hlt.le)) (fun j h1 h2 => ?_)
      hl hr
    rw [← hAB j h1 h2, hA j h1 h2]

/-- A copy of a node with an action applied and composed holds the array the action makes. -/
theorem HoldsArray.cover (hM : M.Lawful S) (h : HoldsArray M S view nodes i lo hi A) {node new : Node}
    (hn : nodes[i]? = some node) (hnew : view new = ⟨(view node).leftChild, (view node).rightChild,
      M.apply f (view node).aggregate (Segment.length lo hi), M.compose f (view node).tag⟩) :
    HoldsArray M S view (nodes ++ [new]) nodes.length lo hi fun j => M.act f (A j) := by
  have hreach := h.reached
  have hlast : (nodes ++ [new])[nodes.length]? = some new := List.getElem?_concat_length
  cases h with
  | leaf hn' ha hA =>
    obtain rfl := Option.some.inj (hn.symm.trans hn')
    refine .leaf hlast ?_ (hA.act f)
    rw [hnew, ha, Segment.length, Nat.sub_self]
    rfl
  | @inner _ _ _ _ B _ hlt hn' ha hA hl hr =>
    obtain rfl := Option.some.inj (hn.symm.trans hn')
    refine .inner (B := B) hlt hlast ?_ (fun j h1 h2 => ?_) ?_ ?_
    · rw [hnew, ha]
      exact hM.apply_aggregate f hlt.le hreach
    · have hB : M.Reached S (B j) := by
        by_cases hm : j ≤ Segment.midpoint lo hi
        · exact hl.reached j h1 hm
        · exact hr.reached j (by omega) h2
      rw [hnew, hA j h1 h2]
      exact (hM.act_compose hB f _).symm
    · rw [hnew]
      exact hl.append _
    · rw [hnew]
      exact hr.append _

/-- A record over two halves, with a tag applied over their aggregates. -/
theorem HoldsArray.node (hM : M.Lawful S) (hlt : lo < hi)
    (hl : HoldsArray M S view nodes j lo (Segment.midpoint lo hi) B)
    (hr : HoldsArray M S view nodes k (Segment.midpoint lo hi + 1) hi B) {new : Node} (z : F)
    (hnew : view new = ⟨j, k, M.apply z (M.combine (M.aggregate B lo (Segment.midpoint lo hi))
      (M.aggregate B (Segment.midpoint lo hi + 1) hi)) (Segment.length lo hi), z⟩) :
    HoldsArray M S view (nodes ++ [new]) nodes.length lo hi fun i => M.act z (B i) := by
  have hreach : M.AllReached S B lo hi := fun i h1 h2 => by
    by_cases hm : i ≤ Segment.midpoint lo hi
    · exact hl.reached i h1 hm
    · exact hr.reached i (by omega) h2
  refine .inner (B := B) hlt List.getElem?_concat_length ?_ (fun i _ _ => ?_) ?_ ?_
  · rw [hnew, ← hM.aggregate_split hlt hreach]
    exact hM.apply_aggregate z hlt.le hreach
  · rw [hnew]
  · rw [hnew]
    exact hl.append _
  · rw [hnew]
    exact hr.append _

/-! ## Computations that append -/

variable (M S view) in
/-- The computation appends, and returns the index of a node that holds the array. -/
def AppendsArray (nodes : List Node) (x : EStateM.Result Exception (List Node) ℕ) (lo hi : ℕ)
    (A : ℕ → X) : Prop :=
  ∃ i more, x = .ok i (nodes ++ more) ∧ HoldsArray M S view (nodes ++ more) i lo hi A

/-- Nothing is appended. -/
theorem AppendsArray.return (h : HoldsArray M S view nodes i lo hi A) :
    AppendsArray M S view nodes (.ok i nodes) lo hi A :=
  ⟨i, [], by rw [List.append_nil], by rw [List.append_nil]; exact h⟩

/-- One record is appended. -/
theorem AppendsArray.push {new : Node}
    (h : HoldsArray M S view (nodes ++ [new]) nodes.length lo hi A) :
    AppendsArray M S view nodes (pushBack new nodes) lo hi A :=
  ⟨nodes.length, [new], pushBack_run _ _, h⟩

/-- Only the elements of the segment matter. -/
theorem AppendsArray.congr {x : EStateM.Result Exception (List Node) ℕ}
    (h : AppendsArray M S view nodes x lo hi A) (hAB : ∀ j, lo ≤ j → j ≤ hi → A j = B j) :
    AppendsArray M S view nodes x lo hi B := by
  obtain ⟨i, more, hx, h⟩ := h
  exact ⟨i, more, hx, h.congr hAB⟩

/-- What was appended before counts as well. -/
theorem AppendsArray.after (more : List Node) {x : EStateM.Result Exception (List Node) ℕ}
    (h : AppendsArray M S view (nodes ++ more) x lo hi A) :
    AppendsArray M S view nodes x lo hi A := by
  obtain ⟨i, rest, hx, h⟩ := h
  rw [List.append_assoc] at hx h
  exact ⟨i, more ++ rest, hx, h⟩

/-- One half is updated, or left alone where it is apart from the range. -/
theorem AppendsArray.half {p : Prop} [Decidable p] {x : ArenaM Node ℕ}
    (hx : p → AppendsArray M S view nodes (x nodes) lo hi (M.actOn A l r f))
    (hp : ¬ p → hi < l ∨ r < lo) (h : HoldsArray M S view nodes i lo hi A) :
    AppendsArray M S view nodes ((if p then x else pure i) nodes) lo hi (M.actOn A l r f) := by
  by_cases hc : p
  · rw [if_pos hc]
    exact hx hc
  · rw [if_neg hc]
    refine .return (h.congr fun j h1 h2 => (SegmentAction.actOn_of_apart ?_).symm)
    have hapart := hp hc
    omega

/-- Both halves, and then the record over them. -/
theorem AppendsArray.halves {x y : ArenaM Node ℕ} {g : ℕ → ℕ → ArenaM Node ℕ}
    (hx : AppendsArray M S view nodes (x nodes) lo (Segment.midpoint lo hi) B)
    (hy : ∀ more, AppendsArray M S view (nodes ++ more) (y (nodes ++ more))
      (Segment.midpoint lo hi + 1) hi B)
    (hg : ∀ j k more, HoldsArray M S view (nodes ++ more) j lo (Segment.midpoint lo hi) B →
      HoldsArray M S view (nodes ++ more) k (Segment.midpoint lo hi + 1) hi B →
      AppendsArray M S view (nodes ++ more) (g j k (nodes ++ more)) lo hi A) :
    AppendsArray M S view nodes ((do g (← x) (← y)) nodes) lo hi A := by
  obtain ⟨j, moreL, hx, hl⟩ := hx
  obtain ⟨k, moreR, hy, hr⟩ := hy moreL
  have hl' := hl.append moreR
  rw [List.append_assoc] at hl' hr hy
  obtain ⟨i, more, hg, h⟩ := hg j k (moreL ++ moreR) hl' hr
  rw [List.append_assoc] at hg h
  refine ⟨i, moreL ++ moreR ++ more, ?_, h⟩
  rw [Effect.run_bind_ok hx, Effect.run_bind_ok hy, hg]

/-- The build holds the array of its values. -/
theorem buildArena_holds (hM : M.Lawful S) {sizes : RecordSizes} {leaf : X → Node}
    {inner : ℕ → ℕ → X → Node} {aggregateOf : Node → X}
    (hleaf : ∀ x, (view (leaf x)).aggregate = x)
    (hinner : ∀ j k x, view (inner j k x) = ⟨j, k, x, M.identity⟩)
    (hof : ∀ node, aggregateOf node = (view node).aggregate) {values : List X} :
    ∀ lo hi, lo ≤ hi → ∀ {nodes : List Node} {A : ℕ → X},
      (∀ i, lo ≤ i → i ≤ hi → values[i]? = some (A i)) → M.AllReached S A lo hi →
      AppendsArray M S view nodes
        ((totalPolicy M sizes).buildArena leaf inner aggregateOf values lo hi nodes) lo hi A := by
  refine Segment.halving_induction ?_ ?_
  · intro i nodes A hv hA
    rw [Policy.buildArena, if_pos rfl, vectorAt_eq_ok.mpr (hv i le_rfl le_rfl),
      Effect.run_bind_ok (Effect.liftM_ok _ _)]
    exact .push (.leaf List.getElem?_concat_length (hleaf _) (hA i le_rfl le_rfl))
  · intro lo hi hlt ihl ihr nodes A hv hA
    have h1 := Segment.le_midpoint lo hi
    have h2 := Segment.midpoint_lt hlt
    rw [Policy.buildArena, if_neg hlt.ne, if_pos hlt]
    refine .halves (B := A) (ihl (fun i h3 h4 => hv i h3 (by omega)) (hA.left hlt))
      (fun more => ihr (fun i h3 h4 => hv i (by omega) h4) hA.right) fun j k more hl hr => ?_
    obtain ⟨nl, hnl, hal⟩ := hl.root hM
    obtain ⟨nr, hnr, har⟩ := hr.root hM
    rw [Effect.run_bind_ok (readNode_run hnl), Effect.run_bind_ok (readNode_run hnr), hof, hof,
      hal, har, totalPolicy, Effect.run_bind_ok (Effect.liftM_ok _ _)]
    have hid := hM.apply_identity_halves hlt hA
    refine .push ((HoldsArray.node hM hlt hl hr M.identity ?_).congr fun i h3 h4 =>
      hM.act_identity (hA i h3 h4))
    rw [hinner, hid]

end Holding

/-! ## Whole runs -/

/-- The state after an initialization and updates, each of which returns or throws. -/
def ActionTreeParts.run [DecidableEq F] (T : ActionTreeParts Node X F) (values : List X)
    (calls : List (RangeAction F)) : ActionTree Node :=
  calls.foldl (fun s u => Effect.finalState (T.rangeApply u.left u.right u.action s))
    (Effect.finalState (T.initializeFrom values ActionTreeParts.empty))

/-- The updates with a range of the array. -/
def validUpdates (size : ℕ) (calls : List (RangeAction F)) : List (RangeAction F) :=
  calls.filter fun u => u.left ≤ u.right ∧ u.right < size

/-- The array after the first `v` of them. -/
def versionArray (M : SegmentAction X F) (values : List X) (calls : List (RangeAction F)) (v : ℕ) :
    ℕ → X :=
  M.elements (fun i => values.getD i M.empty) ((validUpdates values.length calls).take v)

/-- After every run from the array, every query of every version is answered with the index-order
combine of the elements that the updates made in chronological order. -/
def Chronological [DecidableEq F] (T : ActionTreeParts Node X F) (M : SegmentAction X F)
    (values : List X) : Prop :=
  ∀ calls v l r, v ≤ (validUpdates values.length calls).length → l ≤ r → r < values.length →
    T.rangeAggregate (T.run values calls) v l r =
      .ok (M.aggregate (versionArray M values calls v) l r)

theorem validUpdates_concat (size : ℕ) (calls : List (RangeAction F)) (u : RangeAction F) :
    validUpdates size (calls ++ [u]) = validUpdates size calls ++
      if u.left ≤ u.right ∧ u.right < size then [u] else [] := by
  unfold validUpdates
  rw [List.filter_append]
  congr 1
  by_cases h : u.left ≤ u.right ∧ u.right < size
  · rw [if_pos h, List.filter_eq_self.mpr]
    intro w hw
    rw [List.mem_singleton.mp hw]
    exact decide_eq_true h
  · rw [if_neg h, List.filter_eq_nil_iff.mpr]
    intro w hw
    rw [List.mem_singleton.mp hw, decide_eq_true_eq]
    exact h

theorem ActionTreeParts.run_concat [DecidableEq F] (T : ActionTreeParts Node X F) (values : List X)
    (calls : List (RangeAction F)) (u : RangeAction F) : T.run values (calls ++ [u]) =
      Effect.finalState (T.rangeApply u.left u.right u.action (T.run values calls)) :=
  List.foldl_append

/-- An initialization with room whose build returns. -/
theorem ActionTreeParts.initialize_run (T : ActionTreeParts Node X F) (values : List X) {root : ℕ}
    {nodes : List Node} (hpos : 0 < values.length)
    (hroom : 2 * values.length - 1 ≤ vectorMaxSize T.recordBytes)
    (hb : T.build values 0 (values.length - 1) [] = .ok root nodes) (s : ActionTree Node) :
    T.initializeFrom values s = .ok () ⟨nodes, [root], values.length⟩ := by
  have hmax : vectorMaxSize T.recordBytes ≤ sizeMax := by
    unfold vectorMaxSize sizeMax
    exact (Nat.div_le_self _ _).trans (by omega)
  have hcount : canonicalNodeCount values.length = .ok (2 * values.length - 1) :=
    (canonicalNodeCount_eq_ok hpos).mpr ⟨rfl, by omega⟩
  rw [ActionTreeParts.initializeFrom, if_neg (List.ne_nil_of_length_pos hpos), hcount,
    Effect.run_bind_ok (Effect.liftM_ok _ _), checkVectorLength_eq_ok.mpr hroom,
    Effect.run_bind_ok (Effect.liftM_ok _ _), Effect.onLocal_ok hb,
    Effect.run_bind_ok (Effect.liftM_ok _ _)]
  rfl

section Runs

variable (M : SegmentAction X F) (S : Set X) (view : Node → PathCopyingActionTree.Node X F)

/-- The build and the update keep the chronological order, and the query reads it. -/
structure KeepsOrder (T : ActionTreeParts Node X F) : Prop where
  actionIdentity : T.actionIdentity = M.identity
  build : ∀ {values : List X} {hi : ℕ} {A : ℕ → X}, (∀ i ≤ hi, values[i]? = some (A i)) →
    M.AllReached S A 0 hi → AppendsArray M S view [] (T.build values 0 hi []) 0 hi A
  update : ∀ {nodes : List Node} {i hi l r : ℕ} {A : ℕ → X} (f : F), l ≤ r → r ≤ hi →
    HoldsArray M S view nodes i 0 hi A →
      AppendsArray M S view nodes (T.update i 0 hi l r f nodes) 0 hi (M.actOn A l r f)
  query : ∀ {nodes : List Node} {i hi : ℕ} {A : ℕ → X} (l r : ℕ),
    HoldsArray M S view nodes i 0 hi A → T.query nodes i 0 hi l r = .ok (M.partAggregate A 0 hi l r)

/-- Every version's root holds the array after the updates that made it. -/
structure HoldsVersions (A : ℕ → X) (size : ℕ) (updates : List (RangeAction F))
    (s : ActionTree Node) : Prop where
  arraySize : s.arraySize = size
  count : s.roots.length = updates.length + 1
  holds : ∀ v ≤ updates.length, ∃ root, s.roots[v]? = some root ∧
    HoldsArray M S view s.nodes root 0 (size - 1) (M.elements A (updates.take v))

variable {M S view} {T : ActionTreeParts Node X F} {A : ℕ → X} {size : ℕ}
  {updates : List (RangeAction F)} {s : ActionTree Node} {u : RangeAction F} {v l r : ℕ}

/-- One more version. -/
theorem HoldsVersions.publish (h : HoldsVersions M S view A size updates s) (more : List Node)
    (root : ℕ) (hroot : HoldsArray M S view (s.nodes ++ more) root 0 (size - 1)
      (M.elements A (updates ++ [u]))) :
    HoldsVersions M S view A size (updates ++ [u])
      ⟨s.nodes ++ more, s.roots ++ [root], s.arraySize⟩ := by
  refine ⟨h.arraySize, ?_, fun v hv => ?_⟩
  · rw [List.length_append, List.length_append, h.count]
    rfl
  rcases Nat.lt_or_ge updates.length v with hlt | hle
  · have hv' : v = s.roots.length := by
      rw [List.length_append, List.length_singleton] at hv
      rw [h.count]
      omega
    refine ⟨root, by rw [hv', List.getElem?_concat_length], ?_⟩
    rwa [List.take_of_length_le (by rw [List.length_append, List.length_singleton]; omega)]
  · obtain ⟨i, hi, hst⟩ := h.holds v hle
    refine ⟨i, getElem?_more [root] hi, ?_⟩
    rw [List.take_append_of_le_length hle]
    exact hst.append more

/-- An initialization with room holds its array. -/
theorem KeepsOrder.initialize (hT : KeepsOrder M S view T) {values : List X}
    (hpos : 0 < values.length) (hroom : 2 * values.length - 1 ≤ vectorMaxSize T.recordBytes)
    (hS : ∀ x ∈ values, x ∈ S) :
    ∃ s, T.initializeFrom values ActionTreeParts.empty = .ok () s ∧
      HoldsVersions M S view (fun i => values.getD i M.empty) values.length [] s := by
  obtain ⟨root, nodes, hb, hst⟩ :=
    hT.build (fun i hi => getElem?_getD M.empty (by omega)) (.getD hS hpos M.empty)
  refine ⟨_, T.initialize_run values hpos hroom hb _, rfl, rfl, fun v hv => ⟨root, ?_, ?_⟩⟩
  · obtain rfl := Nat.le_zero.mp hv
    rfl
  · obtain rfl := Nat.le_zero.mp hv
    exact hst

variable [DecidableEq F]

/-- **One update.** With a range of the array it publishes the next version; otherwise it throws
and leaves the state as it was. -/
theorem KeepsOrder.rangeApply (hT : KeepsOrder M S view T) (hM : M.Lawful S)
    (h : HoldsVersions M S view A size updates s) (u : RangeAction F) :
    (u.left ≤ u.right ∧ u.right < size ∧
      ∃ s', T.rangeApply u.left u.right u.action s = .ok s.roots.length s' ∧
        HoldsVersions M S view A size (updates ++ [u]) s') ∨
      (¬ (u.left ≤ u.right ∧ u.right < size) ∧
        ∃ e, T.rangeApply u.left u.right u.action s = .error e s) := by
  obtain ⟨root, hroot, hst⟩ := h.holds updates.length le_rfl
  have hlast : s.roots.length - 1 = updates.length := by rw [h.count]; rfl
  by_cases hin : u.left ≤ u.right ∧ u.right < size
  swap
  · obtain ⟨e, he⟩ := ActionTreeParts.admitted_error (s := s) (h.arraySize.symm ▸ hin)
    exact .inr ⟨hin, e, ActionTreeParts.rangeApply_not_admitted he⟩
  have hadm : ActionTreeParts.admitted s u.left u.right = .ok root :=
    ActionTreeParts.admitted_eq_ok hin.1 (h.arraySize.symm ▸ hin.2) (hlast ▸ hroot)
  refine .inl ⟨hin.1, hin.2, ?_⟩
  rw [ActionTreeParts.rangeApply_admitted hadm, hT.actionIdentity]
  rw [List.take_length] at hst
  by_cases h0 : u.action = M.identity
  · rw [if_pos h0]
    refine ⟨_, rfl, ?_⟩
    have hpub := h.publish (u := u) [] root ?_
    · rwa [List.append_nil] at hpub
    · rw [List.append_nil, SegmentAction.elements_concat, h0]
      exact hst.congr fun j h1 h2 => (hM.actOn_identity (hst.reached j h1 h2)).symm
  · rw [if_neg h0]
    obtain ⟨i, more, hu, hst'⟩ := hT.update u.action hin.1 (by omega) hst
    unfold ActionTreeParts.published
    rw [h.arraySize, hu]
    refine ⟨_, rfl, ?_⟩
    have hpub := h.publish (u := u) more i (by rwa [SegmentAction.elements_concat])
    rwa [h.arraySize] at hpub

/-- **Runs.** After every run the versions hold their arrays. -/
theorem KeepsOrder.run (hT : KeepsOrder M S view T) (hM : M.Lawful S) {values : List X}
    (hpos : 0 < values.length) (hroom : 2 * values.length - 1 ≤ vectorMaxSize T.recordBytes)
    (hS : ∀ x ∈ values, x ∈ S) (calls : List (RangeAction F)) :
    HoldsVersions M S view (fun i => values.getD i M.empty) values.length
      (validUpdates values.length calls) (T.run values calls) := by
  induction calls using List.reverseRecOn with
  | nil =>
    obtain ⟨s, hs, h⟩ := hT.initialize hpos hroom hS
    unfold ActionTreeParts.run
    rw [hs]
    exact h
  | append_singleton calls u ih =>
    rw [T.run_concat, validUpdates_concat]
    rcases hT.rangeApply hM ih u with ⟨h1, h2, s', hs', h⟩ | ⟨hin, e, he⟩
    · rw [if_pos ⟨h1, h2⟩, hs']
      exact h
    · rw [if_neg hin, he, List.append_nil]
      exact ih

/-- **Answers.** A structure that keeps the order answers chronologically. -/
theorem KeepsOrder.answers (hT : KeepsOrder M S view T) (hM : M.Lawful S) {values : List X}
    (hpos : 0 < values.length) (hroom : 2 * values.length - 1 ≤ vectorMaxSize T.recordBytes)
    (hS : ∀ x ∈ values, x ∈ S) : Chronological T M values := by
  intro calls v l r hv hlr hr
  have h := hT.run hM hpos hroom hS calls
  obtain ⟨root, hroot, hst⟩ := h.holds v hv
  rw [ActionTreeParts.rangeAggregate_eq hlr (h.arraySize.symm ▸ hr) hroot, h.arraySize,
    hT.query l r hst, SegmentAction.partAggregate_of_contains (Nat.zero_le l) hlr (by omega)]
  rfl

end Runs

end Valseg
