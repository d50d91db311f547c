import Valseg.ArenaShapes

/-!
# Copies under policies that throw

The two path-copying trees over a policy keep what they published, whatever the operations of the
policy throw and whether they satisfy any law.

1. `PathCopyingActionTree.update_makes` and `PointMaterializedPersistentTree.update_makes`: an
   update makes a segment in an arena of the right shape, or throws what an operation threw.
2. `KeepsShape` is what the parts of such a tree have to do; `KeepsShape.wellFormed` is its
   invariant after every run of calls.
3. `copy_safety` puts the frame of one update and the answers of published versions together.
-/

namespace Valseg

open Effect (ThrowsOnly)

variable {Aggregate Action : Type} {P : Policy Aggregate Action} {l r : ℕ}

theorem combine_raises (left right : Aggregate) : ThrowsOnly P.Raises (P.combine left right) :=
  fun _ h => .combine left right h

theorem compose_raises (newer older : Action) : ThrowsOnly P.Raises (P.compose newer older) :=
  fun _ h => .compose newer older h

theorem apply_raises (action : Action) (aggregate : Aggregate) (length : ℕ) :
    ThrowsOnly P.Raises (P.apply action aggregate length) := fun _ h => .apply action aggregate length h

/-! ## PathCopyingActionTree -/

namespace PathCopyingActionTree

/-- The children of a record. -/
def Node.links (node : Node Aggregate Action) : ℕ × ℕ := (node.leftChild, node.rightChild)

variable {nodes nodes' : List (Node Aggregate Action)} {i lo hi : ℕ}

/-- **The build.** -/
theorem build_makes {values : List Aggregate} (hhi : hi < values.length) :
    MakesSegment Node.links P.Raises 0 hi [] (build P values 0 hi []) := by
  unfold build
  refine Policy.buildArena_makes ?_ ?_ combine_raises 0 hi (Nat.zero_le hi) hhi .nil
  · intro value
    rfl
  · intro leftRoot rightRoot aggregate
    rfl

theorem pushInto_makes (tag : Action) (length : ℕ) (hl : Linked Node.links nodes)
    (hu : Unfolds Node.links nodes i lo hi) :
    MakesSegment Node.links P.Raises lo hi nodes (pushInto P i tag length nodes) := by
  obtain ⟨child, hchild⟩ := hu.exists_node
  refine KeepsLinks.read hchild ?_
  refine KeepsLinks.lift (apply_raises _ _ _) fun aggregate => ?_
  refine KeepsLinks.lift (compose_raises _ _) fun composed => ?_
  exact MakesSegment.copy hl hu hchild rfl

variable [DecidableEq Action]

/-- The children a descent goes on with have the segments of the halves. -/
theorem pushDown_keeps (kPushOnPartialDescent : Bool) {current : Node Aggregate Action}
    (leftLength rightLength : ℕ) (hl : Linked Node.links nodes)
    (left : Unfolds Node.links nodes current.leftChild lo (Segment.midpoint lo hi))
    (right : Unfolds Node.links nodes current.rightChild (Segment.midpoint lo hi + 1) hi) :
    KeepsLinks Node.links P.Raises
      (fun nodes p => Unfolds Node.links nodes p.1 lo (Segment.midpoint lo hi) ∧
        Unfolds Node.links nodes p.2.1 (Segment.midpoint lo hi + 1) hi) nodes
      (pushDown P kPushOnPartialDescent current leftLength rightLength nodes) := by
  refine KeepsLinks.ite (fun _ => ?_) fun _ => KeepsLinks.pure hl ⟨left, right⟩
  refine KeepsLinks.bind (pushInto_makes _ _ hl left) fun j nodes₁ hpre₁ hl₁ hj => ?_
  refine KeepsLinks.bind (pushInto_makes _ _ hl₁ (right.extend hpre₁))
    fun k nodes₂ hpre₂ hl₂ hk => ?_
  exact KeepsLinks.pure hl₂ ⟨hj.extend hpre₂, hk⟩

/-- **One update**, whether it pushes or not. -/
theorem update_makes (kPushOnPartialDescent : Bool) (action : Action) : ∀ lo hi, lo ≤ hi →
    l ≤ hi → lo ≤ r → ∀ {nodes : List (Node Aggregate Action)} {i : ℕ}, Linked Node.links nodes →
      Unfolds Node.links nodes i lo hi → MakesSegment Node.links P.Raises lo hi nodes
        (update P kPushOnPartialDescent i lo hi l r action nodes) := by
  have cover : ∀ {lo hi i : ℕ} {nodes : List (Node Aggregate Action)}
      {current : Node Aggregate Action}, Linked Node.links nodes →
      Unfolds Node.links nodes i lo hi → nodes[i]? = some current →
      MakesSegment Node.links P.Raises lo hi nodes ((do
        let aggregate ← P.apply action current.aggregate (Segment.length lo hi)
        let tag ← P.compose action current.tag
        pushBack ⟨current.leftChild, current.rightChild, aggregate, tag⟩ :
          ArenaM (Node Aggregate Action) ℕ) nodes) := by
    intro lo hi i nodes current hl hu hn
    refine KeepsLinks.lift (apply_raises _ _ _) fun aggregate => ?_
    refine KeepsLinks.lift (compose_raises _ _) fun tag => ?_
    exact MakesSegment.copy hl hu hn rfl
  refine Segment.halving_induction ?_ ?_
  · intro m h1 h2 nodes i hl hu
    obtain ⟨current, hn⟩ := hu.exists_node
    rw [update]
    refine KeepsLinks.read hn ?_
    rw [if_pos ⟨h1, h2⟩]
    exact cover hl hu hn
  · intro lo hi hlt ihl ihr h1 h2 nodes i hl hu
    obtain ⟨current, hn⟩ := hu.exists_node
    obtain ⟨left, right⟩ := hu.children hlt hn
    rw [update]
    refine KeepsLinks.read hn (KeepsLinks.ite (fun _ => cover hl hu hn) fun _ => ?_)
    rw [if_pos hlt]
    refine KeepsLinks.bind (pushDown_keeps kPushOnPartialDescent _ _ hl left right) ?_
    rintro ⟨leftChild, rightChild, retained⟩ nodes₁ - hl₁ ⟨hj, hk⟩
    refine MakesSegment.halves (.half hl₁ hj fun hm => ihl hm h2 hl₁ hj)
      (fun nodes₂ hpre hl₂ => .half hl₂ (hk.extend hpre)
        fun hm => ihr h1 hm hl₂ (hk.extend hpre))
      fun j k leftNode rightNode nodes₃ hl₃ hj₃ hk₃ => ?_
    refine KeepsLinks.lift (combine_raises _ _) fun children => ?_
    refine KeepsLinks.lift (apply_raises _ _ _) fun aggregate => ?_
    exact MakesSegment.inner hlt hl₃ hj₃ hk₃ rfl

omit [DecidableEq Action] in
/-- A query reads nothing that was appended. -/
theorem query_extend (h : Unfolds Node.links nodes i lo hi) (hpre : nodes <+: nodes')
    (inherited : Action) :
    query P nodes' i lo hi l r inherited = query P nodes i lo hi l r inherited := by
  induction h generalizing inherited with
  | single read ends =>
    rw [query, query, vectorAt_eq_ok.mpr read,
      vectorAt_eq_ok.mpr (getElem?_grown hpre read)]
    simp only [lt_irrefl, if_false]
  | halves split read _ _ ihl ihr =>
    simp only [Node.links] at ihl ihr
    rw [query, query, vectorAt_eq_ok.mpr read,
      vectorAt_eq_ok.mpr (getElem?_grown hpre read)]
    simp only [if_pos split, Effect.ok_bind, ihl, ihr]

omit [DecidableEq Action] in
/-- It throws what an operation throws. -/
theorem query_raises (h : Unfolds Node.links nodes i lo hi) (inherited : Action) :
    ThrowsOnly P.Raises (query P nodes i lo hi l r inherited) := by
  induction h generalizing inherited with
  | single read ends =>
    rw [query, vectorAt_eq_ok.mpr read]
    refine .ite (fun _ => .ok _) fun hmeets => ?_
    rw [Effect.ok_bind, if_pos (by omega)]
    exact apply_raises _ _ _
  | halves split read _ _ ihl ihr =>
    rw [query, vectorAt_eq_ok.mpr read]
    refine .ite (fun _ => .ok _) fun _ => .ite (fun _ => apply_raises _ _ _) fun _ => ?_
    rw [if_pos split]
    exact .bind (compose_raises _ _) fun next _ => .bind (ihl next) fun _ _ =>
      .bind (ihr next) fun _ _ => combine_raises _ _

end PathCopyingActionTree

/-! ## PointMaterializedPersistentTree -/

namespace PointMaterializedPersistentTree

/-- The children of a record. -/
def Node.links (node : Node Aggregate) : ℕ × ℕ := (node.leftChild, node.rightChild)

variable {nodes nodes' : List (Node Aggregate)} {i lo hi : ℕ}

/-- **The build.** -/
theorem build_makes {values : List Aggregate} (hhi : hi < values.length) :
    MakesSegment Node.links P.Raises 0 hi [] (build P values 0 hi []) := by
  unfold build
  refine Policy.buildArena_makes ?_ ?_ combine_raises 0 hi (Nat.zero_le hi) hhi .nil
  · intro value
    rfl
  · intro leftRoot rightRoot aggregate
    rfl

/-- **One update.** -/
theorem update_makes (action : Action) : ∀ lo hi, lo ≤ hi →
    ∀ {nodes : List (Node Aggregate)} {i : ℕ}, Linked Node.links nodes →
      Unfolds Node.links nodes i lo hi → MakesSegment Node.links P.Raises lo hi nodes
        (update P i lo hi l r action nodes) := by
  refine Segment.halving_induction ?_ ?_
  · intro m nodes i hl hu
    obtain ⟨current, hn⟩ := hu.exists_node
    rw [update]
    refine KeepsLinks.read hn ?_
    rw [if_pos rfl]
    exact KeepsLinks.lift (apply_raises _ _ _) fun aggregate => MakesSegment.leaf hl rfl
  · intro lo hi hlt ihl ihr nodes i hl hu
    obtain ⟨current, hn⟩ := hu.exists_node
    obtain ⟨left, right⟩ := hu.children hlt hn
    rw [update]
    refine KeepsLinks.read hn ?_
    rw [if_neg hlt.ne, if_pos hlt]
    refine MakesSegment.halves (.half hl left fun _ => ihl hl left)
      (fun nodes₁ hpre hl₁ => .half hl₁ (right.extend hpre) fun _ => ihr hl₁ (right.extend hpre))
      fun j k leftNode rightNode nodes₂ hl₂ hj hk => ?_
    exact KeepsLinks.lift (combine_raises _ _) fun aggregate => MakesSegment.inner hlt hl₂ hj hk rfl

theorem query_extend (h : Unfolds Node.links nodes i lo hi) (hpre : nodes <+: nodes') :
    query P nodes' i lo hi l r = query P nodes i lo hi l r := by
  induction h with
  | single read ends =>
    rw [query, query, vectorAt_eq_ok.mpr read,
      vectorAt_eq_ok.mpr (getElem?_grown hpre read)]
    simp only [lt_irrefl, if_false]
  | halves split read _ _ ihl ihr =>
    simp only [Node.links] at ihl ihr
    rw [query, query, vectorAt_eq_ok.mpr read,
      vectorAt_eq_ok.mpr (getElem?_grown hpre read)]
    simp only [if_pos split, Effect.ok_bind, ihl, ihr]

theorem query_raises (h : Unfolds Node.links nodes i lo hi) :
    ThrowsOnly P.Raises (query P nodes i lo hi l r) := by
  induction h with
  | single read ends =>
    rw [query, vectorAt_eq_ok.mpr read]
    refine .ite (fun _ => .ok _) fun hmeets => ?_
    rw [Effect.ok_bind, if_pos (by omega)]
    exact .ok _
  | halves split read _ _ ihl ihr =>
    rw [query, vectorAt_eq_ok.mpr read]
    refine .ite (fun _ => .ok _) fun _ => .ite (fun _ => .ok _) fun _ => ?_
    rw [if_pos split]
    exact .bind ihl fun _ _ => .bind ihr fun _ _ => combine_raises _ _

end PointMaterializedPersistentTree

/-! ## Runs of calls -/

/-- A call of a writing operation. -/
inductive ActionCall (Aggregate Action : Type) where
  | initializeFrom (values : List Aggregate)
  | rangeApply (left right : ℕ) (action : Action)

namespace ActionTreeParts

variable {Node : Type} [DecidableEq Action] (T : ActionTreeParts Node Aggregate Action)

/-- One call, which returns or throws. -/
def step (s : ActionTree Node) : ActionCall Aggregate Action → ActionTree Node
  | .initializeFrom values => Effect.finalState (T.initializeFrom values s)
  | .rangeApply left right action => Effect.finalState (T.rangeApply left right action s)

/-- The calls one after another. -/
def runCalls (s : ActionTree Node) (calls : List (ActionCall Aggregate Action)) : ActionTree Node :=
  calls.foldl T.step s

/-- No initialization succeeds along the calls. -/
def Steady (s : ActionTree Node) : List (ActionCall Aggregate Action) → Prop
  | [] => True
  | c :: calls => (∀ values, c = .initializeFrom values →
      ∃ e s', T.initializeFrom values s = .error e s') ∧ Steady (T.step s c) calls

variable {T} {s s' : ActionTree Node}

omit [DecidableEq Action] in
/-- A failed initialization leaves the state as it was. -/
theorem initializeFrom_atomic (values : List Aggregate) :
    Effect.Atomic (T.initializeFrom values) :=
  .ite (fun _ => .set _) fun _ => .bind_lift fun _ => .bind_lift fun _ => .bind_lift fun _ => .set _

omit [DecidableEq Action] in
/-- A successful one has built its first version. -/
theorem initializeFrom_eq_ok {values : List Aggregate} {u : Unit}
    (h : T.initializeFrom values s = .ok u s') : s' = ⟨[], [noNode], 0⟩ ∨
      (0 < values.length ∧ ∃ root nodes, T.build values 0 (values.length - 1) [] = .ok root nodes ∧
        s' = ⟨nodes, [root], values.length⟩) := by
  unfold initializeFrom at h
  by_cases h0 : values = []
  · rw [if_pos h0] at h
    cases h
    exact .inl rfl
  have hpos := List.length_pos_of_ne_nil h0
  rw [if_neg h0] at h
  obtain ⟨-, root, nodes, hb, h⟩ := run_reserved_build_eq_ok hpos h
  cases h
  exact .inr ⟨hpos, root, nodes, hb, rfl⟩

end ActionTreeParts

/-- What the parts of a path-copying tree do to the shape of its arena. -/
structure KeepsShape {Node : Type} (P : Policy Aggregate Action) (links : Node → ℕ × ℕ)
    (T : ActionTreeParts Node Aggregate Action) : Prop where
  build : ∀ {values : List Aggregate} {hi : ℕ}, hi < values.length →
    MakesSegment links P.Raises 0 hi [] (T.build values 0 hi [])
  update : ∀ {nodes : List Node} {i hi l r : ℕ} (action : Action), l ≤ hi →
    Linked links nodes → Unfolds links nodes i 0 hi →
      MakesSegment links P.Raises 0 hi nodes (T.update i 0 hi l r action nodes)
  query_extend : ∀ {nodes nodes' : List Node} {i hi l r : ℕ}, Unfolds links nodes i 0 hi →
    nodes <+: nodes' → T.query nodes' i 0 hi l r = T.query nodes i 0 hi l r
  query_raises : ∀ {nodes : List Node} {i hi l r : ℕ}, Unfolds links nodes i 0 hi →
    ThrowsOnly P.Raises (T.query nodes i 0 hi l r)

namespace KeepsShape

open ActionTreeParts

variable {Node : Type} [DecidableEq Action] {links : Node → ℕ × ℕ}
  {T : ActionTreeParts Node Aggregate Action} {s s' : ActionTree Node} {f : Action}

/-- The state of a tree is well formed. -/
abbrev Well (links : Node → ℕ × ℕ) (s : ActionTree Node) : Prop :=
  WellFormed links s.nodes s.roots s.arraySize

/-- What an update does in a well-formed state: it publishes one more version and keeps all nodes
and roots, or it throws and leaves the state as it was. -/
theorem rangeApply (hT : KeepsShape P links T) (hs : Well links s) (l r : ℕ) (f : Action) :
    (∃ v s', T.rangeApply l r f s = .ok v s' ∧ s.nodes <+: s'.nodes ∧ s.roots <+: s'.roots ∧
        s'.arraySize = s.arraySize ∧ Well links s') ∨ ∃ e, T.rangeApply l r f s = .error e s := by
  rcases ha : admitted s l r with e | root
  · exact .inr ⟨e, rangeApply_not_admitted ha⟩
  rw [rangeApply_admitted ha]
  obtain ⟨hlr, hr, hroot⟩ := of_admitted ha
  have hn : 0 < s.arraySize := Nat.zero_lt_of_lt hr
  have hroots : s.roots <+: s.roots ++ [root] := List.prefix_append _ _
  by_cases h0 : f = T.actionIdentity
  · rw [if_pos h0]
    exact .inl ⟨_, _, rfl, List.prefix_rfl, hroots, rfl, hs.republish hroot⟩
  rw [if_neg h0]
  have hu := hT.update (l := l) (r := r) f (show l ≤ s.arraySize - 1 by omega) hs.linked
    (hs.unfolds hn root (List.mem_of_getElem? hroot))
  unfold published
  rcases h : T.update root 0 (s.arraySize - 1) l r f s.nodes with ⟨newRoot, nodes⟩ | ⟨e, nodes⟩ <;>
    rw [h] at hu
  · obtain ⟨hpre, hl, hnew⟩ := hu
    exact .inl ⟨_, _, rfl, hpre, List.prefix_append _ _, rfl, hs.publish hpre hl hnew⟩
  · obtain ⟨⟨more, rfl⟩, -⟩ := hu
    refine .inr ⟨e, ?_⟩
    simp only [List.take_left]

omit [DecidableEq Action] in
/-- What an initialization does. -/
theorem initializeFrom (hT : KeepsShape P links T) (values : List Aggregate) (s : ActionTree Node) :
    (∃ s', T.initializeFrom values s = .ok () s' ∧ Well links s') ∨
      ∃ e, T.initializeFrom values s = .error e s := by
  rcases h : T.initializeFrom values s with ⟨⟨⟩, s'⟩ | ⟨e, s'⟩
  swap
  · exact .inr ⟨e, by rw [initializeFrom_atomic values _ _ _ h]⟩
  refine .inl ⟨s', rfl, ?_⟩
  rcases initializeFrom_eq_ok h with rfl | ⟨hpos, root, nodes, hb, rfl⟩
  · exact .empty _
  have hmade := hT.build (show values.length - 1 < values.length by omega)
  rw [hb] at hmade
  exact .single hmade.2.1 hmade.2.2

/-- **The invariant.** After every run of calls the state is well formed. -/
theorem wellFormed (hT : KeepsShape P links T) (calls : List (ActionCall Aggregate Action)) :
    ∀ s, Well links s → Well links (T.runCalls s calls) := by
  induction calls with
  | nil => exact fun s hs => hs
  | cons c calls ih =>
    intro s hs
    refine ih _ ?_
    cases c with
    | initializeFrom values =>
      show Well links (Effect.finalState (T.initializeFrom values s))
      rcases hT.initializeFrom values s with ⟨s', h, hs'⟩ | ⟨e, h⟩ <;> rw [h]
      · exact hs'
      · exact hs
    | rangeApply l r f =>
      show Well links (Effect.finalState (T.rangeApply l r f s))
      rcases hT.rangeApply hs l r f with ⟨v, s', h, -, -, -, hs'⟩ | ⟨e, h⟩ <;> rw [h]
      · exact hs'
      · exact hs

/-- **Steady runs.** While no initialization succeeds, all nodes and roots stay. -/
theorem steady (hT : KeepsShape P links T) {calls : List (ActionCall Aggregate Action)} :
    ∀ s, Well links s → T.Steady s calls → s.nodes <+: (T.runCalls s calls).nodes ∧
      s.roots <+: (T.runCalls s calls).roots ∧ (T.runCalls s calls).arraySize = s.arraySize := by
  induction calls with
  | nil => exact fun s _ _ => ⟨List.prefix_rfl, List.prefix_rfl, rfl⟩
  | cons c calls ih =>
    rintro s hs ⟨hc, hsteady⟩
    have key : s.nodes <+: (T.step s c).nodes ∧ s.roots <+: (T.step s c).roots ∧
        (T.step s c).arraySize = s.arraySize ∧ Well links (T.step s c) := by
      cases c with
      | initializeFrom values =>
        obtain ⟨e, s', he⟩ := hc values rfl
        have hsame : T.step s (.initializeFrom values) = s := by
          show Effect.finalState (T.initializeFrom values s) = s
          rw [he]
          exact initializeFrom_atomic values _ _ _ he
        rw [hsame]
        exact ⟨List.prefix_rfl, List.prefix_rfl, rfl, hs⟩
      | rangeApply l r f =>
        have hstep : T.step s (.rangeApply l r f) = Effect.finalState (T.rangeApply l r f s) := rfl
        rw [hstep]
        rcases hT.rangeApply hs l r f with ⟨v, s', h, hnodes, hroots, hsize, hs'⟩ | ⟨e, h⟩ <;> rw [h]
        · exact ⟨hnodes, hroots, hsize, hs'⟩
        · exact ⟨List.prefix_rfl, List.prefix_rfl, rfl, hs⟩
    obtain ⟨hnodes, hroots, hsize, hs'⟩ := key
    obtain ⟨hnodes', hroots', hsize'⟩ := ih _ hs' hsteady
    exact ⟨hnodes.trans hnodes', hroots.trans hroots', hsize'.trans hsize⟩

omit [DecidableEq Action] in
/-- A state with more nodes and roots answers for a version as before. -/
theorem rangeAggregate_extend (hT : KeepsShape P links T) (hs : Well links s)
    (hnodes : s.nodes <+: s'.nodes) (hroots : s.roots <+: s'.roots)
    (hsize : s'.arraySize = s.arraySize) {v : ℕ} (hv : v < s.roots.length) (l r : ℕ) :
    T.rangeAggregate s' v l r = T.rangeAggregate s v l r := by
  have hroot := List.getElem?_eq_getElem hv
  have hroot' := getElem?_grown hroots hroot
  have hv' := (List.getElem?_eq_some_iff.mp hroot').1
  unfold rangeAggregate
  rw [validateInitialized_eq_ok.mpr (by omega : 0 < s.roots.length),
    validateInitialized_eq_ok.mpr (by omega : 0 < s'.roots.length),
    validateVersion_eq_ok.mpr hv, validateVersion_eq_ok.mpr hv', hsize,
    vectorAt_eq_ok.mpr hroot, vectorAt_eq_ok.mpr hroot']
  rcases hn : validateNonEmpty s.arraySize with e | ⟨⟩
  · rfl
  simp only [Effect.ok_bind]
  refine bind_congr fun _ => ?_
  exact hT.query_extend (hs.unfolds (validateNonEmpty_eq_ok.mp hn) _ (List.getElem_mem hv)) hnodes

end KeepsShape

/-- The parts of both settings of the flag. -/
theorem PathCopyingActionTree.keepsShape [DecidableEq Action] (P : Policy Aggregate Action)
    (kPushOnPartialDescent : Bool) :
    KeepsShape P Node.links (parts P kPushOnPartialDescent) where
  build := build_makes
  update action hle hl hu := update_makes kPushOnPartialDescent action 0 _ (Nat.zero_le _) hle
    (Nat.zero_le _) hl hu
  query_extend hu hpre := query_extend hu hpre _
  query_raises hu := query_raises hu _

theorem PointMaterializedPersistentTree.keepsShape (P : Policy Aggregate Action) :
    KeepsShape P Node.links (parts P) where
  build := build_makes
  update action _ hl hu := update_makes action 0 _ (Nat.zero_le _) hl hu
  query_extend hu hpre := query_extend hu hpre
  query_raises hu := query_raises hu

/-! ## Copy safety -/

/-- In the state, an update keeps the nodes and the roots or throws and changes nothing, the
identity publishes the latest root, and what is published is answered the same way until an
initialization succeeds. -/
structure CopySafe {Node : Type} [DecidableEq Action] (T : ActionTreeParts Node Aggregate Action)
    (s : ActionTree Node) : Prop where
  frame : ∀ l r action,
    (∃ v s', T.rangeApply l r action s = .ok v s' ∧ s.nodes <+: s'.nodes ∧ s.roots <+: s'.roots) ∨
      ∃ e, T.rangeApply l r action s = .error e s
  identity : ∀ l r, l ≤ r → r < s.arraySize → ∃ root, s.roots.getLast? = some root ∧
    T.rangeApply l r T.actionIdentity s =
      .ok s.roots.length ⟨s.nodes, s.roots ++ [root], s.arraySize⟩
  answers : ∀ calls, T.Steady s calls → ∀ v < s.roots.length, ∀ l r,
    T.rangeAggregate (T.runCalls s calls) v l r = T.rangeAggregate s v l r

theorem KeepsShape.copySafe {Node : Type} [DecidableEq Action] {links : Node → ℕ × ℕ}
    {T : ActionTreeParts Node Aggregate Action} (hT : KeepsShape P links T)
    (calls : List (ActionCall Aggregate Action)) :
    CopySafe T (T.runCalls ActionTreeParts.empty calls) := by
  have hs := hT.wellFormed calls ActionTreeParts.empty (.empty _)
  refine ⟨fun l r action => ?_, fun l r hlr hr => ?_, fun more hsteady v hv l r => ?_⟩
  · rcases hT.rangeApply hs l r action with ⟨v, s', h, hnodes, hroots, -⟩ | h
    · exact .inl ⟨v, s', h, hnodes, hroots⟩
    · exact .inr h
  · obtain ⟨root, hroot⟩ := List.getLast?_isSome.mpr (hs.published (by omega)) |>
      Option.isSome_iff_exists.mp
    have hlast := hroot
    rw [List.getLast?_eq_getElem?] at hlast
    refine ⟨root, hroot, ?_⟩
    rw [ActionTreeParts.rangeApply_admitted (ActionTreeParts.admitted_eq_ok hlr hr hlast),
      if_pos rfl]
  · obtain ⟨hnodes, hroots, hsize⟩ := hT.steady _ hs hsteady
    exact hT.rangeAggregate_extend hs hnodes hroots hsize hv l r

/-- **Copy safety.** In every state that calls lead to, for every policy. -/
theorem copy_safety [DecidableEq Action] (P : Policy Aggregate Action)
    (calls : List (ActionCall Aggregate Action)) :
    (∀ kPushOnPartialDescent : Bool,
      CopySafe (PathCopyingActionTree.parts P kPushOnPartialDescent)
        ((PathCopyingActionTree.parts P kPushOnPartialDescent).runCalls
          ActionTreeParts.empty calls)) ∧
      CopySafe (PointMaterializedPersistentTree.parts P)
        ((PointMaterializedPersistentTree.parts P).runCalls ActionTreeParts.empty calls) :=
  ⟨fun push => (PathCopyingActionTree.keepsShape P push).copySafe calls,
    (PointMaterializedPersistentTree.keepsShape P).copySafe calls⟩

end Valseg
