import Valseg.ExactGuards
import Valseg.PolicyTrees

/-!
# The templates are the measured structures

`PathCopyingActionTree` over the SumAdd policy and the two structures the benchmarks measure are
written independently. A measured node is a record of the template under other names (`record`);
on an arena and on its records the two builds, updates and queries do the same (`update_image`,
`query_image`), and so do whole runs (`templates_measured`).
-/

namespace Valseg

namespace MeasuredTemplates

open Effect (Image)

/-- A record of the template over the SumAdd policy. -/
abbrev Record := PathCopyingActionTree.Node ValueType ValueType

/-- A measured node as a record of the template. -/
def record (node : PersistentLazySegmentTree.Node) : Record :=
  ⟨node.leftChild, node.rightChild, node.sum, node.lazy⟩

/-- A measured structure as a state of the template. -/
def template (s : PersistentLazySegmentTree.State) : ActionTree Record :=
  ⟨s.nodes.map record, s.roots, s.arraySize⟩

/-! ## The same arithmetic -/

/-- The push variant of the template applies the identity where the measured one only adds. -/
theorem apply_identity (a : ValueType) {length : ℕ} (h : length ≤ maxLength) :
    SumAddPolicy.apply 0 a length = .ok a := by
  refine (SumAddPolicy.apply_eq_ok h).mpr ?_
  rw [Int64.toInt_zero, zero_mul, add_zero]
  exact ⟨representable_zero, rfl⟩

/-! ## The same operations on an arena -/

theorem build_image (values : List ValueType) (lo hi : ℕ) :
    Image (List.map record) id (PersistentLazySegmentTree.build values lo hi)
      (PathCopyingActionTree.build sumAddPolicy values lo hi) := by
  unfold PersistentLazySegmentTree.build PathCopyingActionTree.build
  induction hk : hi - lo using Nat.strong_induction_on generalizing lo hi with
  | _ k ih =>
    rw [buildArena, Policy.buildArena]
    refine .ite (fun _ => ?_) fun _ => .ite (fun hlt => ?_) fun _ => .throw _
    · exact .bind (.lift _) fun value => pushBack_map record _
    · have h1 := Segment.le_midpoint lo hi
      have h2 := Segment.midpoint_lt hlt
      refine .bind (ih _ ?_ _ _ rfl) fun j => .bind (ih _ ?_ _ _ rfl) fun k =>
        .bind (readNode_map record j) fun leftNode => .bind (readNode_map record k) fun rightNode =>
          .bind (.lift _) fun sum => pushBack_map record _
      · omega
      · omega

/-- A covered node, and a child a tag is pushed into. -/
theorem cover_image (node : PersistentLazySegmentTree.Node) (value : ValueType) (length : ℕ) :
    Image (List.map record) id
      (do
        let sum ← SumAddPolicy.apply value node.sum length
        let lazy ← checkedAdd node.lazy value
        pushBack ⟨node.leftChild, node.rightChild, sum, lazy⟩ :
          ArenaM PersistentLazySegmentTree.Node ℕ)
      (do
        let aggregate ← sumAddPolicy.apply value (record node).aggregate length
        let tag ← sumAddPolicy.compose value (record node).tag
        pushBack ⟨(record node).leftChild, (record node).rightChild, aggregate, tag⟩ :
          ArenaM Record ℕ) := by
  rw [checkedAdd_comm]
  exact .bind (.lift _) fun sum => .bind (.lift _) fun lazy => pushBack_map record _

theorem pushInto_image (source : ℕ) (tag : ValueType) (length : ℕ) :
    Image (List.map record) id (CopyOnPushSegmentTree.pushInto source tag length)
      (PathCopyingActionTree.pushInto sumAddPolicy source tag length) :=
  .bind (readNode_map record source) fun child => cover_image child tag length

/-! ## The same updates -/

/-- The tag-retaining update, on an arena and on its records. -/
theorem retained_image (value : ValueType) {l r i lo hi : ℕ} (hle : lo ≤ hi) (hhi : hi < maxLength) :
    Image (List.map record) id (PersistentLazySegmentTree.update i lo hi l r value)
      (PathCopyingActionTree.update sumAddPolicy false i lo hi l r value) := by
  induction hk : hi - lo using Nat.strong_induction_on generalizing i lo hi with
  | _ k ih =>
    rw [PersistentLazySegmentTree.update, PathCopyingActionTree.update,
      inclusiveLength_eq hle (Layout.lt_sizeMax hhi)]
    simp only [Effect.liftM_ok_bind]
    refine .bind (readNode_map record i) fun current => .ite (fun _ => cover_image _ _ _) fun _ =>
      .ite (fun hlt => ?_) fun _ => .throw _
    have h1 := Segment.le_midpoint lo hi
    have h2 := Segment.midpoint_lt hlt
    have hkeep : PathCopyingActionTree.pushDown sumAddPolicy false (record current)
        (Segment.midpoint lo hi - lo + 1) (hi - Segment.midpoint lo hi) =
          pure (current.leftChild, current.rightChild, current.lazy) := by
      unfold PathCopyingActionTree.pushDown
      exact if_neg fun h => Bool.false_ne_true h.1
    rw [hkeep, pure_bind]
    refine .bind (.ite (fun _ => ih _ ?_ h1 ?_ rfl) fun _ => .pure _) fun newLeft =>
      .bind (.ite (fun _ => ih _ ?_ h2 hhi rfl) fun _ => .pure _) fun newRight =>
        .bind (readNode_map record newLeft) fun leftNode =>
          .bind (readNode_map record newRight) fun rightNode =>
            .bind (.lift _) fun children => .bind (.lift _) fun sum => pushBack_map record _
    · omega
    · omega
    · omega

/-- Pushing a tag before a descent. -/
theorem pushDown_image (current : PersistentLazySegmentTree.Node) {lo hi : ℕ} (hlt : lo < hi)
    (hhi : hi < maxLength) :
    Image (List.map record) (fun p => (p.1, p.2, (0 : ValueType)))
      ((if current.lazy ≠ 0 then do
        let leftChild ← CopyOnPushSegmentTree.pushInto current.leftChild current.lazy
          (← CopyOnPushSegmentTree.span lo (Segment.midpoint lo hi))
        let rightChild ← CopyOnPushSegmentTree.pushInto current.rightChild current.lazy
          (← CopyOnPushSegmentTree.span (Segment.midpoint lo hi + 1) hi)
        pure (leftChild, rightChild)
      else pure (current.leftChild, current.rightChild)) :
        ArenaM PersistentLazySegmentTree.Node (ℕ × ℕ))
      (PathCopyingActionTree.pushDown sumAddPolicy true (record current)
        (Segment.midpoint lo hi - lo + 1) (hi - Segment.midpoint lo hi)) := by
  have h1 := Segment.le_midpoint lo hi
  have h2 := Segment.midpoint_lt hlt
  have hlength : hi - Segment.midpoint lo hi = Segment.length (Segment.midpoint lo hi + 1) hi := by
    unfold Segment.length
    omega
  unfold CopyOnPushSegmentTree.span PathCopyingActionTree.pushDown
  rw [inclusiveLength_eq h1 (Layout.lt_sizeMax (by omega)),
    inclusiveLength_eq h2 (Layout.lt_sizeMax hhi), hlength]
  by_cases hz : current.lazy = 0
  · have hz' : ¬ (true = true ∧ (record current).tag ≠ sumAddPolicy.actionIdentity) :=
      fun h => h.2 hz
    rw [if_neg (not_not.mpr hz), if_neg hz', show (record current).tag = 0 from hz]
    exact .pure _
  · have hz' : true = true ∧ (record current).tag ≠ sumAddPolicy.actionIdentity := ⟨rfl, hz⟩
    rw [if_pos hz, if_pos hz']
    simp only [Effect.liftM_ok_bind]
    exact .bind (g := id) (pushInto_image _ _ _) fun leftChild =>
      .bind (g := id) (pushInto_image _ _ _) fun rightChild => .pure _

/-- The copy-on-push update, on an arena and on its records. -/
theorem pushed_image (value : ValueType) {l r i lo hi : ℕ} (hle : lo ≤ hi) (hhi : hi < maxLength) :
    Image (List.map record) id (CopyOnPushSegmentTree.update i lo hi l r value)
      (PathCopyingActionTree.update sumAddPolicy true i lo hi l r value) := by
  induction hk : hi - lo using Nat.strong_induction_on generalizing i lo hi with
  | _ k ih =>
    rw [CopyOnPushSegmentTree.update, PathCopyingActionTree.update, CopyOnPushSegmentTree.span,
      inclusiveLength_eq hle (Layout.lt_sizeMax hhi)]
    simp only [Effect.liftM_ok_bind]
    refine .bind (readNode_map record i) fun current => .ite (fun _ => cover_image _ _ _) fun _ =>
      .ite (fun hlt => ?_) fun _ => .throw _
    have h1 := Segment.le_midpoint lo hi
    have h2 := Segment.midpoint_lt hlt
    refine .bind (pushDown_image current hlt hhi) ?_
    rintro ⟨leftChild, rightChild⟩
    refine .bind (.ite (fun _ => ih _ ?_ h1 ?_ rfl) fun _ => .pure _) fun newLeft =>
      .bind (g := id) (.ite (fun _ => ih _ ?_ h2 hhi rfl) fun _ => .pure _) fun newRight =>
        .bind (readNode_map record newLeft) fun leftNode =>
          .bind (readNode_map record newRight) fun rightNode => .bind (.lift _) fun children => ?_
    · omega
    · omega
    · omega
    · have happly : sumAddPolicy.apply 0 children (Segment.length lo hi) = .ok children :=
        apply_identity children (by unfold Segment.length; omega)
      simp only [id, happly, Effect.liftM_ok_bind]
      exact pushBack_map record _

/-! ## The same queries -/

theorem query_image (nodes : List PersistentLazySegmentTree.Node) {l r i lo hi : ℕ}
    (inherited : ValueType) (hle : lo ≤ hi) (hhi : hi < maxLength) :
    PathCopyingActionTree.query sumAddPolicy (nodes.map record) i lo hi l r inherited =
      (PersistentLazySegmentTree.reading.on nodes).query i lo hi l r inherited := by
  induction hk : hi - lo using Nat.strong_induction_on generalizing i lo hi inherited with
  | _ k ih =>
    rw [PathCopyingActionTree.query, Layout.query]
    by_cases hout : hi < l ∨ lo > r
    · rw [if_pos hout, if_pos hout]
      rfl
    rw [if_neg hout, if_neg hout, vectorAt_map]
    rcases hn : vectorAt nodes i with e | node
    · have hread : (PersistentLazySegmentTree.reading.on nodes).read i = .error e := by
        show (vectorAt nodes i >>= _) = _
        rw [hn]
        rfl
      rw [hread]
      rfl
    have hn' := vectorAt_eq_ok.mp hn
    rw [NodeReading.read_of_getElem? hn', inclusiveLength_eq hle (Layout.lt_sizeMax hhi)]
    show (if _ then _ else _) = (if _ then _ else _)
    by_cases hin : l ≤ lo ∧ hi ≤ r
    · rw [if_pos hin, if_pos hin]
      rfl
    rw [if_neg hin, if_neg hin]
    by_cases hlt : lo < hi
    swap
    · rw [if_neg hlt, if_neg hlt]
    have h1 := Segment.le_midpoint lo hi
    have h2 := Segment.midpoint_lt hlt
    rw [if_pos hlt, if_pos hlt]
    refine bind_congr fun next => ?_
    simp only [NodeReading.children_of_getElem? hn']
    show (_ >>= fun left => _ >>= fun right => _) = (_ >>= fun left => _ >>= fun right => _)
    rw [ih _ (by omega) next h1 (by omega) rfl, ih _ (by omega) next h2 hhi rfl]
    rfl

/-! ## The same calls -/

/-- The parts of a measured structure and of its template do the same on an arena and on its
records, behind the guard that only the measured structure has. -/
structure SameParts (P : PathCopying PersistentLazySegmentTree.Node SumAddDomainGuard)
    (T : ActionTreeParts Record ValueType ValueType) : Prop where
  recordBytes : T.recordBytes = P.nodeSize
  actionIdentity : T.actionIdentity = 0
  preflight : ∀ (s : PersistentLazySegmentTree.State) root l r value,
    P.preflight s root l r value = s.numericDomain.preflight s.arraySize l r value fun values =>
      (PersistentLazySegmentTree.reading.on s.nodes).materialize root 0 (s.arraySize - 1) 0 values
  build : ∀ values lo hi,
    Image (List.map record) id (P.build values lo hi) (T.build values lo hi)
  update : ∀ i hi l r value, hi < maxLength →
    Image (List.map record) id (P.update i 0 hi l r value) (T.update i 0 hi l r value)

theorem retained_sameParts :
    SameParts PersistentLazySegmentTree.parts (retainedTagPersistentTree sumAddPolicy) where
  recordBytes := rfl
  actionIdentity := rfl
  preflight _ _ _ _ _ := rfl
  build := build_image
  update _ _ _ _ value hhi := retained_image value (Nat.zero_le _) hhi

theorem pushed_sameParts :
    SameParts CopyOnPushSegmentTree.parts (copyOnPushPersistentTree sumAddPolicy) where
  recordBytes := rfl
  actionIdentity := rfl
  preflight _ _ _ _ _ := rfl
  build := build_image
  update _ _ _ _ value hhi := pushed_image value (Nat.zero_le _) hhi

section Calls

variable {P : PathCopying PersistentLazySegmentTree.Node SumAddDomainGuard}
  {T : ActionTreeParts Record ValueType ValueType} {s s' : PersistentLazySegmentTree.State}
  {l r root : ℕ} {value : ValueType}

/-- Initializations do the same. -/
theorem initialize_image (hP : SameParts P T) (values : List ValueType) :
    Image template id (P.initializeFrom values) (T.initializeFrom values) := by
  unfold PathCopying.initializeFrom ActionTreeParts.initializeFrom
  rw [hP.recordBytes]
  refine .ite (fun _ => .set _) fun _ => .bind (.lift _) fun _ => .bind (.lift _) fun _ => ?_
  exact .bind (.liftLocal (hP.build values 0 (values.length - 1)) []) fun _ => .set _

/-- The updates behind the checks and the guard do the same. -/
theorem published_image (hP : SameParts P T) (hsize : s.arraySize - 1 < maxLength)
    (domain : SumAddDomainGuard) : T.published (template s) root l r value =
      Effect.mapEnd template id (P.published s root l r value domain) := by
  unfold ActionTreeParts.published PathCopying.published
  rw [show T.update root 0 ((template s).arraySize - 1) l r value (template s).nodes =
    Effect.mapEnd (List.map record) id (P.update root 0 (s.arraySize - 1) l r value s.nodes) from
      hP.update root _ l r value hsize s.nodes]
  rcases P.update root 0 (s.arraySize - 1) l r value s.nodes with ⟨j, nodes⟩ | ⟨e, nodes⟩
  · rfl
  · simp only [Effect.mapEnd, template, List.length_map, List.map_take]

/-- **One accepted addition.** The template publishes the same version. -/
theorem rangeApply_of_rangeAdd (hP : SameParts P T) (hsize : s.arraySize - 1 < maxLength) {x : ℕ}
    (h : P.rangeAdd l r value s = .ok x s') :
    T.rangeApply l r value (template s) = .ok x (template s') := by
  rcases ha : PathCopying.admitted s l r with e | root
  · rw [PathCopying.rangeAdd_not_admitted ha] at h
    cases h
  rw [PathCopying.rangeAdd_admitted ha] at h
  rw [ActionTreeParts.rangeApply_admitted (s := template s) ha, hP.actionIdentity]
  by_cases h0 : value = 0
  · rw [if_pos h0] at h ⊢
    cases h
    rfl
  rw [if_neg h0] at h ⊢
  rcases hd : P.preflight s root l r value with e | domain <;> rw [hd] at h
  · cases h
  · rw [published_image hP hsize domain, show P.published s root l r value domain = _ from h]
    rfl

/-- The arguments are turned down by both. -/
theorem not_returns_of_not_admitted (value : ValueType) {e : Exception}
    (ha : PathCopying.admitted s l r = .error e) :
    ¬ Returns (Effect.outcome (P.rangeAdd l r value s)) ∧
      ¬ Returns (Effect.outcome (T.rangeApply l r value (template s))) := by
  rw [PathCopying.rangeAdd_not_admitted ha,
    ActionTreeParts.rangeApply_not_admitted (s := template s) ha]
  exact ⟨nofun, nofun⟩

/-- With valid arguments, what the measured structure asks besides is the guard. -/
theorem returns_iff (hP : SameParts P T) (hsize : s.arraySize - 1 < maxLength)
    (ha : PathCopying.admitted s l r = .ok root) :
    Returns (Effect.outcome (P.rangeAdd l r value s)) ↔
      (value = 0 ∨ Returns (s.numericDomain.validateRangeAdd s.arraySize l r value
        (PathCopying.materializeLatest PersistentLazySegmentTree.reading s))) ∧
      Returns (Effect.outcome (T.rangeApply l r value (template s))) := by
  rw [PathCopying.rangeAdd_admitted ha, ActionTreeParts.rangeApply_admitted (s := template s) ha,
    hP.actionIdentity]
  by_cases h0 : value = 0
  · rw [if_pos h0, if_pos h0]
    exact iff_of_true ⟨_, rfl⟩ ⟨.inl h0, ⟨_, rfl⟩⟩
  rw [if_neg h0, if_neg h0, or_iff_right h0]
  obtain ⟨-, -, hroot⟩ := PathCopying.of_admitted ha
  have hmat : PathCopying.materializeLatest PersistentLazySegmentTree.reading s = fun values =>
      (PersistentLazySegmentTree.reading.on s.nodes).materialize root 0 (s.arraySize - 1) 0
        values := by
    funext values
    unfold PathCopying.materializeLatest
    rw [vectorAt_eq_ok.mpr hroot]
    rfl
  rw [hP.preflight, hmat]
  unfold SumAddDomainGuard.preflight
  rcases s.numericDomain.validateRangeAdd s.arraySize l r value fun values =>
    (PersistentLazySegmentTree.reading.on s.nodes).materialize root 0 (s.arraySize - 1) 0
      values with e | b
  · exact iff_of_false nofun fun h => nomatch h.1
  rw [published_image hP hsize ⟨b⟩]
  show Returns (Effect.outcome (P.published s root l r value ⟨b⟩)) ↔ _
  rcases P.published s root l r value ⟨b⟩ with ⟨x, s'⟩ | ⟨e, s'⟩
  · exact iff_of_true ⟨_, rfl⟩ ⟨⟨_, rfl⟩, ⟨_, rfl⟩⟩
  · exact iff_of_false nofun fun h => nomatch h.2

end Calls

/-! ## The same runs -/

section Runs

variable (P : PathCopying PersistentLazySegmentTree.Node SumAddDomainGuard)
  (T : ActionTreeParts Record ValueType ValueType)

/-- One call. Both are initialized; an addition is made on the template as well when the measured
structure accepted it. -/
def follow (p : PersistentLazySegmentTree.State × ActionTree Record) :
    Call (List ValueType) → PersistentLazySegmentTree.State × ActionTree Record
  | .initializeFrom values => (Effect.finalState (P.initializeFrom values p.1),
      Effect.finalState (T.initializeFrom values p.2))
  | .rangeAdd left right value => match P.rangeAdd left right value p.1 with
    | .ok _ s => (s, Effect.finalState (T.rangeApply left right value p.2))
    | .error _ s => (s, p.2)

/-- The calls on two newly constructed structures. -/
def followRun (calls : List (Call (List ValueType))) :
    PersistentLazySegmentTree.State × ActionTree Record :=
  calls.foldl (follow P T) (P.empty, ActionTreeParts.empty)

/-- What a measured structure and its template have in common. -/
structure Measured (rangeSum : PersistentLazySegmentTree.State → (version left right : ℕ) →
    Except Exception ValueType) (s : PersistentLazySegmentTree.State) (t : ActionTree Record) :
    Prop where
  nodes : t.nodes = s.nodes.map record
  roots : t.roots = s.roots
  arraySize : t.arraySize = s.arraySize
  answers : 0 < s.roots.length → ∀ v l r, T.rangeAggregate t v l r = rangeSum s v l r
  accepts : ∀ l r value, Returns (Effect.outcome (P.rangeAdd l r value s)) ↔
    Returns (s.numericDomain.validateRangeAdd s.arraySize l r value
      (PathCopying.materializeLatest PersistentLazySegmentTree.reading s)) ∧
    Returns (Effect.outcome (T.rangeApply l r value t))

variable {P T} {D : Discipline} {s s' : PersistentLazySegmentTree.State}
  {o : Option (History (List ValueType))} {l r root : ℕ} {value : ValueType}

/-- A state that admits arguments stands for an array they fit. -/
theorem reachable_of_admitted (R : P.Refines D) {calls : List (Call (List ValueType))}
    (hrun : P.engine.run calls = (s, o)) (ha : PathCopying.admitted s l r = .ok root) :
    ∃ h m, P.engine.Reachable s h ∧ m.size = h.size ∧ R.StoresTrees s m ∧ m.Valid D h.adds ∧
      l ≤ r ∧ r < h.size := by
  obtain ⟨hlr, hr, hroot⟩ := PathCopying.of_admitted ha
  rcases o with _ | h
  · have hfresh : s.roots = [] := R.simulation.fresh_of_run hrun
    rw [hfresh] at hroot
    cases hroot
  · have hreach : P.engine.Reachable s h := ⟨calls, hrun⟩
    obtain ⟨m, hsize, hrel, hvalid⟩ := R.simulation.reaches hreach
    have hs : s.arraySize = m.size := hrel.size
    exact ⟨h, m, hreach, hsize, hrel, hvalid, hlr, by omega⟩

theorem size_of_admitted (R : P.Refines D) {calls : List (Call (List ValueType))}
    (hrun : P.engine.run calls = (s, o)) (ha : PathCopying.admitted s l r = .ok root) :
    s.arraySize - 1 < maxLength := by
  obtain ⟨h, m, -, hsize, hrel, hvalid, -, hr⟩ := reachable_of_admitted R hrun ha
  have hs := hrel.size
  have hmax := hvalid.size_le
  omega

/-- A rejected addition leaves the state as it was. -/
theorem state_of_rejected (R : P.Refines D) {calls : List (Call (List ValueType))}
    (hrun : P.engine.run calls = (s, o)) {e : Exception}
    (h : P.rangeAdd l r value s = .error e s') : s' = s := by
  rcases ha : PathCopying.admitted s l r with e' | root
  · rw [PathCopying.rangeAdd_not_admitted ha] at h
    cases h
    rfl
  · obtain ⟨_, m, -, -, hrel, hvalid, -⟩ := reachable_of_admitted R hrun ha
    rcases PathCopying.Refines.rangeAdd_outcome hrel hvalid l r value with
      ⟨m', s'', -, hadd, -⟩ | ⟨e', -, hadd⟩ <;> rw [h] at hadd <;> cases hadd
    rfl

/-- **Runs.** The template is in the state the measured structure is in. -/
theorem followRun_eq (R : P.Refines D) (hP : SameParts P T) (calls : List (Call (List ValueType))) :
    followRun P T calls = ((P.engine.run calls).1, template (P.engine.run calls).1) := by
  induction calls using List.reverseRecOn with
  | nil => rfl
  | append_singleton calls c ih =>
    have hboth : followRun P T (calls ++ [c]) = follow P T (followRun P T calls) c :=
      List.foldl_append
    have hstep : P.engine.run (calls ++ [c]) = P.engine.step (P.engine.run calls) c :=
      Engine.runFrom_append _ _ _
    rw [hboth, ih, hstep]
    rcases hrun : P.engine.run calls with ⟨s, o⟩
    cases c with
    | initializeFrom values =>
      rw [Engine.step_initialize_state]
      exact congrArg _ ((initialize_image hP values).finalState_eq s)
    | rangeAdd l r value =>
      rcases hadd : P.rangeAdd l r value s with ⟨x, s'⟩ | ⟨e, s'⟩
      · rw [Engine.step_rangeAdd_ok hadd]
        rcases ha : PathCopying.admitted s l r with e | root
        · rw [PathCopying.rangeAdd_not_admitted ha] at hadd
          cases hadd
        · simp only [follow, hadd,
            rangeApply_of_rangeAdd hP (size_of_admitted R hrun ha) hadd]
          rfl
      · rw [Engine.step_rangeAdd_error hadd]
        simp only [follow, hadd, state_of_rejected R hrun hadd]

/-- **One structure and its template.** -/
theorem measured (R : P.Refines D) (hP : SameParts P T)
    {rangeSum : PersistentLazySegmentTree.State → (version left right : ℕ) →
      Except Exception ValueType}
    (hquery : ∀ s : PersistentLazySegmentTree.State, 0 < s.roots.length →
      (0 < s.arraySize → s.arraySize - 1 < maxLength) →
      ∀ v l r, T.rangeAggregate (template s) v l r = rangeSum s v l r)
    (hdomain : ∀ {s h}, P.engine.Reachable s h → 0 < h.size →
      DomainExact h.adds h.size (· < h.adds.versionCount) s.numericDomain
        (PathCopying.materializeLatest PersistentLazySegmentTree.reading s) (rangeSum s))
    (calls : List (Call (List ValueType))) :
    Measured P T rangeSum (followRun P T calls).1 (followRun P T calls).2 := by
  rw [followRun_eq R hP]
  rcases hrun : P.engine.run calls with ⟨s, o⟩
  refine ⟨rfl, rfl, rfl, fun hpos => hquery s hpos ?_, fun l r value => ?_⟩
  · rcases o with _ | h
    · have hfresh : s.roots = [] := R.simulation.fresh_of_run hrun
      rw [show (s, (none : Option (History (List ValueType)))).1.roots = [] from hfresh] at hpos
      exact absurd hpos (lt_irrefl 0)
    · obtain ⟨m, hsize, hrel, hvalid⟩ := R.simulation.reaches ⟨calls, hrun⟩
      have hs : s.arraySize = m.size := hrel.size
      have hmax := hvalid.size_le
      omega
  · rcases ha : PathCopying.admitted s l r with e | root
    · obtain ⟨h1, h2⟩ := not_returns_of_not_admitted (P := P) (T := T) value ha
      exact iff_of_false h1 fun h => h2 h.2
    obtain ⟨h, m, hr, hsize, hrel, hvalid, hlr, hlt⟩ := reachable_of_admitted R hrun ha
    have hs : s.arraySize = h.size := hrel.size.trans hsize
    have hret : value = 0 → Returns (s.numericDomain.validateRangeAdd s.arraySize l r value
        (PathCopying.materializeLatest PersistentLazySegmentTree.reading s)) := by
      rintro rfl
      have hd := hdomain hr (by omega)
      rw [hs, hd.guard.admits l r 0 hlr hlt]
      refine (hd.fit _ (Nat.lt_succ_self _)).congr fun i _ _ => ?_
      unfold Segment.addOn
      rw [Int64.toInt_zero, add_zero, ite_self]
      rfl
    rw [returns_iff hP (size_of_admitted R hrun ha) ha, or_iff_right_of_imp hret]

end Runs

/-- A query from the root of a version. -/
theorem rangeAggregate_template {kPushOnPartialDescent : Bool}
    {s : PersistentLazySegmentTree.State} {v l r : ℕ}
    (hsize : 0 < s.arraySize → s.arraySize - 1 < maxLength) :
    (PathCopyingActionTree.parts sumAddPolicy kPushOnPartialDescent).rangeAggregate (template s)
      v l r = PersistentLazySegmentTree.rangeSum s v l r := by
  unfold ActionTreeParts.rangeAggregate PersistentLazySegmentTree.rangeSum
  refine bind_congr fun _ => bind_congr fun _ => ?_
  show (validateNonEmpty s.arraySize >>= _) = _
  rcases h3 : validateNonEmpty s.arraySize with e | ⟨⟩
  · rfl
  refine bind_congr fun _ => bind_congr fun _ => bind_congr fun root => ?_
  exact query_image s.nodes 0 (Nat.zero_le _) (hsize (validateNonEmpty_eq_ok.mp h3))

/-- Where there is a version, the order of the first two checks does not matter. -/
theorem rangeSum_pushed {s : CopyOnPushSegmentTree.State} {v l r : ℕ} (hpos : 0 < s.roots.length) :
    CopyOnPushSegmentTree.rangeSum s v l r = PersistentLazySegmentTree.rangeSum s v l r := by
  unfold CopyOnPushSegmentTree.rangeSum PersistentLazySegmentTree.rangeSum
  rw [validateInitialized_eq_ok.mpr hpos]
  rfl

/-- **The templates are the measured structures.** -/
theorem templates_measured :
    (∀ calls, Measured PersistentLazySegmentTree.parts (retainedTagPersistentTree sumAddPolicy)
      PersistentLazySegmentTree.rangeSum
      (followRun PersistentLazySegmentTree.parts (retainedTagPersistentTree sumAddPolicy) calls).1
      (followRun PersistentLazySegmentTree.parts (retainedTagPersistentTree sumAddPolicy) calls).2) ∧
    ∀ calls, Measured CopyOnPushSegmentTree.parts (copyOnPushPersistentTree sumAddPolicy)
      CopyOnPushSegmentTree.rangeSum
      (followRun CopyOnPushSegmentTree.parts (copyOnPushPersistentTree sumAddPolicy) calls).1
      (followRun CopyOnPushSegmentTree.parts (copyOnPushPersistentTree sumAddPolicy) calls).2 := by
  constructor
  · exact measured PersistentLazySegmentTree.refines retained_sameParts
      (fun s _ hsize v l r => rangeAggregate_template hsize) PersistentLazySegmentTree.domainExact
  · refine measured CopyOnPushSegmentTree.refines pushed_sameParts
      (fun s hpos hsize v l r => ?_) CopyOnPushSegmentTree.domainExact
    rw [rangeSum_pushed hpos]
    exact rangeAggregate_template hsize

end MeasuredTemplates

end Valseg
