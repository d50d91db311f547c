import Valseg.Arena
import Valseg.Engine
import Valseg.NumericDomain

/-!
# Path-copying trees

The structures that never write to a published node have the same state and the same public
operations: an initialization that builds into fresh vectors and swaps them in, and a range
addition that appends the nodes of the next version and takes them off again when it throws.
`PathCopying` holds what each of them brings: its node size, guard, build, traversal and update.

1. `rangeAdd_frame`: in every state a range addition only appends, and one that throws leaves the
   state as it was.
2. `Refines` is what an update has to do for one version; `Refines.simulation` makes a
   simulation of whole runs out of it, and `Refines.rangeAdd_outcome` says that the structure
   returns and throws exactly as the versioned trees do.
-/

namespace Valseg

/-- The state of a path-copying tree. `roots[v]` is the index of version `v`'s root. -/
structure PathCopyingTree (Node Domain : Type) where
  nodes : List Node
  roots : List ℕ
  arraySize : ℕ
  numericDomain : Domain
  deriving DecidableEq, Repr

/-- What a path-copying tree brings of its own. -/
structure PathCopying (Node Domain : Type) where
  nodeSize : ℕ
  emptyDomain : Domain
  domainOf : List ValueType → Domain
  preflight : PathCopyingTree Node Domain → (latestRoot left right : ℕ) → ValueType →
    Except Exception Domain
  build : List ValueType → (segmentLeft segmentRight : ℕ) → ArenaM Node ℕ
  update : (nodeIndex segmentLeft segmentRight queryLeft queryRight : ℕ) → ValueType →
    ArenaM Node ℕ

namespace PathCopying

variable {Node Domain : Type} (P : PathCopying Node Domain)

/-- The constructed tree has no versions. -/
def empty : PathCopyingTree Node Domain := ⟨[], [], 0, P.emptyDomain⟩

def initializeFrom (values : List ValueType) :
    EStateM Exception (PathCopyingTree Node Domain) Unit := do
  let newNumericDomain := P.domainOf values
  if values = [] then set (⟨[], [noNode], 0, newNumericDomain⟩ : PathCopyingTree Node Domain)
  else do
    let nodeCount ← canonicalNodeCount values.length
    checkVectorLength "vector::reserve" P.nodeSize nodeCount
    let (root, newNodes) ← Effect.onLocal (P.build values 0 (values.length - 1)) []
    set (⟨newNodes, [root], values.length, newNumericDomain⟩ : PathCopyingTree Node Domain)

/-- The update on the arena of the tree. -/
def updateNodes (nodeIndex segmentLeft segmentRight queryLeft queryRight : ℕ)
    (value : ValueType) : EStateM Exception (PathCopyingTree Node Domain) ℕ :=
  Effect.zoom PathCopyingTree.nodes (fun nodes s => { s with nodes := nodes })
    (P.update nodeIndex segmentLeft segmentRight queryLeft queryRight value)

/-- The try block of a range addition: the root is published after the complete update. -/
def publishUpdate (root arraySize left right : ℕ) (value : ValueType) :
    EStateM Exception (PathCopyingTree Node Domain) Unit := do
  let newRoot ← P.updateNodes root 0 (arraySize - 1) left right value
  modify fun s => { s with roots := s.roots ++ [newRoot] }

def rangeAdd (left right : ℕ) (value : ValueType) :
    EStateM Exception (PathCopyingTree Node Domain) ℕ := do
  let this ← get
  validateInitialized this.roots.length
  validateNonEmpty this.arraySize
  validateRange this.arraySize left right
  let latestRoot ← vectorAt this.roots (this.roots.length - 1)
  if value = 0 then do
    modify fun s => { s with roots := s.roots ++ [latestRoot] }
    return (← get).roots.length - 1
  else do
    let nextDomain ← P.preflight this latestRoot left right value
    let checkpoint := this.nodes.length
    Effect.onThrow (P.publishUpdate latestRoot this.arraySize left right value)
      (modify fun s => { s with nodes := s.nodes.take checkpoint })
    modify fun s => { s with numericDomain := nextDomain }
    return (← get).roots.length - 1

def nodeCount (this : PathCopyingTree Node Domain) : ℕ := this.nodes.length

/-- The structure and its writing operations. -/
def engine : Engine (List ValueType) ℕ (PathCopyingTree Node Domain) where
  empty := P.empty
  values := id
  initializeFrom := P.initializeFrom
  rangeAdd := P.rangeAdd

/-! ## One call, in any state -/

variable {P} {s s' : PathCopyingTree Node Domain} {l r : ℕ} {value : ValueType}

/-- The checks of the arguments, and the root they let an update start from. -/
def admitted (s : PathCopyingTree Node Domain) (l r : ℕ) : Except Exception ℕ := do
  validateInitialized s.roots.length
  validateNonEmpty s.arraySize
  validateRange s.arraySize l r
  vectorAt s.roots (s.roots.length - 1)

theorem of_admitted {root : ℕ} (h : admitted s l r = .ok root) : l ≤ r ∧ r < s.arraySize ∧
    s.roots[s.roots.length - 1]? = some root := by
  obtain ⟨⟨⟩, -, h⟩ := Effect.bind_eq_ok.mp h
  obtain ⟨⟨⟩, -, h⟩ := Effect.bind_eq_ok.mp h
  obtain ⟨⟨⟩, hr, h⟩ := Effect.bind_eq_ok.mp h
  obtain ⟨hlr, hr⟩ := validateRange_eq_ok.mp hr
  exact ⟨hlr, hr, vectorAt_eq_ok.mp h⟩

/-- How an admitted addition of a non-zero value ends. -/
def published (P : PathCopying Node Domain) (s : PathCopyingTree Node Domain) (root l r : ℕ)
    (value : ValueType) (domain : Domain) :
    EStateM.Result Exception (PathCopyingTree Node Domain) ℕ :=
  match P.update root 0 (s.arraySize - 1) l r value s.nodes with
  | .ok newRoot nodes => .ok s.roots.length ⟨nodes, s.roots ++ [newRoot], s.arraySize, domain⟩
  | .error e nodes => .error e { s with nodes := nodes.take s.nodes.length }

theorem rangeAdd_not_admitted {e : Exception} (h : admitted s l r = .error e) :
    P.rangeAdd l r value s = .error e s := by
  unfold admitted at h
  unfold rangeAdd
  rw [Effect.run_bind_ok (Effect.run_get s)]
  refine Effect.run_checks_error h fun _ h => Effect.run_checks_error h fun _ h =>
    Effect.run_checks_error h fun _ h => ?_
  exact Effect.run_bind_error (by rw [h]; rfl)

theorem rangeAdd_admitted {root : ℕ} (h : admitted s l r = .ok root) :
    P.rangeAdd l r value s =
      if value = 0 then .ok s.roots.length { s with roots := s.roots ++ [root] }
      else match P.preflight s root l r value with
        | .error e => .error e s
        | .ok domain => published P s root l r value domain := by
  obtain ⟨⟨⟩, h1, h⟩ := Effect.bind_eq_ok.mp h
  obtain ⟨⟨⟩, h2, h⟩ := Effect.bind_eq_ok.mp h
  obtain ⟨⟨⟩, h3, h⟩ := Effect.bind_eq_ok.mp h
  unfold rangeAdd
  rw [Effect.run_bind_ok (Effect.run_get s)]
  simp only [h1, h2, h3, h]
  rw [Effect.run_bind_ok (Effect.liftM_ok _ s), Effect.run_bind_ok (Effect.liftM_ok _ s),
    Effect.run_bind_ok (Effect.liftM_ok _ s), Effect.run_bind_ok (Effect.liftM_ok _ s)]
  by_cases h0 : value = 0
  · rw [if_pos h0, if_pos h0, Effect.run_bind_ok (Effect.run_modify _ s)]
    simp only [Effect.run_bind_ok (Effect.run_get _), Effect.run_pure, List.length_append]
    rfl
  rw [if_neg h0, if_neg h0]
  rcases hd : P.preflight s root l r value with e | domain
  · rfl
  rw [Effect.run_bind_ok (Effect.liftM_ok _ s)]
  unfold published
  rcases hu : P.update root 0 (s.arraySize - 1) l r value s.nodes with
    ⟨newRoot, nodes⟩ | ⟨e, nodes⟩
  · have hz : P.publishUpdate root s.arraySize l r value s =
        .ok ⟨⟩ ⟨nodes, s.roots ++ [newRoot], s.arraySize, s.numericDomain⟩ :=
      Effect.run_bind_ok (Effect.zoom_ok hu)
    rw [Effect.run_bind_ok (Effect.onThrow_ok hz), Effect.run_bind_ok (Effect.run_modify _ _),
      Effect.run_bind_ok (Effect.run_get _), Effect.run_pure]
    simp only [List.length_append]
    rfl
  · have hz : P.publishUpdate root s.arraySize l r value s = .error e { s with nodes := nodes } :=
      Effect.run_bind_error (Effect.zoom_error hu)
    rw [Effect.run_bind_error (Effect.onThrow_error hz)]
    rfl

/-- An addition that returns has published the latest root again or that of its update. -/
theorem rangeAdd_eq_ok {x : ℕ} (h : P.rangeAdd l r value s = .ok x s') :
    ∃ root, s.roots[s.roots.length - 1]? = some root ∧
      ((value = 0 ∧ s' = { s with roots := s.roots ++ [root] }) ∨
        (value ≠ 0 ∧ ∃ newRoot nodes domain,
          P.update root 0 (s.arraySize - 1) l r value s.nodes = .ok newRoot nodes ∧
            s' = ⟨nodes, s.roots ++ [newRoot], s.arraySize, domain⟩)) := by
  rcases ha : admitted s l r with e | root
  · rw [rangeAdd_not_admitted ha] at h
    cases h
  rw [rangeAdd_admitted ha] at h
  refine ⟨root, (of_admitted ha).2.2, ?_⟩
  by_cases h0 : value = 0
  · rw [if_pos h0] at h
    cases h
    exact .inl ⟨h0, rfl⟩
  rw [if_neg h0] at h
  rcases hd : P.preflight s root l r value with e | domain <;> simp only [hd] at h
  · cases h
  unfold published at h
  rcases hu : P.update root 0 (s.arraySize - 1) l r value s.nodes with
    ⟨newRoot, nodes⟩ | ⟨e, nodes⟩ <;> simp only [hu] at h <;> cases h
  exact .inr ⟨h0, newRoot, nodes, domain, rfl, rfl⟩

/-- An initialization with a non-empty array that returns has built its first version. -/
theorem initializeFrom_eq_ok {values : List ValueType} (hne : values ≠ [])
    (h : P.initializeFrom values s = .ok () s') : ∃ root nodes,
      P.build values 0 (values.length - 1) [] = .ok root nodes ∧
        s' = ⟨nodes, [root], values.length, P.domainOf values⟩ := by
  unfold initializeFrom at h
  simp only [if_neg hne] at h
  obtain ⟨count, -, h⟩ := Effect.run_liftM_bind_eq_ok.mp h
  obtain ⟨⟨⟩, -, h⟩ := Effect.run_liftM_bind_eq_ok.mp h
  obtain ⟨⟨root, nodes⟩, hb, h⟩ := Effect.run_liftM_bind_eq_ok.mp h
  cases h
  exact ⟨root, nodes, Effect.onLocal_eq_ok.mp hb, rfl⟩

/-- **Atomicity.** In every state, a range addition whose update only appends keeps the nodes and
roots that were there, and when it throws it leaves the state as it was. -/
theorem rangeAdd_frame
    (hP : ∀ i a b c d v, Appends (P.update i a b c d v)) :
    (∃ x s', P.rangeAdd l r value s = .ok x s' ∧ s.nodes <+: s'.nodes ∧ s.roots <+: s'.roots) ∨
      ∃ e, P.rangeAdd l r value s = .error e s := by
  rcases ha : admitted s l r with e | root
  · exact .inr ⟨e, rangeAdd_not_admitted ha⟩
  rw [rangeAdd_admitted ha]
  by_cases h0 : value = 0
  · rw [if_pos h0]
    exact .inl ⟨_, _, rfl, List.prefix_rfl, List.prefix_append _ _⟩
  rw [if_neg h0]
  rcases P.preflight s root l r value with e | domain
  · exact .inr ⟨e, rfl⟩
  have hw := hP root 0 (s.arraySize - 1) l r value s.nodes
  simp only [published]
  rcases hu : P.update root 0 (s.arraySize - 1) l r value s.nodes with
    ⟨newRoot, nodes⟩ | ⟨e, nodes⟩ <;> rw [hu] at hw
  · exact .inl ⟨_, _, rfl, hw, List.prefix_append _ _⟩
  · obtain ⟨more, hmore⟩ := hw
    refine .inr ⟨e, ?_⟩
    have htake : nodes.take s.nodes.length = s.nodes := by
      rw [← show s.nodes ++ more = nodes from hmore, List.take_left]
    simp only [htake]

/-- A failed initialization leaves the state as it was. -/
theorem initializeFrom_atomic (values : List ValueType) : Effect.Atomic (P.initializeFrom values) :=
  .ite (fun _ => .set _) fun _ => .bind_lift fun _ => .bind_lift fun _ => .bind_lift fun _ => .set _

/-! ## Whole runs -/

/-- What the parts of a path-copying tree have to do for one version: build the tree of an array,
preflight with the guard of the discipline, and update a stored tree as the discipline does. -/
structure Refines (P : PathCopying Node Domain) (D : Discipline) where
  reading : NodeReading Node
  agrees : Domain → SumAddDomainGuard → Prop
  agrees_values : ∀ values, agrees (P.domainOf values) (.ofValues values)
  build_spec : ∀ (values : List ValueType) (lo hi : ℕ), lo ≤ hi →
    (∃ t i nodes, SumTree.build values lo hi = .ok t ∧ P.build values lo hi [] = .ok i nodes ∧
        (reading.on nodes).Stores anyone t i lo hi) ∨
      ∃ e nodes, SumTree.build values lo hi = .error e ∧ P.build values lo hi [] = .error e nodes
  preflight_spec : ∀ {s : PathCopyingTree Node Domain} {guard : SumAddDomainGuard} {t : SumTree}
    {root : ℕ} (l r : ℕ) (value : ValueType), agrees s.numericDomain guard →
    (reading.on s.nodes).Stores anyone t root 0 (s.arraySize - 1) →
    (∃ next b, P.preflight s root l r value = .ok next ∧
        D.preflight guard s.arraySize l r value t = .ok b ∧ agrees next ⟨b⟩) ∨
      ∃ e, P.preflight s root l r value = .error e ∧
        D.preflight guard s.arraySize l r value t = .error e
  update_spec : ∀ {t : SumTree} {i hi l r : ℕ} {nodes : List Node} (value : ValueType),
    hi < maxLength → l ≤ r → r ≤ hi → (reading.on nodes).Stores anyone t i 0 hi →
    Mirrors reading nodes (P.update i 0 hi l r value nodes) (D.update l r value t 0 hi) 0 hi

namespace Refines

variable {D : Discipline} (R : P.Refines D) {m : VersionedTrees} {h : RangeAdds ℤ}

/-- The state stores the trees. -/
structure StoresTrees (s : PathCopyingTree Node Domain) (m : VersionedTrees) : Prop where
  size : s.arraySize = m.size
  domain : R.agrees s.numericDomain m.guard
  roots : s.roots.length = m.trees.length
  stores : 0 < m.size → ∀ (v : ℕ) (t : SumTree), m.trees[v]? = some t →
    ∃ root, s.roots[v]? = some root ∧
    (R.reading.on s.nodes).Stores anyone t root 0 (m.size - 1)

variable {R}

/-- The root of a version stores its tree. -/
theorem StoresTrees.root (hs : R.StoresTrees s m) {v : ℕ} (hn : 0 < m.size)
    (hv : v < m.trees.length) : ∃ t root, m.trees[v]? = some t ∧ s.roots[v]? = some root ∧
      (R.reading.on s.nodes).Stores anyone t root 0 (m.size - 1) := by
  have ht : m.trees[v]? = some m.trees[v] := List.getElem?_eq_getElem hv
  obtain ⟨root, hroot, hst⟩ := hs.stores hn v _ ht
  exact ⟨_, root, ht, hroot, hst⟩

/-- A query from the root of a version is the query of its tree. -/
theorem StoresTrees.query_eq (hs : R.StoresTrees s m) (hsize : m.size ≤ maxLength) {v : ℕ}
    (hn : 0 < m.size) (hv : v < m.trees.length) :
    (do (R.reading.on s.nodes).query (← vectorAt s.roots v) 0 (s.arraySize - 1) l r 0) =
      (do (← vectorAt m.trees v).query 0 (m.size - 1) l r 0) := by
  obtain ⟨t, root, ht, hroot, hst⟩ := hs.root hn hv
  rw [vectorAt_eq_ok.mpr ht, vectorAt_eq_ok.mpr hroot, hs.size]
  exact Layout.query_eq (by omega) hst

/-- A state with one more root and more nodes stores one more tree. -/
theorem StoresTrees.publish (hs : R.StoresTrees s m) (more : List Node) (root : ℕ) {t : SumTree}
    {domain : Domain} {guard : SumAddDomainGuard} (hd : R.agrees domain guard)
    (ht : 0 < m.size → (R.reading.on (s.nodes ++ more)).Stores anyone t root 0 (m.size - 1)) :
    R.StoresTrees ⟨s.nodes ++ more, s.roots ++ [root], s.arraySize, domain⟩
      ⟨m.size, m.trees ++ [t], guard⟩ := by
  refine ⟨hs.size, hd, ?_, fun hn v x hx => ?_⟩
  · simp only [List.length_append, hs.roots, List.length_singleton]
  · rcases getElem?_push hx with ⟨hlt, hx⟩ | ⟨rfl, rfl⟩
    · obtain ⟨i, hi, hst⟩ := hs.stores hn v x hx
      refine ⟨i, ?_, NodeReading.stores_append more hst fun _ _ _ h => h⟩
      rw [List.getElem?_append_left (List.getElem?_eq_some_iff.mp hi).1]
      exact hi
    · exact ⟨root, by rw [← hs.roots, List.getElem?_concat_length], ht hn⟩

/-- **One addition.** The structure returns where the versioned trees do, with the number of the
next version, and throws where they do, with the same exception and the same state. -/
theorem rangeAdd_outcome (hs : R.StoresTrees s m) (hv : m.Valid D h) (l r : ℕ)
    (value : ValueType) :
    (∃ m' s', m.rangeAdd D l r value = .ok m' ∧
        P.rangeAdd l r value s = .ok m.trees.length s' ∧ R.StoresTrees s' m') ∨
      ∃ e, m.rangeAdd D l r value = .error e ∧ P.rangeAdd l r value s = .error e s := by
  obtain ⟨t, ht, -⟩ := hv.latest
  unfold VersionedTrees.rangeAdd
  rcases ha : admitted s l r with e | root
  · right
    refine ⟨e, ?_, rangeAdd_not_admitted ha⟩
    unfold admitted at ha
    rw [hs.roots, hs.size] at ha
    rcases h1 : validateInitialized m.trees.length with e | ⟨⟩ <;> rw [h1] at ha
    · cases ha; rfl
    rw [Effect.ok_bind] at ha ⊢
    rcases h2 : validateNonEmpty m.size with e | ⟨⟩ <;> rw [h2] at ha
    · cases ha; rfl
    rw [Effect.ok_bind] at ha ⊢
    rcases h3 : validateRange m.size l r with e | ⟨⟩ <;> rw [h3] at ha
    · cases ha; rfl
    obtain ⟨root, hroot, -⟩ := hs.stores (validateNonEmpty_eq_ok.mp h2) _ t ht
    rw [Effect.ok_bind, vectorAt_eq_ok.mpr hroot] at ha
    cases ha
  · have ha' := ha
    unfold admitted at ha'
    rw [hs.roots, hs.size] at ha'
    obtain ⟨⟨⟩, h1, ha'⟩ := Effect.bind_eq_ok.mp ha'
    obtain ⟨⟨⟩, h2, ha'⟩ := Effect.bind_eq_ok.mp ha'
    obtain ⟨⟨⟩, h3, ha'⟩ := Effect.bind_eq_ok.mp ha'
    rw [rangeAdd_admitted ha]
    simp only [h1, h2, h3, vectorAt_eq_ok.mpr ht, Effect.ok_bind]
    rw [validateNonEmpty_eq_ok] at h2
    rw [validateRange_eq_ok] at h3
    obtain ⟨root', hroot, hst⟩ := hs.stores h2 _ t ht
    rw [vectorAt_eq_ok, hroot, Option.some.injEq] at ha'
    subst ha'
    by_cases h0 : value = 0
    · rw [if_pos h0, if_pos h0]
      refine .inl ⟨_, _, rfl, by rw [hs.roots], ?_⟩
      have hpub := hs.publish [] root' hs.domain fun _ => by
        rw [List.append_nil]; exact hst
      rwa [List.append_nil] at hpub
    · rw [if_neg h0, if_neg h0]
      have hsize := hv.size_le
      rcases R.preflight_spec l r value hs.domain (hs.size ▸ hst) with
        ⟨next, b, hp, hb, hag⟩ | ⟨e, hp, hb⟩ <;> rw [hs.size] at hb
      swap
      · exact .inr ⟨e, by rw [hb]; rfl, by rw [hp]⟩
      rw [hp, hb, Effect.ok_bind]
      simp only [published, hs.size]
      rcases R.update_spec value (by omega) h3.1 (by omega) hst with
        ⟨t', j, more, hd, hu, hst'⟩ | ⟨e, more, hd, hu⟩
      · rw [hd, hu]
        refine .inl ⟨_, _, rfl, by rw [hs.roots], ?_⟩
        have hpub := hs.publish more j hag fun _ => hst'
        rwa [hs.size] at hpub
      · rw [hd, hu]
        exact .inr ⟨e, rfl, by simp only [List.take_left, ← hs.size]⟩

/-- A structure returns and throws exactly as the versioned trees do. -/
theorem rangeAdd_returns_iff (hs : R.StoresTrees s m) (hv : m.Valid D h) (l r : ℕ)
    (value : ValueType) :
    (Returns (Effect.outcome (P.rangeAdd l r value s)) ↔ Returns (m.rangeAdd D l r value)) ∧
      (Overflows (m.rangeAdd D l r value) →
        Overflows (Effect.outcome (P.rangeAdd l r value s))) := by
  rcases rangeAdd_outcome hs hv l r value with ⟨m', s', h1, h2, -⟩ | ⟨e, h1, h2⟩
  · rw [h1, h2]
    exact ⟨iff_of_true ⟨_, rfl⟩ ⟨_, rfl⟩, fun ⟨w, hw⟩ => by cases hw⟩
  · rw [h1, h2]
    refine ⟨iff_of_false ?_ ?_, fun ⟨w, hw⟩ => ⟨w, by cases hw; rfl⟩⟩
    · rintro ⟨x, hx⟩
      cases hx
    · rintro ⟨x, hx⟩
      cases hx

/-- The preflight of the structures that have a guard. -/
theorem guard_preflight_spec {reading : NodeReading Node} (hD : D.guarded = true)
    {s : PathCopyingTree Node SumAddDomainGuard} {guard : SumAddDomainGuard} {t : SumTree}
    {root : ℕ} (hag : s.numericDomain = guard)
    (hst : (reading.on s.nodes).Stores anyone t root 0 (s.arraySize - 1)) :
    (∃ next b, s.numericDomain.preflight s.arraySize l r value (fun values =>
          (reading.on s.nodes).materialize root 0 (s.arraySize - 1) 0 values) = .ok next ∧
        D.preflight guard s.arraySize l r value t = .ok b ∧ next = ⟨b⟩) ∨
      ∃ e, s.numericDomain.preflight s.arraySize l r value (fun values =>
          (reading.on s.nodes).materialize root 0 (s.arraySize - 1) 0 values) = .error e ∧
        D.preflight guard s.arraySize l r value t = .error e := by
  subst hag
  unfold SumAddDomainGuard.preflight Discipline.preflight
  rw [if_pos hD]
  simp only [Layout.materialize_eq hst]
  rcases s.numericDomain.validateRangeAdd s.arraySize l r value
      (fun values => t.materialize 0 values) with e | b
  · exact .inr ⟨e, rfl, rfl⟩
  · exact .inl ⟨⟨b⟩, b, rfl, rfl, rfl⟩

/-- A successful initialization stores the tree of its array. -/
theorem initialize_outcome {values : List ValueType} {u : Unit}
    (hi : P.initializeFrom values s = .ok u s') :
    values.length ≤ maxLength ∧
      ∃ m, VersionedTrees.initializeFrom values = .ok m ∧ R.StoresTrees s' m := by
  unfold initializeFrom at hi
  by_cases h0 : values = []
  · simp only [if_pos h0] at hi
    cases hi
    refine ⟨by rw [h0]; exact Nat.zero_le _, ⟨0, [.leaf 0 0], .ofValues values⟩, ?_, rfl,
      R.agrees_values values, rfl, fun hn => absurd hn (lt_irrefl 0)⟩
    rw [VersionedTrees.initializeFrom, if_pos h0]
  · simp only [if_neg h0] at hi
    have hpos : 0 < values.length := List.length_pos_of_ne_nil h0
    obtain ⟨hlen, root, nodes, hbuild, hi⟩ := run_reserved_build_eq_ok hpos hi
    cases hi
    refine ⟨hlen, ?_⟩
    rcases R.build_spec values 0 (values.length - 1) (Nat.zero_le _) with
      ⟨t, i, ns, ht, hb, hst⟩ | ⟨e, ns, -, hb⟩ <;> rw [hb] at hbuild <;> cases hbuild
    · refine ⟨⟨values.length, [t], .ofValues values⟩, ?_, rfl, R.agrees_values values, rfl,
        fun _ v x hx => ?_⟩
      · rw [VersionedTrees.initializeFrom, if_neg h0, ht]
        rfl
      · rcases getElem?_push (show ([] ++ [t])[v]? = some x from hx) with ⟨hlt, -⟩ | ⟨rfl, rfl⟩
        · exact absurd hlt (Nat.not_lt_zero v)
        · exact ⟨root, rfl, hst⟩

/-- One that fails has no room, or the tree of its array throws the same. -/
theorem initialize_error (R : P.Refines D) {values : List ValueType} {e : Exception}
    (hi : P.initializeFrom values s = .error e s') :
    e.OutOfRoom ∨ VersionedTrees.initializeFrom values = .error e := by
  unfold initializeFrom at hi
  by_cases h0 : values = []
  · simp only [if_pos h0] at hi
    cases hi
  simp only [if_neg h0] at hi
  rcases run_reserved_build_eq_error hi with hroom | ⟨ns, hbuild⟩ | ⟨root, ns, -, hi⟩
  · exact .inl hroom
  · right
    rcases R.build_spec values 0 (values.length - 1) (Nat.zero_le _) with
      ⟨t, i, nodes, -, hb, -⟩ | ⟨e', nodes, ht, hb⟩ <;> rw [hb] at hbuild <;> cases hbuild
    rw [VersionedTrees.initializeFrom, if_neg h0, ht]
    rfl
  · cases hi

variable (R)

/-- **Path-copying trees publish versioned trees.** -/
def simulation : Simulation P.engine D where
  Fresh s := s.roots = []
  Rel _ s m := R.StoresTrees s m
  empty := rfl
  initialize_ok hi := initialize_outcome hi
  initialize_error hi := initializeFrom_atomic _ _ _ _ hi
  rangeAdd_fresh {s} l r value hs := by
    have ha : admitted s l r = .error (.runtimeError "Tree has no versions.") := by
      unfold admitted; rw [hs]; rfl
    exact ⟨_, rangeAdd_not_admitted ha⟩
  rangeAdd_ok {h l r value s s' x m} hs hv hi := by
    rcases rangeAdd_outcome hs hv l r value with ⟨m', s'', hm, hr, hs'⟩ | ⟨e, -, hr⟩
    · have hi' : P.rangeAdd l r value s = .ok x s' := hi
      rw [hr] at hi'
      cases hi'
      exact ⟨m', hm, hs'⟩
    · have hi' : P.rangeAdd l r value s = .ok x s' := hi
      rw [hr] at hi'
      cases hi'
  rangeAdd_error {h l r value s s' e m} hs hv hi := by
    have hi' : P.rangeAdd l r value s = .error e s' := hi
    rcases rangeAdd_outcome hs hv l r value with ⟨m', s'', hm, hr, hs'⟩ | ⟨e, -, hr⟩
    · rw [hr] at hi'
      cases hi'
    · rw [hr] at hi'
      cases hi'
      exact hs

end Refines

end PathCopying

end Valseg
