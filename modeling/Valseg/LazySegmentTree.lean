import Valseg.Slots
import Valseg.Engine
import Valseg.NumericDomain

/-!
# LazySegmentTree

`lazy_segment_tree.cpp`: one tree in two vectors, sums and tags, with the children of node `i` at
`2 i + 1` and `2 i + 2`. An update writes in place, after a preflight that computes everything it
will store; `update_spec` says what it writes. Nothing but the latest version is kept, and
`simulation` relates it to the latest of the versioned trees.
-/

namespace Valseg


namespace LazySegmentTree

/-- The two vectors. -/
structure Storage where
  tree : List ValueType
  lazy : List ValueType
  deriving DecidableEq, Repr

/-- The state of the tree. -/
structure State extends Storage where
  arraySize : ℕ
  numericDomain : SumAddDomainGuard
  deriving DecidableEq, Repr

/-- Both fields of a node are read together; the two vectors are of one length. -/
def layout (this : Storage) : Layout where
  read node := do return (← vectorAt this.tree node, ← vectorAt this.lazy node)
  children := heapChildren

def build : List ValueType → (node segmentLeft segmentRight : ℕ) → ArenaM ValueType Unit :=
  buildSlots heapChildren id id

def validateUpdate (this : Storage) : (node segmentLeft segmentRight queryLeft queryRight : ℕ) →
    ValueType → Except Exception ValueType := (layout this).validateUpdate

def query (this : Storage) : (node segmentLeft segmentRight queryLeft queryRight : ℕ) →
    (inheritedLazy : ValueType) → Except Exception ValueType := (layout this).query

def materialize (this : Storage) : (node segmentLeft segmentRight : ℕ) →
    (inheritedLazy : ValueType) → List ValueType → Except Exception (List ValueType) :=
  (layout this).materialize

/-- `tree[node]`. -/
def readTree (node : ℕ) : EStateM Exception Storage ValueType := do vectorAt (← get).tree node

/-- `lazy[node]`. -/
def readLazy (node : ℕ) : EStateM Exception Storage ValueType := do vectorAt (← get).lazy node

/-- `tree[node] = x`. -/
def writeTree (node : ℕ) (x : ValueType) : EStateM Exception Storage Unit :=
  Effect.zoom Storage.tree (fun tree this => { this with tree := tree }) (writeSlot node x)

/-- `lazy[node] = x`. -/
def writeLazy (node : ℕ) (x : ValueType) : EStateM Exception Storage Unit :=
  Effect.zoom Storage.lazy (fun lazy this => { this with lazy := lazy }) (writeSlot node x)

def update (node segmentLeft segmentRight queryLeft queryRight : ℕ) (value : ValueType) :
    EStateM Exception Storage Unit := do
  let length ← inclusiveLength segmentLeft segmentRight
  if queryLeft ≤ segmentLeft ∧ segmentRight ≤ queryRight then do
    let sum ← SumAddPolicy.apply value (← readTree node) length
    writeTree node sum
    let tag ← checkedAdd (← readLazy node) value
    writeLazy node tag
  else if segmentLeft < segmentRight then do
    let middle := Segment.midpoint segmentLeft segmentRight
    (if queryLeft ≤ middle then
      update (2 * node + 1) segmentLeft middle queryLeft queryRight value else pure ())
    (if queryRight > middle then
      update (2 * node + 2) (middle + 1) segmentRight queryLeft queryRight value else pure ())
    let tag ← readLazy node
    let childSum ← checkedAdd (← readTree (2 * node + 1)) (← readTree (2 * node + 2))
    let sum ← SumAddPolicy.apply tag childSum length
    writeTree node sum
  else throw .undefined
termination_by segmentRight - segmentLeft
decreasing_by all_goals (simp only [Segment.midpoint] at *; omega)

def initializeFrom (values : List ValueType) : EStateM Exception State Unit := do
  let newNumericDomain := SumAddDomainGuard.ofValues values
  let storageCount ← lazyStorageCount values.length
  checkVectorLength "cannot create std::vector larger than max_size()" 8 storageCount
  let newTree := List.replicate storageCount 0
  let newLazy := List.replicate storageCount 0
  let built ← (if values ≠ [] then do
      return (← Effect.onLocal (build values 0 0 (values.length - 1)) newTree).2
    else pure newTree)
  set (⟨⟨built, newLazy⟩, values.length, newNumericDomain⟩ : State)

def rangeAdd (left right : ℕ) (value : ValueType) : EStateM Exception State Unit := do
  let this ← get
  validateNonEmpty this.arraySize
  validateRange this.arraySize left right
  if value = 0 then return
  else do
    let nextDomain ← this.numericDomain.preflight this.arraySize left right value
      fun values => materialize this.toStorage 0 0 (this.arraySize - 1) 0 values
    let _ ← validateUpdate this.toStorage 0 0 (this.arraySize - 1) left right value
    Effect.zoom State.toStorage (fun storage s => { s with toStorage := storage })
      (update 0 0 (this.arraySize - 1) left right value)
    modify fun s => { s with numericDomain := nextDomain }

def rangeSum (this : State) (left right : ℕ) : Except Exception ValueType := do
  validateNonEmpty this.arraySize
  validateRange this.arraySize left right
  query this.toStorage 0 0 (this.arraySize - 1) left right 0

/-- The structure and its writing operations. -/
def engine : Engine (List ValueType) Unit State where
  empty := ⟨⟨[], []⟩, 0, {}⟩
  values := id
  initializeFrom := initializeFrom
  rangeAdd := rangeAdd

/-! ## One update -/

section Update

variable {st : Storage} {t t' a b : SumTree} {size i j k lo hi l r : ℕ} {value s z : ValueType}

theorem layout_read : (layout st).read i = .ok (s, z) ↔
    st.tree[i]? = some s ∧ st.lazy[i]? = some z := by
  constructor
  · intro h
    obtain ⟨x, hx, h⟩ := Effect.bind_eq_ok.mp h
    obtain ⟨y, hy, h⟩ := Effect.bind_eq_ok.mp h
    cases h
    exact ⟨vectorAt_eq_ok.mp hx, vectorAt_eq_ok.mp hy⟩
  · rintro ⟨hs, hz⟩
    show (vectorAt st.tree i >>= fun x => vectorAt st.lazy i >>= fun y => pure (x, y)) = _
    rw [vectorAt_eq_ok.mpr hs, vectorAt_eq_ok.mpr hz]
    rfl

theorem readTree_run (h : st.tree[i]? = some s) : readTree i st = .ok s st := by
  unfold readTree
  rw [Effect.run_bind_ok (Effect.run_get _), vectorAt_eq_ok.mpr h]
  rfl

theorem readLazy_run (h : st.lazy[i]? = some z) : readLazy i st = .ok z st := by
  unfold readLazy
  rw [Effect.run_bind_ok (Effect.run_get _), vectorAt_eq_ok.mpr h]
  rfl

theorem writeTree_run (h : i < st.tree.length) :
    writeTree i s st = .ok () { st with tree := st.tree.set i s } :=
  Effect.zoom_ok (writeSlot_run h)

theorem writeLazy_run (h : i < st.lazy.length) :
    writeLazy i z st = .ok () { st with lazy := st.lazy.set i z } :=
  Effect.zoom_ok (writeSlot_run h)

/-- The vectors have a slot for every node. -/
def Fits (size : ℕ) (st : Storage) : Prop :=
  st.tree.length = 4 * size ∧ st.lazy.length = 4 * size

/-- A sum is written, over a tag that is written too or was there. -/
theorem layout_writesAt {lazy : List ValueType} (hi : i < st.tree.length)
    (hz : lazy[i]? = some z) (hne : ∀ j, j ≠ i → lazy[j]? = st.lazy[j]?) :
    (layout st).WritesAt (layout ⟨st.tree.set i s, lazy⟩) i (s, z) := by
  refine ⟨layout_read.mpr ⟨List.getElem?_set_self hi, hz⟩, fun j hj => ⟨?_, fun _ _ => rfl⟩⟩
  show (vectorAt _ j >>= fun x => vectorAt _ j >>= fun y => pure (x, y)) =
    (vectorAt _ j >>= fun x => vectorAt _ j >>= fun y => pure (x, y))
  unfold vectorAt
  rw [List.getElem?_set_ne hj.symm, hne j hj]

/-- A covered segment. -/
theorem cover_spec (hn : 0 < size) (hf : Fits size st)
    (h : (layout st).Stores (HeapSlot size) t i lo hi)
    (hu : t.cover lo hi value = .ok t') :
    UpdatesTo layout (HeapSlot size) (Fits size) (do
      let sum ← SumAddPolicy.apply value (← readTree i) (Segment.length lo hi)
      writeTree i sum
      let tag ← checkedAdd (← readLazy i) value
      writeLazy i tag) st t' i lo hi := by
  obtain ⟨hs, hz⟩ := layout_read.mp h.read
  obtain ⟨s, hs', hu⟩ := Effect.bind_eq_ok.mp hu
  obtain ⟨z, hz', hu⟩ := Effect.bind_eq_ok.mp hu
  cases hu
  have hb := h.owned.bound hn
  have hlen : i < st.tree.length := by rw [hf.1]; exact hb
  have hlen' : i < st.lazy.length := by rw [hf.2]; exact hb
  refine .root HeapSlot.exclusive ⟨st.tree.set i s, st.lazy.set i z⟩ h ?_ ?_
    (layout_writesAt hlen (List.getElem?_set_self hlen') fun j hj =>
      List.getElem?_set_ne hj.symm) fun q hq => hq
  · have hz₁ : (⟨st.tree.set i s, st.lazy⟩ : Storage).lazy[i]? = some t.tag := hz
    rw [Effect.run_bind_ok (readTree_run hs), hs', Effect.run_bind_ok (Effect.liftM_ok _ _),
      Effect.run_bind_ok (writeTree_run hlen), Effect.run_bind_ok (readLazy_run hz₁), hz',
      Effect.run_bind_ok (Effect.liftM_ok _ _)]
    exact writeLazy_run hlen'
  · exact ⟨by rw [List.length_set, hf.1], by rw [List.length_set, hf.2]⟩

/-- **One update.** Where the update of the stored tree returns, it is made in place. -/
theorem update_spec (hn : 0 < size) (hhi : hi < maxLength) (h1 : l ≤ hi) (h2 : lo ≤ r)
    (hf : Fits size st) (h : (layout st).Stores (HeapSlot size) t i lo hi)
    (hu : SumTree.updateWith SumTree.rebuildFromChildren l r value t lo hi = .ok t') :
    UpdatesTo layout (HeapSlot size) (Fits size) (update i lo hi l r value) st t' i lo hi := by
  induction t generalizing i lo hi st t' with
  | leaf s z =>
    have hle : lo = hi := h.1
    have hin : l ≤ lo ∧ hi ≤ r := by omega
    rw [SumTree.updateWith, if_pos hin] at hu
    obtain ⟨st', hx, hrest⟩ := cover_spec hn hf h hu
    refine ⟨st', ?_, hrest⟩
    rw [update, inclusiveLength_eq hle.le (Layout.lt_sizeMax hhi),
      Effect.run_bind_ok (Effect.liftM_ok _ _), if_pos hin]
    exact hx
  | node s z a b iha ihb =>
    have hlt := h.1
    have hm := Segment.midpoint_lt hlt
    by_cases hin : l ≤ lo ∧ hi ≤ r
    · rw [SumTree.updateWith, if_pos hin] at hu
      obtain ⟨st', hx, hrest⟩ := cover_spec hn hf h hu
      refine ⟨st', ?_, hrest⟩
      rw [update, inclusiveLength_eq hlt.le (Layout.lt_sizeMax hhi),
        Effect.run_bind_ok (Effect.liftM_ok _ _), if_pos hin]
      exact hx
    obtain ⟨-, ho, hread, j, k, hc, ha, hb⟩ := h
    have hjk := hc
    cases hjk
    obtain ⟨a', b', sum, hua, hub, hsum, rfl⟩ := (SumTree.updateWith_node_eq_ok hin).mp hu
    obtain ⟨c, hcs, hsum⟩ := Effect.bind_eq_ok.mp hsum
    obtain ⟨st', hx, hrest⟩ := UpdatesTo.node HeapSlot.exclusive hlt ho hread hc hb
      (.half hf ha (fun hl a' hu => iha (by omega) hl h2 hf ha hu)
        (SumTree.half_eq_ok.mpr hua))
      (fun st₁ hf₁ hb₁ => .half hf₁ hb₁ (fun hl b' hu => ihb hhi h1 hl hf₁ hb₁ hu)
        (SumTree.half_eq_ok.mpr hub))
      (f := do
        let tag ← readLazy i
        let childSum ← checkedAdd (← readTree (2 * i + 1)) (← readTree (2 * i + 2))
        let sum ← SumAddPolicy.apply tag childSum (Segment.length lo hi)
        writeTree i sum)
      (w := sum)
      fun st₂ hf₂ hr hrl hrr => by
        obtain ⟨-, hz⟩ := layout_read.mp hr
        have hlen : i < st₂.tree.length := by rw [hf₂.1]; exact ho.bound hn
        refine ⟨{ st₂ with tree := st₂.tree.set i sum }, ?_, ⟨by rw [List.length_set, hf₂.1], hf₂.2⟩,
          layout_writesAt hlen hz fun _ _ => rfl, rfl⟩
        rw [Effect.run_bind_ok (readLazy_run hz),
          Effect.run_bind_ok (readTree_run (layout_read.mp hrl).1),
          Effect.run_bind_ok (readTree_run (layout_read.mp hrr).1), hcs,
          Effect.run_bind_ok (Effect.liftM_ok _ _), hsum, Effect.run_bind_ok (Effect.liftM_ok _ _),
          writeTree_run hlen]
    refine ⟨st', ?_, hrest⟩
    rw [update, inclusiveLength_eq hlt.le (Layout.lt_sizeMax hhi),
      Effect.run_bind_ok (Effect.liftM_ok _ _), if_neg hin, if_pos hlt]
    exact hx

end Update

/-! ## Whole runs -/

/-- The state stores the latest of the trees. -/
structure StoresLatest (s : State) (m : VersionedTrees) : Prop where
  size : s.arraySize = m.size
  domain : s.numericDomain = m.guard
  fits : Fits m.size s.toStorage
  stores : 0 < m.size → ∀ t, m.trees[m.trees.length - 1]? = some t →
    (layout s.toStorage).Stores (HeapSlot m.size) t 0 0 (m.size - 1)

variable {s s' : State} {m : VersionedTrees} {h : History (List ValueType)} {l r : ℕ}
  {value : ValueType}

/-- **One addition.** It returns where that of the versioned trees does, and it throws where
theirs does, an exception of the same class, and leaves the state as it was. -/
theorem rangeAdd_outcome (hs : StoresLatest s m) (hv : m.Valid .retaining h.adds) (l r : ℕ)
    (value : ValueType) :
    (∃ m' s', m.rangeAdd .retaining l r value = .ok m' ∧ rangeAdd l r value s = .ok () s' ∧
        StoresLatest s' m') ∨
      ∃ e e', e'.kind = e.kind ∧ m.rangeAdd .retaining l r value = .error e ∧
        rangeAdd l r value s = .error e' s := by
  obtain ⟨t, ht, -⟩ := hv.latest
  unfold rangeAdd
  rw [Effect.run_bind_ok (Effect.run_get s), hs.size, hs.domain]
  rcases h1 : validateNonEmpty m.size with e | ⟨⟩
  · exact .inr ⟨e, e, rfl, hv.rangeAdd_not_admitted (by rw [h1]; rfl), rfl⟩
  rcases h2 : validateRange m.size l r with e | ⟨⟩
  · exact .inr ⟨e, e, rfl, hv.rangeAdd_not_admitted (by rw [h1, h2]; rfl), rfl⟩
  rw [Effect.run_bind_ok (Effect.liftM_ok _ s), Effect.run_bind_ok (Effect.liftM_ok _ s)]
  have hn := validateNonEmpty_eq_ok.mp h1
  obtain ⟨hlr, hr⟩ := validateRange_eq_ok.mp h2
  have hst := hs.stores hn t ht
  by_cases h0 : value = 0
  · subst h0
    rw [if_pos rfl]
    exact .inl ⟨_, s, VersionedTrees.rangeAdd_zero hlr hr ht, rfl, hs.size, hs.domain, hs.fits,
      fun _ u hu => eq_of_last_push hu ▸ hst⟩
  rw [if_neg h0]
  have hsize := hv.size_le
  rcases hv.preflight_decides hlr hr h0 ht hst with
    ⟨t', next, w, hm, hu, hp, hy⟩ | ⟨e, e', hk, hm, hp⟩
  · obtain ⟨st, hx, hfits, hst', -⟩ := update_spec hn (by omega) (by omega) (Nat.zero_le r) hs.fits
      hst hu
    unfold materialize validateUpdate
    simp only [hp, hy]
    rw [Effect.run_bind_ok (Effect.liftM_ok _ s), Effect.run_bind_ok (Effect.liftM_ok _ s),
      Effect.run_bind_ok (Effect.zoom_ok hx)]
    exact .inl ⟨_, _, hm, rfl, hs.size, rfl, hfits, fun _ u hu => eq_of_last_push hu ▸ hst'⟩
  · refine .inr ⟨e, e', hk, hm, ?_⟩
    unfold materialize validateUpdate
    rcases Effect.bind_eq_error.mp hp with hp | ⟨next, hp, hy⟩
    · simp only [hp]
      rfl
    · rcases Effect.bind_eq_error.mp hy with hy | ⟨w, -, hy⟩
      · simp only [hp, hy]
        rfl
      · cases hy

/-- A tree of sums over fresh tags. -/
theorem stores_untagged {nodes : List ValueType} {t : SumTree} {size i lo hi : ℕ} (hn : 0 < size)
    (h : (slotLayout (fun x => (x, (0 : ValueType))) heapChildren nodes).Stores (HeapSlot size)
      t i lo hi) :
    (layout ⟨nodes, List.replicate (4 * size) 0⟩).Stores (HeapSlot size) t i lo hi := by
  refine h.frame fun j a b p ho _ _ _ hp => ⟨ho, ?_, fun q hq => hq⟩
  obtain ⟨x, hx, rfl⟩ := exists_of_slotLayout_read hp
  exact layout_read.mpr ⟨hx, List.getElem?_replicate_of_lt (ho.bound hn)⟩

/-- A successful initialization stores the tree of its array. -/
theorem initialize_outcome {values : List ValueType} {u : Unit}
    (hi : initializeFrom values s = .ok u s') : values.length ≤ maxLength ∧
      ∃ m, VersionedTrees.initializeFrom values = .ok m ∧ StoresLatest s' m := by
  unfold initializeFrom at hi
  obtain ⟨c, h1, hi⟩ := Effect.run_liftM_bind_eq_ok.mp hi
  obtain ⟨⟨⟩, h2, hi⟩ := Effect.run_liftM_bind_eq_ok.mp hi
  obtain ⟨rfl, hcount⟩ := checkedSizeMultiply_eq_ok.mp h1
  have hcap := checkVectorLength_eq_ok.mp h2
  have hlen : values.length ≤ maxLength := by
    have : vectorMaxSize 8 ≤ maxLength := Nat.div_le_self _ _
    omega
  refine ⟨hlen, ?_⟩
  unfold VersionedTrees.initializeFrom
  by_cases h0 : values = []
  · subst h0
    rw [if_pos rfl]
    cases hi
    exact ⟨_, rfl, rfl, rfl, ⟨rfl, rfl⟩, fun hn => absurd hn (lt_irrefl 0)⟩
  · have hn : 0 < values.length := List.length_pos_of_ne_nil h0
    rw [if_neg h0]
    rw [if_pos h0] at hi
    obtain ⟨built, s₃, h3, hi⟩ := Effect.run_bind_eq_ok.mp hi
    cases hi
    obtain ⟨⟨⟨⟩, nodes⟩, hlocal, h3⟩ := Effect.run_liftM_bind_eq_ok.mp h3
    cases h3
    rcases buildSlots_local id (fun x => (x, (0 : ValueType))) id (heapScheme values.length hn)
      (fun v => rfl) (fun x => rfl) values 0 with ⟨t, nodes', ht, hb, hlen', hst⟩ | ⟨e, -, hb⟩
    · cases hb.symm.trans hlocal
      refine ⟨⟨values.length, [t], .ofValues values⟩, by rw [ht]; rfl, rfl, rfl,
        ⟨hlen', List.length_replicate ..⟩, fun _ u hu => ?_⟩
      obtain rfl : t = u := by simpa using hu
      exact stores_untagged hn hst
    · cases hb.symm.trans hlocal

/-- One that fails has no room, or the tree of its array throws the same. -/
theorem initialize_error {values : List ValueType} {e : Exception}
    (hi : initializeFrom values s = .error e s') :
    e.OutOfRoom ∨ VersionedTrees.initializeFrom values = .error e := by
  unfold initializeFrom at hi
  rcases Effect.run_liftM_bind_eq_error.mp hi with ⟨h1, -⟩ | ⟨c, h1, hi⟩
  · exact .inl (checkedSizeMultiply_error h1)
  rcases Effect.run_liftM_bind_eq_error.mp hi with ⟨h2, -⟩ | ⟨⟨⟩, -, hi⟩
  · exact .inl (checkVectorLength_error h2)
  obtain ⟨rfl, -⟩ := checkedSizeMultiply_eq_ok.mp h1
  rcases Effect.run_bind_eq_error.mp hi with h3 | ⟨built, s₃, -, hi⟩
  swap
  · cases hi
  by_cases h0 : values = []
  · rw [if_neg (not_not.mpr h0)] at h3
    cases h3
  have hn : 0 < values.length := List.length_pos_of_ne_nil h0
  rw [if_pos h0] at h3
  rcases Effect.run_liftM_bind_eq_error.mp h3 with ⟨hlocal, -⟩ | ⟨x, -, h3⟩
  swap
  · cases h3
  rcases buildSlots_local id (fun x => (x, (0 : ValueType))) id (heapScheme values.length hn)
    (fun v => rfl) (fun x => rfl) values 0 with ⟨t, nodes', -, hb, -⟩ | ⟨e', ht, hb⟩
  · cases hb.symm.trans hlocal
  · cases hb.symm.trans hlocal
    right
    rw [VersionedTrees.initializeFrom, if_neg h0, ht]
    rfl

/-- A failed initialization leaves the state as it was. -/
theorem initializeFrom_atomic (values : List ValueType) : Effect.Atomic (initializeFrom values) :=
  .bind_lift fun _ => .bind_lift fun _ => .bind
    (.ite (fun _ => .eq_lift_bind fun _ => .pure (fun _ => rfl) _) fun _ => .pure (fun _ => rfl) _)
      fun _ => .set _

/-- An empty tree admits no addition. -/
theorem rangeAdd_empty (hs : s.arraySize = 0) (l r : ℕ) (value : ValueType) :
    rangeAdd l r value s = .error (.runtimeError "Tree is empty.") s := by
  unfold rangeAdd
  rw [Effect.run_bind_ok (Effect.run_get s), hs]
  rfl

/-- **The tree keeps the latest of versioned trees.** -/
def simulation : Simulation engine .retaining where
  Fresh s := s.arraySize = 0
  Rel _ s m := StoresLatest s m
  empty := rfl
  initialize_ok hi := initialize_outcome hi
  initialize_error hi := initializeFrom_atomic _ _ _ _ hi
  rangeAdd_fresh l r value hs := ⟨_, rangeAdd_empty hs l r value⟩
  rangeAdd_ok {h l r value s s' x m} hs hv hi := by
    have hi' : rangeAdd l r value s = .ok () s' := hi
    rcases rangeAdd_outcome hs hv l r value with ⟨m', s'', hm, hr, hs'⟩ | ⟨e, e', -, -, hr⟩ <;>
      rw [hr] at hi' <;> cases hi'
    exact ⟨m', hm, hs'⟩
  rangeAdd_error {h l r value s s' e m} hs hv hi := by
    have hi' : rangeAdd l r value s = .error e s' := hi
    rcases rangeAdd_outcome hs hv l r value with ⟨m', s'', -, hr, -⟩ | ⟨e', e'', -, -, hr⟩ <;>
      rw [hr] at hi' <;> cases hi'
    exact hs

/-- Sums are those of the latest version. -/
theorem rangeSum_eq (hs : StoresLatest s m) (hv : m.Valid .retaining h.adds) :
    rangeSum s l r = m.rangeSum h.adds.updates.length l r := by
  obtain ⟨t, ht, -⟩ := hv.latest
  have hcount := hv.versions
  unfold RangeAdds.versionCount at hcount
  have ht' : m.trees[h.adds.updates.length]? = some t := by
    rwa [hcount, Nat.add_sub_cancel] at ht
  unfold rangeSum VersionedTrees.rangeSum
  rw [validateInitialized_eq_ok.mpr (by omega), validateVersion_eq_ok.mpr (by omega), hs.size,
    vectorAt_eq_ok.mpr ht']
  simp only [Effect.ok_bind]
  rcases h2 : validateNonEmpty m.size with e | ⟨⟩
  · rfl
  have hn := validateNonEmpty_eq_ok.mp h2
  have hsize := hv.size_le
  refine bind_congr fun _ => bind_congr fun _ => ?_
  exact Layout.query_eq (by omega) (hs.stores hn t ht)

/-- **Reachable states.** They store the latest of valid trees of their histories, and a sum is
that of the latest version. -/
theorem reaches (hr : engine.Reachable s h) : ∃ m : VersionedTrees, m.size = h.size ∧
    StoresLatest s m ∧ m.Valid .retaining h.adds ∧
      ∀ l r, rangeSum s l r = m.rangeSum h.adds.updates.length l r := by
  obtain ⟨m, hsize, hrel, hvalid⟩ := simulation.reaches hr
  exact ⟨m, hsize, hrel, hvalid, fun l r => rangeSum_eq hrel hvalid⟩

/-- With a sum that is returned there is an array, and the sum is the array's. -/
theorem rangeSum_exact {x : ValueType} (hr : engine.Reachable s h) (hx : rangeSum s l r = .ok x) :
    l ≤ r ∧ r < h.size ∧ x.toInt = Segment.sum h.adds.latest l r := by
  obtain ⟨m, hsize, -, hvalid, hsum⟩ := reaches hr
  rw [hsum] at hx
  obtain ⟨hlr, hlt, -⟩ := VersionedTrees.rangeSum_eq_ok hx
  exact ⟨hlr, hsize ▸ hlt, hvalid.rangeSum_exact hx⟩

/-- **The mutable array.** After any calls a sum that is returned is that of the current array,
and whichever call throws next leaves both vectors, the size and the bound as they were. -/
theorem refines_mutableArray (calls : List (Call (List ValueType))) :
    (∀ l r x, rangeSum (engine.run calls).1 l r = .ok x → ∃ h, (engine.run calls).2 = some h ∧
        l ≤ r ∧ r < h.size ∧ x.toInt = Segment.sum h.adds.latest l r) ∧
      (∀ l r value e s', rangeAdd l r value (engine.run calls).1 = .error e s' →
        s' = (engine.run calls).1) ∧
      ∀ values e s', initializeFrom values (engine.run calls).1 = .error e s' →
        s' = (engine.run calls).1 := by
  rcases hrun : engine.run calls with ⟨s, _ | h⟩
  · have hfresh : s.arraySize = 0 := simulation.fresh_of_run hrun
    refine ⟨fun l r x hx => ?_, fun l r value e s' he => ?_,
      fun values => initializeFrom_atomic values s⟩
    · rw [rangeSum, hfresh] at hx
      cases hx
    · rw [rangeAdd_empty hfresh] at he
      cases he
      rfl
  · have hr : engine.Reachable s h := ⟨calls, hrun⟩
    refine ⟨fun l r x hx => ⟨h, rfl, rangeSum_exact hr hx⟩, fun l r value e s' he => ?_,
      fun values => initializeFrom_atomic values s⟩
    obtain ⟨m, -, hrel, hvalid, -⟩ := reaches hr
    rcases rangeAdd_outcome hrel hvalid l r value with ⟨m', s'', -, hadd, -⟩ |
      ⟨e', e'', -, -, hadd⟩ <;>
      rw [hadd] at he <;> cases he
    rfl

end LazySegmentTree

end Valseg
