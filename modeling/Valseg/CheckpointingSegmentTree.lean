import Valseg.Slots
import Valseg.Engine
import Valseg.NumericDomain

/-!
# CheckpointingSegmentTree

`checkpointing_segment_tree.cpp`: a live tree that is updated in place, a log of the updates, and
a copy of the live tree at every version that is a multiple of the interval. An older version is
read from the checkpoint at or before it, and the logged updates in between are replayed.

1. `update_spec`: the in-place update makes the tree of the next version, or throws where the
   preflight does.
2. `StoresVersions` relates the live tree, the log and every checkpoint to versioned trees;
   `rangeAdd_outcome` is the step that keeps it, and `simulation` the runs.
-/

namespace Valseg


namespace CheckpointingSegmentTree

/-- A node of the live tree and of every copy of it. -/
structure Node where
  sum : ValueType
  lazy : ValueType
  deriving DecidableEq, Repr

/-- A logged update. -/
structure UpdateEvent where
  left : ℕ
  right : ℕ
  value : ValueType
  deriving DecidableEq, Repr

/-- A copy of the live tree as of a version. -/
structure Checkpoint where
  version : ℕ
  nodes : List Node
  deriving DecidableEq, Repr

/-- The state of the tree. -/
structure State where
  live : List Node
  events : List UpdateEvent
  checkpoints : List Checkpoint
  interval : ℕ
  arraySize : ℕ
  numericDomain : SumAddDomainGuard
  deriving DecidableEq, Repr

def segmentLength (segmentLeft segmentRight : ℕ) : Except Exception ℕ :=
  inclusiveLength segmentLeft segmentRight

def rightChild : (nodeIndex segmentLeft middle : ℕ) → Except Exception ℕ := preorderRightChild

/-- A vector of nodes is read in preorder. -/
def layout (nodes : List Node) : Layout :=
  slotLayout (fun node : Node => (node.sum, node.lazy)) preorderChildren nodes

def build : List ValueType → (nodeIndex segmentLeft segmentRight : ℕ) → ArenaM Node Unit :=
  buildSlots preorderChildren (fun sum => ⟨sum, 0⟩) Node.sum

def update (nodeIndex segmentLeft segmentRight queryLeft queryRight : ℕ) (value : ValueType) :
    ArenaM Node Unit :=
  if segmentRight < queryLeft ∨ segmentLeft > queryRight then pure ()
  else do
    let current ← readNode nodeIndex
    if queryLeft ≤ segmentLeft ∧ segmentRight ≤ queryRight then do
      let sum ← SumAddPolicy.apply value current.sum (← segmentLength segmentLeft segmentRight)
      writeSlot nodeIndex ⟨sum, current.lazy⟩
      let lazy ← checkedAdd current.lazy value
      writeSlot nodeIndex ⟨sum, lazy⟩
    else if segmentLeft < segmentRight then do
      let middle := Segment.midpoint segmentLeft segmentRight
      let leftIndex := nodeIndex + 1
      let rightIndex ← rightChild nodeIndex segmentLeft middle
      update leftIndex segmentLeft middle queryLeft queryRight value
      update rightIndex (middle + 1) segmentRight queryLeft queryRight value
      -- `current` is a reference, so it is read again.
      let current ← readNode nodeIndex
      let childSum ← checkedAdd (← readNode leftIndex).sum (← readNode rightIndex).sum
      let sum ← SumAddPolicy.apply current.lazy childSum
        (← segmentLength segmentLeft segmentRight)
      writeSlot nodeIndex ⟨sum, current.lazy⟩
    else throw .undefined
termination_by segmentRight - segmentLeft
decreasing_by all_goals (simp only [Segment.midpoint] at *; omega)

def validateUpdate (nodes : List Node) :
    (nodeIndex segmentLeft segmentRight queryLeft queryRight : ℕ) → ValueType →
      Except Exception ValueType := (layout nodes).validateUpdate

def query (nodes : List Node) : (nodeIndex segmentLeft segmentRight queryLeft queryRight : ℕ) →
    (inheritedLazy : ValueType) → Except Exception ValueType := (layout nodes).query

def materialize (nodes : List Node) : (nodeIndex segmentLeft segmentRight : ℕ) →
    (inheritedLazy : ValueType) → List ValueType → Except Exception (List ValueType) :=
  (layout nodes).materialize

def initializeFrom (values : List ValueType) (checkpointInterval : ℕ) :
    EStateM Exception State Unit := do
  if checkpointInterval = 0 then
    throw (.invalidArgument "Checkpoint interval must be positive.")
  else do
    let newNumericDomain := SumAddDomainGuard.ofValues values
    let newLive ← (if values ≠ [] then do
        let nodeCount ← canonicalNodeCount values.length
        checkVectorLength "vector::_M_default_append" 16 nodeCount
        return (← Effect.onLocal (build values 0 0 (values.length - 1))
          (List.replicate nodeCount ⟨0, 0⟩)).2
      else pure [])
    set (⟨newLive, [], [⟨0, newLive⟩], checkpointInterval, values.length, newNumericDomain⟩ : State)

/-- `update(checkpoints.back().nodes, ...)`. -/
def updateBack (x : ArenaM Node Unit) : EStateM Exception State Unit := do
  let this ← get
  let back ← vectorAt this.checkpoints (this.checkpoints.length - 1)
  Effect.zoom (fun _ => back.nodes) (fun nodes s =>
    { s with checkpoints := s.checkpoints.dropLast ++ [⟨back.version, nodes⟩] }) x

/-- What is checked of an update before anything is written. -/
def preflight (this : State) (left right : ℕ) (value : ValueType) :
    Except Exception SumAddDomainGuard :=
  if value ≠ 0 then do
    let nextDomain ← this.numericDomain.preflight this.arraySize left right value
      fun values => materialize this.live 0 0 (this.arraySize - 1) 0 values
    let _ ← validateUpdate this.live 0 0 (this.arraySize - 1) left right value
    return nextDomain
  else return this.numericDomain

def rangeAdd (left right : ℕ) (value : ValueType) : EStateM Exception State ℕ := do
  let this ← get
  validateInitialized this.checkpoints.length
  validateNonEmpty this.arraySize
  validateRange this.arraySize left right
  let version ← checkedSizeAdd this.events.length 1
  let takeCheckpoint := version % this.interval = 0
  let nextDomain ← preflight this left right value
  modify fun s => { s with events := s.events ++ [⟨left, right, value⟩] }
  (if takeCheckpoint then
    Effect.onThrow (modify fun s => { s with checkpoints := s.checkpoints ++ [⟨version, s.live⟩] })
      (modify fun s => { s with events := s.events.dropLast })
    else pure ())
  if value ≠ 0 then do
    Effect.zoom State.live (fun nodes s => { s with live := nodes })
      (update 0 0 (this.arraySize - 1) left right value)
    (if takeCheckpoint then updateBack (update 0 0 (this.arraySize - 1) left right value)
      else pure ())
    modify fun s => { s with numericDomain := nextDomain }
    return version
  else return version

/-- The loop over `events[i]` up to the version. -/
def replay (this : State) (version left right i : ℕ) (sum : ValueType) :
    Except Exception ValueType :=
  if i < version then do
    let event ← vectorAt this.events i
    let overlapLeft := max left event.left
    let overlapRight := min right event.right
    let sum ← (if overlapLeft ≤ overlapRight then do
        SumAddPolicy.apply event.value sum (← segmentLength overlapLeft overlapRight)
      else pure sum)
    replay this version left right (i + 1) sum
  else pure sum
termination_by version - i

def rangeSum (this : State) (version left right : ℕ) : Except Exception ValueType := do
  validateInitialized this.checkpoints.length
  validateVersion version (this.events.length + 1)
  validateNonEmpty this.arraySize
  validateRange this.arraySize left right
  if version = this.events.length then
    query this.live 0 0 (this.arraySize - 1) left right 0
  else do
    let base ← vectorAt this.checkpoints (version / this.interval)
    let sum ← query base.nodes 0 0 (this.arraySize - 1) left right 0
    replay this version left right base.version sum

def versionCount (this : State) : Except Exception ℕ :=
  if this.checkpoints = [] then .ok 0 else checkedSizeAdd this.events.length 1

def nodeCount (this : State) : Except Exception ℕ := do
  checkedSizeAdd (← checkedSizeAdd this.live.length
    (← checkedSizeMultiply this.checkpoints.length this.live.length)) this.events.length

def checkpointCount (this : State) : ℕ := this.checkpoints.length

/-- The structure and its writing operations; an initialization has its interval. -/
def engine : Engine (List ValueType × ℕ) ℕ State where
  empty := ⟨[], [], [], 0, 0, {}⟩
  values := Prod.fst
  initializeFrom argument := initializeFrom argument.1 argument.2
  rangeAdd := rangeAdd

/-! ## Counts -/

/-- The counts of a state throw only where they are no `std::size_t`. -/
theorem counts_cases (s : State) : (Returns (versionCount s) ∨ OutOfRoom (versionCount s)) ∧
    (Returns (nodeCount s) ∨ OutOfRoom (nodeCount s)) := by
  constructor
  · unfold versionCount
    split_ifs
    · exact .inl ⟨_, rfl⟩
    · rcases h : checkedSizeAdd s.events.length 1 with e | c
      · exact .inr (checkedSizeAdd_error h)
      · exact .inl ⟨c, rfl⟩
  · unfold nodeCount
    rcases h1 : checkedSizeMultiply s.checkpoints.length s.live.length with e | c
    · exact .inr (checkedSizeMultiply_error h1)
    rw [Effect.ok_bind]
    rcases h2 : checkedSizeAdd s.live.length c with e | d
    · exact .inr (checkedSizeAdd_error h2)
    rw [Effect.ok_bind]
    rcases h3 : checkedSizeAdd d s.events.length with e | n
    · exact .inr (checkedSizeAdd_error h3)
    · exact .inl ⟨n, rfl⟩

/-! ## One update -/

section Update

variable {nodes : List Node} {node : Node} {t t' : SumTree} {size i lo hi l r : ℕ}
  {value : ValueType}

/-- The slots of a tree of `size` indices. -/
abbrev Slot (size : ℕ) : ℕ → ℕ → ℕ → Prop := PreorderSlot 0 0 (size - 1)

/-- The vector has a slot for every node. -/
def Fits (size : ℕ) (nodes : List Node) : Prop := nodes.length = 2 * size - 1

theorem slot_lt (hn : 0 < size) (h : Slot size i lo hi) : i < 2 * size - 1 := by
  obtain ⟨-, -, -, h4⟩ := h.bounds (Nat.zero_le _)
  unfold Segment.length at h4
  omega

/-- Writing a slot rewrites its node. -/
theorem layout_writesAt (h : i < nodes.length) :
    (layout nodes).WritesAt (layout (nodes.set i node)) i (node.sum, node.lazy) :=
  slotLayout_writesAt h

/-- A stored root is read as its node. -/
theorem exists_node (h : (layout nodes).Stores (Slot size) t i lo hi) :
    ∃ node, nodes[i]? = some node ∧ node.sum = t.sum ∧ node.lazy = t.tag := by
  obtain ⟨node, hn, hp⟩ := exists_of_slotLayout_read h.read
  simp only [Prod.mk.injEq] at hp
  exact ⟨node, hn, hp.1, hp.2⟩

/-- An update apart from the segment does nothing. -/
theorem update_apart (h : hi < l ∨ lo > r) : update i lo hi l r value = pure () := by
  rw [update, if_pos h]

/-- A covered segment. -/
theorem cover_spec (hn : 0 < size) (hlo : lo ≤ hi) (hhi : hi < maxLength) (hf : Fits size nodes)
    (h : (layout nodes).Stores (Slot size) t i lo hi) (hin : l ≤ lo ∧ hi ≤ r)
    (hu : t.cover lo hi value = .ok t') :
    UpdatesTo layout (Slot size) (Fits size) (update i lo hi l r value) nodes t' i lo hi := by
  obtain ⟨node, hnode, hs, hz⟩ := exists_node h
  obtain ⟨sum, hsum, hu⟩ := Effect.bind_eq_ok.mp hu
  obtain ⟨lazy, hlazy, hu⟩ := Effect.bind_eq_ok.mp hu
  cases hu
  have hlen : i < nodes.length := by
    rw [hf]
    exact slot_lt hn h.owned
  refine .root (PreorderSlot.exclusive (Nat.zero_le _)) (nodes.set i ⟨sum, lazy⟩) h ?_ ?_
    (layout_writesAt hlen) fun q hq => hq
  · rw [update, if_neg (by omega), Effect.run_bind_ok (readNode_run hnode), if_pos hin,
      segmentLength, inclusiveLength_eq hlo (Layout.lt_sizeMax hhi),
      Effect.run_bind_ok (Effect.liftM_ok _ _), hs, hsum, Effect.run_bind_ok (Effect.liftM_ok _ _),
      Effect.run_bind_ok (writeSlot_run hlen), hz, hlazy, Effect.run_bind_ok (Effect.liftM_ok _ _),
      writeSlot_run (by rw [List.length_set]; exact hlen), List.set_set]
  · show (nodes.set i _).length = _
    rw [List.length_set]
    exact hf

/-- **One update.** Where the update of the stored tree returns, it is made in place. -/
theorem update_spec (hn : 0 < size) (hhi : hi < maxLength) (h1 : l ≤ hi) (h2 : lo ≤ r)
    (hf : Fits size nodes) (h : (layout nodes).Stores (Slot size) t i lo hi)
    (hu : SumTree.updateWith SumTree.rebuildFromChildren l r value t lo hi = .ok t') :
    UpdatesTo layout (Slot size) (Fits size) (update i lo hi l r value) nodes t' i lo hi := by
  induction t generalizing i lo hi nodes t' with
  | leaf s z =>
    have hle : lo = hi := h.1
    have hin : l ≤ lo ∧ hi ≤ r := by omega
    rw [SumTree.updateWith, if_pos hin] at hu
    exact cover_spec hn hle.le hhi hf h hin hu
  | node s z a b iha ihb =>
    have hlt := h.1
    have hm := Segment.midpoint_lt hlt
    by_cases hin : l ≤ lo ∧ hi ≤ r
    · rw [SumTree.updateWith, if_pos hin] at hu
      exact cover_spec hn hlt.le hhi hf h hin hu
    obtain ⟨node, hnode, -, -⟩ := exists_node h
    obtain ⟨-, ho, hread, j, k, hc, ha, hb⟩ := h
    have hc' := hc
    obtain ⟨right, hright, hc'⟩ := Effect.bind_eq_ok.mp hc'
    cases hc'
    obtain ⟨a', b', sum, hua, hub, hsum, rfl⟩ := (SumTree.updateWith_node_eq_ok hin).mp hu
    obtain ⟨c, hcs, hsum⟩ := Effect.bind_eq_ok.mp hsum
    obtain ⟨nodes', hx, hrest⟩ := UpdatesTo.node (PreorderSlot.exclusive (Nat.zero_le _)) hlt ho
      hread hc hb (x := update (i + 1) lo (Segment.midpoint lo hi) l r value)
      (y := update k (Segment.midpoint lo hi + 1) hi l r value)
      (by
        rcases hua with ⟨hl, hua⟩ | ⟨hl, rfl⟩
        · exact iha (by omega) hl h2 hf ha hua
        · rw [update_apart (.inl (by omega))]
          exact .refl hf ha)
      (fun nodes₁ hf₁ hb₁ => by
        rcases hub with ⟨hl, hub⟩ | ⟨hl, rfl⟩
        · exact ihb hhi h1 hl hf₁ hb₁ hub
        · rw [update_apart (.inr (by omega))]
          exact .refl hf₁ hb₁)
      (f := do
        let current ← readNode i
        let childSum ← checkedAdd (← readNode (i + 1)).sum (← readNode k).sum
        let sum ← SumAddPolicy.apply current.lazy childSum (← segmentLength lo hi)
        writeSlot i (⟨sum, current.lazy⟩ : Node))
      (w := sum)
      fun nodes₂ hf₂ hr hrl hrr => by
        obtain ⟨cur, hcur, hp⟩ := exists_of_slotLayout_read hr
        obtain ⟨nl, hnl, hpl⟩ := exists_of_slotLayout_read hrl
        obtain ⟨nr, hnr, hpr⟩ := exists_of_slotLayout_read hrr
        simp only [Prod.mk.injEq] at hp hpl hpr
        have hlen : i < nodes₂.length := by
          rw [hf₂]
          exact slot_lt hn ho
        refine ⟨nodes₂.set i ⟨sum, cur.lazy⟩, ?_, ?_, ?_, rfl⟩
        · rw [Effect.run_bind_ok (readNode_run hcur), Effect.run_bind_ok (readNode_run hnl),
            Effect.run_bind_ok (readNode_run hnr), hpl.1, hpr.1, hcs,
            Effect.run_bind_ok (Effect.liftM_ok _ _), segmentLength,
            inclusiveLength_eq hlt.le (Layout.lt_sizeMax hhi),
            Effect.run_bind_ok (Effect.liftM_ok _ _), hp.2, hsum,
            Effect.run_bind_ok (Effect.liftM_ok _ _), writeSlot_run hlen]
        · show (nodes₂.set i _).length = _
          rw [List.length_set]
          exact hf₂
        · rw [← hp.2]
          exact layout_writesAt hlen
    refine ⟨nodes', ?_, hrest⟩
    rw [update, if_neg (by omega), Effect.run_bind_ok (readNode_run hnode), if_neg hin, if_pos hlt]
    simp only [rightChild, hright]
    rw [Effect.run_bind_ok (Effect.liftM_ok _ _)]
    exact hx

end Update

/-! ## One addition, in any state -/

section Addition

variable {s : State} {l r : ℕ} {value : ValueType}

/-- The checks of the arguments, and the number of the version they let an update make. -/
def admitted (s : State) (l r : ℕ) : Except Exception ℕ := do
  validateInitialized s.checkpoints.length
  validateNonEmpty s.arraySize
  validateRange s.arraySize l r
  checkedSizeAdd s.events.length 1

theorem rangeAdd_not_admitted {e : Exception} (h : admitted s l r = .error e) :
    rangeAdd l r value s = .error e s := by
  unfold admitted at h
  unfold rangeAdd
  rw [Effect.run_bind_ok (Effect.run_get s)]
  refine Effect.run_checks_error h fun _ h => Effect.run_checks_error h fun _ h =>
    Effect.run_checks_error h fun _ h => ?_
  exact Effect.run_bind_error (by rw [h]; rfl)

/-- The state after an addition that ends with the nodes and the guard. -/
def published (s : State) (version l r : ℕ) (value : ValueType) (live : List Node)
    (domain : SumAddDomainGuard) : State where
  live := live
  events := s.events ++ [⟨l, r, value⟩]
  checkpoints :=
    if version % s.interval = 0 then s.checkpoints ++ [⟨version, live⟩] else s.checkpoints
  interval := s.interval
  arraySize := s.arraySize
  numericDomain := domain

/-- An update of the copy that was just pushed. -/
theorem updateBack_run {x : ArenaM Node Unit} {c : Checkpoint} {cs : List Checkpoint}
    {nodes : List Node} (hc : s.checkpoints = cs ++ [c]) (hx : x c.nodes = .ok () nodes) :
    updateBack x s = .ok () { s with checkpoints := cs ++ [⟨c.version, nodes⟩] } := by
  have hback : vectorAt s.checkpoints (s.checkpoints.length - 1) = .ok c := by
    rw [vectorAt_eq_ok, hc, List.length_append, List.length_singleton, Nat.add_sub_cancel,
      List.getElem?_concat_length]
  unfold updateBack
  rw [Effect.run_bind_ok (Effect.run_get s)]
  simp only [hback]
  rw [Effect.run_bind_ok (Effect.liftM_ok _ s)]
  refine (Effect.zoom_ok (σ := State) (s := s) hx).trans ?_
  rw [hc, List.dropLast_concat]

theorem rangeAdd_rejected {version : ℕ} {e : Exception} (h : admitted s l r = .ok version)
    (hp : preflight s l r value = .error e) : rangeAdd l r value s = .error e s := by
  obtain ⟨⟨⟩, h1, h⟩ := Effect.bind_eq_ok.mp h
  obtain ⟨⟨⟩, h2, h⟩ := Effect.bind_eq_ok.mp h
  obtain ⟨⟨⟩, h3, h⟩ := Effect.bind_eq_ok.mp h
  unfold rangeAdd
  rw [Effect.run_bind_ok (Effect.run_get s)]
  simp only [h1, h2, h3, h, hp]
  rfl

/-- The copy receives the same update as the live tree, so it ends as the same nodes. -/
theorem rangeAdd_run {version : ℕ} {next : SumAddDomainGuard} {live : List Node}
    (h : admitted s l r = .ok version) (hp : preflight s l r value = .ok next)
    (hu : value ≠ 0 → update 0 0 (s.arraySize - 1) l r value s.live = .ok () live)
    (hz : value = 0 → live = s.live ∧ next = s.numericDomain) :
    rangeAdd l r value s = .ok version (published s version l r value live next) := by
  obtain ⟨⟨⟩, h1, h⟩ := Effect.bind_eq_ok.mp h
  obtain ⟨⟨⟩, h2, h⟩ := Effect.bind_eq_ok.mp h
  obtain ⟨⟨⟩, h3, h⟩ := Effect.bind_eq_ok.mp h
  unfold rangeAdd published
  rw [Effect.run_bind_ok (Effect.run_get s)]
  simp only [h1, h2, h3, h, hp]
  rw [Effect.run_bind_ok (Effect.liftM_ok _ s), Effect.run_bind_ok (Effect.liftM_ok _ s),
    Effect.run_bind_ok (Effect.liftM_ok _ s), Effect.run_bind_ok (Effect.liftM_ok _ s),
    Effect.run_bind_ok (Effect.liftM_ok _ s), Effect.run_bind_ok (Effect.run_modify _ s)]
  by_cases h0 : value = 0
  · obtain ⟨rfl, rfl⟩ := hz h0
    by_cases ht : version % s.interval = 0 <;> simp only [if_neg (not_not.mpr h0), ht] <;> rfl
  have hlive : ∀ events checkpoints,
      Effect.zoom State.live (fun nodes s => { s with live := nodes })
        (update 0 0 (s.arraySize - 1) l r value)
        ⟨s.live, events, checkpoints, s.interval, s.arraySize, s.numericDomain⟩ =
      .ok () ⟨live, events, checkpoints, s.interval, s.arraySize, s.numericDomain⟩ :=
    fun _ _ => Effect.zoom_ok (hu h0)
  by_cases ht : version % s.interval = 0
  · simp only [if_pos h0, if_pos ht]
    rw [Effect.run_bind_ok (Effect.onThrow_ok (Effect.run_modify _ _)),
      Effect.run_bind_ok (hlive _ _), Effect.run_bind_ok (updateBack_run rfl (hu h0))]
    rfl
  · simp only [if_pos h0, if_neg ht]
    rw [Effect.run_bind_ok (Effect.run_pure _ _), Effect.run_bind_ok (hlive _ _),
      Effect.run_bind_ok (Effect.run_pure _ _)]
    rfl

end Addition

/-! ## Whole runs -/

/-- The vector stores the tree. -/
structure StoresTree (size : ℕ) (nodes : List Node) (t : SumTree) : Prop where
  fits : Fits size nodes
  stores : 0 < size → (layout nodes).Stores (Slot size) t 0 0 (size - 1)

/-- The live tree is the latest of the trees, the log has the updates, and the checkpoints are
the trees of the multiples of the interval. -/
structure StoresVersions (h : History (List ValueType × ℕ)) (s : State) (m : VersionedTrees) :
    Prop where
  size : s.arraySize = m.size
  domain : s.numericDomain = m.guard
  interval : s.interval = h.argument.2
  interval_pos : 0 < s.interval
  events : s.events.map (fun e => (⟨e.left, e.right, e.value.toInt⟩ : RangeAdd ℤ)) = h.adds.updates
  live : ∀ t, m.trees[m.trees.length - 1]? = some t → StoresTree m.size s.live t
  count : s.checkpoints.length = s.events.length / s.interval + 1
  version : ∀ (j : ℕ) (c : Checkpoint), s.checkpoints[j]? = some c → c.version = j * s.interval
  checkpoints : ∀ (j : ℕ) (c : Checkpoint) (t : SumTree), s.checkpoints[j]? = some c →
    m.trees[c.version]? = some t → StoresTree m.size c.nodes t
  current : s.interval ∣ s.events.length →
    s.checkpoints[s.events.length / s.interval]? = some ⟨s.events.length, s.live⟩

variable {s s' : State} {m : VersionedTrees} {h : History (List ValueType × ℕ)} {l r v : ℕ}
  {value : ValueType}

namespace StoresVersions

theorem events_length (hs : StoresVersions h s m) : s.events.length = h.adds.updates.length := by
  rw [← hs.events, List.length_map]

theorem checkpoints_pos (hs : StoresVersions h s m) : 0 < s.checkpoints.length := by
  rw [hs.count]
  exact Nat.succ_pos _

/-- A version at or before the latest has a checkpoint at or before it. -/
theorem exists_checkpoint (hs : StoresVersions h s m) (hv : v ≤ s.events.length) :
    ∃ c, s.checkpoints[v / s.interval]? = some c ∧ c.version ≤ v := by
  have hlt : v / s.interval < s.checkpoints.length := by
    rw [hs.count]
    exact Nat.lt_succ_of_le (Nat.div_le_div_right hv)
  have hc : s.checkpoints[v / s.interval]? = some s.checkpoints[v / s.interval] :=
    List.getElem?_eq_getElem hlt
  refine ⟨_, hc, ?_⟩
  rw [hs.version _ _ hc]
  exact Nat.div_mul_le_self v s.interval

/-- **Publishing.** One more version keeps the schedule. -/
theorem publish (hs : StoresVersions h s m) (hv : m.Valid .retaining h.adds) {t : SumTree}
    {live : List Node} (guard : SumAddDomainGuard) (hlive : StoresTree m.size live t) :
    StoresVersions (h.add ⟨l, r, value.toInt⟩)
      (published s (s.events.length + 1) l r value live guard) ⟨m.size, m.trees ++ [t], guard⟩ := by
  have hcount := hs.count
  have htrees : m.trees.length = s.events.length + 1 := by
    rw [hv.versions, hs.events_length]
    rfl
  have hdiv := Nat.succ_div (a := s.events.length) (b := s.interval)
  -- The new checkpoint, when there is one, is the last and at the new version.
  have old : ∀ {j c}, (published s (s.events.length + 1) l r value live guard).checkpoints[j]? =
      some c → s.checkpoints[j]? = some c ∨
        (s.interval ∣ s.events.length + 1 ∧ j = s.checkpoints.length ∧
          c = ⟨s.events.length + 1, live⟩) := by
    intro j c hc
    simp only [published] at hc
    split_ifs at hc with hd
    · rcases getElem?_push hc with ⟨-, hc⟩ | ⟨hj, hc⟩
      · exact .inl hc
      · exact .inr ⟨Nat.dvd_of_mod_eq_zero hd, hj, hc⟩
    · exact .inl hc
  refine ⟨hs.size, rfl, hs.interval, hs.interval_pos, ?_, fun u hu => ?_, ?_, fun j c hc => ?_,
    fun j c u hc hu => ?_, fun hd => ?_⟩
  · simp only [published, List.map_append, hs.events]
    rfl
  · exact eq_of_last_push hu ▸ hlive
  · simp only [published, List.length_append, List.length_singleton]
    rw [hdiv]
    by_cases hd : s.interval ∣ s.events.length + 1
    · rw [if_pos (Nat.mod_eq_zero_of_dvd hd), if_pos hd, List.length_append, hcount]
      rfl
    · rw [if_neg fun h0 => hd (Nat.dvd_of_mod_eq_zero h0), if_neg hd, hcount]
  · rcases old hc with hc | ⟨hd, rfl, rfl⟩
    · exact hs.version j c hc
    · rw [if_pos hd] at hdiv
      show s.events.length + 1 = s.checkpoints.length * s.interval
      rw [hcount, ← hdiv, Nat.div_mul_cancel hd]
  · rcases old hc with hc | ⟨hd, rfl, rfl⟩
    · refine hs.checkpoints j c u hc ?_
      have hj := (List.getElem?_eq_some_iff.mp hc).1
      have hle : c.version ≤ s.events.length := by
        rw [hs.version j c hc]
        refine le_trans (Nat.mul_le_mul_right _ ?_) (Nat.div_mul_le_self s.events.length s.interval)
        omega
      rwa [List.getElem?_append_left (by omega)] at hu
    · have hu' : (m.trees ++ [t])[m.trees.length]? = some u := by rwa [htrees]
      rw [List.getElem?_concat_length, Option.some.injEq] at hu'
      exact hu' ▸ hlive
  · have hd' : s.interval ∣ s.events.length + 1 := by
      simpa only [published, List.length_append, List.length_singleton] using hd
    rw [if_pos hd'] at hdiv
    simp only [published, List.length_append, List.length_singleton]
    rw [if_pos (Nat.mod_eq_zero_of_dvd hd'), hdiv, ← hcount, List.getElem?_concat_length]

end StoresVersions

/-- **One addition.** It returns the number of the next version, which the versioned trees have
too, or it throws, as they do or because the version has no number, and leaves the state as it
was. -/
theorem rangeAdd_outcome (hs : StoresVersions h s m) (hv : m.Valid .retaining h.adds) (l r : ℕ)
    (value : ValueType) :
    (∃ m' live guard, m.rangeAdd .retaining l r value = .ok m' ∧
        rangeAdd l r value s = .ok (s.events.length + 1)
          (published s (s.events.length + 1) l r value live guard) ∧
        StoresVersions (h.add ⟨l, r, value.toInt⟩)
          (published s (s.events.length + 1) l r value live guard) m') ∨
      ∃ e, rangeAdd l r value s = .error e s ∧
        (e.OutOfRoom ∨ ∃ e', e.kind = e'.kind ∧ m.rangeAdd .retaining l r value = .error e') := by
  rcases ha : admitted s l r with e | version
  · refine .inr ⟨e, rangeAdd_not_admitted ha, ?_⟩
    rcases Effect.bind_eq_error.mp ha with h1 | ⟨⟨⟩, -, ha⟩
    · rw [validateInitialized_eq_ok.mpr hs.checkpoints_pos] at h1
      cases h1
    rw [hs.size] at ha
    rcases Effect.bind_eq_error.mp ha with h2 | ⟨⟨⟩, h2, ha⟩
    · exact .inr ⟨e, rfl, hv.rangeAdd_not_admitted (by rw [h2]; rfl)⟩
    rcases Effect.bind_eq_error.mp ha with h3 | ⟨⟨⟩, -, ha⟩
    · exact .inr ⟨e, rfl, hv.rangeAdd_not_admitted (by rw [h2, h3]; rfl)⟩
    · exact .inl (checkedSizeAdd_error ha)
  obtain ⟨⟨⟩, -, hadm⟩ := Effect.bind_eq_ok.mp ha
  obtain ⟨⟨⟩, h1, hadm⟩ := Effect.bind_eq_ok.mp hadm
  obtain ⟨⟨⟩, h2, hadm⟩ := Effect.bind_eq_ok.mp hadm
  rw [hs.size] at h1 h2
  have hn := validateNonEmpty_eq_ok.mp h1
  obtain ⟨hlr, hr⟩ := validateRange_eq_ok.mp h2
  obtain rfl : version = s.events.length + 1 := by
    unfold checkedSizeAdd at hadm
    split_ifs at hadm
    cases hadm
    rfl
  obtain ⟨t, ht, -⟩ := hv.latest
  have hlive := hs.live t ht
  by_cases h0 : value = 0
  · subst h0
    have hp : preflight s l r 0 = .ok m.guard := by
      unfold preflight
      rw [if_neg (not_not.mpr rfl), hs.domain]
      rfl
    refine .inl ⟨_, s.live, m.guard, VersionedTrees.rangeAdd_zero hlr hr ht,
      rangeAdd_run ha hp (fun h0 => absurd rfl h0) (fun _ => ⟨rfl, hs.domain.symm⟩),
      hs.publish hv m.guard hlive⟩
  have hsize := hv.size_le
  have hst := hlive.stores hn
  rcases hv.preflight_decides hlr hr h0 ht hst with
    ⟨t', next, w, hm, hu, hp, hy⟩ | ⟨e, e', hk, hm, hp⟩
  · obtain ⟨nodes, hx, hfits, hst', -⟩ := update_spec hn (by omega) (by omega) (Nat.zero_le r)
      hlive.fits hst hu
    have hp' : preflight s l r value = .ok next := by
      unfold preflight materialize validateUpdate
      rw [if_pos h0, hs.size, hs.domain]
      simp only [hp, hy]
      rfl
    exact .inl ⟨_, nodes, next, hm, rangeAdd_run ha hp' (fun _ => by rw [hs.size]; exact hx)
      (fun hz => absurd hz h0), hs.publish hv next ⟨hfits, fun _ => hst'⟩⟩
  · refine .inr ⟨e', rangeAdd_rejected ha ?_, .inr ⟨e, hk, hm⟩⟩
    unfold preflight materialize validateUpdate
    rw [if_pos h0, hs.size, hs.domain]
    exact hp

/-- Version 0 is its own checkpoint. -/
theorem storesVersions_initial {values : List ValueType} {k : ℕ} {nodes : List Node} {t : SumTree}
    (hk : k ≠ 0) (hst : StoresTree values.length nodes t) :
    StoresVersions (engine.start (values, k))
      ⟨nodes, [], [⟨0, nodes⟩], k, values.length, .ofValues values⟩
      ⟨values.length, [t], .ofValues values⟩ := by
  have only : ∀ {j : ℕ} {c : Checkpoint}, [(⟨0, nodes⟩ : Checkpoint)][j]? = some c →
      j = 0 ∧ c = ⟨0, nodes⟩ := by
    intro j c hc
    rcases getElem?_push (show ([] ++ [(⟨0, nodes⟩ : Checkpoint)])[j]? = some c from hc) with
      ⟨hj, -⟩ | h
    · exact absurd hj (Nat.not_lt_zero j)
    · exact h
  refine ⟨rfl, rfl, rfl, Nat.pos_of_ne_zero hk, rfl, fun u hu => ?_, ?_, fun j c hc => ?_,
    fun j c u hc hu => ?_, fun _ => ?_⟩
  · obtain rfl : t = u := by simpa using hu
    exact hst
  · simp
  · obtain ⟨rfl, rfl⟩ := only hc
    exact (Nat.zero_mul k).symm
  · obtain ⟨rfl, rfl⟩ := only hc
    obtain rfl : t = u := by simpa using hu
    exact hst
  · simp

/-- A successful initialization stores the tree of its array. -/
theorem initialize_outcome {values : List ValueType} {k : ℕ} {u : Unit}
    (hi : initializeFrom values k s = .ok u s') : values.length ≤ maxLength ∧
      ∃ m, VersionedTrees.initializeFrom values = .ok m ∧
        StoresVersions (engine.start (values, k)) s' m := by
  unfold initializeFrom at hi
  by_cases hk : k = 0
  · rw [if_pos hk] at hi
    cases hi
  rw [if_neg hk] at hi
  unfold VersionedTrees.initializeFrom
  by_cases h0 : values = []
  · subst h0
    rw [if_pos rfl]
    cases hi
    exact ⟨Nat.zero_le _, _, rfl, storesVersions_initial hk ⟨rfl, fun hn => absurd hn (lt_irrefl 0)⟩⟩
  have hn : 0 < values.length := List.length_pos_of_ne_nil h0
  simp only [if_pos h0] at hi
  rw [if_neg h0]
  obtain ⟨newLive, s₁, h1, hi⟩ := Effect.run_bind_eq_ok.mp hi
  cases hi
  obtain ⟨c, h2, h1⟩ := Effect.run_liftM_bind_eq_ok.mp h1
  obtain ⟨⟨⟩, h3, h1⟩ := Effect.run_liftM_bind_eq_ok.mp h1
  obtain ⟨⟨⟨⟩, nodes⟩, hlocal, h1⟩ := Effect.run_liftM_bind_eq_ok.mp h1
  cases h1
  obtain ⟨rfl, -⟩ := (canonicalNodeCount_eq_ok hn).mp h2
  have hcap := checkVectorLength_eq_ok.mp h3
  have hmax : vectorMaxSize 16 ≤ maxLength := Nat.div_le_self _ _
  have hlen : values.length ≤ maxLength := by omega
  refine ⟨hlen, ?_⟩
  rcases buildSlots_local (fun sum => ⟨sum, 0⟩) (fun node : Node => (node.sum, node.lazy)) Node.sum
    (preorderScheme values.length hn hlen) (fun v => rfl) (fun x => rfl) values ⟨0, 0⟩ with
    ⟨t, nodes', ht, hb, hlen', hst⟩ | ⟨e, -, hb⟩
  · cases hb.symm.trans hlocal
    exact ⟨⟨values.length, [t], .ofValues values⟩, by rw [ht]; rfl,
      storesVersions_initial hk ⟨hlen', fun _ => hst⟩⟩
  · cases hb.symm.trans hlocal

/-- One that fails with an interval has no room, or the tree of its array throws the same. -/
theorem initialize_error {values : List ValueType} {k : ℕ} {e : Exception} (hk : 0 < k)
    (hi : initializeFrom values k s = .error e s') :
    e.OutOfRoom ∨ VersionedTrees.initializeFrom values = .error e := by
  unfold initializeFrom at hi
  rw [if_neg hk.ne'] at hi
  rcases Effect.run_bind_eq_error.mp hi with h1 | ⟨newLive, s₁, -, hi⟩
  swap
  · cases hi
  by_cases h0 : values = []
  · rw [if_neg (not_not.mpr h0)] at h1
    cases h1
  have hn : 0 < values.length := List.length_pos_of_ne_nil h0
  rw [if_pos h0] at h1
  rcases Effect.run_liftM_bind_eq_error.mp h1 with ⟨h2, -⟩ | ⟨c, h2, h1⟩
  · exact .inl (canonicalNodeCount_error h2)
  rcases Effect.run_liftM_bind_eq_error.mp h1 with ⟨h3, -⟩ | ⟨⟨⟩, h3, h1⟩
  · exact .inl (checkVectorLength_error h3)
  rcases Effect.run_liftM_bind_eq_error.mp h1 with ⟨hlocal, -⟩ | ⟨x, -, h1⟩
  swap
  · cases h1
  obtain ⟨rfl, -⟩ := (canonicalNodeCount_eq_ok hn).mp h2
  have hcap := checkVectorLength_eq_ok.mp h3
  have hmax : vectorMaxSize 16 ≤ maxLength := Nat.div_le_self _ _
  rcases buildSlots_local (fun sum => ⟨sum, 0⟩) (fun node : Node => (node.sum, node.lazy)) Node.sum
    (preorderScheme values.length hn (by omega)) (fun v => rfl) (fun x => rfl) values ⟨0, 0⟩ with
    ⟨t, nodes', -, hb, -⟩ | ⟨e', ht, hb⟩
  · cases hb.symm.trans hlocal
  · cases hb.symm.trans hlocal
    right
    rw [VersionedTrees.initializeFrom, if_neg h0, ht]
    rfl

/-- A failed initialization leaves the state as it was. -/
theorem initializeFrom_atomic (values : List ValueType) (k : ℕ) :
    Effect.Atomic (initializeFrom values k) :=
  .ite (fun _ => .throw _) fun _ => .bind
    (.ite (fun _ => .eq_lift_bind fun _ => .eq_lift_bind fun _ => .eq_lift_bind fun _ =>
      .pure (fun _ => rfl) _) fun _ => .pure (fun _ => rfl) _) fun _ => .set _

/-- **The live tree, the log and the checkpoints are versioned trees.** -/
def simulation : Simulation engine .retaining where
  Fresh s := s.checkpoints = []
  Rel h s m := StoresVersions h s m
  empty := rfl
  initialize_ok hi := initialize_outcome hi
  initialize_error hi := initializeFrom_atomic _ _ _ _ _ hi
  rangeAdd_fresh {s} l r value hs := by
    have ha : admitted s l r = .error (.runtimeError "Tree has no versions.") := by
      unfold admitted; rw [hs]; rfl
    exact ⟨_, rangeAdd_not_admitted ha⟩
  rangeAdd_ok {h l r value s s' x m} hs hv hi := by
    have hi' : rangeAdd l r value s = .ok x s' := hi
    rcases rangeAdd_outcome hs hv l r value with ⟨m', live, guard, hm, hr, hs'⟩ | ⟨e, hr, -⟩ <;>
      rw [hr] at hi' <;> cases hi'
    exact ⟨m', hm, hs'⟩
  rangeAdd_error {h l r value s s' e m} hs hv hi := by
    have hi' : rangeAdd l r value s = .error e s' := hi
    rcases rangeAdd_outcome hs hv l r value with ⟨m', live, guard, hm, hr, hs'⟩ | ⟨e, hr, -⟩ <;>
      rw [hr] at hi' <;> cases hi'
    exact hs

end CheckpointingSegmentTree

end Valseg
