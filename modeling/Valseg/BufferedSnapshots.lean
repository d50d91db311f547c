import Valseg.BufferedPathCopyingSegmentTree
import Valseg.Lib.Logging

/-!
# Snapshots of buffered nodes

What a reader adds up again from the base fields and the entries of a node has been computed
before, by the updates that made the entries. The structure is run here with a log of what its
updates compute for which node, and without the log it is the structure itself (`run_erases`).

1. `Follows` relates the entries of a node to what was computed for it after its base fields.
   `Follows.fold` reads such a node at any version: what is added up is what was computed last, so
   it has been represented.
2. `Traced` says so of every node of an arena. An update keeps it, in place (`Traced.write`) and
   with copies (`Traced.push`), and a rollback restores it (`Traced.restored`).
3. `Recorded` adds the roots, and holds after every run (`recorded_run`).
4. `buffered_snapshots`: every node is read at every version, and a node of a version is read at it
   as what was computed for it last.
-/

namespace Valseg

open Effect

namespace BufferedPathCopyingSegmentTree

/-- What the update that publishes a version computed for a node, or the initialization, which
publishes version 0. -/
structure Computation where
  version : ℕ
  node : ℕ
  snapshot : Snapshot

/-- A computation on the tree that logs what it computes for which node. -/
abbrev ComputationM (σ : Type) := LoggedM Exception σ Computation

/-! ## The structure with the log -/

/-- A node with an empty buffer is appended, and its fields were computed for it. -/
def loggedPushNode (version leftChild rightChild : ℕ) (sum lazy : ValueType) :
    ComputationM State ℕ := do
  let copy ← quietly (pushNode ⟨leftChild, rightChild, sum, lazy, 0, emptyBuffer⟩)
  note ⟨version, copy, ⟨sum, lazy⟩⟩
  return copy

def loggedBuild (values : List ValueType) (segmentLeft segmentRight : ℕ) :
    ComputationM (List Node) ℕ :=
  if segmentLeft = segmentRight then do
    let value ← vectorAt values segmentLeft
    let leaf ← quietly (pushBack ⟨noNode, noNode, value, 0, 0, emptyBuffer⟩)
    note ⟨0, leaf, ⟨value, 0⟩⟩
    return leaf
  else if segmentLeft < segmentRight then do
    let middle := Segment.midpoint segmentLeft segmentRight
    let leftRoot ← loggedBuild values segmentLeft middle
    let rightRoot ← loggedBuild values (middle + 1) segmentRight
    let leftNode ← quietly (readNode leftRoot)
    let rightNode ← quietly (readNode rightRoot)
    let sum ← checkedAdd leftNode.baseSum rightNode.baseSum
    let inner ← quietly (pushBack ⟨leftRoot, rightRoot, sum, 0, 0, emptyBuffer⟩)
    note ⟨0, inner, ⟨sum, 0⟩⟩
    return inner
  else throw .undefined
termination_by segmentRight - segmentLeft
decreasing_by all_goals (simp only [Segment.midpoint] at *; omega)

def loggedModify (nodeIndex version : ℕ) (deltaSum deltaLazy : ValueType) :
    ComputationM State ℕ := do
  let this ← quietly get
  let node ← vectorAt this.nodes nodeIndex
  let latest ← snapshotAt node version
  let nextSum ← checkedAdd latest.sum deltaSum
  let nextLazy ← checkedAdd latest.lazy deltaLazy
  if h : node.bufferSize < bufferCapacity then do
    quietly (modifyThe State fun s => { s with
      nodes := s.nodes.set nodeIndex (node.pushEntry ⟨version, deltaSum, deltaLazy⟩ h)
      bufferedThisUpdate := s.bufferedThisUpdate ++ [nodeIndex] })
    note ⟨version, nodeIndex, ⟨nextSum, nextLazy⟩⟩
    return nodeIndex
  else loggedPushNode version node.leftChild node.rightChild nextSum nextLazy

def loggedUpdate (nodeIndex version segmentLeft segmentRight queryLeft queryRight : ℕ)
    (value : ValueType) : ComputationM State ℕ := do
  let length ← segmentLength segmentLeft segmentRight
  if queryLeft ≤ segmentLeft ∧ segmentRight ≤ queryRight then do
    let deltaSum ← checkedMultiply value (← checkedLength length)
    loggedModify nodeIndex version deltaSum value
  else if segmentLeft < segmentRight then do
    let this ← quietly get
    let current ← vectorAt this.nodes nodeIndex
    let middle := Segment.midpoint segmentLeft segmentRight
    let newLeft ← (if queryLeft ≤ middle then
      loggedUpdate current.leftChild version segmentLeft middle queryLeft queryRight value
      else pure current.leftChild)
    let newRight ← (if queryRight > middle then
      loggedUpdate current.rightChild version (middle + 1) segmentRight queryLeft queryRight value
      else pure current.rightChild)
    let overlap ← segmentLength (max segmentLeft queryLeft) (min segmentRight queryRight)
    let deltaSum ← checkedMultiply value (← checkedLength overlap)
    if newLeft = current.leftChild ∧ newRight = current.rightChild then
      loggedModify nodeIndex version deltaSum 0
    else do
      let latest ← snapshotAt current version
      let sum ← checkedAdd latest.sum deltaSum
      loggedPushNode version newLeft newRight sum latest.lazy
  else throw .undefined
termination_by segmentRight - segmentLeft
decreasing_by all_goals (simp only [Segment.midpoint] at *; omega)

def loggedInitializeFrom (values : List ValueType) : ComputationM State Unit := do
  let newNumericDomain := SumAddDomainGuard.ofValues values
  if values = [] then
    set (⟨⟨[], [noNode], 0, newNumericDomain, []⟩, []⟩ : Logged State Computation)
  else do
    let nodeCount ← canonicalNodeCount values.length
    checkVectorLength "vector::reserve" 88 nodeCount
    let (root, built) ← Effect.onLocal (loggedBuild values 0 (values.length - 1)) ⟨[], []⟩
    set (⟨⟨built.state, [root], values.length, newNumericDomain, []⟩, built.log⟩ :
      Logged State Computation)

/-- The catch block; what an update computed that does not publish a version is dropped. -/
def loggedRollback (checkpoint : ℕ) (log : List Computation) : ComputationM State PUnit := do
  quietly (rollback checkpoint)
  modifyThe (Logged State Computation) fun s => { s with log := log }

def loggedPublishUpdate (latestRoot version arraySize left right : ℕ) (value : ValueType) :
    ComputationM State Unit := do
  let newRoot ← loggedUpdate latestRoot version 0 (arraySize - 1) left right value
  quietly (modifyThe State fun s => { s with roots := s.roots ++ [newRoot] })

def loggedRangeAdd (left right : ℕ) (value : ValueType) : ComputationM State ℕ := do
  let this ← quietly get
  validateInitialized this.roots.length
  validateNonEmpty this.arraySize
  validateRange this.arraySize left right
  let latestRoot ← vectorAt this.roots (this.roots.length - 1)
  if value = 0 then do
    quietly (modifyThe State fun s => { s with roots := s.roots ++ [latestRoot] })
    return (← quietly get).roots.length - 1
  else do
    let latestVersion := this.roots.length - 1
    let nextDomain ← this.numericDomain.preflight this.arraySize left right value
      fun values => materialize this.nodes latestVersion latestRoot 0 (this.arraySize - 1) 0 values
    let version := this.roots.length
    let checkpoint := this.nodes.length
    let logged ← get
    quietly (modifyThe State fun s => { s with bufferedThisUpdate := [] })
    Effect.onThrow (loggedPublishUpdate latestRoot version this.arraySize left right value)
      (loggedRollback checkpoint logged.log)
    quietly (modifyThe State fun s => { s with numericDomain := nextDomain })
    return (← quietly get).roots.length - 1

/-- The structure with its log. -/
def loggedEngine : Engine (List ValueType) ℕ (Logged State Computation) where
  empty := ⟨engine.empty, []⟩
  values := engine.values
  initializeFrom := loggedInitializeFrom
  rangeAdd := loggedRangeAdd

/-- What the calls compute for the nodes, the updates that publish no version left out. -/
def computations (calls : List (Call (List ValueType))) : List Computation :=
  (loggedEngine.run calls).1.log

/-! ## Without the log -/

section Erased

theorem loggedPushNode_erases (version j k : ℕ) (sum lazy : ValueType) :
    Erases (loggedPushNode version j k sum lazy)
      (pushNode ⟨j, k, sum, lazy, 0, emptyBuffer⟩) := by
  rw [← bind_pure (pushNode _)]
  exact .bind (.quietly _) fun _ => .note_bind (.pure _)

theorem loggedBuild_erases (values : List ValueType) : ∀ lo hi, lo ≤ hi →
    Erases (loggedBuild values lo hi) (build values lo hi) := by
  have hpush : ∀ (node : Node) (snapshot : Snapshot), Erases (do
      let i ← quietly (pushBack node)
      note ⟨0, i, snapshot⟩
      return i : ComputationM (List Node) ℕ) (pushBack node) := fun node snapshot => by
    rw [← bind_pure (pushBack node)]
    exact .bind (.quietly _) fun _ => .note_bind (.pure _)
  unfold build
  refine Segment.halving_induction (fun m => ?_) fun lo hi hlt ihl ihr => ?_
  · rw [loggedBuild, buildArena, if_pos rfl, if_pos rfl]
    exact .bind (.lift _) fun _ => hpush _ _
  · rw [loggedBuild, buildArena, if_neg hlt.ne, if_neg hlt.ne, if_pos hlt, if_pos hlt]
    refine .bind ihl fun _ => .bind ihr fun _ => .bind (.quietly _) fun _ => ?_
    exact .bind (.quietly _) fun _ => .bind (.lift _) fun _ => hpush _ _

theorem loggedModify_erases (i v : ℕ) (deltaSum deltaLazy : ValueType) :
    Erases (loggedModify i v deltaSum deltaLazy) (modify i v deltaSum deltaLazy) := by
  unfold loggedModify modify
  refine .bind (.quietly _) fun this => .bind (.lift _) fun node => .bind (.lift _) fun latest => ?_
  refine .bind (.lift _) fun nextSum => .bind (.lift _) fun nextLazy => ?_
  by_cases h : node.bufferSize < bufferCapacity
  · rw [dif_pos h, dif_pos h]
    exact .bind (.quietly _) fun _ => .note_bind (.pure _)
  · rw [dif_neg h, dif_neg h]
    exact loggedPushNode_erases _ _ _ _ _

theorem loggedUpdate_erases (v l r : ℕ) (value : ValueType) : ∀ lo hi, lo ≤ hi → ∀ i,
    Erases (loggedUpdate i v lo hi l r value) (update i v lo hi l r value) := by
  refine Segment.halving_induction (fun m i => ?_) fun lo hi hlt ihl ihr i => ?_
  all_goals
    rw [loggedUpdate, update]
    refine .bind (.lift _) fun length => .ite (fun _ => ?_) fun _ => ?_
    · exact .bind (.lift _) fun _ => .bind (.lift _) fun _ => loggedModify_erases _ _ _ _
  · exact .ite (fun h => absurd h (lt_irrefl m)) fun _ => .throw _
  · refine .ite (fun _ => ?_) fun h => absurd hlt h
    refine .bind (.quietly _) fun this => .bind (.lift _) fun current => ?_
    refine .bind (.ite (fun _ => ihl _) fun _ => .pure _) fun newLeft => ?_
    refine .bind (.ite (fun _ => ihr _) fun _ => .pure _) fun newRight => ?_
    refine .bind (.lift _) fun _ => .bind (.lift _) fun _ => .bind (.lift _) fun _ => ?_
    refine .ite (fun _ => loggedModify_erases _ _ _ _) fun _ => ?_
    exact .bind (.lift _) fun _ => .bind (.lift _) fun _ => loggedPushNode_erases _ _ _ _ _

theorem loggedInitializeFrom_erases (values : List ValueType) :
    Erases (loggedInitializeFrom values) (initializeFrom values) := by
  unfold loggedInitializeFrom initializeFrom
  refine .ite (fun _ _ => rfl) fun h0 => .bind (.lift _) fun _ => .bind (.lift _) fun _ => ?_
  have hbuild := loggedBuild_erases values 0 (values.length - 1) (Nat.zero_le _)
  exact Effect.Image.bind (Effect.Image.liftLocal hbuild ⟨[], []⟩) fun _ _ => rfl

theorem loggedRangeAdd_erases (l r : ℕ) (value : ValueType) :
    Erases (loggedRangeAdd l r value) (rangeAdd l r value) := by
  unfold loggedRangeAdd rangeAdd
  refine .bind (.quietly _) fun this => .bind (.lift _) fun _ => .bind (.lift _) fun _ => ?_
  refine .bind (.lift _) fun _ => .bind (.lift _) fun root => .ite (fun _ => ?_) fun _ => ?_
  · exact .bind (.quietly _) fun _ => .bind (.quietly _) fun _ => .pure _
  · refine .bind (.lift _) fun domain => ?_
    have hrollback : ∀ checkpoint log, Erases (loggedRollback checkpoint log)
        (rollback checkpoint) := fun checkpoint log s => rfl
    have hpublish : Erases
        (loggedPublishUpdate root this.roots.length this.arraySize l r value)
        (publishUpdate root this.roots.length this.arraySize l r value) :=
      .bind (loggedUpdate_erases _ l r value 0 _ (Nat.zero_le _) root) fun _ => .quietly _
    intro s
    rw [run_bind_ok (run_get s)]
    refine Erases.bind (.quietly _) (fun _ => ?_) s
    refine .bind (.onThrow hpublish (hrollback _ _)) fun _ => .bind (.quietly _) fun _ => ?_
    exact .bind (.quietly _) fun _ => .pure _

/-- **The log leaves no trace.** -/
theorem run_erases (calls : List (Call (List ValueType))) :
    engine.run calls = ((loggedEngine.run calls).1.state, (loggedEngine.run calls).2) := by
  have hempty : engine.empty = Logged.state loggedEngine.empty := rfl
  exact Engine.run_image hempty rfl loggedInitializeFrom_erases loggedRangeAdd_erases calls

end Erased

/-! ## The entries of a node and what was computed for it -/

section Follows

variable {c d : Computation} {entry : Modification} {entries : List Modification}
  {later log : List Computation} {node : Node} {i v w : ℕ}

/-- From `c` on the entries add up to what was computed later, one pair for each entry. -/
inductive Follows : Computation → List Modification → List Computation → Prop
  | nil (c : Computation) : Follows c [] []
  | cons {c d : Computation} {entry : Modification} {entries : List Modification}
      {later : List Computation} (stamp : entry.version = d.version)
      (order : c.version ≤ d.version)
      (sum : checkedAdd c.snapshot.sum entry.deltaSum = .ok d.snapshot.sum)
      (lazy : checkedAdd c.snapshot.lazy entry.deltaLazy = .ok d.snapshot.lazy)
      (rest : Follows d entries later) : Follows c (entry :: entries) (d :: later)

theorem Follows.ordered (h : Follows c entries later) : ∀ d ∈ later, c.version ≤ d.version := by
  induction h with
  | nil => simp
  | cons _ order _ _ _ ih =>
    simp only [List.forall_mem_cons]
    exact ⟨order, fun d hd => order.trans (ih d hd)⟩

theorem Follows.stamped (h : Follows c entries later) :
    ∀ entry ∈ entries, c.version ≤ entry.version := by
  induction h with
  | nil => simp
  | cons stamp order _ _ _ ih =>
    simp only [List.forall_mem_cons]
    exact ⟨stamp ▸ order, fun entry he => order.trans (ih entry he)⟩

/-- What was computed last at a version, or `c` where nothing was. -/
def lastAt (w : ℕ) (c : Computation) (later : List Computation) : Computation :=
  (later.filter fun d => d.version ≤ w).getLastD c

/-- **Reading.** At every version the entries add up to what was computed last. -/
theorem Follows.fold (h : Follows c entries later) (w : ℕ) :
    entries.foldlM (Snapshot.fold w) c.snapshot = .ok (lastAt w c later).snapshot := by
  induction h with
  | nil => rfl
  | @cons c d entry entries later stamp order sum lazy rest ih =>
    by_cases hw : d.version ≤ w
    · have hfold : Snapshot.fold w c.snapshot entry = .ok d.snapshot := by
        unfold Snapshot.fold
        rw [if_pos (stamp ▸ hw), sum, ok_bind, lazy]
        rfl
      have hlast : lastAt w c (d :: later) = lastAt w d later := by
        unfold lastAt
        rw [List.filter_cons_of_pos (by simpa using hw), List.getLastD_cons]
      rw [List.foldlM_cons, hfold, hlast]
      exact ih
    · -- All that follows is later still.
      have hskip : ∀ e ∈ entry :: entries, ¬ e.version ≤ w := by
        simp only [List.forall_mem_cons]
        exact ⟨stamp ▸ hw, fun e he h => hw ((rest.stamped e he).trans h)⟩
      have hnone : (d :: later).filter (fun d => d.version ≤ w) = [] := by
        simp only [List.filter_eq_nil_iff, List.forall_mem_cons, decide_eq_true_eq]
        exact ⟨hw, fun e he h => hw ((rest.ordered e he).trans h)⟩
      unfold lastAt
      rw [hnone]
      exact fold_later hskip

/-- One more entry, and what it comes to. -/
theorem Follows.concat (h : Follows c entries later) (stamp : entry.version = d.version)
    (order : (later.getLastD c).version ≤ d.version)
    (sum : checkedAdd (later.getLastD c).snapshot.sum entry.deltaSum = .ok d.snapshot.sum)
    (lazy : checkedAdd (later.getLastD c).snapshot.lazy entry.deltaLazy = .ok d.snapshot.lazy) :
    Follows c (entries ++ [entry]) (later ++ [d]) := by
  induction h with
  | nil c => exact .cons stamp order sum lazy (.nil d)
  | cons stamp' order' sum' lazy' rest ih =>
    rw [List.getLastD_cons] at order sum lazy
    exact .cons stamp' order' sum' lazy' (ih order sum lazy)

/-- What was computed for a node. -/
def computedFor (log : List Computation) (i : ℕ) : List Computation :=
  log.filter fun c => c.node = i

/-- What was computed last for a node by the updates up to the one that publishes a version. -/
def lastComputed (log : List Computation) (i v : ℕ) : Option Computation :=
  ((computedFor log i).filter fun c => c.version ≤ v).getLast?

/-- Something was computed for the node by then. -/
def Born (log : List Computation) (i v : ℕ) : Prop := ∃ c ∈ log, c.node = i ∧ c.version ≤ v

theorem computedFor_append (h : c.node ≠ i) : computedFor (log ++ [c]) i = computedFor log i := by
  simp [computedFor, h]

theorem computedFor_append_self (h : c.node = i) :
    computedFor (log ++ [c]) i = computedFor log i ++ [c] := by
  simp [computedFor, h]

theorem Born.append (h : Born log i v) (more : List Computation) : Born (log ++ more) i v := by
  obtain ⟨c, hc, hnode, hversion⟩ := h
  exact ⟨c, List.mem_append_left more hc, hnode, hversion⟩

/-- The base fields of the node were computed for it first, and its entries add up to what was
computed for it after that. -/
structure NodeTraced (log : List Computation) (i : ℕ) (node : Node) : Prop where
  capacity : node.bufferSize ≤ bufferCapacity
  computed : ∃ first later, computedFor log i = first :: later ∧
    first.snapshot = ⟨node.baseSum, node.baseLazy⟩ ∧ Follows first node.entries later

theorem NodeTraced.snapshotAt_eq (h : NodeTraced log i node) : ∃ first later,
    computedFor log i = first :: later ∧ Follows first node.entries later ∧
      ∀ w, snapshotAt node w = .ok (lastAt w first later).snapshot := by
  obtain ⟨first, later, hlog, hbase, hfollows⟩ := h.computed
  refine ⟨first, later, hlog, hfollows, fun w => ?_⟩
  unfold snapshotAt
  rw [← hbase]
  exact hfollows.fold w

/-- A node that something was computed for by then is read as what was computed last. -/
theorem NodeTraced.lastComputed_eq (h : NodeTraced log i node) (hb : Born log i v) :
    ∃ c, lastComputed log i v = some c ∧ snapshotAt node v = .ok c.snapshot := by
  obtain ⟨first, later, hlog, hfollows, hread⟩ := h.snapshotAt_eq
  refine ⟨lastAt v first later, ?_, hread v⟩
  obtain ⟨c, hc, hnode, hversion⟩ := hb
  have hmem : c ∈ first :: later := hlog ▸ List.mem_filter.mpr ⟨hc, by simpa using hnode⟩
  have hfirst : first.version ≤ v := by
    rcases List.mem_cons.mp hmem with rfl | hmem
    · exact hversion
    · exact (hfollows.ordered c hmem).trans hversion
  unfold lastComputed lastAt
  rw [hlog, List.filter_cons_of_pos (by simpa using hfirst), List.getLast?_cons]
  simp [List.getLastD_eq_getLast?]

end Follows

/-! ## Arenas -/

section Traced

variable {V W i j k v : ℕ} {nodes nodes' : List Node} {log log' : List Computation}
  {node : Node} {sum lazy deltaSum deltaLazy : ValueType}

/-- Every node is traced, up to a version, and a child was there when its parent was made. -/
structure Traced (V : ℕ) (nodes : List Node) (log : List Computation) : Prop where
  node : ∀ {i : ℕ} {node : Node}, nodes[i]? = some node → NodeTraced log i node
  logged : ∀ c ∈ log, c.node < nodes.length ∧ c.version ≤ V
  children : ∀ {i : ℕ} {node : Node}, nodes[i]? = some node → ∀ child,
    child = node.leftChild ∨ child = node.rightChild →
      child = noNode ∨ child < nodes.length ∧ ∀ v, Born log i v → Born log child v

theorem Traced.empty : Traced 0 [] [] := ⟨nofun, nofun, nofun⟩

theorem Traced.mono (h : Traced V nodes log) (hVW : V ≤ W) : Traced W nodes log :=
  ⟨h.node, fun c hc => ⟨(h.logged c hc).1, (h.logged c hc).2.trans hVW⟩, h.children⟩

/-- Something was computed for every node. -/
theorem Traced.born (h : Traced V nodes log) (hi : i < nodes.length) (hv : V ≤ v) :
    Born log i v := by
  obtain ⟨first, later, hlog, -⟩ := (h.node (List.getElem?_eq_getElem hi)).computed
  have hmem : first ∈ computedFor log i := hlog ▸ List.mem_cons_self
  obtain ⟨hmem, hnode⟩ := List.mem_filter.mp hmem
  exact ⟨first, hmem, by simpa using hnode, (h.logged first hmem).2.trans hv⟩

/-- With one more pair, of the version, a node was there by a version if it was there before or
the version is that late. -/
theorem Born.of_append {c : Computation} (h : Born (log ++ [c]) i v) :
    Born log i v ∨ c.node = i ∧ c.version ≤ v := by
  obtain ⟨d, hd, hnode, hversion⟩ := h
  rcases List.mem_append.mp hd with hd | hd
  · exact .inl ⟨d, hd, hnode, hversion⟩
  · rw [List.mem_singleton.mp hd] at hnode hversion
    exact .inr ⟨hnode, hversion⟩

/-- What is computed for another node leaves a node traced. -/
theorem NodeTraced.append {c : Computation} (h : NodeTraced log i node) (hc : c.node ≠ i) :
    NodeTraced (log ++ [c]) i node := by
  obtain ⟨hcap, first, later, hlog, hrest⟩ := h
  exact ⟨hcap, first, later, by rw [computedFor_append hc, hlog], hrest⟩

/-- A child is there by the version that a pair is computed for, so it is there when its parent
is. -/
theorem Traced.born_append {c : Computation} (h : Traced V nodes log) (hj : j < nodes.length)
    (hborn : ∀ v, Born log i v → Born log j v) (hc : c.version = V) :
    ∀ v, Born (log ++ [c]) i v → Born (log ++ [c]) j v := by
  intro v hv
  rcases hv.of_append with hv | ⟨-, hversion⟩
  · exact (hborn v hv).append _
  · exact (h.born hj (hc ▸ hversion)).append _

/-- **A new node.** -/
theorem Traced.push (h : Traced V nodes log)
    (hj : j = noNode ∨ j < nodes.length) (hk : k = noNode ∨ k < nodes.length) :
    Traced V (nodes ++ [⟨j, k, sum, lazy, 0, emptyBuffer⟩])
      (log ++ [⟨V, nodes.length, ⟨sum, lazy⟩⟩]) := by
  -- Nothing was computed for the index of the new node before.
  have hfresh : ∀ c ∈ log, c.node ≠ nodes.length := fun c hc => (h.logged c hc).1.ne
  refine ⟨fun {i node} hn => ?_, fun c hc => ?_, fun {i node} hn child hchild => ?_⟩
  · rcases getElem?_push hn with ⟨hi, hn⟩ | ⟨rfl, rfl⟩
    · exact (h.node hn).append hi.ne'
    · refine ⟨Nat.zero_le _, ⟨V, nodes.length, ⟨sum, lazy⟩⟩, [], ?_, rfl, .nil _⟩
      rw [computedFor_append_self rfl, computedFor,
        List.filter_eq_nil_iff.mpr (by simpa using hfresh), List.nil_append]
  · rw [List.length_append, List.length_singleton]
    rcases List.mem_append.mp hc with hc | hc
    · exact ⟨(h.logged c hc).1.trans (Nat.lt_succ_self _), (h.logged c hc).2⟩
    · rw [List.mem_singleton.mp hc]
      exact ⟨Nat.lt_succ_self _, le_rfl⟩
  · rw [List.length_append, List.length_singleton]
    rcases getElem?_push hn with ⟨-, hn⟩ | ⟨rfl, rfl⟩
    · rcases h.children hn child hchild with hno | ⟨hlt, hborn⟩
      · exact .inl hno
      · exact .inr ⟨hlt.trans (Nat.lt_succ_self _), h.born_append hlt hborn rfl⟩
    · have hold : child = noNode ∨ child < nodes.length := by
        rcases hchild with rfl | rfl
        · exact hj
        · exact hk
      refine hold.imp_right fun hlt => ⟨hlt.trans (Nat.lt_succ_self _), ?_⟩
      refine h.born_append hlt (fun v hv => ?_) rfl
      obtain ⟨c, hc, hnode, -⟩ := hv
      exact absurd hnode (hfresh c hc)

/-- A node of a vector that one node was written in. -/
theorem getElem?_written {new : Node} (h : (nodes.set i new)[k]? = some node) :
    (k = i ∧ node = new) ∨ (k ≠ i ∧ nodes[k]? = some node) := by
  by_cases hik : i = k
  · subst hik
    have hi : i < nodes.length := by simpa using (List.getElem?_eq_some_iff.mp h).1
    rw [List.getElem?_set_self hi, Option.some.injEq] at h
    exact .inl ⟨rfl, h.symm⟩
  · rw [List.getElem?_set_ne hik] at h
    exact .inr ⟨Ne.symm hik, h⟩

/-- **A new entry.** What is computed for the node is what its entries came to, and the deltas. -/
theorem Traced.write {latest : Snapshot} (h : Traced V nodes log) (hn : nodes[i]? = some node)
    (hlt : node.bufferSize < bufferCapacity) (hs : snapshotAt node V = .ok latest)
    (hsum : checkedAdd latest.sum deltaSum = .ok sum)
    (hlazy : checkedAdd latest.lazy deltaLazy = .ok lazy) :
    Traced V (nodes.set i (node.pushEntry ⟨V, deltaSum, deltaLazy⟩ hlt))
      (log ++ [⟨V, i, ⟨sum, lazy⟩⟩]) := by
  refine ⟨fun {k node'} hk => ?_, fun c hc => ?_, fun {k node'} hk child hchild => ?_⟩
  · rcases getElem?_written hk with ⟨rfl, rfl⟩ | ⟨hik, hk⟩
    · obtain ⟨-, first, later, hlog, hbase, hfollows⟩ := h.node hn
      have hmem : ∀ c ∈ first :: later, c.version ≤ V := fun c hc =>
        (h.logged c (List.mem_of_mem_filter (hlog ▸ hc : c ∈ computedFor log k))).2
      have hlast : lastAt V first later = later.getLastD first := by
        unfold lastAt
        rw [List.filter_eq_self.mpr fun c hc => by simpa using hmem c (List.mem_cons_of_mem _ hc)]
      have hread := hfollows.fold V
      rw [hbase, hlast] at hread
      obtain rfl : latest = (later.getLastD first).snapshot := by
        rw [snapshotAt, hread] at hs
        exact (Except.ok.inj hs).symm
      refine ⟨hlt, first, later ++ [⟨V, k, ⟨sum, lazy⟩⟩], ?_, hbase, ?_⟩
      · rw [computedFor_append_self rfl, hlog, List.cons_append]
      · rw [entries_pushEntry]
        exact hfollows.concat rfl (hmem _ List.getLastD_mem_cons) hsum hlazy
    · exact (h.node hk).append hik.symm
  · rw [List.length_set]
    rcases List.mem_append.mp hc with hc | hc
    · exact h.logged c hc
    · rw [List.mem_singleton.mp hc]
      exact ⟨(List.getElem?_eq_some_iff.mp hn).1, le_rfl⟩
  · -- The children of the written node are those it had.
    have hold : child = noNode ∨ child < nodes.length ∧ ∀ v, Born log k v → Born log child v := by
      rcases getElem?_written hk with ⟨rfl, rfl⟩ | ⟨-, hk⟩
      · exact h.children hn child hchild
      · exact h.children hk child hchild
    rw [List.length_set]
    exact hold.imp_right fun hc => ⟨hc.1, h.born_append hc.1 hc.2 rfl⟩

/-- **A rollback.** -/
theorem Traced.restored {s t : State} (h : Traced V s.nodes log) (hr : Restored s t) :
    Traced V t.nodes log := by
  have hold : ∀ {i : ℕ} {b : Node}, t.nodes[i]? = some b →
      ∃ a, s.nodes[i]? = some a ∧ SameNode a b := by
    intro i b hb
    have hi : i < s.nodes.length := hr.length ▸ (List.getElem?_eq_some_iff.mp hb).1
    obtain ⟨b', hb', hsame⟩ := hr.nodes i _ (List.getElem?_eq_getElem hi)
    rw [hb, Option.some.injEq] at hb'
    subst hb'
    exact ⟨_, List.getElem?_eq_getElem hi, hsame⟩
  refine ⟨fun {i b} hb => ?_, fun c hc => hr.length ▸ h.logged c hc,
    fun {i b} hb child hchild => ?_⟩
  · obtain ⟨a, ha, hbase, hsize, hentries⟩ := hold hb
    obtain ⟨hcap, first, later, hlog, hfirst, hfollows⟩ := h.node ha
    simp only [Node.base, Prod.mk.injEq] at hbase
    exact ⟨hsize ▸ hcap, first, later, hlog, by rw [hbase.2.2.1, hbase.2.2.2, hfirst],
      hentries ▸ hfollows⟩
  · obtain ⟨a, ha, hbase, -⟩ := hold hb
    simp only [Node.base, Prod.mk.injEq] at hbase
    rw [hbase.1, hbase.2.1] at hchild
    rw [hr.length]
    exact h.children ha child hchild

end Traced

/-! ## Updates -/

section Updates

variable {V i j k lo hi l r c : ℕ} {nodes nodes' nodes'' : List Node}
  {log log' log'' : List Computation} {node : Node}
  {sum lazy deltaSum deltaLazy value : ValueType} {s s' : Logged State Computation}

/-- The nodes are traced afterwards, and neither a node nor a pair is lost. -/
structure Extends (V : ℕ) (nodes : List Node) (log : List Computation) (nodes' : List Node)
    (log' : List Computation) : Prop where
  traced : Traced V nodes' log'
  length : nodes.length ≤ nodes'.length
  log : log <+: log'

theorem Extends.refl (h : Traced V nodes log) : Extends V nodes log nodes log :=
  ⟨h, le_rfl, List.prefix_rfl⟩

theorem Extends.trans (h : Extends V nodes log nodes' log')
    (h' : Extends V nodes' log' nodes'' log'') : Extends V nodes log nodes'' log'' :=
  ⟨h'.traced, h.length.trans h'.length, h.log.trans h'.log⟩

/-- A child that there was is there still. -/
theorem Extends.child (h : Extends V nodes log nodes' log')
    (hc : c = noNode ∨ c < nodes.length) : c = noNode ∨ c < nodes'.length :=
  hc.imp_right fun hlt => hlt.trans_le h.length

theorem Extends.push (h : Traced V nodes log) (hj : j = noNode ∨ j < nodes.length)
    (hk : k = noNode ∨ k < nodes.length) :
    Extends V nodes log (nodes ++ [⟨j, k, sum, lazy, 0, emptyBuffer⟩])
      (log ++ [⟨V, nodes.length, ⟨sum, lazy⟩⟩]) :=
  ⟨h.push hj hk, by simp, List.prefix_append _ _⟩

theorem loggedPushNode_run (V j k : ℕ) (sum lazy : ValueType) (s : Logged State Computation) :
    loggedPushNode V j k sum lazy s = .ok s.state.nodes.length
      ⟨{ s.state with nodes := s.state.nodes ++ [⟨j, k, sum, lazy, 0, emptyBuffer⟩] },
        s.log ++ [⟨V, s.state.nodes.length, ⟨sum, lazy⟩⟩]⟩ := by
  unfold loggedPushNode
  rw [run_bind_ok (quietly_ok (pushNode_run _ _)), run_bind_ok (note_run _ _)]
  rfl

theorem loggedPushNode_extends (h : Traced V s.state.nodes s.log)
    (hj : j = noNode ∨ j < s.state.nodes.length) (hk : k = noNode ∨ k < s.state.nodes.length)
    (hx : loggedPushNode V j k sum lazy s = .ok i s') :
    Extends V s.state.nodes s.log s'.state.nodes s'.log ∧ i < s'.state.nodes.length := by
  rw [loggedPushNode_run] at hx
  cases hx
  exact ⟨.push h hj hk, by simp⟩

/-- The children of a node that is there. -/
theorem Traced.child (h : Traced V nodes log) (hn : nodes[i]? = some node) :
    (node.leftChild = noNode ∨ node.leftChild < nodes.length) ∧
      (node.rightChild = noNode ∨ node.rightChild < nodes.length) :=
  ⟨(h.children hn _ (.inl rfl)).imp_right And.left, (h.children hn _ (.inr rfl)).imp_right And.left⟩

/-- **Modifying.** -/
theorem loggedModify_extends (h : Traced V s.state.nodes s.log)
    (hx : loggedModify i V deltaSum deltaLazy s = .ok j s') :
    (Extends V s.state.nodes s.log s'.state.nodes s'.log ∧ j < s'.state.nodes.length) ∧
      i < s.state.nodes.length := by
  unfold loggedModify at hx
  rw [run_bind_ok (quietly_ok (run_get s.state))] at hx
  obtain ⟨node, hn, hx⟩ := run_liftM_bind_eq_ok.mp hx
  obtain ⟨latest, hs, hx⟩ := run_liftM_bind_eq_ok.mp hx
  obtain ⟨nextSum, hsum, hx⟩ := run_liftM_bind_eq_ok.mp hx
  obtain ⟨nextLazy, hlazy, hx⟩ := run_liftM_bind_eq_ok.mp hx
  have hn := vectorAt_eq_ok.mp hn
  have hi := (List.getElem?_eq_some_iff.mp hn).1
  refine ⟨?_, hi⟩
  by_cases hlt : node.bufferSize < bufferCapacity
  · rw [dif_pos hlt, run_bind_ok (quietly_ok (run_modifyThe _ _)), run_bind_ok (note_run _ _)] at hx
    cases hx
    exact ⟨⟨h.write hn hlt hs hsum hlazy, by simp, List.prefix_append _ _⟩, by simpa using hi⟩
  · rw [dif_neg hlt] at hx
    obtain ⟨hl, hr⟩ := h.child hn
    exact loggedPushNode_extends h hl hr hx

/-- The update of one half, or the half left alone. -/
theorem half_extends {p : Prop} [Decidable p] {x : ComputationM State ℕ}
    (h : Traced V s.state.nodes s.log) (hc : c = noNode ∨ c < s.state.nodes.length)
    (hp : p → x s = .ok j s' →
      Extends V s.state.nodes s.log s'.state.nodes s'.log ∧ j < s'.state.nodes.length)
    (hx : (if p then x else pure c) s = .ok j s') :
    Extends V s.state.nodes s.log s'.state.nodes s'.log ∧
      (j = noNode ∨ j < s'.state.nodes.length) := by
  by_cases h1 : p
  · rw [if_pos h1] at hx
    exact (hp h1 hx).imp_right .inr
  · rw [if_neg h1] at hx
    cases hx
    exact ⟨.refl h, hc⟩

/-- **One update.** It starts at a node that is there, and leads to one. -/
theorem loggedUpdate_extends (h : Traced V s.state.nodes s.log)
    (hx : loggedUpdate i V lo hi l r value s = .ok j s') :
    (Extends V s.state.nodes s.log s'.state.nodes s'.log ∧ j < s'.state.nodes.length) ∧
      i < s.state.nodes.length := by
  induction hk : hi - lo using Nat.strong_induction_on generalizing i j lo hi s s' with
  | _ k ih =>
    rw [loggedUpdate] at hx
    obtain ⟨length, -, hx⟩ := run_liftM_bind_eq_ok.mp hx
    by_cases hin : l ≤ lo ∧ hi ≤ r
    · rw [if_pos hin] at hx
      obtain ⟨checked, -, hx⟩ := run_liftM_bind_eq_ok.mp hx
      obtain ⟨deltaSum, -, hx⟩ := run_liftM_bind_eq_ok.mp hx
      exact loggedModify_extends h hx
    rw [if_neg hin] at hx
    by_cases hlt : lo < hi
    swap
    · rw [if_neg hlt] at hx
      cases hx
    have hm := Segment.le_midpoint lo hi
    have hm' := Segment.midpoint_lt hlt
    rw [if_pos hlt, run_bind_ok (quietly_ok (run_get s.state))] at hx
    obtain ⟨node, hn, hx⟩ := run_liftM_bind_eq_ok.mp hx
    have hn := vectorAt_eq_ok.mp hn
    obtain ⟨hl, hr⟩ := h.child hn
    obtain ⟨newLeft, s₁, hx₁, hx⟩ := run_bind_eq_ok.mp hx
    obtain ⟨newRight, s₂, hx₂, hx⟩ := run_bind_eq_ok.mp hx
    obtain ⟨overlap, -, hx⟩ := run_liftM_bind_eq_ok.mp hx
    obtain ⟨checked, -, hx⟩ := run_liftM_bind_eq_ok.mp hx
    obtain ⟨deltaSum, -, hx⟩ := run_liftM_bind_eq_ok.mp hx
    obtain ⟨e₁, hleft⟩ := half_extends h hl (fun _ hx => (ih _ (by omega) h hx rfl).1) hx₁
    obtain ⟨e₂, hright⟩ := half_extends e₁.traced (e₁.child hr)
      (fun _ hx => (ih _ (by omega) e₁.traced hx rfl).1) hx₂
    have hroot : Extends V s₂.state.nodes s₂.log s'.state.nodes s'.log ∧
        j < s'.state.nodes.length := by
      split_ifs at hx
      · exact (loggedModify_extends e₂.traced hx).1
      · obtain ⟨latest, -, hx⟩ := run_liftM_bind_eq_ok.mp hx
        obtain ⟨sum, -, hx⟩ := run_liftM_bind_eq_ok.mp hx
        exact loggedPushNode_extends e₂.traced (e₂.child hleft) hright hx
    exact ⟨⟨(e₁.trans e₂).trans hroot.1, hroot.2⟩, (List.getElem?_eq_some_iff.mp hn).1⟩

/-- A node with an empty buffer at the end of a vector that is being built. -/
theorem pushBack_extends {s s' : Logged (List Node) Computation} (h : Traced 0 s.state s.log)
    (hj : j = noNode ∨ j < s.state.length) (hk : k = noNode ∨ k < s.state.length)
    (hx : (do
      let node ← quietly (pushBack ⟨j, k, sum, 0, 0, emptyBuffer⟩)
      note ⟨0, node, ⟨sum, 0⟩⟩
      return node : ComputationM (List Node) ℕ) s = .ok i s') :
    Extends 0 s.state s.log s'.state s'.log ∧ i < s'.state.length := by
  rw [run_bind_ok (quietly_ok (pushBack_run _ _)), run_bind_ok (note_run _ _)] at hx
  cases hx
  exact ⟨.push h hj hk, by simp⟩

/-- **Building.** -/
theorem loggedBuild_extends {values : List ValueType} {s s' : Logged (List Node) Computation}
    (h : Traced 0 s.state s.log) (hx : loggedBuild values lo hi s = .ok j s') :
    Extends 0 s.state s.log s'.state s'.log ∧ j < s'.state.length := by
  induction hk : hi - lo using Nat.strong_induction_on generalizing j lo hi s s' with
  | _ k ih =>
    rw [loggedBuild] at hx
    by_cases heq : lo = hi
    · rw [if_pos heq] at hx
      obtain ⟨value, -, hx⟩ := run_liftM_bind_eq_ok.mp hx
      exact pushBack_extends h (.inl rfl) (.inl rfl) hx
    rw [if_neg heq] at hx
    by_cases hlt : lo < hi
    swap
    · rw [if_neg hlt] at hx
      cases hx
    have hm := Segment.le_midpoint lo hi
    have hm' := Segment.midpoint_lt hlt
    rw [if_pos hlt] at hx
    obtain ⟨leftRoot, s₁, hx₁, hx⟩ := run_bind_eq_ok.mp hx
    obtain ⟨rightRoot, s₂, hx₂, hx⟩ := run_bind_eq_ok.mp hx
    obtain ⟨e₁, hleft⟩ := ih _ (by omega) h hx₁ rfl
    obtain ⟨e₂, hright⟩ := ih _ (by omega) e₁.traced hx₂ rfl
    have hleft : leftRoot < s₂.state.length := hleft.trans_le e₂.length
    rw [run_bind_ok (quietly_ok (readNode_run (List.getElem?_eq_getElem hleft))),
      run_bind_ok (quietly_ok (readNode_run (List.getElem?_eq_getElem hright)))] at hx
    obtain ⟨sum, -, hx⟩ := run_liftM_bind_eq_ok.mp hx
    obtain ⟨e₃, hj⟩ := pushBack_extends e₂.traced (.inr hleft) (.inr hright) hx
    exact ⟨(e₁.trans e₂).trans e₃, hj⟩

end Updates

/-! ## Runs -/

section Recorded

variable {V i j l r v root : ℕ} {value : ValueType} {nodes nodes' : List Node} {roots : List ℕ}
  {log log' : List Computation} {s s' : Logged State Computation} {t : State}

/-- The nodes are traced up to the latest version, and a root was there when its version was
published. An empty tree has no node for its root. -/
structure Recorded (nodes : List Node) (roots : List ℕ) (log : List Computation) : Prop where
  traced : Traced (roots.length - 1) nodes log
  roots : nodes ≠ [] → ∀ {v root : ℕ}, roots[v]? = some root →
    root < nodes.length ∧ Born log root v

/-- **Publishing.** -/
theorem Recorded.publish (h : Recorded nodes roots log)
    (hx : Extends roots.length nodes log nodes' log')
    (hj : nodes' ≠ [] → nodes ≠ [] ∧ j < nodes'.length) :
    Recorded nodes' (roots ++ [j]) log' := by
  refine ⟨by simpa using hx.traced, fun hne v root hroot => ?_⟩
  obtain ⟨hold, hj⟩ := hj hne
  rcases getElem?_push hroot with ⟨-, hroot⟩ | ⟨rfl, rfl⟩
  · obtain ⟨hlt, hborn⟩ := h.roots hold hroot
    obtain ⟨more, hmore⟩ := hx.log
    exact ⟨hlt.trans_le hx.length, hmore ▸ hborn.append more⟩
  · exact ⟨hj, hx.traced.born hj le_rfl⟩

/-- The latest root is published again. -/
theorem Recorded.republish (h : Recorded nodes roots log)
    (hroot : roots[roots.length - 1]? = some root) : Recorded nodes (roots ++ [root]) log :=
  h.publish (.refl (h.traced.mono (Nat.sub_le _ _))) fun hne => ⟨hne, (h.roots hne hroot).1⟩

theorem Recorded.restored {s : State} (h : Recorded s.nodes s.roots log) (hr : Restored s t) :
    Recorded t.nodes t.roots log := by
  refine ⟨hr.roots ▸ h.traced.restored hr, fun hne v root hroot => ?_⟩
  rw [hr.roots] at hroot
  rw [hr.length]
  refine h.roots (fun hnil => hne ?_) hroot
  rw [← List.length_eq_zero_iff, hr.length, hnil]
  rfl

/-- A built tree. -/
theorem Recorded.built {s : Logged (List Node) Computation} {values : List ValueType} {hi : ℕ}
    (hx : loggedBuild values 0 hi ⟨[], []⟩ = .ok root s) : Recorded s.state [root] s.log := by
  obtain ⟨e, hroot⟩ := loggedBuild_extends .empty hx
  refine ⟨e.traced, fun _ v root' hv => ?_⟩
  obtain ⟨rfl, rfl⟩ : v = 0 ∧ root = root' := by
    cases v with
    | zero => exact ⟨rfl, by simpa using hv⟩
    | succ v => simp at hv
  exact ⟨hroot, e.traced.born hroot le_rfl⟩

/-- An initialization that returns. -/
theorem loggedInitializeFrom_recorded {values : List ValueType} {u : Unit}
    (hx : loggedInitializeFrom values s = .ok u s') :
    Recorded s'.state.nodes s'.state.roots s'.log := by
  unfold loggedInitializeFrom at hx
  by_cases h0 : values = []
  · rw [if_pos h0] at hx
    cases hx
    exact ⟨.empty, fun hne => absurd rfl hne⟩
  rw [if_neg h0] at hx
  obtain ⟨nodeCount, -, hx⟩ := run_liftM_bind_eq_ok.mp hx
  obtain ⟨⟨⟩, -, hx⟩ := run_liftM_bind_eq_ok.mp hx
  obtain ⟨⟨root, built⟩, hb, hx⟩ := run_liftM_bind_eq_ok.mp hx
  cases hx
  exact .built (onLocal_eq_ok.mp hb)

/-- One that throws leaves the state and the log as they were. -/
theorem loggedInitializeFrom_atomic (values : List ValueType) :
    Atomic (loggedInitializeFrom values) :=
  .ite (fun _ => .set _) fun _ => .bind_lift fun _ => .bind_lift fun _ => .bind_lift fun _ => .set _

/-- An update changes no root, and what it did to the nodes can be undone. -/
theorem loggedUpdate_undoable (i V n l r : ℕ) (value : ValueType) (s : Logged State Computation) :
    Undoable s.state (finalState (loggedUpdate i V 0 n l r value s)).state := by
  have hback := update_undoable i V 0 n l r value s.state
  rw [(loggedUpdate_erases V l r value 0 n (Nat.zero_le n) i).finalState_eq s] at hback
  exact hback

/-- The try block that returns. -/
theorem loggedPublishUpdate_recorded {n : ℕ} {u : Unit}
    (h : Recorded s.state.nodes s.state.roots s.log)
    (hx : loggedPublishUpdate root s.state.roots.length n l r value s = .ok u s') :
    Recorded s'.state.nodes s'.state.roots s'.log := by
  have htraced := h.traced.mono (Nat.sub_le s.state.roots.length 1)
  unfold loggedPublishUpdate at hx
  obtain ⟨newRoot, s₁, hu, hx⟩ := run_bind_eq_ok.mp hx
  cases hx
  obtain ⟨⟨hextends, hnew⟩, hold⟩ := loggedUpdate_extends htraced hu
  have hpublished := (loggedUpdate_undoable root s.state.roots.length (n - 1) l r value s).published
  rw [hu] at hpublished
  have hroots : s₁.state.roots = s.state.roots := (Prod.mk.inj hpublished).1
  have hne : s.state.nodes ≠ [] := List.ne_nil_of_length_pos (Nat.zero_lt_of_lt hold)
  have hrecorded := h.publish hextends fun _ => ⟨hne, hnew⟩
  rwa [← hroots] at hrecorded

/-- The try block that throws is undone by the catch block. -/
theorem loggedPublishUpdate_restored {n : ℕ} {e : Exception} (h : Traced V s.state.nodes s.log)
    (hb : s.state.bufferedThisUpdate = [])
    (hx : loggedPublishUpdate root v n l r value s = .error e s') :
    Restored s.state (finalState (rollback s.state.nodes.length s'.state)) := by
  unfold loggedPublishUpdate at hx
  have hu : loggedUpdate root v 0 (n - 1) l r value s = .error e s' := by
    rcases run_bind_eq_error.mp hx with hu | ⟨newRoot, s₁, -, hx⟩
    · exact hu
    · cases hx
  have hund := loggedUpdate_undoable root v (n - 1) l r value s
  rw [hu] at hund
  refine hund.rollback hb fun node hnode => ?_
  obtain ⟨i, hi⟩ := List.getElem?_of_mem hnode
  exact (h.node hi).capacity

/-- **A range addition.** -/
theorem loggedRangeAdd_recorded (l r : ℕ) (value : ValueType)
    (h : Recorded s.state.nodes s.state.roots s.log)
    (hs : finalState (loggedRangeAdd l r value s) = s') :
    Recorded s'.state.nodes s'.state.roots s'.log := by
  subst hs
  unfold loggedRangeAdd
  rw [run_bind_ok (quietly_ok (run_get s.state))]
  rcases validateInitialized s.state.roots.length with e | ⟨⟩
  · exact h
  rw [run_bind_ok (liftM_ok _ s)]
  rcases validateNonEmpty s.state.arraySize with e | ⟨⟩
  · exact h
  rw [run_bind_ok (liftM_ok _ s)]
  rcases validateRange s.state.arraySize l r with e | ⟨⟩
  · exact h
  rw [run_bind_ok (liftM_ok _ s)]
  rcases hroot : vectorAt s.state.roots (s.state.roots.length - 1) with e | root
  · exact h
  rw [run_bind_ok (liftM_ok _ s)]
  by_cases h0 : value = 0
  · rw [if_pos h0]
    exact h.republish (vectorAt_eq_ok.mp hroot)
  rw [if_neg h0]
  rcases s.state.numericDomain.preflight s.state.arraySize l r value fun values =>
    materialize s.state.nodes (s.state.roots.length - 1) root 0 (s.state.arraySize - 1) 0 values
    with e | domain
  · exact h
  rw [run_bind_ok (liftM_ok _ s), run_bind_ok (run_get s),
    run_bind_ok (quietly_ok (run_modifyThe _ s.state))]
  let cleared : Logged State Computation := ⟨{ s.state with bufferedThisUpdate := [] }, s.log⟩
  have hcleared : Recorded cleared.state.nodes cleared.state.roots cleared.log := h
  rcases hx : loggedPublishUpdate root s.state.roots.length s.state.arraySize l r value cleared with
    ⟨⟨⟩, s₁⟩ | ⟨e, s₁⟩
  · have hrecorded := loggedPublishUpdate_recorded hcleared hx
    rw [run_bind_ok (onThrow_ok hx)]
    exact hrecorded
  · rw [run_bind_error (onThrow_error hx)]
    exact hcleared.restored (loggedPublishUpdate_restored hcleared.traced rfl hx)

/-- **Every run.** -/
theorem recorded_run (calls : List (Call (List ValueType))) :
    Recorded (loggedEngine.run calls).1.state.nodes (loggedEngine.run calls).1.state.roots
      (loggedEngine.run calls).1.log := by
  refine Engine.runFrom_induction (E := loggedEngine)
    (P := fun p => Recorded p.1.state.nodes p.1.state.roots p.1.log) (fun p c hp => ?_) calls _
    ⟨.empty, fun hne => absurd rfl hne⟩
  obtain ⟨s, o⟩ := p
  cases c with
  | initializeFrom values =>
    rcases hi : loggedEngine.initializeFrom values s with ⟨u, s'⟩ | ⟨e, s'⟩
    · rw [Engine.step_initialize_ok hi]
      exact loggedInitializeFrom_recorded hi
    · rw [Engine.step_initialize_error hi, loggedInitializeFrom_atomic values _ _ _ hi]
      exact hp
  | rangeAdd l r value =>
    have hadd := loggedRangeAdd_recorded l r value hp rfl
    rcases hi : loggedEngine.rangeAdd l r value s with ⟨x, s'⟩ | ⟨e, s'⟩
    all_goals
      rw [show loggedRangeAdd l r value s = _ from hi] at hadd
    · rw [Engine.step_rangeAdd_ok hi]
      exact hadd
    · rw [Engine.step_rangeAdd_error hi]
      exact hadd

end Recorded

/-! ## The nodes of a version -/

/-- Child links lead from the root to the node; `noNode` is no link. -/
abbrev Reaches : List Node → (root i : ℕ) → Prop :=
  LeadsTo fun node child => (child = node.leftChild ∨ child = node.rightChild) ∧ child ≠ noNode

/-- **The nodes of a version.** They were there by the version when their root was. -/
theorem Reaches.born {V i v root : ℕ} {nodes : List Node} {log : List Computation}
    (hr : Reaches nodes root i) (h : Traced V nodes log) (hroot : Born log root v) :
    Born log i v := by
  induction hr with
  | refl => exact hroot
  | tail _ hlink ih =>
    obtain ⟨node, here, link, isNode⟩ := hlink
    rcases h.children here _ link with hno | ⟨-, hborn⟩
    · exact absurd hno isNode
    · exact hborn v ih

/-- **Buffered snapshots.** After every run each node of the arena is read at each version, and a
node that the root of a version reaches is read at it as what the updates up to the one that
published the version computed for it last. -/
theorem buffered_snapshots (calls : List (Call (List ValueType))) :
    (loggedEngine.run calls).1.state = (engine.run calls).1 ∧
      (∀ node ∈ (engine.run calls).1.nodes, ∀ version, Returns (snapshotAt node version)) ∧
        ∀ v root, (engine.run calls).1.roots[v]? = some root → ∀ i node,
          Reaches (engine.run calls).1.nodes root i → (engine.run calls).1.nodes[i]? = some node →
            ∃ c, lastComputed (computations calls) i v = some c ∧
              snapshotAt node v = .ok c.snapshot := by
  have h := recorded_run calls
  have hstate : (loggedEngine.run calls).1.state = (engine.run calls).1 := by rw [run_erases calls]
  rw [hstate] at h
  refine ⟨hstate, fun node hnode version => ?_, fun v root hroot i node hpath hnode => ?_⟩
  · obtain ⟨i, hi⟩ := List.getElem?_of_mem hnode
    obtain ⟨first, later, -, -, hread⟩ := (h.traced.node hi).snapshotAt_eq
    exact ⟨_, hread version⟩
  · have hne : (engine.run calls).1.nodes ≠ [] := List.ne_nil_of_mem (List.mem_of_getElem? hnode)
    obtain ⟨-, hborn⟩ := h.roots hne hroot
    exact (h.traced.node hnode).lastComputed_eq (hpath.born h.traced hborn)

end BufferedPathCopyingSegmentTree

end Valseg
