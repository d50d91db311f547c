import Valseg.CheckpointedSums
import Valseg.CopyOnPushSegmentTree
import Valseg.FatNodeSpace
import Valseg.BufferedPathCopyingSegmentTree
import Valseg.PersistentLazySegmentTree
import Valseg.PointOnlyPersistentSegmentTree
import Valseg.ReplayedEntries

/-!
# Trials

`PersistentAdapter` of `bench/adapters.hpp` and the two replays of `bench/bench_main.cpp`, which are
templates over any adapter: `runTrial` runs a stream of operations in its order, `runBatchTrial` all
of its updates and then all of its queries. A trial measures with a clock, of which nothing is
assumed, and ends early when the retained bytes pass a cap. Of a trial that ends below the cap
`runTrial_eq_ok` and `runBatchTrial_eq_ok` say what it has done, and `interleaved_cons`,
`updateBatch_cons` and `queryBatch_cons` what its loops have done at an operation.
-/

namespace Valseg

namespace Bench

/-! ## Adapters -/

/-- What an adapter uses of a structure. `initialize(values)` has one argument more in one of
them. -/
structure PersistentAdapter (ι σ : Type) where
  tree : Engine ι ℕ σ
  argument : List ValueType → ι
  rangeSum : σ → (version left right : ℕ) → Except Exception ValueType
  nodeCount : σ → Except Exception ℕ
  versionCount : σ → Except Exception ℕ
  payload : σ → Except Exception UInt64

namespace PersistentAdapter

variable {ι σ : Type} (A : PersistentAdapter ι σ)

def build (values : List ValueType) : EStateM Exception σ Unit :=
  A.tree.initializeFrom (A.argument values)

def update (left right : ℕ) (delta : ValueType) : EStateM Exception σ Unit := do
  let _ ← A.tree.rangeAdd left right delta

def query : σ → (version left right : ℕ) → Except Exception ValueType := A.rangeSum

def nodes : σ → Except Exception ℕ := A.nodeCount

def bytes : σ → Except Exception UInt64 := A.payload

def versions : σ → Except Exception ℕ := A.versionCount

end PersistentAdapter

/-- The seven persistent structures. -/
inductive PersistentStructure
  | persistent | copyOnPush | fullCopy | pointOnly | checkpointing | buffered | fatNode
  deriving DecidableEq, Repr

namespace PersistentStructure

/-- What an initialization is given. -/
def Argument : PersistentStructure → Type
  | checkpointing => List ValueType × ℕ
  | _ => List ValueType

/-- The state of the tree. -/
def State : PersistentStructure → Type
  | persistent => PersistentLazySegmentTree.State
  | copyOnPush => CopyOnPushSegmentTree.State
  | fullCopy => FullCopyPersistentSegmentTree.State
  | pointOnly => PointOnlyPersistentSegmentTree.State
  | checkpointing => CheckpointingSegmentTree.State
  | buffered => BufferedPathCopyingSegmentTree.State
  | fatNode => FatNodePersistentSegmentTree.State

/-- A node is 16 bytes and a log entry 24; `nodeCount` mixes both. -/
def checkpointingBytes (tree : CheckpointingSegmentTree.State) : Except Exception UInt64 := do
  let treeNodes : UInt64 := if tree.arraySize = 0 then 0 else
    (.ofNat (CheckpointingSegmentTree.checkpointCount tree) + 1) * (2 * .ofNat tree.arraySize - 1)
  let entries := .ofNat (← CheckpointingSegmentTree.nodeCount tree) - treeNodes
  return treeNodes * 16 + entries * 24

/-- `PersistentAdapter<Tree>`, constructed with the checkpoint interval. -/
def adapter (interval : ℕ) : (which : PersistentStructure) →
    PersistentAdapter which.Argument which.State
  | persistent => {
      tree := PersistentLazySegmentTree.engine
      argument := id
      rangeSum := PersistentLazySegmentTree.rangeSum
      nodeCount := fun tree => .ok (PathCopying.nodeCount tree)
      versionCount := fun tree => .ok (PersistentLazySegmentTree.versionCount tree)
      payload := fun tree => .ok (.ofNat (PathCopying.nodeCount tree) * 32) }
  | copyOnPush => {
      tree := CopyOnPushSegmentTree.engine
      argument := id
      rangeSum := CopyOnPushSegmentTree.rangeSum
      nodeCount := fun tree => .ok (PathCopying.nodeCount tree)
      versionCount := fun tree => .ok (CopyOnPushSegmentTree.versionCount tree)
      payload := fun tree => .ok (.ofNat (PathCopying.nodeCount tree) * 32) }
  | fullCopy => {
      tree := FullCopyPersistentSegmentTree.engine
      argument := id
      rangeSum := FullCopyPersistentSegmentTree.rangeSum
      nodeCount := fun tree => .ok (PathCopying.nodeCount tree)
      versionCount := fun tree => .ok (FullCopyPersistentSegmentTree.versionCount tree)
      payload := fun tree => .ok (.ofNat (PathCopying.nodeCount tree) * 24) }
  | pointOnly => {
      tree := PointOnlyPersistentSegmentTree.engine
      argument := id
      rangeSum := PointOnlyPersistentSegmentTree.rangeSum
      nodeCount := fun tree => .ok (PathCopying.nodeCount tree)
      versionCount := fun tree => .ok (PointOnlyPersistentSegmentTree.versionCount tree)
      payload := fun tree => .ok (.ofNat (PathCopying.nodeCount tree) * 24) }
  | checkpointing => {
      tree := CheckpointingSegmentTree.engine
      argument := fun values => (values, interval)
      rangeSum := CheckpointingSegmentTree.rangeSum
      nodeCount := CheckpointingSegmentTree.nodeCount
      versionCount := CheckpointingSegmentTree.versionCount
      payload := checkpointingBytes }
  | buffered => {
      tree := BufferedPathCopyingSegmentTree.engine
      argument := id
      rangeSum := BufferedPathCopyingSegmentTree.rangeSum
      nodeCount := fun tree => .ok tree.nodes.length
      versionCount := fun tree => .ok (BufferedPathCopyingSegmentTree.versionCount tree)
      payload := fun tree => .ok (.ofNat tree.nodes.length * 88) }
  | fatNode => {
      tree := FatNodePersistentSegmentTree.engine
      argument := id
      rangeSum := FatNodePersistentSegmentTree.rangeSum
      nodeCount := fun tree => .ok (FatNodePersistentSegmentTree.nodeCount tree)
      versionCount := fun tree => .ok (FatNodePersistentSegmentTree.versionCount tree)
      payload := fun tree => .ok (.ofNat (FatNodePersistentSegmentTree.nodeCount tree) * 128) }

end PersistentStructure

/-! ## What a trial measures -/

inductive TrialStatus
  | ok | memoryCap
  deriving DecidableEq, Repr

/-- One memory reading taken part-way through a trial. -/
structure Sample where
  opIndex : ℕ
  versions : ℕ
  nodes : ℕ
  bytes : UInt64
  deriving DecidableEq, Repr

/-- What one replay of a stream produced. Times are in nanoseconds. -/
structure TrialResult where
  updates : ℕ := 0
  queries : ℕ := 0
  buildNs : ℤ := 0
  buildNodes : ℕ := 0
  updateNs : ℤ := 0
  queryNs : ℤ := 0
  batchNs : ℤ := -1
  nodes : ℕ := 0
  bytes : UInt64 := 0
  checksum : UInt64 := 0
  status : TrialStatus := .ok
  samples : List Sample := []
  deriving DecidableEq, Repr

/-- `result.checksum * 1000003ULL + static_cast<std::uint64_t>(answer)`. -/
def extendChecksum (checksum : UInt64) (answer : ValueType) : UInt64 :=
  checksum * 1000003 + answer.toUInt64

/-- The tree under measurement, and how often the clock has been read. -/
structure Measured (σ : Type) where
  tree : σ
  readings : ℕ

abbrev MeasuredM (σ : Type) := EStateM Exception (Measured σ)

section Measuring

variable {σ α : Type} (clock : ℕ → ℤ)

/-- `Clock::now()`. -/
def now : MeasuredM σ ℤ := do
  let this ← get
  set { this with readings := this.readings + 1 }
  return clock this.readings

def nanosSince (start : ℤ) : MeasuredM σ ℤ := do
  return (← now clock) - start

/-- A call of the adapter that may write. -/
def calling (x : EStateM Exception σ α) : MeasuredM σ α :=
  Effect.zoom Measured.tree (fun tree this => { this with tree := tree }) x

/-- A call that only reads. -/
def reading (f : σ → Except Exception α) : MeasuredM σ α := calling do f (← get)

/-- A clock pair around the call when it is timed. -/
def bracketed (timed : Prop) [Decidable timed] (x : MeasuredM σ α) : MeasuredM σ (α × ℤ) :=
  if timed then do
    let start ← now clock
    let a ← x
    return (a, ← nanosSince clock start)
  else do
    return (← x, 0)

variable {clock : ℕ → ℤ} {s s' : Measured σ} {x : EStateM Exception σ α}
  {f : σ → Except Exception α} {a : α} {e : Exception} {d : ℤ} {timed : Prop} [Decidable timed]

theorem calling_eq_ok :
    calling x s = .ok a s' ↔ ∃ t, x s.tree = .ok a t ∧ s' = ⟨t, s.readings⟩ := by
  unfold calling Effect.zoom
  rcases x s.tree with ⟨b, t⟩ | ⟨e, t⟩ <;> simp [eq_comm]

theorem calling_eq_error :
    calling x s = .error e s' ↔ ∃ t, x s.tree = .error e t ∧ s' = ⟨t, s.readings⟩ := by
  unfold calling Effect.zoom
  rcases x s.tree with ⟨b, t⟩ | ⟨e, t⟩ <;> simp [eq_comm]

/-- A call that only reads leaves the tree. -/
theorem run_get_bind_eq_ok {t t' : σ} :
    ((do f (← get)) : EStateM Exception σ α) t = .ok a t' ↔ f t = .ok a ∧ t' = t := by
  rw [Effect.run_bind_ok (Effect.run_get t)]
  exact Effect.run_liftM_eq_ok

theorem run_get_bind_eq_error {t t' : σ} :
    ((do f (← get)) : EStateM Exception σ α) t = .error e t' ↔ f t = .error e ∧ t' = t := by
  rw [Effect.run_bind_ok (Effect.run_get t)]
  exact Effect.run_liftM_eq_error

theorem reading_eq_ok : reading f s = .ok a s' ↔ f s.tree = .ok a ∧ s' = s := by
  unfold reading
  simp only [calling_eq_ok, run_get_bind_eq_ok]
  constructor
  · rintro ⟨t, ⟨h, rfl⟩, rfl⟩
    exact ⟨h, rfl⟩
  · rintro ⟨h, rfl⟩
    exact ⟨_, ⟨h, rfl⟩, rfl⟩

theorem reading_eq_error : reading f s = .error e s' ↔ f s.tree = .error e ∧ s' = s := by
  unfold reading
  simp only [calling_eq_error, run_get_bind_eq_error]
  constructor
  · rintro ⟨t, ⟨h, rfl⟩, rfl⟩
    exact ⟨h, rfl⟩
  · rintro ⟨h, rfl⟩
    exact ⟨_, ⟨h, rfl⟩, rfl⟩

/-! One step of a trial after another. -/

variable {β : Type} {b : β}

theorem run_bind_now (g : ℤ → MeasuredM σ β) (s : Measured σ) :
    (now clock >>= g) s = g (clock s.readings) ⟨s.tree, s.readings + 1⟩ := rfl

theorem run_bind_nanosSince (start : ℤ) (g : ℤ → MeasuredM σ β) (s : Measured σ) :
    (nanosSince clock start >>= g) s =
      g (clock s.readings - start) ⟨s.tree, s.readings + 1⟩ := rfl

theorem run_bind_calling_eq_ok {g : α → MeasuredM σ β} : (calling x >>= g) s = .ok b s' ↔
    ∃ a t, x s.tree = .ok a t ∧ g a ⟨t, s.readings⟩ = .ok b s' := by
  simp only [Effect.run_bind_eq_ok, calling_eq_ok]
  constructor
  · rintro ⟨a, s₁, ⟨t, hx, rfl⟩, hg⟩
    exact ⟨a, t, hx, hg⟩
  · rintro ⟨a, t, hx, hg⟩
    exact ⟨a, _, ⟨t, hx, rfl⟩, hg⟩

theorem run_bind_calling_eq_error {g : α → MeasuredM σ β} : (calling x >>= g) s = .error e s' ↔
    (∃ t, x s.tree = .error e t ∧ s' = ⟨t, s.readings⟩) ∨
      ∃ a t, x s.tree = .ok a t ∧ g a ⟨t, s.readings⟩ = .error e s' := by
  simp only [Effect.run_bind_eq_error, calling_eq_ok, calling_eq_error]
  refine or_congr_right ⟨?_, ?_⟩
  · rintro ⟨a, s₁, ⟨t, hx, rfl⟩, hg⟩
    exact ⟨a, t, hx, hg⟩
  · rintro ⟨a, t, hx, hg⟩
    exact ⟨a, _, ⟨t, hx, rfl⟩, hg⟩

theorem run_bind_reading_eq_ok {g : α → MeasuredM σ β} :
    (reading f >>= g) s = .ok b s' ↔ ∃ a, f s.tree = .ok a ∧ g a s = .ok b s' := by
  simp only [Effect.run_bind_eq_ok, reading_eq_ok]
  constructor
  · rintro ⟨a, s₁, ⟨hf, rfl⟩, hg⟩
    exact ⟨a, hf, hg⟩
  · rintro ⟨a, hf, hg⟩
    exact ⟨a, s, ⟨hf, rfl⟩, hg⟩

theorem run_bind_reading_eq_error {g : α → MeasuredM σ β} : (reading f >>= g) s = .error e s' ↔
    (f s.tree = .error e ∧ s' = s) ∨ ∃ a, f s.tree = .ok a ∧ g a s = .error e s' := by
  simp only [Effect.run_bind_eq_error, reading_eq_ok, reading_eq_error]
  refine or_congr_right ⟨?_, ?_⟩
  · rintro ⟨a, s₁, ⟨hf, rfl⟩, hg⟩
    exact ⟨a, hf, hg⟩
  · rintro ⟨a, hf, hg⟩
    exact ⟨a, s, ⟨hf, rfl⟩, hg⟩

/-- The clock does not change what a call does. -/
theorem bracketed_eq_ok (h : bracketed clock timed (calling x) s = .ok (a, d) s') :
    x s.tree = .ok a s'.tree := by
  unfold bracketed at h
  split_ifs at h
  · rw [run_bind_now] at h
    obtain ⟨b, t, hx, h⟩ := run_bind_calling_eq_ok.mp h
    cases h
    exact hx
  · obtain ⟨b, t, hx, h⟩ := run_bind_calling_eq_ok.mp h
    cases h
    exact hx

theorem bracketed_eq_error (h : bracketed clock timed (calling x) s = .error e s') :
    ∃ t, x s.tree = .error e t := by
  unfold bracketed at h
  split_ifs at h
  · rw [run_bind_now] at h
    rcases run_bind_calling_eq_error.mp h with ⟨t, hx, -⟩ | ⟨b, t, -, h⟩
    · exact ⟨t, hx⟩
    · cases h
  · rcases run_bind_calling_eq_error.mp h with ⟨t, hx, -⟩ | ⟨b, t, -, h⟩
    · exact ⟨t, hx⟩
    · cases h

end Measuring

/-! ## The two replays -/

/-- What a replay uses of an adapter. -/
structure Adapter (σ : Type) where
  empty : σ
  build : List ValueType → EStateM Exception σ Unit
  update : (left right : ℕ) → ValueType → EStateM Exception σ Unit
  query : (version left right : ℕ) → EStateM Exception σ ValueType
  nodes : σ → Except Exception ℕ
  bytes : σ → Except Exception UInt64
  versions : σ → Except Exception ℕ

namespace Adapter

variable {σ : Type} (A : Adapter σ) (clock : ℕ → ℤ) (capBytes : UInt64)

/-- One operation of the interleaved replay. -/
def replayOperation (timed : Prop) [Decidable timed] (op : Operation) (result : TrialResult) :
    MeasuredM σ TrialResult :=
  if op.isUpdate then do
    let (_, elapsed) ← bracketed clock timed (calling (A.update op.left op.right op.delta))
    return { result with
      updateNs := result.updateNs + elapsed
      updates := result.updates + 1 }
  else do
    let (answer, elapsed) ←
      bracketed clock timed (calling (A.query op.version op.left op.right))
    return { result with
      queryNs := result.queryNs + elapsed
      queries := result.queries + 1
      checksum := extendChecksum result.checksum answer }

/-- A memory reading, when one is due. -/
def sample (due : Prop) [Decidable due] (index : ℕ) (bytes : UInt64) (result : TrialResult) :
    MeasuredM σ TrialResult :=
  if due then do
    let versions ← reading A.versions
    let nodes ← reading A.nodes
    return { result with samples := result.samples ++ [⟨index + 1, versions, nodes, bytes⟩] }
  else return result

/-- The loop over the stream. -/
def interleaved (streamSize timeEvery : ℕ) :
    List Operation → (index : ℕ) → TrialResult → MeasuredM σ TrialResult
  | [], _, result => return result
  | op :: stream, index, result => do
    let timed := timeEvery ≤ 1 ∨ index % timeEvery = 0
    let result ← A.replayOperation clock timed op result
    let bytes ← reading A.bytes
    let sampleEvery := max 1 (streamSize / 20)
    let due := (index + 1) % sampleEvery = 0 ∨ index + 1 = streamSize ∨ bytes > capBytes
    let result ← A.sample due index bytes result
    if bytes > capBytes then return { result with status := .memoryCap }
    else interleaved streamSize timeEvery stream (index + 1) result

def runTrial (initial : List ValueType) (stream : List Operation) (timeEvery : ℕ) :
    MeasuredM σ TrialResult := do
  let buildStart ← now clock
  calling (A.build initial)
  let buildNs ← nanosSince clock buildStart
  let buildNodes ← reading A.nodes
  let result ← A.interleaved clock capBytes stream.length timeEvery stream 0
    { buildNs := buildNs, buildNodes := buildNodes }
  let nodes ← reading A.nodes
  let bytes ← reading A.bytes
  return { result with nodes := nodes, bytes := bytes }

/-- The loop over the updates, and whether they passed the cap. -/
def updateBatch : List Operation → TrialResult → MeasuredM σ (TrialResult × Bool)
  | [], result => return (result, false)
  | op :: stream, result =>
    if op.isUpdate then do
      calling (A.update op.left op.right op.delta)
      let result := { result with updates := result.updates + 1 }
      if (← reading A.bytes) > capBytes then return (result, true)
      else updateBatch stream result
    else updateBatch stream result

/-- The loop over the queries. -/
def queryBatch : List Operation → TrialResult → MeasuredM σ TrialResult
  | [], result => return result
  | op :: stream, result =>
    if op.isUpdate then queryBatch stream result
    else do
      let answer ← calling (A.query op.version op.left op.right)
      let result := { result with
        checksum := extendChecksum result.checksum answer
        queries := result.queries + 1 }
      if (← reading A.bytes) > capBytes then return { result with status := .memoryCap }
      else queryBatch stream result

def runBatchTrial (initial : List ValueType) (stream : List Operation) :
    MeasuredM σ TrialResult := do
  let buildStart ← now clock
  calling (A.build initial)
  let buildNs ← nanosSince clock buildStart
  let buildNodes ← reading A.nodes
  let updateStart ← now clock
  let (result, capped) ← A.updateBatch capBytes stream
    { buildNs := buildNs, buildNodes := buildNodes }
  let updateNs ← nanosSince clock updateStart
  let result := { result with updateNs := updateNs }
  let result ← (if capped then return { result with status := .memoryCap } else do
    let queryStart ← now clock
    let result ← A.queryBatch capBytes stream result
    let queryNs ← nanosSince clock queryStart
    return { result with queryNs := queryNs })
  let nodes ← reading A.nodes
  let bytes ← reading A.bytes
  return { result with
    batchNs := result.updateNs + result.queryNs, nodes := nodes, bytes := bytes }

end Adapter

/-- `PersistentAdapter`, whose queries only read. -/
def PersistentAdapter.writing {ι σ : Type} (A : PersistentAdapter ι σ) : Adapter σ where
  empty := A.tree.empty
  build := A.build
  update := A.update
  query := fun version left right => do A.query (← get) version left right
  nodes := A.nodes
  bytes := A.bytes
  versions := A.versions

namespace PersistentAdapter

variable {ι σ : Type} (A : PersistentAdapter ι σ)

abbrev runTrial : (clock : ℕ → ℤ) → (capBytes : UInt64) → (initial : List ValueType) →
    (stream : List Operation) → (timeEvery : ℕ) → MeasuredM σ TrialResult := A.writing.runTrial

abbrev runBatchTrial : (clock : ℕ → ℤ) → (capBytes : UInt64) → (initial : List ValueType) →
    (stream : List Operation) → MeasuredM σ TrialResult := A.writing.runBatchTrial

/-- A trial constructs its structure. -/
def start : Measured σ := ⟨A.tree.empty, 0⟩

end PersistentAdapter

/-! ## Finished replays -/

namespace Adapter

variable {σ : Type} {A : Adapter σ} {clock : ℕ → ℤ} {capBytes : UInt64} {initial : List ValueType}
  {op : Operation} {stream : List Operation} {streamSize timeEvery index : ℕ}
  {result result' : TrialResult} {m m' : Measured σ}

variable (A) in
/-- What an operation of the interleaved replay does to the result and to the tree. -/
inductive Performs (op : Operation) (result : TrialResult) (s : σ) : TrialResult → σ → Prop
  | update {t : σ} {updateNs : ℤ} {samples : List Sample} (hu : op.isUpdate = true)
      (h : A.update op.left op.right op.delta s = .ok () t) :
      Performs op result s
        { result with updateNs := updateNs, updates := result.updates + 1, samples := samples } t
  | query {x : ValueType} {t : σ} {queryNs : ℤ} {samples : List Sample}
      (hu : ¬ op.isUpdate = true) (h : A.query op.version op.left op.right s = .ok x t) :
      Performs op result s
        { result with
          queryNs := queryNs
          queries := result.queries + 1
          checksum := extendChecksum result.checksum x
          samples := samples } t

/-- A memory reading leaves the tree and the sums of the result. -/
theorem sample_eq_ok {due : Prop} [Decidable due] {bytes : UInt64}
    (h : A.sample due index bytes result m = .ok result' m') :
    m' = m ∧ ∃ samples, result' = { result with samples := samples } := by
  unfold sample at h
  by_cases hdue : due
  · rw [if_pos hdue] at h
    obtain ⟨versions, -, h⟩ := run_bind_reading_eq_ok.mp h
    obtain ⟨nodes, -, h⟩ := run_bind_reading_eq_ok.mp h
    cases h
    exact ⟨rfl, _, rfl⟩
  · rw [if_neg hdue] at h
    cases h
    exact ⟨rfl, _, rfl⟩

theorem replayOperation_eq_ok {timed : Prop} [Decidable timed] (samples : List Sample)
    (h : A.replayOperation clock timed op result m = .ok result' m') :
    A.Performs op result m.tree { result' with samples := samples } m'.tree := by
  unfold replayOperation at h
  by_cases hu : op.isUpdate = true
  · rw [if_pos hu] at h
    obtain ⟨⟨⟨⟩, elapsed⟩, m₁, h1, h⟩ := Effect.run_bind_eq_ok.mp h
    cases h
    exact .update hu (bracketed_eq_ok h1)
  · rw [if_neg hu] at h
    obtain ⟨⟨x, elapsed⟩, m₁, h1, h⟩ := Effect.run_bind_eq_ok.mp h
    cases h
    exact .query hu (bracketed_eq_ok h1)

/-- **The interleaved loop** below the cap performs its operations. -/
theorem interleaved_cons (hrun : A.interleaved clock capBytes streamSize timeEvery (op :: stream)
    index result m = .ok result' m') (hstatus : result'.status = .ok) :
    ∃ result₁ m₁, A.Performs op result m.tree result₁ m₁.tree ∧
      A.interleaved clock capBytes streamSize timeEvery stream (index + 1) result₁ m₁ =
        .ok result' m' := by
  rw [interleaved] at hrun
  obtain ⟨result₁, m₁, h1, hrun⟩ := Effect.run_bind_eq_ok.mp hrun
  obtain ⟨bytes, -, hrun⟩ := run_bind_reading_eq_ok.mp hrun
  obtain ⟨result₂, m₂, h2, hrest⟩ := Effect.run_bind_eq_ok.mp hrun
  obtain ⟨rfl, samples, rfl⟩ := sample_eq_ok h2
  by_cases hcap : bytes > capBytes
  · rw [if_pos hcap] at hrest
    cases hrest
    cases hstatus
  · rw [if_neg hcap] at hrest
    exact ⟨_, m₂, replayOperation_eq_ok samples h1, hrest⟩

/-- **The loop over the updates** below the cap. -/
theorem updateBatch_cons (hu : op.isUpdate = true)
    (hrun : A.updateBatch capBytes (op :: stream) result m = .ok (result', false) m') :
    ∃ t, A.update op.left op.right op.delta m.tree = .ok () t ∧
      A.updateBatch capBytes stream { result with updates := result.updates + 1 } ⟨t, m.readings⟩ =
        .ok (result', false) m' := by
  rw [updateBatch, if_pos hu] at hrun
  obtain ⟨⟨⟩, t, hx, hrun⟩ := run_bind_calling_eq_ok.mp hrun
  obtain ⟨bytes, -, hrun⟩ := run_bind_reading_eq_ok.mp hrun
  by_cases hcap : bytes > capBytes
  · rw [if_pos hcap] at hrun
    cases hrun
  · rw [if_neg hcap] at hrun
    exact ⟨t, hx, hrun⟩

/-- **The loop over the queries** below the cap. -/
theorem queryBatch_cons (hu : ¬ op.isUpdate = true)
    (hrun : A.queryBatch capBytes (op :: stream) result m = .ok result' m')
    (hstatus : result'.status = .ok) :
    ∃ x t, A.query op.version op.left op.right m.tree = .ok x t ∧
      A.queryBatch capBytes stream
          { result with
            checksum := extendChecksum result.checksum x
            queries := result.queries + 1 } ⟨t, m.readings⟩ = .ok result' m' := by
  rw [queryBatch, if_neg hu] at hrun
  obtain ⟨x, t, hx, hrun⟩ := run_bind_calling_eq_ok.mp hrun
  obtain ⟨bytes, -, hrun⟩ := run_bind_reading_eq_ok.mp hrun
  by_cases hcap : bytes > capBytes
  · rw [if_pos hcap] at hrun
    cases hrun
    cases hstatus
  · rw [if_neg hcap] at hrun
    exact ⟨x, t, hx, hrun⟩

/-- **An interleaved trial** is a build and the loop. -/
theorem runTrial_eq_ok (hrun : A.runTrial clock capBytes initial stream timeEvery m =
    .ok result' m') : ∃ s₀ readings buildNs buildNodes result nodes bytes,
      A.build initial m.tree = .ok () s₀ ∧ A.nodes s₀ = .ok buildNodes ∧
        A.interleaved clock capBytes stream.length timeEvery stream 0
            { buildNs := buildNs, buildNodes := buildNodes } ⟨s₀, readings⟩ = .ok result m' ∧
          A.nodes m'.tree = .ok nodes ∧ result' = { result with nodes := nodes, bytes := bytes } := by
  unfold runTrial at hrun
  rw [run_bind_now] at hrun
  obtain ⟨⟨⟩, s₀, hbuild, hrun⟩ := run_bind_calling_eq_ok.mp hrun
  rw [run_bind_nanosSince] at hrun
  obtain ⟨buildNodes, hbuilt, hrun⟩ := run_bind_reading_eq_ok.mp hrun
  obtain ⟨result, m₁, hloop, hrun⟩ := Effect.run_bind_eq_ok.mp hrun
  obtain ⟨nodes, hnodes, hrun⟩ := run_bind_reading_eq_ok.mp hrun
  obtain ⟨bytes, -, hrun⟩ := run_bind_reading_eq_ok.mp hrun
  cases hrun
  exact ⟨s₀, _, _, buildNodes, result, nodes, bytes, hbuild, hbuilt, hloop, hnodes, rfl⟩

/-- **A batch trial** below the cap is a build and the two loops. -/
theorem runBatchTrial_eq_ok (hrun : A.runBatchTrial clock capBytes initial stream m =
    .ok result' m') (hstatus : result'.status = .ok) :
    ∃ s₀ readings buildNs buildNodes result m₁ updateNs readings' result₂ m₂ queryNs nodes bytes,
      A.build initial m.tree = .ok () s₀ ∧ A.nodes s₀ = .ok buildNodes ∧
        A.updateBatch capBytes stream { buildNs := buildNs, buildNodes := buildNodes }
            ⟨s₀, readings⟩ = .ok (result, false) m₁ ∧
          A.queryBatch capBytes stream { result with updateNs := updateNs }
              ⟨m₁.tree, readings'⟩ = .ok result₂ m₂ ∧ m'.tree = m₂.tree ∧
            A.nodes m'.tree = .ok nodes ∧
              result' = { result₂ with
                queryNs := queryNs
                batchNs := result₂.updateNs + queryNs
                nodes := nodes
                bytes := bytes } := by
  unfold runBatchTrial at hrun
  rw [run_bind_now] at hrun
  obtain ⟨⟨⟩, s₀, hbuild, hrun⟩ := run_bind_calling_eq_ok.mp hrun
  rw [run_bind_nanosSince] at hrun
  obtain ⟨buildNodes, hbuilt, hrun⟩ := run_bind_reading_eq_ok.mp hrun
  rw [run_bind_now] at hrun
  obtain ⟨⟨result, capped⟩, m₁, hupdates, hrun⟩ := Effect.run_bind_eq_ok.mp hrun
  simp only [run_bind_nanosSince] at hrun
  obtain ⟨result₁, m₂, hqueries, hrun⟩ := Effect.run_bind_eq_ok.mp hrun
  obtain ⟨nodes, hnodes, hrun⟩ := run_bind_reading_eq_ok.mp hrun
  obtain ⟨bytes, -, hrun⟩ := run_bind_reading_eq_ok.mp hrun
  cases hrun
  cases capped with
  | true =>
    cases hqueries
    cases hstatus
  | false =>
    rw [if_neg Bool.false_ne_true, run_bind_now] at hqueries
    obtain ⟨result₂, m₃, hloop, hqueries⟩ := Effect.run_bind_eq_ok.mp hqueries
    cases hqueries
    exact ⟨s₀, _, _, buildNodes, result, m₁, _, _, result₂, m₃, _, nodes, bytes, hbuild, hbuilt,
      hupdates, hloop, rfl, hnodes, rfl⟩

end Adapter

end Bench

end Valseg
