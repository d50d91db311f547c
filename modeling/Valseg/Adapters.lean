import Valseg.LazySegmentTree
import Valseg.PerSegTreeRuns
import Valseg.ReplayOrder

/-!
# Adapters

All of `bench/adapters.hpp` and of the table `structures` of `bench/bench_main.cpp`: beside the
seven persistent structures the control, which keeps its latest state only, and the external tree,
whose queries write. The replay that prices the instrumentation reads the clock twice.
-/

namespace Valseg

namespace Bench

/-! ## The untimed replay -/

namespace Adapter

variable {σ : Type} (A : Adapter σ) (clock : ℕ → ℤ) (capBytes : UInt64)

/-- The loop of the untimed replay. -/
def batched : List Operation → MeasuredM σ Unit
  | [] => return
  | op :: stream => do
    (if op.isUpdate then calling (A.update op.left op.right op.delta) else do
      let _ ← calling (A.query op.version op.left op.right))
    if (← reading A.bytes) > capBytes then return
    else batched stream

def runBatched (initial : List ValueType) (stream : List Operation) : MeasuredM σ ℤ := do
  calling (A.build initial)
  let start ← now clock
  A.batched capBytes stream
  nanosSince clock start

end Adapter

/-! ## The other two adapters -/

/-- `LazyAdapter`: the tree and the number of states it has passed through. -/
structure Control where
  tree : LazySegmentTree.State
  published : ℕ

/-- A call of the control's tree. -/
def Control.onTree {α : Type} (x : EStateM Exception LazySegmentTree.State α) :
    EStateM Exception Control α :=
  Effect.zoom Control.tree (fun tree this => { this with tree := tree }) x

def lazyAdapter : Adapter Control where
  empty := ⟨LazySegmentTree.engine.empty, 0⟩
  build := fun values => do
    Control.onTree (LazySegmentTree.initializeFrom values)
    modify fun this => { this with published := 1 }
  update := fun left right delta => do
    Control.onTree (LazySegmentTree.rangeAdd left right delta)
    modify fun this => { this with published := this.published + 1 }
  query := fun _ left right => do LazySegmentTree.rangeSum (← get).tree left right
  nodes := fun this => .ok (4 * this.tree.arraySize)
  bytes := fun this => .ok (.ofNat (4 * this.tree.arraySize) * 16)
  versions := fun this => .ok this.published

/-- `ExternalAdapter`, with the order in which the compiler evaluates the operands of a query. -/
def externalAdapter (leftFirst : Bool) : Adapter PerSegTree.State where
  empty := {}
  build := PerSegTree.constructFrom
  update := fun left right delta =>
    PerSegTree.updateLatest (left % 2 ^ 32) (right % 2 ^ 32) delta
  query := fun version left right =>
    PerSegTree.queryVersion leftFirst (left % 2 ^ 32) (right % 2 ^ 32) (version % 2 ^ 32)
  nodes := fun this => .ok (PerSegTree.nodesCreated this)
  bytes := fun this => .ok (.ofNat (PerSegTree.nodesCreated this) * 48)
  versions := fun this => .ok (PerSegTree.size this)

/-! ## The table -/

/-- One structure under measurement. Each function constructs an adapter and reads the clock of
the process on. -/
structure Structure where
  name : String
  run : (ℕ → ℤ) → List ValueType → List Operation → (checkpointInterval : ℕ) →
    (capBytes : UInt64) → (timeEvery : ℕ) → EStateM Exception ℕ TrialResult
  batch : (ℕ → ℤ) → List ValueType → List Operation → (checkpointInterval : ℕ) →
    (capBytes : UInt64) → EStateM Exception ℕ ℤ
  batchTrial : (ℕ → ℤ) → List ValueType → List Operation → (checkpointInterval : ℕ) →
    (capBytes : UInt64) → EStateM Exception ℕ TrialResult
  historical : Bool

/-- A measurement of a new tree, of which the readings of the clock remain. -/
def measuring {σ α : Type} (start : σ) (x : MeasuredM σ α) : EStateM Exception ℕ α := fun readings =>
  match x ⟨start, readings⟩ with
  | .ok a s => .ok a s.readings
  | .error e s => .error e s.readings

/-- The functions of an adapter, constructed with the checkpoint interval. -/
def Structure.of {σ : Type} (name : String) (A : (checkpointInterval : ℕ) → Adapter σ)
    (historical : Bool) : Structure where
  name := name
  run := fun clock initial stream interval capBytes timeEvery =>
    measuring (A interval).empty ((A interval).runTrial clock capBytes initial stream timeEvery)
  batch := fun clock initial stream interval capBytes =>
    measuring (A interval).empty ((A interval).runBatched clock capBytes initial stream)
  batchTrial := fun clock initial stream interval capBytes =>
    measuring (A interval).empty ((A interval).runBatchTrial clock capBytes initial stream)
  historical := historical

def PersistentStructure.name : PersistentStructure → String
  | persistent => "persistent"
  | copyOnPush => "copy-on-push"
  | fullCopy => "full-copy"
  | pointOnly => "point-only"
  | checkpointing => "checkpointing"
  | buffered => "buffered"
  | fatNode => "fat-node"

def PersistentStructure.all : List PersistentStructure :=
  [persistent, copyOnPush, fullCopy, pointOnly, checkpointing, buffered, fatNode]

def structures (leftFirst : Bool) : List Structure :=
  [Structure.of "lazy" (fun _ => lazyAdapter) false] ++
    PersistentStructure.all.map (fun which =>
      Structure.of which.name (fun interval => (which.adapter interval).writing) true) ++
    [Structure.of "external" (fun _ => externalAdapter leftFirst) true]

end Bench

end Valseg
