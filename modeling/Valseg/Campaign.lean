import Valseg.AdapterChecksums
import Valseg.Lib.Steps
import Valseg.Workloads

/-!
# Campaigns

`run` of `bench/bench_main.cpp`: every selected workload at every size is replayed by every
selected structure, trial by trial. The checksums of a cell are compared across the structures, and
a structure that reached the memory cap in a cell often enough is not measured in it again.

The command line is parsed and the trace is loaded. Left out are the warm-up that runs until some
time has passed, the percentiles, the counts of the allocator, and the files: `runs` are the rows
of the one, with the memory readings that go to the other.
-/

namespace Valseg

namespace Bench

variable {G D : Type}

/-! ## Workloads -/

/-- What a campaign uses of the platform beside the operations on `double`: `==`,
`std::to_string`, and `llround(sqrt(size))`. -/
structure Platform (D : Type) extends FloatingPoint D where
  equal : D → D → Bool
  text : D → String
  roundedRoot : ℕ → ℕ

/-- One frozen workload, with what `generate` does not read. -/
structure FrozenWorkload (D : Type) extends Workload D where
  id : String
  summary : String
  sizes : List ℕ
  variants : List D

def axisName : VariantAxis → String
  | .none => "none"
  | .checkpointInterval => "k"
  | .updateBudget => "updates"
  | .rangeWidth => "width"
  | .zipf => "theta"
  | .hotShare => "hot_share"
  | .zeroDeltaShare => "zero_delta_share"
  | .ageShare => "age_share"

section Workloads

variable (platform : Platform D)

/-- The fields in the order of the table. -/
def frozen (id summary : String) (sizes : List ℕ) (operations : ℕ)
    (updateFraction zeroDeltaFraction : ℚ) (shape : RangeShape) (versions : VersionPick)
    (skew : ℚ) (axis : VariantAxis) (variants : List ℚ) (queryTail : ℕ) : FrozenWorkload D where
  operations := operations
  updateFraction := platform.literal updateFraction
  zeroDeltaFraction := platform.literal zeroDeltaFraction
  shape := shape
  versions := versions
  skew := platform.literal skew
  axis := axis
  queryTail := queryTail
  id := id
  summary := summary
  sizes := sizes
  variants := variants.map platform.literal

def workloads : List (FrozenWorkload D) :=
  let every := [1000, 10000, 100000, 1000000, 10000000]
  let medium := [10000]
  let operations := 200000
  let frozen := frozen platform
  [frozen "W1" "balanced 50/50, uniform ranges, uniform version reads" every operations
      (1 / 2) 0 .uniform .uniform 0 .none [0] 0,
    frozen "W2" "update-heavy 90/10: copy cost per published version" every operations
      (9 / 10) 0 .uniform .uniform 0 .none [0] 0,
    frozen "W3" "query-heavy 10/90, half old versions and half the newest 5%" every operations
      (1 / 10) 0 .uniform .oldAndRecent 0 .none [0] 0,
    frozen "W4" "point updates: the exact per-update bound each header documents" every operations
      (1 / 2) 0 .point .uniform 0 .none [0] 0,
    frozen "W5" "full-range updates: full copy's home turf, path copying's worst case" every
      operations (1 / 2) 0 .full .uniform 0 .none [0] 0,
    frozen "W6" "zero-delta stress: the shared-root fast path, at 10% and 50%" medium operations
      (9 / 10) (1 / 10) .uniform .uniform 0 .zeroDeltaShare [1 / 10, 1 / 2] 0,
    frozen "W7" "checkpoint-interval sweep, W1 traffic, K = 1..4096 and unbounded" medium
      operations (1 / 2) 0 .uniform .oldAndRecent 0 .checkpointInterval
      [1, 16, 128, 500, 4096, 0] 0,
    frozen "W8" "version-count sweep: 1e3 to 1e6 versions, then 10000 uniform reads" medium 0
      1 0 .uniform .uniform 0 .updateBudget [1000, 10000, 100000, 1000000] 10000,
    frozen "W9" "Zipfian version reads by recency rank, theta = 0, 0.5 and 0.99" medium operations
      (1 / 10) 0 .uniform .zipf 0 .zipf [0, 1 / 2, 99 / 100] 0,
    frozen "W10" "update-locality skew: 80% of updates inside a hot window of this width" medium
      operations (9 / 10) 0 .hot .uniform 0 .hotShare [1 / 100, 1 / 20, 1 / 5, 1] 0,
    frozen "W11" "range-width sweep from a point to the whole array; W4 and W5 are its ends" medium
      operations (1 / 2) 0 .fixedWidth .uniform 0 .rangeWidth [1, 8, 64, 512, 4096, 10000] 0,
    frozen "W12" "time-travel audit: reads confined to the oldest 1%, 10%, 50% and 100%" medium
      operations (1 / 10) 0 .uniform .ancient 0 .ageShare [1 / 100, 1 / 10, 1 / 2, 1] 0]

def replayedTraceSummary : String := "replayed trace"

def isReplayedTrace (workload : FrozenWorkload D) : Bool :=
  workload.summary = replayedTraceSummary

def traceWorkload (size : ℕ) (traceId : String) : FrozenWorkload D :=
  frozen platform (if traceId = "" then "WT" else traceId) replayedTraceSummary [size] 0 0 0
    .uniform .uniform 0 .none [0] 0

/-- `std::min`. -/
def smaller (a b : D) : D := if platform.less b a then b else a

/-- `std::unique` after an element that is kept. -/
def uniqueAfter (kept : D) : List D → List D
  | [] => []
  | x :: xs => if platform.equal kept x then uniqueAfter kept xs else x :: uniqueAfter x xs

def unique : List D → List D
  | [] => []
  | x :: xs => x :: uniqueAfter platform x xs

def shrink (workload : FrozenWorkload D) : FrozenWorkload D :=
  let variants := workload.variants.map fun variant =>
    if workload.axis = .updateBudget then smaller platform variant (platform.literal 300)
    else if workload.axis = .rangeWidth then smaller platform variant (platform.literal 256)
    else variant
  { workload with
    sizes := [256]
    operations := if workload.operations = 0 then 0 else 400
    queryTail := if workload.queryTail = 0 then 0 else 100
    variants := unique platform variants }

def balancedInterval (size : ℕ) : ℕ := max 1 (platform.roundedRoot size)

end Workloads

section Arrays

variable (rng : RandomEngine G)

/-- The loop over the values. -/
def drawValues : (size : ℕ) → RandomM G (List ValueType)
  | 0 => return []
  | size + 1 => do
    let draw ← below rng 2001
    let values ← drawValues size
    return .ofInt (draw - 1000) :: values

def drawArray (size : ℕ) : RandomM G (List ValueType) := do
  checkVectorLength "cannot create std::vector larger than max_size()" 8 size
  drawValues rng size

def initialArray (size : ℕ) (seed : UInt64) : Except Exception (List ValueType) :=
  Effect.outcome (drawArray rng size (rng.seeded (seed ^^^ 0x9e3779b97f4a7c15)))

end Arrays

/-! ## Options -/

/-- How a trial is timed. -/
inductive TimingMode
  | interleaved | batch | latency
  deriving DecidableEq, Repr

/-- The options a campaign reads. -/
structure Options (D : Type) where
  workloadFilter : String := "all"
  structureFilter : String := "all"
  seed : UInt64 := 20260818
  trials : ℕ := 5
  capMiB : UInt64 := 4096
  warmup : ℕ := 1
  cappedTrials : ℕ := 2
  batchTrials : ℕ := 2
  mode : TimingMode := .interleaved
  sampleEvery : ℕ := 64
  sizeFilter : ℕ := 0
  variantFilter : Option D := none
  trialIndex : ℤ := -1
  smoke : Bool := false
  shuffle : Bool := true
  traceId : String := ""
  execOrder : ℤ := -1
  processSeq : ℤ := -1

namespace Options

variable (options : Options D)

def capBytes : UInt64 := options.capMiB * 1024 * 1024

/-- `options.warmup + options.trials`. -/
def attempts : ℕ := (options.warmup + options.trials) % 2 ^ 64

/-- `recorded`. -/
def Records (attempt : ℕ) : Prop := options.warmup ≤ attempt

instance decidableRecords (attempt : ℕ) : Decidable (options.Records attempt) :=
  inferInstanceAs (Decidable (_ ≤ _))

def trial (attempt : ℕ) : ℕ := if options.Records attempt then attempt - options.warmup else attempt

def seedAt (attempt : ℕ) : UInt64 := options.seed + .ofNat attempt

end Options

/-! ## Rows -/

/-- The columns that name a structure in a cell. -/
structure Label where
  workload : String
  name : String
  n : ℕ
  axis : String
  variant : String
  deriving DecidableEq, Repr

/-- A row of the runs, with the memory readings of its trial. -/
structure Row where
  label : Label
  k : ℕ
  seed : UInt64
  trial : ℕ
  execOrder : ℤ
  processSeq : ℤ
  batchNs : ℤ
  result : TrialResult
  deriving DecidableEq, Repr

/-- What counts the capped trials of a structure in a cell. -/
def cellKey (label : Label) : String :=
  label.workload ++ "|" ++ label.name ++ "|" ++ toString label.n ++ "|" ++ label.variant

/-- A stream, which every structure replays. -/
def cell (label : Label) (seed : UInt64) : String :=
  label.workload ++ "|" ++ toString label.n ++ "|" ++ label.variant ++ "|" ++ toString seed.toNat

/-- What a campaign keeps. -/
structure Campaign where
  readings : ℕ := 0
  expected : String → Option UInt64 := fun _ => none
  mismatches : ℕ := 0
  cappedSeen : String → ℕ := fun _ => 0
  runs : List Row := []

abbrev CampaignM := EStateM Exception Campaign

/-- A replay, on the clock of the process. -/
def replaying {α : Type} (x : EStateM Exception ℕ α) : CampaignM α :=
  Effect.zoom Campaign.readings (fun readings this => { this with readings := readings }) x

/-! ## Jobs -/

/-- One structure at one point of a workload's variant axis. -/
structure Job (D : Type) where
  subject : Structure
  variant : D
  interval : ℕ

/-- One attempt at one size, with its array and its stream. -/
structure Setting (D : Type) where
  workload : FrozenWorkload D
  size : ℕ
  attempt : ℕ
  initial : List ValueType
  stream : List Operation

/-- One job of an attempt, at its position in the order of execution. -/
structure Visit (D : Type) extends Setting D where
  position : ℕ
  job : Job D

/-- A process: what it runs on, and what it is told to run. The order of `std::shuffle` and the
clock are the platform's. -/
structure Process (G D : Type) where
  rng : RandomEngine G
  platform : Platform D
  table : List Structure
  shuffle : UInt64 → List (Job D) → List (Job D)
  clock : ℕ → ℤ
  options : Options D
  trace : Option (List Operation × ℕ)

/-- `++cappedSeen[key]`. -/
def countCapped (key : String) (this : Campaign) : Campaign :=
  { this with cappedSeen := Function.update this.cappedSeen key (this.cappedSeen key + 1) }

/-- The comparison of a checksum with the first of its cell. -/
def crossCheck (cell : String) (historical : Bool) (result : TrialResult) (this : Campaign) :
    Campaign :=
  if historical ∧ result.status = .ok then
    match this.expected cell with
    | none => { this with expected := Function.update this.expected cell (some result.checksum) }
    | some first =>
      if first ≠ result.checksum then { this with mismatches := this.mismatches + 1 } else this
  else this

namespace Process

variable (P : Process G D)

/-- The job of a structure, unless it is filtered out. The checkpoint interval is a parameter of
one structure; the others run its sweep once. -/
def jobOf (workload : FrozenWorkload D) (defaultInterval : ℕ) (variant : D) (subject : Structure) :
    Option (Job D) :=
  if P.options.structureFilter ≠ "all" ∧ P.options.structureFilter ≠ subject.name then none
  else if workload.axis = .checkpointInterval then
    if subject.name ≠ "checkpointing" then
      if P.platform.equal variant (workload.variants.headD variant) then
        some ⟨subject, variant, defaultInterval⟩
      else none
    else some ⟨subject, variant, if P.platform.equal variant (P.platform.literal 0) then 0
      else (P.platform.toSize variant).toNat⟩
  else some ⟨subject, variant, defaultInterval⟩

def jobsOf (workload : FrozenWorkload D) (size : ℕ) (variant : D) : List (Job D) :=
  P.table.filterMap (P.jobOf workload (balancedInterval P.platform size) variant)

def labelOf (visit : Visit D) : Label where
  workload := visit.workload.id
  name := visit.job.subject.name
  n := visit.size
  axis := axisName visit.workload.axis
  variant := P.platform.text visit.job.variant

/-- The row of a trial. -/
def rowOf (visit : Visit D) (batchNs : ℤ) (result : TrialResult) : Row where
  label := P.labelOf visit
  k := visit.job.interval
  seed := P.options.seedAt visit.attempt
  trial := P.options.trial visit.attempt
  execOrder := if 0 ≤ P.options.execOrder then P.options.execOrder else visit.position
  processSeq := P.options.processSeq
  batchNs := batchNs
  result := result

/-- The interval of a job, for which no checkpoint at all is one that is never reached. -/
def intervalOf (visit : Visit D) : ℕ :=
  if visit.job.interval = 0 then visit.stream.length + 2 else visit.job.interval

/-- The trial of a visit. -/
def trialOf (visit : Visit D) : EStateM Exception ℕ TrialResult :=
  if P.options.mode = .batch then
    visit.job.subject.batchTrial P.clock visit.initial visit.stream (intervalOf visit)
      P.options.capBytes
  else
    visit.job.subject.run P.clock visit.initial visit.stream (intervalOf visit) P.options.capBytes
      (if P.options.mode = .latency then P.options.sampleEvery else 1)

/-- The replay that prices the instrumentation of the trial. -/
def batchOf (visit : Visit D) : EStateM Exception ℕ ℤ :=
  visit.job.subject.batch P.clock visit.initial visit.stream (intervalOf visit) P.options.capBytes

/-- The body of the innermost loop. -/
def measure (visit : Visit D) : CampaignM Unit := do
  let recorded := P.options.Records visit.attempt
  let trial := P.options.trial visit.attempt
  let key := cellKey (P.labelOf visit)
  if recorded ∧ P.options.cappedTrials ≤ (← get).cappedSeen key then return
  else do
    let priceInstrumentation :=
      P.options.mode = .interleaved ∧ recorded ∧ trial < P.options.batchTrials
    let batchFirst := priceInstrumentation ∧ trial % 2 = 1
    let batchNs ← (if batchFirst then replaying (P.batchOf visit) else return -1)
    let result ← replaying (P.trialOf visit)
    if ¬ recorded then return
    else do
      (if result.status = .memoryCap then modify (countCapped key) else return)
      let batchNs ← (if priceInstrumentation ∧ ¬ batchFirst then
        replaying (P.batchOf visit) else return batchNs)
      let batchNs := if P.options.mode = .batch then result.batchNs else batchNs
      modify (crossCheck (cell (P.labelOf visit) (P.options.seedAt visit.attempt))
        visit.job.subject.historical result)
      modify fun this => { this with runs := this.runs ++ [P.rowOf visit batchNs result] }

/-! ## Loops -/

def streamOf (workload : FrozenWorkload D) (size : ℕ) (variant : D) (seed : UInt64) :
    Except Exception (List Operation) :=
  if isReplayedTrace workload then .ok (P.trace.elim [] Prod.fst)
  else generate P.rng P.platform.toFloatingPoint workload.toWorkload size variant seed

/-- The jobs of an attempt in the order they are executed in. -/
def orderedJobs (workload : FrozenWorkload D) (size attempt : ℕ) (variant : D) : List (Job D) :=
  let jobs := P.jobsOf workload size variant
  if P.options.shuffle then
    P.shuffle (P.options.seedAt attempt ^^^ 0x5deece66d ^^^ .ofNat size) jobs
  else jobs

/-- The variant is not the one that is asked for. -/
def skipsVariant (variant : D) : Bool :=
  P.options.variantFilter.any fun filter => !P.platform.equal variant filter

def runVariant (workload : FrozenWorkload D) (size attempt : ℕ) (initial : List ValueType)
    (variant : D) : CampaignM Unit :=
  if P.skipsVariant variant then return
  else if P.jobsOf workload size variant = [] then return
  else do
    let stream ← P.streamOf workload size variant (P.options.seedAt attempt)
    (P.orderedJobs workload size attempt variant).zipIdx.forM fun entry =>
      P.measure ⟨⟨workload, size, attempt, initial, stream⟩, entry.2, entry.1⟩

/-- A recorded trial that is not the one that is asked for. -/
def SkipsAttempt (attempt : ℕ) : Prop :=
  0 ≤ P.options.trialIndex ∧ P.options.Records attempt ∧
    (P.options.trial attempt : ℤ) ≠ P.options.trialIndex

instance decidableSkipsAttempt (attempt : ℕ) : Decidable (P.SkipsAttempt attempt) :=
  inferInstanceAs (Decidable (_ ∧ _))

def runAttempt (workload : FrozenWorkload D) (size attempt : ℕ) : CampaignM Unit :=
  if P.SkipsAttempt attempt then return
  else do
    let initial ← initialArray P.rng size (P.options.seedAt attempt)
    workload.variants.forM (P.runVariant workload size attempt initial)

def runSize (workload : FrozenWorkload D) (size : ℕ) : CampaignM Unit :=
  if P.options.sizeFilter ≠ 0 ∧ size ≠ P.options.sizeFilter then return
  else (List.range P.options.attempts).forM (P.runAttempt workload size)

/-- The filter names the workload, or it is the trace and the filter names any. -/
def selects (original : FrozenWorkload D) : Bool :=
  P.options.workloadFilter = "all" ∨ P.options.workloadFilter = original.id ∨
    P.trace.isSome ∧ P.options.workloadFilter = "WT" ∧ isReplayedTrace original

/-- The workload that is run. -/
def scaled (original : FrozenWorkload D) : FrozenWorkload D :=
  if P.options.smoke then shrink P.platform original else original

def runWorkload (original : FrozenWorkload D) : CampaignM Unit :=
  if P.selects original then (P.scaled original).sizes.forM (P.runSize (P.scaled original))
  else return

/-- The frozen workloads, and the trace when there is one. -/
def plan : List (FrozenWorkload D) :=
  workloads P.platform ++
    P.trace.elim [] fun trace => [traceWorkload P.platform trace.2 P.options.traceId]

/-- The exit code. -/
def run : CampaignM ℕ := do
  P.plan.forM P.runWorkload
  return if (← get).mismatches > 0 then 1 else 0

end Process

end Bench

end Valseg
