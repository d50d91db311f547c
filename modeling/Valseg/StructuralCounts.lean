import Valseg.Frontier

/-!
# Structural counts

`bench/structural_counts.hpp`: what one stream of operations costs each structure, computed from
the stream alone. The three lemmas about `countOperation` say what one operation adds to the
totals; `Bench.foldlM_counts` carries a relation between totals and a replayed structure over a
whole stream.
-/

namespace Valseg

namespace Bench

/-- One generated operation. The version is that of a query, the delta that of an update. -/
structure Operation where
  isUpdate : Bool
  left : ℕ
  right : ℕ
  version : ℕ
  delta : ValueType
  deriving DecidableEq, Repr

structure StructuralCounts where
  updates : ℕ := 0
  nonZeroUpdates : ℕ := 0
  queries : ℕ := 0
  updateVisits : ℕ := 0
  checkpointUpdateVisits : ℕ := 0
  pushes : ℕ := 0
  intersecting : ℕ := 0
  queryVisits : ℕ := 0
  replayEntries : ℕ := 0
  queryVersionDistance : ℕ := 0
  fullCoverageUpdates : ℕ := 0
  fullCoverageQueries : ℕ := 0
  latestVersionQueries : ℕ := 0
  deriving DecidableEq, Repr

/-- The variables of the loop over the stream. -/
structure Counting where
  counts : StructuralCounts
  pushes : PushCountingModel.State ValueType
  latestVersion : ℕ
  deriving DecidableEq, Repr

/-- The loop body for an update. -/
def countUpdate (size interval : ℕ) (this : Counting) (op : Operation) :
    Except Exception Counting := do
  let frontier ← frontierCounts size op.left op.right
  let updates ← checkedSizeAdd this.counts.updates 1
  let latestVersion ← checkedSizeAdd this.latestVersion 1
  let counts := { this.counts with updates := updates }
  if op.delta = 0 then return ⟨counts, this.pushes, latestVersion⟩
  else do
    let nonZeroUpdates ← checkedSizeAdd counts.nonZeroUpdates 1
    let updateVisits ← checkedSizeAdd counts.updateVisits (← frontier.visited)
    let checkpointUpdateVisits ← (if interval ≠ 0 ∧ latestVersion % interval = 0 then do
      checkedSizeAdd counts.checkpointUpdateVisits (← frontier.visited)
      else pure counts.checkpointUpdateVisits)
    let (pushed, model) ← Effect.onLocal
      (PushCountingModel.apply sumAddPolicy op.left op.right op.delta) this.pushes
    let pushes ← checkedSizeAdd counts.pushes pushed
    let intersecting ← checkedSizeAdd counts.intersecting
      (← intersectingNodes size op.left op.right)
    let fullCoverageUpdates ← (if op.left = 0 ∧ op.right = size - 1 then
      checkedSizeAdd counts.fullCoverageUpdates 1 else pure counts.fullCoverageUpdates)
    return ⟨{ counts with
      nonZeroUpdates := nonZeroUpdates
      updateVisits := updateVisits
      checkpointUpdateVisits := checkpointUpdateVisits
      pushes := pushes
      intersecting := intersecting
      fullCoverageUpdates := fullCoverageUpdates }, model, latestVersion⟩

/-- The entries a query replays. -/
def replayOf (interval latestVersion version : ℕ) : ℕ :=
  if version = latestVersion then 0 else if interval = 0 then version else version % interval

/-- The loop body for a query. -/
def countQuery (size interval : ℕ) (this : Counting) (op : Operation) :
    Except Exception Counting := do
  let visits ← (← frontierCounts size op.left op.right).visited
  (if op.version > this.latestVersion then
    .error (.outOfRange "query references an unpublished version") else .ok ())
  let queries ← checkedSizeAdd this.counts.queries 1
  let queryVisits ← checkedSizeAdd this.counts.queryVisits visits
  let fullCoverageQueries ← (if op.left = 0 ∧ op.right = size - 1 then
    checkedSizeAdd this.counts.fullCoverageQueries 1 else pure this.counts.fullCoverageQueries)
  let distance := this.latestVersion - op.version
  (if distance > sizeMax - this.counts.queryVersionDistance then
    .error (.overflowError "query-version distance total is not representable") else .ok ())
  let counts := { this.counts with
    queries := queries
    queryVisits := queryVisits
    fullCoverageQueries := fullCoverageQueries
    queryVersionDistance := this.counts.queryVersionDistance + distance }
  if op.version = this.latestVersion then do
    let latestVersionQueries ← checkedSizeAdd counts.latestVersionQueries 1
    return ⟨{ counts with latestVersionQueries := latestVersionQueries }, this.pushes,
      this.latestVersion⟩
  else do
    let replayEntries ← checkedSizeAdd counts.replayEntries
      (if interval = 0 then op.version else op.version % interval)
    return ⟨{ counts with replayEntries := replayEntries }, this.pushes, this.latestVersion⟩

def countOperation (size interval : ℕ) (this : Counting) (op : Operation) :
    Except Exception Counting :=
  if op.isUpdate then countUpdate size interval this op else countQuery size interval this op

def structuralCounts (stream : List Operation) (size interval : ℕ) :
    Except Exception StructuralCounts := do
  (if size = 0 then .error (.invalidArgument "structural-count size must be positive")
    else .ok ())
  let pushes ← PushCountingModel.ofSize sumAddPolicy size
  return (← stream.foldlM (countOperation size interval) ⟨{}, pushes, 0⟩).counts

/-! ## What one operation adds -/

variable {size interval : ℕ} {c c' : Counting} {op : Operation}

/-- An update of zero is only counted. -/
theorem countOperation_zero (hu : op.isUpdate = true) (h0 : op.delta = 0)
    (h : countOperation size interval c op = .ok c') : op.left ≤ op.right ∧ op.right < size ∧
      c' = ⟨{ c.counts with updates := c.counts.updates + 1 }, c.pushes, c.latestVersion + 1⟩ := by
  unfold countOperation countUpdate at h
  rw [if_pos hu] at h
  obtain ⟨frontier, h1, h⟩ := Effect.bind_eq_ok.mp h
  obtain ⟨updates, h2, h⟩ := Effect.bind_eq_ok.mp h
  obtain ⟨latest, h3, h⟩ := Effect.bind_eq_ok.mp h
  obtain ⟨hlr, hr, -⟩ := frontierCounts_eq_ok h1
  rw [if_pos h0] at h
  cases h
  rw [eq_of_checkedSizeAdd h2, eq_of_checkedSizeAdd h3]
  exact ⟨hlr, hr, rfl⟩

/-- What an update of a non-zero delta adds. -/
structure AddsUpdate (size : ℕ) (c c' : Counting) (op : Operation) : Prop where
  le : op.left ≤ op.right
  lt : op.right < size
  updates : c'.counts.updates = c.counts.updates + 1
  nonZeroUpdates : c'.counts.nonZeroUpdates = c.counts.nonZeroUpdates + 1
  updateVisits : c'.counts.updateVisits =
    c.counts.updateVisits + Segment.visits 0 (size - 1) op.left op.right
  intersecting : c'.counts.intersecting =
    c.counts.intersecting + Segment.meets 0 (size - 1) op.left op.right
  replayEntries : c'.counts.replayEntries = c.counts.replayEntries
  latestVersion : c'.latestVersion = c.latestVersion + 1
  pushes : ∃ p, PushCountingModel.apply sumAddPolicy op.left op.right op.delta c.pushes =
    .ok p c'.pushes ∧ c'.counts.pushes = c.counts.pushes + p

theorem countOperation_update (hu : op.isUpdate = true) (h0 : op.delta ≠ 0)
    (h : countOperation size interval c op = .ok c') : AddsUpdate size c c' op := by
  unfold countOperation countUpdate at h
  rw [if_pos hu] at h
  obtain ⟨frontier, h1, h⟩ := Effect.bind_eq_ok.mp h
  obtain ⟨updates, h2, h⟩ := Effect.bind_eq_ok.mp h
  obtain ⟨latest, h3, h⟩ := Effect.bind_eq_ok.mp h
  rw [if_neg h0] at h
  obtain ⟨nonZero, h4, h⟩ := Effect.bind_eq_ok.mp h
  obtain ⟨visited, h5, h⟩ := Effect.bind_eq_ok.mp h
  obtain ⟨updateVisits, h6, h⟩ := Effect.bind_eq_ok.mp h
  obtain ⟨checkpointVisits, -, h⟩ := Effect.bind_eq_ok.mp h
  obtain ⟨⟨p, model⟩, h7, h⟩ := Effect.bind_eq_ok.mp h
  obtain ⟨pushes, h8, h⟩ := Effect.bind_eq_ok.mp h
  obtain ⟨meeting, h9, h⟩ := Effect.bind_eq_ok.mp h
  obtain ⟨intersecting, h10, h⟩ := Effect.bind_eq_ok.mp h
  obtain ⟨full, -, h⟩ := Effect.bind_eq_ok.mp h
  obtain ⟨hlr, hr, -⟩ := frontierCounts_eq_ok h1
  cases h
  refine ⟨hlr, hr, eq_of_checkedSizeAdd h2, eq_of_checkedSizeAdd h4, ?_, ?_, rfl,
    eq_of_checkedSizeAdd h3, p, ?_, eq_of_checkedSizeAdd h8⟩
  · exact (eq_of_checkedSizeAdd h6).trans (by rw [visited_eq_ok h1 h5])
  · exact (eq_of_checkedSizeAdd h10).trans (by rw [intersectingNodes_eq_ok h9])
  · exact Effect.onLocal_eq_ok.mp h7

/-- What a query adds. -/
structure AddsQuery (size interval : ℕ) (c c' : Counting) (op : Operation) : Prop where
  le : op.left ≤ op.right
  lt : op.right < size
  version : op.version ≤ c.latestVersion
  updates : c'.counts.updates = c.counts.updates
  nonZeroUpdates : c'.counts.nonZeroUpdates = c.counts.nonZeroUpdates
  updateVisits : c'.counts.updateVisits = c.counts.updateVisits
  intersecting : c'.counts.intersecting = c.counts.intersecting
  replayEntries : c'.counts.replayEntries =
    c.counts.replayEntries + replayOf interval c.latestVersion op.version
  latestVersion : c'.latestVersion = c.latestVersion
  counted : c'.counts.pushes = c.counts.pushes
  pushes : c'.pushes = c.pushes

theorem countOperation_query (hu : op.isUpdate = false)
    (h : countOperation size interval c op = .ok c') : AddsQuery size interval c c' op := by
  unfold countOperation countQuery at h
  rw [hu, if_neg Bool.false_ne_true] at h
  obtain ⟨frontier, h1, h⟩ := Effect.bind_eq_ok.mp h
  obtain ⟨visits, -, h⟩ := Effect.bind_eq_ok.mp h
  obtain ⟨⟨⟩, h2, h⟩ := Effect.bind_eq_ok.mp h
  obtain ⟨queries, -, h⟩ := Effect.bind_eq_ok.mp h
  obtain ⟨queryVisits, -, h⟩ := Effect.bind_eq_ok.mp h
  obtain ⟨full, -, h⟩ := Effect.bind_eq_ok.mp h
  obtain ⟨⟨⟩, -, h⟩ := Effect.bind_eq_ok.mp h
  obtain ⟨hlr, hr, -⟩ := frontierCounts_eq_ok h1
  have hv : op.version ≤ c.latestVersion := by
    split_ifs at h2 with hv
    exact Nat.le_of_not_lt hv
  by_cases hlatest : op.version = c.latestVersion
  · rw [if_pos hlatest] at h
    obtain ⟨latest, -, h⟩ := Effect.bind_eq_ok.mp h
    cases h
    refine ⟨hlr, hr, hv, rfl, rfl, rfl, rfl, ?_, rfl, rfl, rfl⟩
    rw [replayOf, if_pos hlatest]
    rfl
  · rw [if_neg hlatest] at h
    obtain ⟨replay, h3, h⟩ := Effect.bind_eq_ok.mp h
    cases h
    refine ⟨hlr, hr, hv, rfl, rfl, rfl, rfl, ?_, rfl, rfl, rfl⟩
    rw [replayOf, if_neg hlatest]
    exact eq_of_checkedSizeAdd h3

end Bench

end Valseg
