import Valseg.ReplayOrder

/-!
# Finished trials

What the structural counts of a stream say about its trials. A trial that ends with the status `ok`
has made every update and every query of its stream, so that

1. a structure with a prediction has stored the records that are predicted
   (`PersistentStructure.stores_predicted`);
2. the queries of a checkpointing trial have gone over the log as the replays that count their
   entries do (`interleaved_counted`, `runBatchTrial_counted`).

`trial_counts` puts both together.
-/

namespace Valseg

namespace Bench

/-! ## What a finished trial has stored -/

namespace PersistentAdapter

variable {ι σ : Type} {A : PersistentAdapter ι σ} {clock : ℕ → ℤ} {capBytes : UInt64}
  {initial : List ValueType} {stream : List Operation} {streamSize timeEvery index : ℕ}
  {result result' : TrialResult} {m m' : Measured σ} {s t : σ}

theorem update_run {l r : ℕ} {delta : ValueType} (h : A.writing.update l r delta s = .ok () t) :
    ∃ x, A.tree.rangeAdd l r delta s = .ok x t := by
  obtain ⟨x, t', hx, h⟩ := Effect.run_bind_eq_ok.mp h
  cases h
  exact ⟨x, hx⟩

theorem query_run {v l r : ℕ} {x : ValueType} (h : A.writing.query v l r s = .ok x t) : t = s :=
  (run_get_bind_eq_ok.mp h).2

/-- **The interleaved loop** has made the updates. -/
theorem interleaved_updates
    (hrun : A.writing.interleaved clock capBytes streamSize timeEvery stream index result m =
      .ok result' m') (hstatus : result'.status = .ok) :
    runUpdates A.tree.rangeAdd stream m.tree = .ok () m'.tree ∧
      result'.buildNodes = result.buildNodes := by
  induction stream generalizing index result m with
  | nil =>
    cases hrun
    exact ⟨rfl, rfl⟩
  | cons op stream ih =>
    obtain ⟨result₁, m₁, hop, hrest⟩ := Adapter.interleaved_cons hrun hstatus
    obtain ⟨hupdates, hbuild⟩ := ih hrest
    rw [runUpdates]
    rcases hop with ⟨hu, hx⟩ | ⟨hu, hx⟩
    · rw [if_pos hu]
      obtain ⟨x, hx⟩ := update_run hx
      rw [Effect.run_bind_ok hx]
      exact ⟨hupdates, hbuild⟩
    · rw [if_neg hu, ← query_run hx]
      exact ⟨hupdates, hbuild⟩

/-- **The loop over the updates.** -/
theorem updateBatch_updates
    (hrun : A.writing.updateBatch capBytes stream result m = .ok (result', false) m') :
    runUpdates A.tree.rangeAdd stream m.tree = .ok () m'.tree ∧
      result'.buildNodes = result.buildNodes := by
  induction stream generalizing result m with
  | nil =>
    cases hrun
    exact ⟨rfl, rfl⟩
  | cons op stream ih =>
    rw [runUpdates]
    by_cases hu : op.isUpdate = true
    · obtain ⟨t, hx, hrest⟩ := Adapter.updateBatch_cons hu hrun
      rw [if_pos hu]
      obtain ⟨x, hx⟩ := update_run hx
      rw [Effect.run_bind_ok hx]
      exact ih hrest
    · rw [Adapter.updateBatch, if_neg hu] at hrun
      rw [if_neg hu]
      exact ih hrun

/-- The loop over the queries leaves the tree. -/
theorem queryBatch_updates (hrun : A.writing.queryBatch capBytes stream result m = .ok result' m')
    (hstatus : result'.status = .ok) :
    m'.tree = m.tree ∧ result'.buildNodes = result.buildNodes := by
  induction stream generalizing result m with
  | nil =>
    cases hrun
    exact ⟨rfl, rfl⟩
  | cons op stream ih =>
    by_cases hu : op.isUpdate = true
    · rw [Adapter.queryBatch, if_pos hu] at hrun
      exact ih hrun
    · obtain ⟨x, t, hx, hrest⟩ := Adapter.queryBatch_cons hu hrun hstatus
      obtain rfl := query_run hx
      obtain ⟨htree, hbuild⟩ := ih hrest
      exact ⟨htree, hbuild⟩

variable (A) in
/-- The nodes after the build, and after all updates. -/
def Stores (initial : List ValueType) (stream : List Operation) (result : TrialResult) : Prop :=
  ∃ s₀ s, A.build initial A.tree.empty = .ok () s₀ ∧
    runUpdates A.tree.rangeAdd stream s₀ = .ok () s ∧
      A.nodes s₀ = .ok result.buildNodes ∧ A.nodes s = .ok result.nodes

/-- **An interleaved trial** that finished. -/
theorem runTrial_stores {readings : ℕ} (hrun : A.writing.runTrial clock capBytes initial stream
    timeEvery ⟨A.tree.empty, readings⟩ = .ok result' m') (hstatus : result'.status = .ok) :
    A.Stores initial stream result' := by
  obtain ⟨s₀, _, _, _, result, _, _, hbuild, hbuilt, hloop, hnodes, rfl⟩ :=
    Adapter.runTrial_eq_ok hrun
  obtain ⟨hupdates, hsame⟩ := interleaved_updates hloop hstatus
  exact ⟨s₀, _, hbuild, hupdates, hsame ▸ hbuilt, hnodes⟩

/-- **A batch trial** that finished. -/
theorem runBatchTrial_stores {readings : ℕ} (hrun : A.writing.runBatchTrial clock capBytes initial
    stream ⟨A.tree.empty, readings⟩ = .ok result' m') (hstatus : result'.status = .ok) :
    A.Stores initial stream result' := by
  obtain ⟨s₀, _, _, _, result, m₁, _, _, result₂, m₂, _, _, _, hbuild, hbuilt, hupdates, hqueries,
    hleft, hnodes, rfl⟩ := Adapter.runBatchTrial_eq_ok hrun hstatus
  obtain ⟨hmade, hsame⟩ := updateBatch_updates hupdates
  obtain ⟨hkept, hsame'⟩ := queryBatch_updates hqueries hstatus
  rw [hleft, hkept] at hnodes
  exact ⟨s₀, m₁.tree, hbuild, hmade, (hsame'.trans hsame) ▸ hbuilt, hnodes⟩

end PersistentAdapter

namespace PersistentStructure

variable {interval k : ℕ} {initial : List ValueType} {stream : List Operation}
  {result : TrialResult} {counts : StructuralCounts}

/-- The records that a stream is predicted to store, where a structure has a prediction. -/
def predicted (n : ℕ) (counts : StructuralCounts) : PersistentStructure → Option ℕ
  | persistent => some counts.updateVisits
  | copyOnPush => some (counts.updateVisits + 2 * counts.pushes)
  | pointOnly => some counts.intersecting
  | fullCopy => some ((2 * n - 1) * counts.nonZeroUpdates)
  | _ => none

theorem stored_of_grown {a b count : ℕ}
    (hbuilt : (.ok a : Except Exception ℕ) = .ok result.buildNodes)
    (hnodes : (.ok b : Except Exception ℕ) = .ok result.nodes) (h : b = a + count) :
    result.nodes = result.buildNodes + count := by
  injection hbuilt with hbuilt
  injection hnodes with hnodes
  rw [← hbuilt, ← hnodes, h]

/-- **Predictions** are what finished trials have stored. -/
theorem stores_predicted (which : PersistentStructure) {count : ℕ}
    (hcounts : structuralCounts stream initial.length k = .ok counts)
    (hcount : which.predicted initial.length counts = some count)
    (h : (which.adapter interval).Stores initial stream result) :
    result.nodes = result.buildNodes + count := by
  obtain ⟨s₀, s, hbuild, hupdates, hbuilt, hnodes⟩ := h
  cases which with
  | persistent =>
    cases hcount
    exact stored_of_grown hbuilt hnodes (persistent_grows hcounts s₀ s hbuild hupdates)
  | copyOnPush =>
    cases hcount
    exact stored_of_grown hbuilt hnodes (copyOnPush_grows hcounts s₀ s hbuild hupdates)
  | fullCopy =>
    cases hcount
    exact stored_of_grown hbuilt hnodes (fullCopy_grows hcounts s₀ s hbuild hupdates)
  | pointOnly =>
    cases hcount
    exact stored_of_grown hbuilt hnodes (pointOnly_grows hcounts s₀ s hbuild hupdates)
  | checkpointing => cases hcount
  | buffered => cases hcount
  | fatNode => cases hcount

end PersistentStructure

/-! ## What a finished trial has replayed -/

section Entries

open CheckpointingSegmentTree (State rangeSumCounting rangeSumCounting_fst)

variable {K : ℕ} {clock : ℕ → ℤ} {capBytes : UInt64} {initial : List ValueType}
  {stream : List Operation} {streamSize timeEvery index : ℕ} {result result' : TrialResult}
  {m m' : Measured State} {s t : State}

/-- The adapter of the checkpointing structure. -/
abbrev checkpointingAdapter (K : ℕ) : PersistentAdapter (List ValueType × ℕ) State :=
  PersistentStructure.checkpointing.adapter K

theorem update_logged {l r : ℕ} {delta : ValueType}
    (h : (checkpointingAdapter K).writing.update l r delta s = .ok () t) :
    ∃ x, CheckpointingSegmentTree.rangeAdd l r delta s = .ok x t :=
  PersistentAdapter.update_run h

/-- A query that returns has gone over some number of entries. -/
theorem query_counted {v l r : ℕ} {x : ValueType}
    (h : (checkpointingAdapter K).writing.query v l r s = .ok x t) :
    t = s ∧ ∃ entries, rangeSumCounting s v l r = .ok (x, entries) := by
  obtain ⟨hsum, rfl⟩ := run_get_bind_eq_ok.mp h
  have hcounting : (do return (← rangeSumCounting t v l r).1) = .ok x :=
    (rangeSumCounting_fst t v l r).trans hsum
  obtain ⟨⟨y, entries⟩, hy, hx⟩ := Effect.bind_eq_ok.mp hcounting
  cases hx
  exact ⟨rfl, entries, hy⟩

/-- **The interleaved loop** is the counting replay. -/
theorem interleaved_counted (hrun : (checkpointingAdapter K).writing.interleaved clock capBytes
    streamSize timeEvery stream index result m = .ok result' m') (hstatus : result'.status = .ok)
    (total : ℕ) : ∃ total', replayStream stream total m.tree = .ok total' m'.tree := by
  induction stream generalizing index result m total with
  | nil =>
    cases hrun
    exact ⟨total, rfl⟩
  | cons op stream ih =>
    obtain ⟨result₁, m₁, hop, hrest⟩ := Adapter.interleaved_cons hrun hstatus
    rw [replayStream]
    rcases hop with ⟨hu, hx⟩ | ⟨hu, hx⟩
    · rw [if_pos hu]
      obtain ⟨x, hx⟩ := update_logged hx
      rw [Effect.run_bind_ok hx]
      exact ih hrest total
    · rw [if_neg hu]
      obtain ⟨hsame, entries, hentries⟩ := query_counted hx
      rw [Effect.run_bind_ok (Effect.run_get _), hentries]
      obtain ⟨total', htotal⟩ := ih hrest (total + entries)
      exact ⟨total', hsame ▸ htotal⟩

/-- The loop over the queries. -/
theorem queryBatch_counted (hrun : (checkpointingAdapter K).writing.queryBatch capBytes stream
    result m = .ok result' m') (hstatus : result'.status = .ok) (total : ℕ) :
    ∃ total', runQueries stream total m.tree = .ok total' m'.tree := by
  induction stream generalizing result m total with
  | nil =>
    cases hrun
    exact ⟨total, rfl⟩
  | cons op stream ih =>
    rw [runQueries]
    by_cases hu : op.isUpdate = true
    · rw [Adapter.queryBatch, if_pos hu] at hrun
      rw [if_pos hu]
      exact ih hrun total
    · obtain ⟨x, t, hx, hrest⟩ := Adapter.queryBatch_cons hu hrun hstatus
      rw [if_neg hu]
      obtain ⟨rfl, entries, hentries⟩ := query_counted hx
      rw [Effect.run_bind_ok (Effect.run_get _), hentries]
      exact ih hrest (total + entries)

/-- **An interleaved trial** of a checkpointing structure is the counting replay. -/
theorem runTrial_counted {readings : ℕ} (hrun : (checkpointingAdapter K).writing.runTrial clock
    capBytes initial stream timeEvery ⟨CheckpointingSegmentTree.engine.empty, readings⟩ =
      .ok result' m') (hstatus : result'.status = .ok) :
    ∃ s₀ total, CheckpointingSegmentTree.initializeFrom initial K
        CheckpointingSegmentTree.engine.empty = .ok () s₀ ∧
      replayStream stream 0 s₀ = .ok total m'.tree := by
  obtain ⟨s₀, _, _, _, result, _, _, hbuild, -, hloop, -, rfl⟩ := Adapter.runTrial_eq_ok hrun
  obtain ⟨total, htotal⟩ := interleaved_counted hloop hstatus 0
  exact ⟨s₀, total, hbuild, htotal⟩

/-- **A batch trial** of one is the counting batch replay. -/
theorem runBatchTrial_counted {readings : ℕ} (hrun : (checkpointingAdapter K).writing.runBatchTrial
    clock capBytes initial stream ⟨CheckpointingSegmentTree.engine.empty, readings⟩ =
      .ok result' m') (hstatus : result'.status = .ok) :
    ∃ s₀ total, CheckpointingSegmentTree.initializeFrom initial K
        CheckpointingSegmentTree.engine.empty = .ok () s₀ ∧
      runBatchTrial stream s₀ = .ok total m'.tree := by
  obtain ⟨s₀, _, _, _, result, m₁, _, _, result₂, m₂, _, _, _, hbuild, -, hupdates, hqueries, hleft,
    -, rfl⟩ := Adapter.runBatchTrial_eq_ok hrun hstatus
  obtain ⟨hmade, -⟩ := PersistentAdapter.updateBatch_updates hupdates
  obtain ⟨total, htotal⟩ := queryBatch_counted hqueries hstatus 0
  have hupdated : runUpdates CheckpointingSegmentTree.rangeAdd stream s₀ = .ok () m₁.tree := hmade
  refine ⟨s₀, total, hbuild, ?_⟩
  unfold runBatchTrial
  rw [Effect.run_bind_ok hupdated, hleft]
  exact htotal

end Entries

/-! ## The predictions hold of trials -/

/-- **Trials count as predicted.** Of a stream that can be counted, a finished trial in either order
has stored the records that are predicted of its structure. The queries of an interleaved
checkpointing trial go over the predicted number of entries, and those of a batch trial over that
number exactly where every query of the latest version that an update follows names a multiple of
the interval. -/
theorem trial_counts (initial : List ValueType) (stream : List Operation) (K : ℕ)
    (counts : StructuralCounts) (hK : 0 < K)
    (hcounts : structuralCounts stream initial.length K = .ok counts)
    (clock : ℕ → ℤ) (capBytes : UInt64) (timeEvery : ℕ) :
    (∀ (which : PersistentStructure) (count : ℕ),
      which.predicted initial.length counts = some count → ∀ result m',
        (which.adapter K).runTrial clock capBytes initial stream timeEvery
            (which.adapter K).start = .ok result m' ∨
          (which.adapter K).runBatchTrial clock capBytes initial stream
            (which.adapter K).start = .ok result m' →
        result.status = .ok → result.nodes = result.buildNodes + count) ∧
    (∀ result m', (checkpointingAdapter K).runTrial clock capBytes initial stream timeEvery
        (checkpointingAdapter K).start = .ok result m' → result.status = .ok →
      ∃ s₀, CheckpointingSegmentTree.initializeFrom initial K
          CheckpointingSegmentTree.engine.empty = .ok () s₀ ∧
        replayStream stream 0 s₀ = .ok counts.replayEntries m'.tree) ∧
    ∀ result m', (checkpointingAdapter K).runBatchTrial clock capBytes initial stream
        (checkpointingAdapter K).start = .ok result m' → result.status = .ok →
      ∃ s₀ total, CheckpointingSegmentTree.initializeFrom initial K
          CheckpointingSegmentTree.engine.empty = .ok () s₀ ∧
        runBatchTrial stream s₀ = .ok total m'.tree ∧
          (total = counts.replayEntries ↔ LatestAligned K 0 stream) := by
  refine ⟨fun which count hcount result m' hrun hstatus => ?_, fun result m' hrun hstatus => ?_,
    fun result m' hrun hstatus => ?_⟩
  · have hstores : (which.adapter K).Stores initial stream result := by
      rcases hrun with hrun | hrun
      · exact PersistentAdapter.runTrial_stores hrun hstatus
      · exact PersistentAdapter.runBatchTrial_stores hrun hstatus
    exact which.stores_predicted hcounts hcount hstores
  · obtain ⟨s₀, total, hinit, htotal⟩ := runTrial_counted hrun hstatus
    obtain rfl := replays_predicted hcounts rfl s₀ m'.tree total hinit htotal
    exact ⟨s₀, hinit, htotal⟩
  · obtain ⟨s₀, total, hinit, htotal⟩ := runBatchTrial_counted hrun hstatus
    exact ⟨s₀, total, hinit, htotal, runBatchTrial_predicted hK hcounts hinit htotal⟩

theorem finished_of_outcome {σ : Type} {x : EStateM.Result Exception σ TrialResult}
    (h : (Effect.outcome x).map TrialResult.status = .ok .ok) :
    ∃ result s, x = .ok result s ∧ result.status = .ok := by
  rcases x with ⟨result, s⟩ | ⟨e, s⟩
  · injection h with h
    exact ⟨result, s, rfl, h⟩
  · cases h

/-- The trials of `lateStream`, on which the orders go over different numbers of entries. -/
theorem trial_counts_late :
    (∃ result m', (PersistentStructure.persistent.adapter 3).runBatchTrial 0 1000 [0] lateStream
        (PersistentStructure.persistent.adapter 3).start = .ok result m' ∧
      result.nodes = result.buildNodes + 2) ∧
    (∃ result m' s₀, (checkpointingAdapter 3).runTrial 0 1000 [0] lateStream 1
        (checkpointingAdapter 3).start = .ok result m' ∧
      replayStream lateStream 0 s₀ = .ok 0 m'.tree) ∧
    ∃ result m' s₀ total, (checkpointingAdapter 3).runBatchTrial 0 1000 [0] lateStream
        (checkpointingAdapter 3).start = .ok result m' ∧
      runBatchTrial lateStream s₀ = .ok total m'.tree ∧ total ≠ 0 := by
  obtain ⟨hstored, hinterleaved, hbatch⟩ :=
    trial_counts [0] lateStream 3 _ (by decide) lateStream_counts 0 1000 1
  refine ⟨?_, ?_, ?_⟩
  · obtain ⟨result, m', hrun, hstatus⟩ := finished_of_outcome (show (Effect.outcome
      ((PersistentStructure.persistent.adapter 3).runBatchTrial 0 1000 [0] lateStream
        (PersistentStructure.persistent.adapter 3).start)).map TrialResult.status = .ok .ok by
      decide +kernel)
    exact ⟨result, m', hrun, hstored .persistent 2 rfl result m' (.inr hrun) hstatus⟩
  · obtain ⟨result, m', hrun, hstatus⟩ := finished_of_outcome (show (Effect.outcome
      ((checkpointingAdapter 3).runTrial 0 1000 [0] lateStream 1
        (checkpointingAdapter 3).start)).map TrialResult.status = .ok .ok by decide +kernel)
    obtain ⟨s₀, -, hreplay⟩ := hinterleaved result m' hrun hstatus
    exact ⟨result, m', s₀, hrun, hreplay⟩
  · obtain ⟨result, m', hrun, hstatus⟩ := finished_of_outcome (show (Effect.outcome
      ((checkpointingAdapter 3).runBatchTrial 0 1000 [0] lateStream
        (checkpointingAdapter 3).start)).map TrialResult.status = .ok .ok by decide +kernel)
    obtain ⟨s₀, total, -, hreplay, hiff⟩ := hbatch result m' hrun hstatus
    refine ⟨result, m', s₀, total, hrun, hreplay, fun h0 => ?_⟩
    have haligned : LatestAligned 3 0 lateStream := hiff.mp h0
    simp only [LatestAligned, lateStream] at haligned
    exact absurd (haligned.1 trivial (by decide)) (by decide)

end Bench

end Valseg
