import Valseg.StreamReplays

/-!
# Replayed entries

The entries of the log that `CheckpointingSegmentTree::rangeSum` goes over. `rangeSumCounting` is
`rangeSum` with a counter, and returns the entries between the checkpoint and the version. In the
interleaved replay of a stream their total is the predicted one (`structural_counts_exact`); in a
batch replay, which runs the queries last, it is the predicted one exactly where no query of a
version that was the latest would be replayed (`batch_replays_iff`).
-/

namespace Valseg

namespace CheckpointingSegmentTree

/-- `replay`, with the number of entries it has gone over. -/
def replayCounting (this : State) (version left right i : ℕ) (sum : ValueType) (entries : ℕ) :
    Except Exception (ValueType × ℕ) :=
  if i < version then do
    let event ← vectorAt this.events i
    let overlapLeft := max left event.left
    let overlapRight := min right event.right
    let sum ← (if overlapLeft ≤ overlapRight then do
        SumAddPolicy.apply event.value sum (← segmentLength overlapLeft overlapRight)
      else pure sum)
    replayCounting this version left right (i + 1) sum (entries + 1)
  else pure (sum, entries)
termination_by version - i

/-- `rangeSum`, with the number of entries it goes over. -/
def rangeSumCounting (this : State) (version left right : ℕ) :
    Except Exception (ValueType × ℕ) := do
  validateInitialized this.checkpoints.length
  validateVersion version (this.events.length + 1)
  validateNonEmpty this.arraySize
  validateRange this.arraySize left right
  if version = this.events.length then do
    return (← query this.live 0 0 (this.arraySize - 1) left right 0, 0)
  else do
    let base ← vectorAt this.checkpoints (version / this.interval)
    let sum ← query base.nodes 0 0 (this.arraySize - 1) left right 0
    replayCounting this version left right base.version sum 0

variable {s : State} {v l r i : ℕ}

/-- The loop goes over one entry for every version in between. -/
theorem replayCounting_eq (s : State) (v l r i : ℕ) (sum : ValueType) (entries : ℕ) :
    replayCounting s v l r i sum entries =
      (do return (← replay s v l r i sum, entries + (v - i))) := by
  induction hk : v - i using Nat.strong_induction_on generalizing i sum entries with
  | _ k ih =>
    subst hk
    rw [replayCounting, replay]
    by_cases hlt : i < v
    · rw [if_pos hlt, if_pos hlt]
      simp only [bind_assoc]
      refine bind_congr fun event => bind_congr fun x => ?_
      rw [ih _ (by omega) (i + 1) x (entries + 1) rfl]
      have hcount : entries + 1 + (v - (i + 1)) = entries + (v - i) := by omega
      rw [hcount]
    · have hcount : v - i = 0 := by omega
      rw [if_neg hlt, if_neg hlt, hcount]
      rfl

/-- The counter does not change the sum. -/
theorem rangeSumCounting_fst (s : State) (v l r : ℕ) :
    (do return (← rangeSumCounting s v l r).1) = rangeSum s v l r := by
  unfold rangeSumCounting rangeSum
  simp only [bind_assoc]
  refine bind_congr fun _ => bind_congr fun _ => bind_congr fun _ => bind_congr fun _ => ?_
  by_cases hv : v = s.events.length
  · rw [if_pos hv, if_pos hv]
    simp only [bind_assoc, pure_bind, bind_pure]
  · rw [if_neg hv, if_neg hv]
    simp only [bind_assoc, replayCounting_eq, pure_bind, bind_pure]

/-- The log has so many updates, with a checkpoint at every multiple of the interval. -/
def Logs (interval count : ℕ) (s : State) : Prop :=
  ∃ h m, StoresVersions h s m ∧ m.Valid .retaining h.adds ∧ s.interval = interval ∧
    s.events.length = count

variable {interval count : ℕ} {s' : State}

theorem Logs.start {values : List ValueType} (h : initializeFrom values interval s = .ok () s') :
    Logs interval 0 s' := by
  obtain ⟨hlen, m, hm, hs⟩ := initialize_outcome h
  exact ⟨_, m, hs, (VersionedTrees.Valid.initializeFrom hlen hm).2, hs.interval, hs.events_length⟩

theorem Logs.rangeAdd {value : ValueType} {x : ℕ} (h : Logs interval count s)
    (hadd : CheckpointingSegmentTree.rangeAdd l r value s = .ok x s') :
    Logs interval (count + 1) s' := by
  obtain ⟨h, m, hs, hv, rfl, rfl⟩ := h
  rcases rangeAdd_outcome hs hv l r value with ⟨m', live, guard, hm, hr, hs'⟩ | ⟨e, hr, -⟩
  · rw [hr] at hadd
    cases hadd
    exact ⟨_, m', hs', (hv.rangeAdd hm).2.2, rfl, List.length_append⟩
  · rw [hr] at hadd
    cases hadd

/-- **Entries.** A sum of the latest version goes over no entry, one of an older version over
those since its checkpoint. -/
theorem Logs.entries {x : ValueType} {entries : ℕ} (h : Logs interval count s)
    (hx : rangeSumCounting s v l r = .ok (x, entries)) :
    entries = Bench.replayOf interval count v := by
  obtain ⟨h, m, hs, -, rfl, rfl⟩ := h
  unfold rangeSumCounting at hx
  obtain ⟨⟨⟩, -, hx⟩ := Effect.bind_eq_ok.mp hx
  obtain ⟨⟨⟩, -, hx⟩ := Effect.bind_eq_ok.mp hx
  obtain ⟨⟨⟩, -, hx⟩ := Effect.bind_eq_ok.mp hx
  obtain ⟨⟨⟩, -, hx⟩ := Effect.bind_eq_ok.mp hx
  unfold Bench.replayOf
  by_cases hv : v = s.events.length
  · rw [if_pos hv] at hx ⊢
    obtain ⟨y, -, hx⟩ := Effect.bind_eq_ok.mp hx
    cases hx
    rfl
  · rw [if_neg hv] at hx
    obtain ⟨base, hbase, hx⟩ := Effect.bind_eq_ok.mp hx
    obtain ⟨sum, -, hx⟩ := Effect.bind_eq_ok.mp hx
    rw [replayCounting_eq] at hx
    obtain ⟨y, -, hx⟩ := Effect.bind_eq_ok.mp hx
    cases hx
    rw [if_neg hv, if_neg hs.interval_pos.ne', hs.version _ _ (vectorAt_eq_ok.mp hbase), zero_add,
      Nat.mod_eq_sub_div_mul]

end CheckpointingSegmentTree

/-! ## Streams -/

namespace Bench

open CheckpointingSegmentTree (State Logs rangeAdd rangeSumCounting)

/-- The interleaved replay, with the total of the entries gone over. -/
def replayStream : List Operation → (total : ℕ) → EStateM Exception State ℕ
  | [], total => return total
  | op :: stream, total =>
    if op.isUpdate then do
      let _ ← rangeAdd op.left op.right op.delta
      replayStream stream total
    else do
      let (_, entries) ← rangeSumCounting (← get) op.version op.left op.right
      replayStream stream (total + entries)

/-- The queries of a stream, in their order. -/
def runQueries : List Operation → (total : ℕ) → EStateM Exception State ℕ
  | [], total => return total
  | op :: stream, total =>
    if op.isUpdate then runQueries stream total
    else do
      let (_, entries) ← rangeSumCounting (← get) op.version op.left op.right
      runQueries stream (total + entries)

/-- The batch replay: the updates first, then the queries. -/
def runBatchTrial (stream : List Operation) : EStateM Exception State ℕ := do
  runUpdates rangeAdd stream
  runQueries stream 0

/-- The number of updates in a stream. -/
def updateCount (stream : List Operation) : ℕ := (stream.filter Operation.isUpdate).length

/-- The entries of an interleaved replay from a version. -/
def interleavedEntries (interval : ℕ) : (latestVersion : ℕ) → List Operation → ℕ
  | _, [] => 0
  | latestVersion, op :: stream =>
    if op.isUpdate then interleavedEntries interval (latestVersion + 1) stream
    else replayOf interval latestVersion op.version +
      interleavedEntries interval latestVersion stream

/-- The entries of the queries of a stream when the version is the latest. -/
def batchEntries (interval latestVersion : ℕ) : List Operation → ℕ
  | [] => 0
  | op :: stream =>
    (if op.isUpdate then 0 else replayOf interval latestVersion op.version) +
      batchEntries interval latestVersion stream

/-- The ranges are those of an array of `size` elements, and every query names a version there is
by then. -/
def ValidFrom (size : ℕ) : (latestVersion : ℕ) → List Operation → Prop
  | _, [] => True
  | latestVersion, op :: stream => op.left ≤ op.right ∧ op.right < size ∧
    if op.isUpdate then ValidFrom size (latestVersion + 1) stream
    else op.version ≤ latestVersion ∧ ValidFrom size latestVersion stream

instance ValidFrom.decidable (size : ℕ) :
    (latestVersion : ℕ) → (stream : List Operation) → Decidable (ValidFrom size latestVersion stream)
  | _, [] => inferInstanceAs (Decidable True)
  | latestVersion, op :: stream =>
    have := ValidFrom.decidable size (latestVersion + 1) stream
    have := ValidFrom.decidable size latestVersion stream
    inferInstanceAs (Decidable (op.left ≤ op.right ∧ op.right < size ∧
      if op.isUpdate then ValidFrom size (latestVersion + 1) stream
      else op.version ≤ latestVersion ∧ ValidFrom size latestVersion stream))

variable {size interval total total' latest K : ℕ} {s s' : State} {c c' : Counting}
  {stream : List Operation}

/-- What is counted. -/
theorem foldlM_counts (h : stream.foldlM (countOperation size interval) c = .ok c') :
    ValidFrom size c.latestVersion stream ∧ c'.counts.replayEntries =
      c.counts.replayEntries + interleavedEntries interval c.latestVersion stream := by
  induction stream generalizing c with
  | nil =>
    cases h
    exact ⟨trivial, rfl⟩
  | cons op stream ih =>
    rw [List.foldlM_cons] at h
    obtain ⟨c₁, h1, h⟩ := Effect.bind_eq_ok.mp h
    obtain ⟨hvalid, hentries⟩ := ih h
    unfold ValidFrom interleavedEntries
    by_cases hu : op.isUpdate = true
    · rw [if_pos hu, if_pos hu]
      by_cases h0 : op.delta = 0
      · obtain ⟨hlr, hr, rfl⟩ := countOperation_zero hu h0 h1
        exact ⟨⟨hlr, hr, hvalid⟩, hentries⟩
      · have hadds := countOperation_update hu h0 h1
        rw [hadds.latestVersion] at hvalid hentries
        rw [hadds.replayEntries] at hentries
        exact ⟨⟨hadds.le, hadds.lt, hvalid⟩, hentries⟩
    · have hadds := countOperation_query (Bool.eq_false_iff.mpr hu) h1
      rw [hadds.latestVersion] at hvalid hentries
      rw [hadds.replayEntries] at hentries
      rw [if_neg hu, if_neg hu]
      exact ⟨⟨hadds.le, hadds.lt, hadds.version, hvalid⟩, by rw [hentries, Nat.add_assoc]⟩

/-- What the interleaved replay goes over. -/
theorem replayStream_entries (h : Logs K latest s)
    (hrun : replayStream stream total s = .ok total' s') :
    total' = total + interleavedEntries K latest stream := by
  induction stream generalizing s total latest with
  | nil =>
    cases hrun
    rfl
  | cons op stream ih =>
    rw [replayStream] at hrun
    unfold interleavedEntries
    by_cases hu : op.isUpdate = true
    · rw [if_pos hu] at hrun ⊢
      obtain ⟨x, s₁, hadd, hrun⟩ := Effect.run_bind_eq_ok.mp hrun
      exact ih (h.rangeAdd hadd) hrun
    · rw [if_neg hu, Effect.run_bind_ok (Effect.run_get s)] at hrun
      obtain ⟨⟨x, entries⟩, hsum, hrun⟩ := Effect.run_liftM_bind_eq_ok.mp hrun
      rw [if_neg hu, ih h hrun, h.entries hsum, Nat.add_assoc]

/-- What the batch replay goes over. -/
theorem runUpdates_logs (h : Logs K latest s) (hrun : runUpdates rangeAdd stream s = .ok () s') :
    Logs K (latest + updateCount stream) s' := by
  induction stream generalizing s latest with
  | nil =>
    cases hrun
    exact h
  | cons op stream ih =>
    rw [runUpdates] at hrun
    unfold updateCount at ih ⊢
    by_cases hu : op.isUpdate = true
    · rw [if_pos hu] at hrun
      obtain ⟨x, s₁, hadd, hrun⟩ := Effect.run_bind_eq_ok.mp hrun
      rw [List.filter_cons_of_pos hu, List.length_cons, Nat.add_comm _ 1, ← Nat.add_assoc]
      exact ih (h.rangeAdd hadd) hrun
    · rw [if_neg hu] at hrun
      rw [List.filter_cons_of_neg hu]
      exact ih h hrun

theorem runQueries_entries (h : Logs K latest s)
    (hrun : runQueries stream total s = .ok total' s') :
    total' = total + batchEntries K latest stream := by
  induction stream generalizing s total with
  | nil =>
    cases hrun
    rfl
  | cons op stream ih =>
    rw [runQueries] at hrun
    unfold batchEntries
    by_cases hu : op.isUpdate = true
    · rw [if_pos hu] at hrun ⊢
      rw [ih h hrun, zero_add]
    · rw [if_neg hu, Effect.run_bind_ok (Effect.run_get s)] at hrun
      obtain ⟨⟨x, entries⟩, hsum, hrun⟩ := Effect.run_liftM_bind_eq_ok.mp hrun
      rw [if_neg hu, ih h hrun, h.entries hsum, Nat.add_assoc]

/-- An interval that no version reaches makes every version its own number of entries. -/
theorem interleavedEntries_zero (hv : ValidFrom size latest stream)
    (hK : latest + updateCount stream < K) :
    interleavedEntries 0 latest stream = interleavedEntries K latest stream := by
  induction stream generalizing latest with
  | nil => rfl
  | cons op stream ih =>
    unfold ValidFrom at hv
    unfold interleavedEntries
    unfold updateCount at hK ih
    obtain ⟨-, -, hv⟩ := hv
    by_cases hu : op.isUpdate = true
    · rw [if_pos hu] at hv
      rw [List.filter_cons_of_pos hu, List.length_cons] at hK
      rw [if_pos hu, if_pos hu]
      exact ih hv (by omega)
    · rw [if_neg hu] at hv
      rw [List.filter_cons_of_neg hu] at hK
      rw [if_neg hu, if_neg hu, ih hv.2 hK]
      have hentries : replayOf 0 latest op.version = replayOf K latest op.version := by
        have hlt : op.version < K := by omega
        have hpos : K ≠ 0 := by omega
        unfold replayOf
        rw [if_pos rfl, if_neg hpos, Nat.mod_eq_of_lt hlt]
      rw [hentries]

/-- A query that names the latest version, and that an update follows, names a multiple of the
interval. -/
def LatestAligned (interval : ℕ) : (latestVersion : ℕ) → List Operation → Prop
  | _, [] => True
  | latestVersion, op :: stream =>
    if op.isUpdate then LatestAligned interval (latestVersion + 1) stream
    else (op.version = latestVersion → 0 < updateCount stream → interval ∣ op.version) ∧
      LatestAligned interval latestVersion stream

/-- One query, before and after the other updates of the stream. -/
theorem replayOf_later {version : ℕ} (later : ℕ) (hK : 0 < K) (hv : version ≤ latest) :
    replayOf K latest version ≤ replayOf K (latest + later) version ∧
      (replayOf K (latest + later) version = replayOf K latest version ↔
        (version = latest → 0 < later → K ∣ version)) := by
  unfold replayOf
  rw [if_neg hK.ne']
  by_cases hlatest : version = latest
  · rw [if_pos hlatest]
    refine ⟨Nat.zero_le _, ?_⟩
    by_cases hlater : 0 < later
    · rw [if_neg (by omega)]
      exact ⟨fun h _ _ => Nat.dvd_of_mod_eq_zero h, fun h => Nat.mod_eq_zero_of_dvd (h hlatest hlater)⟩
    · rw [if_pos (by omega)]
      exact iff_of_true rfl fun _ h => absurd h hlater
  · rw [if_neg hlatest, if_neg (by omega)]
    exact ⟨le_rfl, iff_of_true rfl fun h => absurd h hlatest⟩

/-- A batch replay goes over no fewer entries, and over the same number exactly where the queries
are aligned. -/
theorem batchEntries_iff (hK : 0 < K) (hv : ValidFrom size latest stream) :
    interleavedEntries K latest stream ≤ batchEntries K (latest + updateCount stream) stream ∧
      (batchEntries K (latest + updateCount stream) stream = interleavedEntries K latest stream ↔
        LatestAligned K latest stream) := by
  induction stream generalizing latest with
  | nil => exact ⟨le_rfl, iff_of_true rfl trivial⟩
  | cons op stream ih =>
    unfold ValidFrom at hv
    unfold interleavedEntries batchEntries LatestAligned
    obtain ⟨-, -, hv⟩ := hv
    by_cases hu : op.isUpdate = true
    · rw [if_pos hu] at hv
      have hcount : latest + updateCount (op :: stream) = latest + 1 + updateCount stream := by
        unfold updateCount
        rw [List.filter_cons_of_pos hu, List.length_cons]
        omega
      rw [if_pos hu, if_pos hu, if_pos hu, zero_add, hcount]
      exact ih hv
    · rw [if_neg hu] at hv
      have hcount : updateCount (op :: stream) = updateCount stream := by
        unfold updateCount
        rw [List.filter_cons_of_neg hu]
      rw [if_neg hu, if_neg hu, if_neg hu, hcount]
      obtain ⟨hle, hiff⟩ := ih hv.2
      obtain ⟨hle', hiff'⟩ := replayOf_later (updateCount stream) hK hv.1
      rw [← hiff, ← hiff']
      omega

/-! ## The predictions -/

/-- Replaying the updates of the stream from an initialization makes the arena so much longer. -/
def GrowsBy {Node Domain : Type} (P : PathCopying Node Domain) (values : List ValueType)
    (stream : List Operation) (count : ℕ) : Prop :=
  ∀ s₀ s, P.initializeFrom values P.empty = .ok () s₀ → runUpdates P.rangeAdd stream s₀ = .ok () s →
    PathCopying.nodeCount s = PathCopying.nodeCount s₀ + count

/-- The interleaved replay of the stream goes over so many entries. -/
def Replays (values : List ValueType) (K : ℕ) (stream : List Operation) (count : ℕ) : Prop :=
  ∀ s₀ s total, CheckpointingSegmentTree.initializeFrom values K
      CheckpointingSegmentTree.engine.empty = .ok () s₀ →
    replayStream stream 0 s₀ = .ok total s → total = count

section Predicted

variable {values : List ValueType} {counts : StructuralCounts} {k : ℕ}

theorem persistent_grows (hcounts : structuralCounts stream values.length k = .ok counts) :
    GrowsBy PersistentLazySegmentTree.parts values stream counts.updateVisits := fun _ _ h h' =>
  nodeCount_runUpdates StructuralCounts.updateVisits _
    (fun i l r value => PersistentLazySegmentTree.update_grows l r value 0 _ (Nat.zero_le _) i)
    (fun h => h.updateVisits) (fun _ _ => rfl) (fun h => h.updateVisits) rfl hcounts h h'

theorem copyOnPush_grows (hcounts : structuralCounts stream values.length k = .ok counts) :
    GrowsBy CopyOnPushSegmentTree.parts values stream
      (counts.updateVisits + 2 * counts.pushes) := fun _ _ h h' =>
  nodeCount_runUpdates_pushing hcounts h h'

theorem pointOnly_grows (hcounts : structuralCounts stream values.length k = .ok counts) :
    GrowsBy PointOnlyPersistentSegmentTree.parts values stream counts.intersecting := fun _ _ h h' =>
  nodeCount_runUpdates StructuralCounts.intersecting _
    (fun i l r value =>
      PointOnlyPersistentSegmentTree.pointOnlyUpdate_grows l r value 0 _ (Nat.zero_le _) i)
    (fun h => h.intersecting) (fun _ _ => rfl) (fun h => h.intersecting) rfl hcounts h h'

theorem fullCopy_grows (hcounts : structuralCounts stream values.length k = .ok counts) :
    GrowsBy FullCopyPersistentSegmentTree.parts values stream
      ((2 * values.length - 1) * counts.nonZeroUpdates) := by
  intro _ _ h h'
  have hpos := (structuralCounts_eq_ok hcounts).1
  have hsize : 2 * (values.length - 1 - 0) + 1 = 2 * values.length - 1 := by omega
  exact nodeCount_runUpdates (fun counts => (2 * values.length - 1) * counts.nonZeroUpdates)
    (fun _ _ => 2 * values.length - 1)
    (fun i l r value => (FullCopyPersistentSegmentTree.fullCopyUpdate_grows l r value 0 _
      (Nat.zero_le _) i).cast hsize)
    (fun h => by rw [h.nonZeroUpdates, Nat.mul_succ]) (fun _ _ => rfl)
    (fun h => by rw [h.nonZeroUpdates]) rfl hcounts h h'

/-- The interleaved replay with an interval that counts the same. -/
theorem replays_predicted (hcounts : structuralCounts stream values.length k = .ok counts)
    (hK : interleavedEntries k 0 stream = interleavedEntries K 0 stream) :
    Replays values K stream counts.replayEntries := by
  intro s₀ s total hinit hrun
  obtain ⟨-, c, hcount, hfinal⟩ := structuralCounts_eq_ok hcounts
  obtain ⟨-, hentries⟩ := foldlM_counts hcount
  rw [hfinal] at hentries
  rw [replayStream_entries (.start hinit) hrun, hentries, ← hK]

/-- What the queries of a batch replay go over is predicted where its latest versions are aligned. -/
theorem runBatchTrial_predicted {s₀ : State} (hK : 0 < K)
    (hcounts : structuralCounts stream values.length K = .ok counts)
    (hinit : CheckpointingSegmentTree.initializeFrom values K
      CheckpointingSegmentTree.engine.empty = .ok () s₀)
    (hrun : runBatchTrial stream s₀ = .ok total s) :
    total = counts.replayEntries ↔ LatestAligned K 0 stream := by
  obtain ⟨-, c, hcount, hfinal⟩ := structuralCounts_eq_ok hcounts
  obtain ⟨hvalid, hentries⟩ := foldlM_counts hcount
  rw [hfinal] at hentries
  obtain ⟨⟨⟩, s₁, h1, h2⟩ := Effect.run_bind_eq_ok.mp hrun
  have htotal := runQueries_entries (runUpdates_logs (.start hinit) h1) h2
  have hiff := (batchEntries_iff hK hvalid).2
  rw [htotal, hentries, ← hiff]
  simp only [zero_add]

end Predicted

/-- **The structural counts are exact.** For every stream that can be counted and replayed. -/
theorem structural_counts_exact (values : List ValueType) (stream : List Operation)
    (interval : ℕ) (counts : StructuralCounts)
    (hcounts : structuralCounts stream values.length interval = .ok counts) :
    GrowsBy PersistentLazySegmentTree.parts values stream counts.updateVisits ∧
    GrowsBy CopyOnPushSegmentTree.parts values stream (counts.updateVisits + 2 * counts.pushes) ∧
    GrowsBy PointOnlyPersistentSegmentTree.parts values stream counts.intersecting ∧
    GrowsBy FullCopyPersistentSegmentTree.parts values stream
      ((2 * values.length - 1) * counts.nonZeroUpdates) ∧
    (0 < interval → Replays values interval stream counts.replayEntries) ∧
    (interval = 0 → ∀ K, updateCount stream < K → Replays values K stream counts.replayEntries) := by
  refine ⟨persistent_grows hcounts, copyOnPush_grows hcounts, pointOnly_grows hcounts,
    fullCopy_grows hcounts, fun _ => replays_predicted hcounts rfl, fun h0 K hK => ?_⟩
  obtain ⟨-, c, hcount, -⟩ := structuralCounts_eq_ok hcounts
  obtain ⟨hvalid, -⟩ := foldlM_counts hcount
  subst h0
  exact replays_predicted hcounts (interleavedEntries_zero hvalid (by omega))

/-- A stream with a push, an update of zero, a query of the latest version and one of an older. -/
def mixedStream : List Operation :=
  [⟨true, 0, 2, 0, 5⟩, ⟨true, 0, 0, 0, 3⟩, ⟨false, 0, 1, 2, 0⟩, ⟨true, 1, 1, 0, 0⟩,
    ⟨true, 0, 1, 0, -8⟩, ⟨false, 1, 2, 3, 0⟩]

/-- A replay of the updates that returns has grown the arena. -/
theorem GrowsBy.grown {Node Domain : Type} {P : PathCopying Node Domain} {values : List ValueType}
    {stream : List Operation} {count : ℕ} (h : GrowsBy P values stream count)
    (hrun : Effect.outcome ((do
      P.initializeFrom values
      runUpdates P.rangeAdd stream) P.empty) = .ok ()) :
    ∃ s₀ s, P.initializeFrom values P.empty = .ok () s₀ ∧
      runUpdates P.rangeAdd stream s₀ = .ok () s ∧
        PathCopying.nodeCount s = PathCopying.nodeCount s₀ + count := by
  obtain ⟨s, hs⟩ := Effect.outcome_eq_ok.mp hrun
  obtain ⟨⟨⟩, s₀, hinit, hupdates⟩ := Effect.run_bind_eq_ok.mp hs
  exact ⟨s₀, s, hinit, hupdates, h s₀ s hinit hupdates⟩

/-- The stream on each of the five structures. -/
theorem structural_counts_exact_mixed :
    (∃ s₀ s, PersistentLazySegmentTree.parts.initializeFrom [1, 2, 3]
        PersistentLazySegmentTree.parts.empty = .ok () s₀ ∧
      runUpdates PersistentLazySegmentTree.parts.rangeAdd mixedStream s₀ = .ok () s ∧
        PathCopying.nodeCount s = PathCopying.nodeCount s₀ + 6) ∧
    (∃ s₀ s, CopyOnPushSegmentTree.parts.initializeFrom [1, 2, 3]
        CopyOnPushSegmentTree.parts.empty = .ok () s₀ ∧
      runUpdates CopyOnPushSegmentTree.parts.rangeAdd mixedStream s₀ = .ok () s ∧
        PathCopying.nodeCount s = PathCopying.nodeCount s₀ + (6 + 2 * 2)) ∧
    (∃ s₀ s, PointOnlyPersistentSegmentTree.parts.initializeFrom [1, 2, 3]
        PointOnlyPersistentSegmentTree.parts.empty = .ok () s₀ ∧
      runUpdates PointOnlyPersistentSegmentTree.parts.rangeAdd mixedStream s₀ = .ok () s ∧
        PathCopying.nodeCount s = PathCopying.nodeCount s₀ + 12) ∧
    (∃ s₀ s, FullCopyPersistentSegmentTree.parts.initializeFrom [1, 2, 3]
        FullCopyPersistentSegmentTree.parts.empty = .ok () s₀ ∧
      runUpdates FullCopyPersistentSegmentTree.parts.rangeAdd mixedStream s₀ = .ok () s ∧
        PathCopying.nodeCount s = PathCopying.nodeCount s₀ + 5 * 3) ∧
    ∃ s₀ s total, CheckpointingSegmentTree.initializeFrom [1, 2, 3] 2
        CheckpointingSegmentTree.engine.empty = .ok () s₀ ∧
      replayStream mixedStream 0 s₀ = .ok total s ∧ total = 1 := by
  have hcounts : structuralCounts mixedStream 3 2 =
      .ok ⟨4, 3, 2, 6, 5, 2, 12, 6, 1, 1, 1, 0, 1⟩ := by decide +kernel
  obtain ⟨h1, h2, h3, h4, h5, -⟩ := structural_counts_exact [1, 2, 3] mixedStream 2 _ hcounts
  refine ⟨h1.grown (by decide +kernel), h2.grown (by decide +kernel), h3.grown (by decide +kernel),
    h4.grown (by decide +kernel), ?_⟩
  obtain ⟨s, hs⟩ := Effect.outcome_eq_ok.mp (show Effect.outcome ((do
    CheckpointingSegmentTree.initializeFrom [1, 2, 3] 2
    replayStream mixedStream 0) CheckpointingSegmentTree.engine.empty) = .ok 1 by decide +kernel)
  obtain ⟨⟨⟩, s₀, hinit, hreplay⟩ := Effect.run_bind_eq_ok.mp hs
  exact ⟨s₀, s, 1, hinit, hreplay, h5 (by decide) s₀ s 1 hinit hreplay⟩

/-- **Batch replays.** A batch replay goes over the predicted number of entries exactly where
every query that names the latest version before a later update names a multiple of the
interval. -/
theorem batch_replays_iff (values : List ValueType) (stream : List Operation) (K : ℕ)
    (counts : StructuralCounts) (s₀ s : State) (total : ℕ) (hK : 0 < K)
    (hcounts : structuralCounts stream values.length K = .ok counts)
    (hinit : CheckpointingSegmentTree.initializeFrom values K
      CheckpointingSegmentTree.engine.empty = .ok () s₀)
    (hrun : runBatchTrial stream s₀ = .ok total s) :
    total = counts.replayEntries ↔ LatestAligned K 0 stream :=
  runBatchTrial_predicted hK hcounts hinit hrun

/-- An update, a query of its version, and another update. -/
def lateStream : List Operation :=
  [⟨true, 0, 0, 0, 1⟩, ⟨false, 0, 0, 1, 0⟩, ⟨true, 0, 0, 0, 1⟩]

/-- One element, with a checkpoint at every third version. -/
def lateStart : State := ⟨[⟨0, 0⟩], [], [⟨0, [⟨0, 0⟩]⟩], 3, 1, ⟨0⟩⟩

/-- After both updates. -/
def lateEnd : State :=
  ⟨[⟨2, 2⟩], [⟨0, 0, 1⟩, ⟨0, 0, 1⟩], [⟨0, [⟨0, 0⟩]⟩], 3, 1, ⟨2⟩⟩

theorem lateStream_counts : structuralCounts lateStream 1 3 =
    .ok ⟨2, 2, 1, 2, 0, 0, 2, 1, 0, 0, 2, 1, 1⟩ := by decide +kernel

theorem lateStart_initialized : CheckpointingSegmentTree.initializeFrom [0] 3
    CheckpointingSegmentTree.engine.empty = .ok () lateStart :=
  Effect.onLocal_eq_ok.mp (by decide +kernel)

theorem lateStream_run : runBatchTrial lateStream lateStart = .ok 1 lateEnd :=
  Effect.onLocal_eq_ok.mp (by decide +kernel)

/-- It is predicted to go over no entry, and the batch replay goes over one. -/
theorem batch_replays_late : ¬ ∀ (values : List ValueType) (stream : List Operation) (K : ℕ)
    (counts : StructuralCounts) (s₀ s : State) (total : ℕ), 0 < K →
    structuralCounts stream values.length K = .ok counts →
    CheckpointingSegmentTree.initializeFrom values K
      CheckpointingSegmentTree.engine.empty = .ok () s₀ →
    runBatchTrial stream s₀ = .ok total s → total = counts.replayEntries := fun hall =>
  absurd (hall [0] lateStream 3 _ _ _ 1 (by decide) lateStream_counts lateStart_initialized
    lateStream_run) (by decide)

theorem batch_replays_iff_late : ¬ LatestAligned 3 0 lateStream := fun h =>
  absurd ((batch_replays_iff [0] lateStream 3 _ _ _ 1 (by decide) lateStream_counts
    lateStart_initialized lateStream_run).mpr h) (by decide)

end Bench

end Valseg
