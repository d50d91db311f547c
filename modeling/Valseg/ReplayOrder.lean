import Valseg.Trials

/-!
# Replay order

The interleaved replay answers a query while its version may be the latest, the batch replay when
all later versions are there too. A sum that is returned is exact either way, so both trials
compute the checksum of the exact answers, and that is the same for every structure
(`replay_order`).

`Answering` is what is known of an adapter: from which additions it answers a query, while these are
made one by one. The interleaved replay asks in between (`runTrial_answers`) and the batch replay at
the end (`runBatchTrial_answers`). Of the seven structures `Holds` is what they have published so
far, and `Exact` what they guarantee of their sums.
-/

namespace Valseg

namespace Bench

/-- The range additions of a stream. -/
def additions (stream : List Operation) : List (RangeAdd ℤ) :=
  (stream.filter Operation.isUpdate).map fun op => ⟨op.left, op.right, op.delta.toInt⟩

@[simp] theorem additions_nil : additions [] = [] := rfl

theorem additions_update {op : Operation} (hu : op.isUpdate = true) (stream : List Operation) :
    additions (op :: stream) = ⟨op.left, op.right, op.delta.toInt⟩ :: additions stream := by
  unfold additions
  rw [List.filter_cons_of_pos hu, List.map_cons]

theorem additions_query {op : Operation} (hu : ¬ op.isUpdate = true) (stream : List Operation) :
    additions (op :: stream) = additions stream := by
  unfold additions
  rw [List.filter_cons_of_neg hu]

/-- The number of queries in a stream. -/
def queryCount (stream : List Operation) : ℕ := (stream.filter fun op => !op.isUpdate).length

theorem updateCount_update {op : Operation} (hu : op.isUpdate = true) (stream : List Operation) :
    updateCount (op :: stream) = updateCount stream + 1 := by
  unfold updateCount
  rw [List.filter_cons_of_pos hu, List.length_cons]

theorem updateCount_query {op : Operation} (hu : ¬ op.isUpdate = true) (stream : List Operation) :
    updateCount (op :: stream) = updateCount stream := by
  unfold updateCount
  rw [List.filter_cons_of_neg hu]

theorem queryCount_update {op : Operation} (hu : op.isUpdate = true) (stream : List Operation) :
    queryCount (op :: stream) = queryCount stream := by
  unfold queryCount
  rw [List.filter_cons_of_neg (by rw [hu]; decide)]

theorem queryCount_query {op : Operation} (hu : ¬ op.isUpdate = true) (stream : List Operation) :
    queryCount (op :: stream) = queryCount stream + 1 := by
  unfold queryCount
  rw [List.filter_cons_of_pos (by rw [Bool.eq_false_iff.mpr hu]; rfl), List.length_cons]

/-- The checksum of the exact answers, read in an array with all of its versions. -/
def exactChecksum (adds : RangeAdds ℤ) : List Operation → UInt64 → UInt64
  | [], checksum => checksum
  | op :: stream, checksum => exactChecksum adds stream <|
    if op.isUpdate then checksum
    else extendChecksum checksum (.ofInt (Segment.sum (adds.array op.version) op.left op.right))

/-! ## Answers -/

/-- The sum a query is answered with, by the additions made so far. -/
abbrev Answer := List (RangeAdd ℤ) → (version left right : ℕ) → ℤ

/-- The addition of an update. -/
def Operation.addition (op : Operation) : RangeAdd ℤ := ⟨op.left, op.right, op.delta.toInt⟩

/-- The checksum of the answers when the stream is replayed in its order. -/
def interleavedChecksum (answer : Answer) :
    (updates : List (RangeAdd ℤ)) → List Operation → UInt64 → UInt64
  | _, [], checksum => checksum
  | updates, op :: stream, checksum =>
    if op.isUpdate then interleavedChecksum answer (updates ++ [op.addition]) stream checksum
    else interleavedChecksum answer updates stream <|
      extendChecksum checksum (.ofInt (answer updates op.version op.left op.right))

/-- The checksum of the answers when all additions are made first. -/
def batchChecksum (answer : Answer) (updates : List (RangeAdd ℤ)) :
    List Operation → UInt64 → UInt64
  | [], checksum => checksum
  | op :: stream, checksum => batchChecksum answer updates stream <|
    if op.isUpdate then checksum
    else extendChecksum checksum (.ofInt (answer updates op.version op.left op.right))

/-- What an adapter of the array answers, with what is known of its states. Not every version can be
named. -/
structure Answering {σ : Type} (A : Adapter σ) (initial : List ValueType)
    (I : List (RangeAdd ℤ) → σ → Prop) (named : ℕ → Prop) (answer : Answer) : Prop where
  build : ∀ {s}, A.build initial A.empty = .ok () s → I [] s
  update : ∀ {updates s s' l r value}, l ≤ r → r < initial.length → I updates s →
    A.update l r value s = .ok () s' → I (updates ++ [⟨l, r, value.toInt⟩]) s'
  query : ∀ {updates s s' v l r x}, l ≤ r → r < initial.length → v ≤ updates.length →
    named v → I updates s → A.query v l r s = .ok x s' →
      I updates s' ∧ x = .ofInt (answer updates v l r)

/-! ## The loops -/

namespace Answering

variable {σ : Type} {A : Adapter σ} {initial : List ValueType} {I : List (RangeAdd ℤ) → σ → Prop}
  {named : ℕ → Prop} {answer : Answer} {clock : ℕ → ℤ} {capBytes : UInt64} {stream : List Operation}
  {updates : List (RangeAdd ℤ)} {streamSize timeEvery index : ℕ} {result result' : TrialResult}
  {m m' : Measured σ}

/-- What a replay adds to a result: a checksum and the numbers of operations. -/
structure Computes (stream : List Operation) (checksum : UInt64)
    (result result' : TrialResult) : Prop where
  checksum : result'.checksum = checksum
  updates : result'.updates = result.updates + updateCount stream
  queries : result'.queries = result.queries + queryCount stream

theorem Computes.of_update {op : Operation} {checksum : UInt64} {result₁ : TrialResult}
    (h : Computes stream checksum result₁ result') (hu : op.isUpdate = true)
    (hupdates : result₁.updates = result.updates + 1) (hqueries : result₁.queries = result.queries) :
    Computes (op :: stream) checksum result result' := by
  refine ⟨h.checksum, ?_, ?_⟩
  · rw [h.updates, hupdates, updateCount_update hu]
    omega
  · rw [h.queries, hqueries, queryCount_update hu]

theorem Computes.of_query {op : Operation} {checksum : UInt64} {result₁ : TrialResult}
    (h : Computes stream checksum result₁ result') (hu : ¬ op.isUpdate = true)
    (hupdates : result₁.updates = result.updates) (hqueries : result₁.queries = result.queries + 1) :
    Computes (op :: stream) checksum result result' := by
  refine ⟨h.checksum, ?_, ?_⟩
  · rw [h.updates, hupdates, updateCount_query hu]
  · rw [h.queries, hqueries, queryCount_query hu]
    omega

/-- **The interleaved loop.** Each query is answered from the additions before it. -/
theorem interleaved_answers (hA : Answering A initial I named answer)
    (hvalid : ValidFrom initial.length updates.length stream)
    (hnamed : ∀ v ≤ updates.length + updateCount stream, named v) (hm : I updates m.tree)
    (hrun : A.interleaved clock capBytes streamSize timeEvery stream index result m =
      .ok result' m') (hstatus : result'.status = .ok) :
    Computes stream (interleavedChecksum answer updates stream result.checksum) result result' := by
  induction stream generalizing updates index result m with
  | nil =>
    cases hrun
    exact ⟨rfl, rfl, rfl⟩
  | cons op stream ih =>
    obtain ⟨result₁, m₁, hop, hrest⟩ := Adapter.interleaved_cons hrun hstatus
    obtain ⟨hlr, hlt, hvalid⟩ := hvalid
    rw [interleavedChecksum]
    rcases hop with ⟨hu, hx⟩ | ⟨hu, hx⟩
    · rw [if_pos hu] at hvalid ⊢
      rw [updateCount_update hu] at hnamed
      have hm' := hA.update hlr hlt hm hx
      have hlength : (updates ++ [op.addition]).length = updates.length + 1 := List.length_append
      rw [← hlength] at hvalid
      refine (ih hvalid (fun v hv => hnamed v ?_) hm' hrest).of_update hu rfl rfl
      rw [hlength] at hv
      omega
    · rw [if_neg hu] at hvalid ⊢
      rw [updateCount_query hu] at hnamed
      have hv := hnamed op.version (hvalid.1.trans (Nat.le_add_right _ _))
      obtain ⟨hm', rfl⟩ := hA.query hlr hlt hvalid.1 hv hm hx
      exact (ih hvalid.2 hnamed hm' hrest).of_query hu rfl rfl

/-- **The loop over the updates.** -/
theorem updateBatch_answers (hA : Answering A initial I named answer)
    (hvalid : ValidFrom initial.length updates.length stream) (hm : I updates m.tree)
    (hrun : A.updateBatch capBytes stream result m = .ok (result', false) m') :
    I (updates ++ additions stream) m'.tree ∧
      result' = { result with updates := result.updates + updateCount stream } := by
  induction stream generalizing updates result m with
  | nil =>
    cases hrun
    rw [additions_nil, List.append_nil]
    exact ⟨hm, rfl⟩
  | cons op stream ih =>
    obtain ⟨hlr, hlt, hvalid⟩ := hvalid
    by_cases hu : op.isUpdate = true
    · obtain ⟨t, hx, hrest⟩ := Adapter.updateBatch_cons hu hrun
      rw [if_pos hu] at hvalid
      have hlength : (updates ++ [op.addition]).length = updates.length + 1 := List.length_append
      rw [← hlength] at hvalid
      obtain ⟨hm', hresult⟩ := ih hvalid (hA.update hlr hlt hm hx) hrest
      rw [Operation.addition, ← List.append_cons, ← additions_update hu] at hm'
      refine ⟨hm', ?_⟩
      rw [hresult, updateCount_update hu, Nat.add_right_comm, Nat.add_assoc]
    · rw [if_neg hu] at hvalid
      rw [Adapter.updateBatch, if_neg hu] at hrun
      rw [additions_query hu, updateCount_query hu]
      exact ih hvalid.2 hm hrun

/-- **The loop over the queries.** Every version of the stream is there by then. -/
theorem queryBatch_answers (hA : Answering A initial I named answer) {latest : ℕ}
    (hvalid : ValidFrom initial.length latest stream)
    (hrun : A.queryBatch capBytes stream result m = .ok result' m')
    (hstatus : result'.status = .ok) (hm : I updates m.tree)
    (hlatest : latest + updateCount stream ≤ updates.length)
    (hnamed : ∀ v ≤ updates.length, named v) :
    result'.checksum = batchChecksum answer updates stream result.checksum ∧
      result'.updates = result.updates ∧
        result'.queries = result.queries + queryCount stream := by
  induction stream generalizing latest result m with
  | nil =>
    cases hrun
    exact ⟨rfl, rfl, rfl⟩
  | cons op stream ih =>
    obtain ⟨hlr, hlt, hvalid⟩ := hvalid
    by_cases hu : op.isUpdate = true
    · rw [if_pos hu] at hvalid
      rw [Adapter.queryBatch, if_pos hu] at hrun
      rw [updateCount_update hu] at hlatest
      rw [batchChecksum, if_pos hu, queryCount_update hu]
      exact ih hvalid hrun hm (by omega)
    · obtain ⟨x, t, hx, hrest⟩ := Adapter.queryBatch_cons hu hrun hstatus
      rw [if_neg hu] at hvalid
      rw [updateCount_query hu] at hlatest
      have hv := hvalid.1
      have hle : op.version ≤ updates.length := by omega
      obtain ⟨hm', rfl⟩ := hA.query hlr hlt hle (hnamed _ hle) hm hx
      obtain ⟨hsum, hupdates, hqueries⟩ := ih hvalid.2 hrest hm' hlatest
      refine ⟨?_, hupdates, ?_⟩
      · rw [hsum, batchChecksum, if_neg hu]
      · rw [hqueries, queryCount_query hu, Nat.add_right_comm, Nat.add_assoc]

/-! ## The replays -/

theorem updateCount_eq (stream : List Operation) :
    (additions stream).length = updateCount stream := List.length_map _

/-- **An interleaved replay** that returns below the cap. -/
theorem runTrial_answers (hA : Answering A initial I named answer)
    (hvalid : ValidFrom initial.length 0 stream) (hnamed : ∀ v ≤ updateCount stream, named v)
    {readings : ℕ} (hrun : A.runTrial clock capBytes initial stream timeEvery
      ⟨A.empty, readings⟩ = .ok result' m') (hstatus : result'.status = .ok) :
    Computes stream (interleavedChecksum answer [] stream 0) {} result' := by
  obtain ⟨t, _, _, _, result, _, _, hbuild, -, hloop, -, rfl⟩ := Adapter.runTrial_eq_ok hrun
  have hnamed' : ∀ v ≤ ([] : List (RangeAdd ℤ)).length + updateCount stream, named v := by
    rwa [List.length_nil, zero_add]
  have hstart : ValidFrom initial.length ([] : List (RangeAdd ℤ)).length stream := hvalid
  have key := hA.interleaved_answers hstart hnamed' (hA.build hbuild) hloop hstatus
  exact ⟨key.checksum, key.updates, key.queries⟩

/-- **A batch replay** that returns below the cap. -/
theorem runBatchTrial_answers (hA : Answering A initial I named answer)
    (hvalid : ValidFrom initial.length 0 stream) (hnamed : ∀ v ≤ updateCount stream, named v)
    {readings : ℕ} (hrun : A.runBatchTrial clock capBytes initial stream ⟨A.empty, readings⟩ =
      .ok result' m') (hstatus : result'.status = .ok) :
    Computes stream (batchChecksum answer (additions stream) stream 0) {} result' := by
  obtain ⟨t, _, _, _, result, m₁, _, _, result₂, m₂, _, _, _, hbuild, -, hupdates, hqueries, -, -,
    rfl⟩ := Adapter.runBatchTrial_eq_ok hrun hstatus
  have hstart : ValidFrom initial.length ([] : List (RangeAdd ℤ)).length stream := hvalid
  obtain ⟨hm, rfl⟩ := hA.updateBatch_answers hstart (hA.build hbuild) hupdates
  have hcount : 0 + updateCount stream ≤ (additions stream).length := by
    rw [zero_add, updateCount_eq]
  have hbelow : result₂.status = .ok := hstatus
  obtain ⟨hsum, hup, hq⟩ := hA.queryBatch_answers hvalid hqueries hbelow hm hcount
    (by rwa [List.nil_append, updateCount_eq])
  exact ⟨hsum, hup, hq⟩

end Answering

/-! ## Exact answers -/

section Exact

variable {initial : List ValueType} {updates : List (RangeAdd ℤ)} {stream : List Operation}

/-- The array with its versions, after the additions. -/
def versionsOf (initial : List ValueType) (updates : List (RangeAdd ℤ)) : RangeAdds ℤ :=
  ⟨leafArray initial, updates⟩

/-- The sum in the version that is asked for. -/
def exactSum (initial : List ValueType) : Answer := fun updates version left right =>
  Segment.sum ((versionsOf initial updates).array version) left right

/-- Later additions leave the version a valid query asks for. -/
theorem interleavedChecksum_exact {size : ℕ} (hvalid : ValidFrom size updates.length stream)
    (checksum : UInt64) : interleavedChecksum (exactSum initial) updates stream checksum =
      exactChecksum (versionsOf initial (updates ++ additions stream)) stream checksum := by
  induction stream generalizing updates checksum with
  | nil => rfl
  | cons op stream ih =>
    obtain ⟨-, -, hvalid⟩ := hvalid
    rw [interleavedChecksum, exactChecksum]
    by_cases hu : op.isUpdate = true
    · rw [if_pos hu] at hvalid
      have hlength : (updates ++ [op.addition]).length = updates.length + 1 := List.length_append
      rw [← hlength] at hvalid
      rw [if_pos hu, if_pos hu, ih hvalid, additions_update hu, Operation.addition,
        ← List.append_cons]
    · rw [if_neg hu] at hvalid
      have harray : (versionsOf initial (updates ++ additions stream)).array op.version =
          (versionsOf initial updates).array op.version := by
        unfold versionsOf RangeAdds.array
        rw [List.take_append_of_le_length hvalid.1]
      rw [if_neg hu, if_neg hu, ih hvalid.2, additions_query hu, harray]
      rfl

theorem batchChecksum_exact (updates : List (RangeAdd ℤ)) (stream : List Operation)
    (checksum : UInt64) : batchChecksum (exactSum initial) updates stream checksum =
      exactChecksum (versionsOf initial updates) stream checksum := by
  induction stream generalizing checksum with
  | nil => rfl
  | cons op stream ih =>
    rw [batchChecksum, exactChecksum, ih]
    rfl

end Exact

/-! ## Structures with exact sums -/

namespace PersistentAdapter

variable {ι σ : Type} {A : PersistentAdapter ι σ} {initial : List ValueType}
  {updates : List (RangeAdd ℤ)} {s s' : σ} {l r v : ℕ} {value x : ValueType}

/-- An initialization is given the array, and a sum that is returned is that of its version. -/
structure Exact (A : PersistentAdapter ι σ) : Prop where
  values : ∀ values, A.tree.values (A.argument values) = values
  rangeSum : ∀ {s : σ} {h : History ι} {v l r : ℕ} {x : ValueType}, A.tree.Reachable s h →
    A.rangeSum s v l r = .ok x → x.toInt = Segment.sum (h.adds.array v) l r

/-- The state was reached by building the array and making the additions. -/
def Holds (A : PersistentAdapter ι σ) (initial : List ValueType) (updates : List (RangeAdd ℤ))
    (s : σ) : Prop :=
  A.tree.Reachable s (A.tree.historyOf (A.argument initial) updates)

theorem Holds.build (h : A.build initial A.tree.empty = .ok () s) : A.Holds initial [] s :=
  ⟨[.initializeFrom (A.argument initial)], Engine.step_initialize_ok h⟩

theorem Holds.update (h : A.Holds initial updates s) (hu : A.update l r value s = .ok () s') :
    A.Holds initial (updates ++ [⟨l, r, value.toInt⟩]) s' := by
  obtain ⟨version, s₁, h1, h2⟩ := Effect.run_bind_eq_ok.mp hu
  cases h2
  exact Engine.Reachable.step h (Engine.step_rangeAdd_ok h1)

/-- A version has the same array however many additions follow. -/
theorem Holds.query (hA : A.Exact) (rest : List (RangeAdd ℤ)) (h : A.Holds initial updates s)
    (hv : v ≤ updates.length) (hx : A.query s v l r = .ok x) :
    x = .ofInt (Segment.sum
      ((⟨leafArray initial, updates ++ rest⟩ : RangeAdds ℤ).array v) l r) := by
  have harray : (⟨leafArray initial, updates ++ rest⟩ : RangeAdds ℤ).array v =
      (A.tree.historyOf (A.argument initial) updates).adds.array v := by
    unfold Engine.historyOf RangeAdds.array
    rw [hA.values, List.take_append_of_le_length hv]
  rw [harray, ← hA.rangeSum h hx, Int64.ofInt_toInt]

/-- **The seven** answer exactly, whatever version is asked for. -/
theorem Exact.answering (hA : A.Exact) (initial : List ValueType) :
    Answering A.writing initial (A.Holds initial) (fun _ => True) (exactSum initial) where
  build := Holds.build
  update := fun _ _ hm hx => hm.update hx
  query := fun _ _ hv _ hm hx => by
    obtain ⟨hx, rfl⟩ := run_get_bind_eq_ok.mp hx
    refine ⟨hm, (hm.query hA [] hv hx).trans ?_⟩
    rw [List.append_nil]
    rfl

end PersistentAdapter

/-- **Exact sums** of the seven structures. -/
theorem PersistentStructure.exact (interval : ℕ) :
    ∀ which : PersistentStructure, (which.adapter interval).Exact
  | persistent => ⟨fun _ => rfl, fun hr hx => by
      obtain ⟨m, -, -, hv, hsum⟩ := PersistentLazySegmentTree.reaches hr
      exact hv.rangeSum_exact ((hsum _ _ _).symm.trans hx)⟩
  | copyOnPush => ⟨fun _ => rfl, fun hr hx => by
      obtain ⟨m, -, -, hv, hsum⟩ := CopyOnPushSegmentTree.reaches hr
      exact hv.rangeSum_exact ((hsum _ _ _).symm.trans hx)⟩
  | fullCopy => ⟨fun _ => rfl, fun hr hx => by
      obtain ⟨m, -, -, hv, hsum⟩ := FullCopyPersistentSegmentTree.reaches hr
      exact hv.rangeSum_exact ((hsum _ _ _).symm.trans hx)⟩
  | pointOnly => ⟨fun _ => rfl, fun hr hx => by
      obtain ⟨m, -, -, hv, hsum⟩ := PointOnlyPersistentSegmentTree.reaches hr
      exact hv.rangeSum_exact ((hsum _ _ _).symm.trans hx)⟩
  | checkpointing => ⟨fun _ => rfl, fun hr hx => by
      obtain ⟨m, -, hs, hv⟩ := CheckpointingSegmentTree.simulation.reaches hr
      exact CheckpointingSegmentTree.rangeSum_exact hs hv hx⟩
  | buffered => ⟨fun _ => rfl, fun hr hx => by
      obtain ⟨m, -, -, hv, hsum⟩ := BufferedPathCopyingSegmentTree.reaches hr
      exact hv.rangeSum_exact ((hsum _ _ _).symm.trans hx)⟩
  | fatNode => ⟨fun _ => rfl, fun hr hx => by
      obtain ⟨m, -, -, hv, hsum⟩ := FatNodePersistentSegmentTree.reaches hr
      exact hv.rangeSum_exact ((hsum _ _ _).symm.trans hx)⟩

/-- **Replay order.** Where neither replay throws or passes its cap, the two compute the same
checksum and count the same operations, and the checksum is the same for all seven structures. -/
theorem replay_order (initial : List ValueType) (stream : List Operation)
    (hvalid : ValidFrom initial.length 0 stream) :
    ∃ checksum, ∀ (which : PersistentStructure) (interval timeEvery : ℕ) (capBytes : UInt64)
      (clock clock' : ℕ → ℤ) x y s s',
      (which.adapter interval).runTrial clock capBytes initial stream timeEvery
          (which.adapter interval).start = .ok x s → x.status = .ok →
        (which.adapter interval).runBatchTrial clock' capBytes initial stream
          (which.adapter interval).start = .ok y s' → y.status = .ok →
        (x.checksum = checksum ∧ y.checksum = checksum) ∧ x.updates = y.updates ∧
          x.queries = y.queries := by
  refine ⟨exactChecksum (versionsOf initial (additions stream)) stream 0, ?_⟩
  intro which interval timeEvery capBytes clock clock' x y s s' hx hxs hy hys
  have hanswering := (PersistentStructure.exact interval which).answering initial
  have hinterleaved := hanswering.runTrial_answers hvalid (fun _ _ => trivial) hx hxs
  have hbatch := hanswering.runBatchTrial_answers hvalid (fun _ _ => trivial) hy hys
  have hstart : ValidFrom initial.length ([] : List (RangeAdd ℤ)).length stream := hvalid
  rw [interleavedChecksum_exact hstart, List.nil_append] at hinterleaved
  rw [batchChecksum_exact] at hbatch
  exact ⟨⟨hinterleaved.checksum, hbatch.checksum⟩,
    hinterleaved.updates.trans hbatch.updates.symm, hinterleaved.queries.trans hbatch.queries.symm⟩

/-- Queries of a latest version, of an old one, and of one that has become old in the batch. -/
abbrev mixedOperations : List Operation :=
  [⟨true, 0, 1, 0, 5⟩, ⟨false, 0, 2, 1, 0⟩, ⟨true, 1, 2, 0, -3⟩, ⟨false, 1, 1, 1, 0⟩,
    ⟨false, 0, 2, 0, 0⟩]

/-- A replay and a batch replay of them over three elements, with a clock that stands still. -/
theorem replay_order_mixed :
    ∃ x y s s', (PersistentStructure.checkpointing.adapter 2).runTrial 0 1000 [1, 2, 3]
        mixedOperations 2 (PersistentStructure.checkpointing.adapter 2).start = .ok x s ∧
      (PersistentStructure.checkpointing.adapter 2).runBatchTrial 0 1000 [1, 2, 3]
        mixedOperations (PersistentStructure.checkpointing.adapter 2).start = .ok y s' ∧
      x.checksum = y.checksum ∧ x.updates = y.updates ∧ x.queries = y.queries := by
  obtain ⟨s, hs⟩ := Effect.outcome_eq_ok.mp (show Effect.outcome
    ((PersistentStructure.checkpointing.adapter 2).runTrial 0 1000 [1, 2, 3] mixedOperations 2
      (PersistentStructure.checkpointing.adapter 2).start) = .ok
        { updates := 2, queries := 3, buildNodes := 10, nodes := 17, bytes := 288,
          checksum := 16000103000171, samples := [⟨1, 2, 11, 184⟩, ⟨2, 2, 11, 184⟩,
            ⟨3, 3, 17, 288⟩, ⟨4, 3, 17, 288⟩, ⟨5, 3, 17, 288⟩] } by decide +kernel)
  obtain ⟨s', hs'⟩ := Effect.outcome_eq_ok.mp (show Effect.outcome
    ((PersistentStructure.checkpointing.adapter 2).runBatchTrial 0 1000 [1, 2, 3] mixedOperations
      (PersistentStructure.checkpointing.adapter 2).start) = .ok
        { updates := 2, queries := 3, buildNodes := 10, batchNs := 0, nodes := 17, bytes := 288,
          checksum := 16000103000171 } by decide +kernel)
  obtain ⟨checksum, key⟩ := replay_order [1, 2, 3] mixedOperations (by decide)
  obtain ⟨⟨hx, hy⟩, hupdates, hqueries⟩ := key _ _ _ _ _ _ _ _ _ _ hs rfl hs' rfl
  exact ⟨_, _, s, s', hs, hs', hx.trans hy.symm, hupdates, hqueries⟩

end Bench

end Valseg
