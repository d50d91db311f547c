import Valseg.Adapters

/-!
# Checksums of all structures

A replay folds the answers of its queries into a checksum. The control answers from its latest state
and the external tree from any version that 32 bits name.

1. `historical_checksums`: the eight structures with versions compute the checksum of the exact
   answers, the external one included, in either replay.
2. `control_checksums`: the control computes that of another stream, whose queries ask for the
   version that is the latest when they are asked.
-/

namespace Valseg

namespace Bench

/-! ## The structures -/

section Structures

variable {initial : List ValueType} {updates : List (RangeAdd ℤ)} {stream : List Operation}

/-- The sum in the latest version. -/
def latestSum (initial : List ValueType) : Answer := fun updates _ left right =>
  Segment.sum (versionsOf initial updates).latest left right

/-- **The control.** -/
theorem lazyAdapter_answering (initial : List ValueType) :
    Answering lazyAdapter initial
      (fun updates this => LazySegmentTree.engine.Reachable this.tree
        (LazySegmentTree.engine.historyOf initial updates)) (fun _ => True) (latestSum initial) where
  build := fun hx => by
    obtain ⟨u, this, htree, hset⟩ := Effect.run_bind_eq_ok.mp hx
    obtain ⟨tree, hbuild, rfl⟩ := Effect.zoom_eq_ok.mp htree
    cases hset
    exact ⟨[.initializeFrom initial], Engine.step_initialize_ok hbuild⟩
  update := fun _ _ hm hx => by
    obtain ⟨u, this, htree, hset⟩ := Effect.run_bind_eq_ok.mp hx
    obtain ⟨tree, hadd, rfl⟩ := Effect.zoom_eq_ok.mp htree
    cases hset
    exact Engine.Reachable.step hm (Engine.step_rangeAdd_ok hadd)
  query := fun _ _ _ _ hm hx => by
    obtain ⟨hx, rfl⟩ := run_get_bind_eq_ok.mp hx
    have hsum := (LazySegmentTree.rangeSum_exact hm hx).2.2
    refine ⟨hm, (Int64.ofInt_toInt _).symm.trans ?_⟩
    rw [hsum]
    rfl

/-- **The external tree.** -/
theorem externalAdapter_answering (leftFirst : Bool) (hlen : initial.length < 2 ^ 32) :
    Answering (externalAdapter leftFirst) initial
      (fun updates this => initial ≠ [] →
        ∃ Γ, PerSegTree.Stores (versionsOf initial updates) initial.length Γ this)
      (· < 2 ^ 32) (exactSum initial) where
  build := fun hx hne => (PerSegTree.constructFrom_stores hlen hne).apply hx
  update := fun {updates s s' l r value} hlr hlt hm hx hne => by
    have hl : l % 2 ^ 32 = l := Nat.mod_eq_of_lt (by omega)
    have hr : r % 2 ^ 32 = r := Nat.mod_eq_of_lt (by omega)
    obtain ⟨Γ, hs⟩ := hm hne
    simp only [externalAdapter, hl, hr] at hx
    exact ((PerSegTree.updateLatest_stores hlen (List.length_pos_iff.mpr hne) hs l r value).apply
      hx).2
  query := fun {updates s s' v l r x} hlr hlt hv hlimit hm hx => by
    have hpos : 0 < initial.length := by omega
    have hl : l % 2 ^ 32 = l := Nat.mod_eq_of_lt (by omega)
    have hr : r % 2 ^ 32 = r := Nat.mod_eq_of_lt (by omega)
    have hver : v % 2 ^ 32 = v := Nat.mod_eq_of_lt hlimit
    obtain ⟨Γ, hs⟩ := hm (List.length_pos_iff.mp hpos)
    simp only [externalAdapter, hl, hr, hver] at hx
    obtain ⟨hsum, -, -, hs'⟩ := (PerSegTree.queryVersion_stores hlen hpos hs
      (Nat.lt_succ_of_le hv) leftFirst l r).apply hx
    rw [Segment.partSum_of_contains (Nat.zero_le _) (by omega)] at hsum
    refine ⟨fun _ => hs', (Int64.ofInt_toInt x).symm.trans ?_⟩
    rw [hsum]
    rfl

/-! ## Which checksums these are -/

/-- The stream whose queries ask for the version that is the latest then. -/
def askLatest : (latest : ℕ) → List Operation → List Operation
  | _, [] => []
  | latest, op :: stream =>
    if op.isUpdate then op :: askLatest (latest + 1) stream
    else { op with version := latest } :: askLatest latest stream

/-- The stream whose queries ask for one version. -/
def askAt (version : ℕ) (stream : List Operation) : List Operation :=
  stream.map fun op => if op.isUpdate then op else { op with version := version }

theorem interleavedChecksum_latest (checksum : UInt64) :
    interleavedChecksum (latestSum initial) updates stream checksum =
      exactChecksum (versionsOf initial (updates ++ additions stream))
        (askLatest updates.length stream) checksum := by
  induction stream generalizing updates checksum with
  | nil => rfl
  | cons op stream ih =>
    rw [interleavedChecksum, askLatest]
    by_cases hu : op.isUpdate = true
    · have hlength : (updates ++ [op.addition]).length = updates.length + 1 := List.length_append
      rw [if_pos hu, if_pos hu, exactChecksum, if_pos hu, ih, hlength, additions_update hu,
        Operation.addition, ← List.append_cons]
    · have harray : (versionsOf initial (updates ++ additions stream)).array updates.length =
          (versionsOf initial updates).latest := by
        unfold versionsOf RangeAdds.latest RangeAdds.array
        rw [List.take_append_of_le_length le_rfl]
      rw [if_neg hu, if_neg hu, exactChecksum, if_neg hu, ih, additions_query hu, harray]
      rfl

theorem batchChecksum_latest (updates : List (RangeAdd ℤ)) (stream : List Operation)
    (checksum : UInt64) : batchChecksum (latestSum initial) updates stream checksum =
      exactChecksum (versionsOf initial updates) (askAt updates.length stream) checksum := by
  induction stream generalizing checksum with
  | nil => rfl
  | cons op stream ih =>
    rw [batchChecksum, ih, askAt, askAt, List.map_cons, exactChecksum]
    by_cases hu : op.isUpdate = true
    · rw [if_pos hu, if_pos hu, if_pos hu]
    · rw [if_neg hu, if_neg hu, if_neg hu]
      rfl

end Structures

/-! ## Checksums -/

section Checksums

variable {initial : List ValueType} {stream : List Operation} {σ α : Type}

theorem measuring_eq_ok {start : σ} {x : MeasuredM σ α} {readings readings' : ℕ} {a : α} :
    measuring start x readings = .ok a readings' ↔
      ∃ m, x ⟨start, readings⟩ = .ok a m ∧ m.readings = readings' := by
  unfold measuring
  rcases x ⟨start, readings⟩ with ⟨b, m⟩ | ⟨e, m⟩
  · simp
  · exact iff_of_false nofun nofun

/-- The checksums of the two replays of a structure, where they return below the cap. -/
structure Structure.Checks (s : Structure) (initial : List ValueType) (stream : List Operation)
    (interleaved batch : UInt64) : Prop where
  run : ∀ {clock interval capBytes timeEvery readings readings' x},
    s.run clock initial stream interval capBytes timeEvery readings = .ok x readings' →
      x.status = .ok → Answering.Computes stream interleaved {} x
  batchTrial : ∀ {clock interval capBytes readings readings' x},
    s.batchTrial clock initial stream interval capBytes readings = .ok x readings' →
      x.status = .ok → Answering.Computes stream batch {} x

/-- The checksums of a structure that answers, at any checkpoint interval. -/
theorem Structure.checks_of {A : ℕ → Adapter σ} {I : ℕ → List (RangeAdd ℤ) → σ → Prop}
    {named : ℕ → Prop} {answer : Answer} (name : String) (historical : Bool)
    (hA : ∀ interval, Answering (A interval) initial (I interval) named answer)
    (hvalid : ValidFrom initial.length 0 stream) (hnamed : ∀ v ≤ updateCount stream, named v) :
    (Structure.of name A historical).Checks initial stream
      (interleavedChecksum answer [] stream 0)
      (batchChecksum answer (additions stream) stream 0) := by
  refine ⟨fun {_ interval _ _ _ _ _} hx hstatus => ?_, fun {_ interval _ _ _ _} hx hstatus => ?_⟩
  · obtain ⟨m, hrun, -⟩ := measuring_eq_ok.mp hx
    exact (hA interval).runTrial_answers hvalid hnamed hrun hstatus
  · obtain ⟨m, hrun, -⟩ := measuring_eq_ok.mp hx
    exact (hA interval).runBatchTrial_answers hvalid hnamed hrun hstatus

/-- With exact answers both checksums are the exact one. -/
theorem Structure.checks_exact {A : ℕ → Adapter σ} {I : ℕ → List (RangeAdd ℤ) → σ → Prop}
    {named : ℕ → Prop} (name : String) (historical : Bool)
    (hA : ∀ interval, Answering (A interval) initial (I interval) named (exactSum initial))
    (hvalid : ValidFrom initial.length 0 stream) (hnamed : ∀ v ≤ updateCount stream, named v) :
    (Structure.of name A historical).Checks initial stream
      (exactChecksum (versionsOf initial (additions stream)) stream 0)
      (exactChecksum (versionsOf initial (additions stream)) stream 0) := by
  have key := Structure.checks_of name historical hA hvalid hnamed
  have hstart : ValidFrom initial.length ([] : List (RangeAdd ℤ)).length stream := hvalid
  rwa [interleavedChecksum_exact hstart, List.nil_append, batchChecksum_exact] at key

/-- **The historical structures.** -/
theorem structures_check (leftFirst : Bool) (hlen : initial.length < 2 ^ 32)
    (hvalid : ValidFrom initial.length 0 stream) (hcount : updateCount stream < 2 ^ 32)
    {s : Structure} (hs : s ∈ structures leftFirst) (hhistorical : s.historical = true) :
    s.Checks initial stream (exactChecksum (versionsOf initial (additions stream)) stream 0)
      (exactChecksum (versionsOf initial (additions stream)) stream 0) := by
  unfold structures at hs
  simp only [List.mem_append, List.mem_singleton, List.mem_map] at hs
  rcases hs with (rfl | ⟨which, -, rfl⟩) | rfl
  · exact absurd hhistorical Bool.false_ne_true
  · exact Structure.checks_exact _ _
      (fun interval => (PersistentStructure.exact interval which).answering initial) hvalid
      fun _ _ => trivial
  · exact Structure.checks_exact _ _ (fun _ => externalAdapter_answering leftFirst hlen) hvalid
      fun _ hv => hv.trans_lt hcount

/-- **Historical checksums.** Whatever the clock, the cap, the checkpoint interval and the replay,
each of the eight structures with versions computes the checksum of the exact answers and counts
all operations, where it returns below the cap. -/
theorem historical_checksums (leftFirst : Bool) (hlen : initial.length < 2 ^ 32)
    (hvalid : ValidFrom initial.length 0 stream) (hcount : updateCount stream < 2 ^ 32) :
    ∀ s ∈ structures leftFirst, s.historical = true →
      ∀ clock interval capBytes timeEvery readings readings' x,
        (s.run clock initial stream interval capBytes timeEvery readings = .ok x readings' ∨
          s.batchTrial clock initial stream interval capBytes readings = .ok x readings') →
        x.status = .ok →
          x.checksum = exactChecksum (versionsOf initial (additions stream)) stream 0 ∧
            x.updates = updateCount stream ∧ x.queries = queryCount stream := by
  intro s hs hhistorical clock interval capBytes timeEvery readings readings' x hx hstatus
  have hchecks := structures_check leftFirst hlen hvalid hcount hs hhistorical
  have hcomputes : Answering.Computes stream
      (exactChecksum (versionsOf initial (additions stream)) stream 0) {} x := by
    rcases hx with hx | hx
    · exact hchecks.run hx hstatus
    · exact hchecks.batchTrial hx hstatus
  refine ⟨hcomputes.checksum, hcomputes.updates.trans ?_, hcomputes.queries.trans ?_⟩
  · exact Nat.zero_add _
  · exact Nat.zero_add _

/-- The external tree and a stream whose old version is read again after an update. -/
theorem historical_checksums_external :
    (exactChecksum (versionsOf [1, 2, 3] (additions mixedOperations)) mixedOperations 0 =
      16000103000171) ∧ updateCount mixedOperations = 2 ∧ queryCount mixedOperations = 3 := by
  obtain ⟨readings, hrun⟩ := Effect.outcome_eq_ok.mp (show Effect.outcome
    ((Structure.of "external" (fun _ => externalAdapter true) true).batchTrial (fun _ => 0)
      [1, 2, 3] mixedOperations 0 4096 0) = .ok
        { updates := 2, queries := 3, buildNodes := 5, batchNs := 0, nodes := 13, bytes := 624,
          checksum := 16000103000171 } by decide +kernel)
  have key := historical_checksums true (by decide) (by decide) (by decide) _
    (List.mem_append_right _ List.mem_cons_self) rfl _ _ _ 1 _ _ _ (.inr hrun) rfl
  exact ⟨key.1.symm, key.2.1.symm, key.2.2.symm⟩

/-- **The control.** It answers from its latest state whatever version is asked for: interleaved,
the checksum is that of the stream whose queries ask for the latest version then, and in a batch,
of that whose queries ask for the last version. -/
theorem control_checksums (leftFirst : Bool) (hvalid : ValidFrom initial.length 0 stream) :
    ∀ s ∈ structures leftFirst, s.historical = false →
      s.Checks initial stream
        (exactChecksum (versionsOf initial (additions stream)) (askLatest 0 stream) 0)
        (exactChecksum (versionsOf initial (additions stream))
          (askAt (updateCount stream) stream) 0) := by
  intro s hs hhistorical
  unfold structures at hs
  simp only [List.mem_append, List.mem_singleton, List.mem_map] at hs
  rcases hs with (rfl | ⟨which, -, rfl⟩) | rfl
  · have key := Structure.checks_of "lazy" false (fun _ => lazyAdapter_answering initial) hvalid
      fun _ _ => trivial
    rwa [interleavedChecksum_latest, batchChecksum_latest, List.nil_append, List.length_nil,
      Answering.updateCount_eq] at key
  · exact absurd hhistorical.symm Bool.false_ne_true
  · exact absurd hhistorical.symm Bool.false_ne_true

/-- Its two replays of the stream differ from each other, and from the exact answers. -/
theorem control_checksums_mixed :
    exactChecksum (versionsOf [1, 2, 3] (additions mixedOperations)) (askLatest 0 mixedOperations)
        0 = 16000100000166 ∧
      exactChecksum (versionsOf [1, 2, 3] (additions mixedOperations)) (askAt 2 mixedOperations) 0 =
        10000064000112 := by
  have hvalid : ValidFrom ([1, 2, 3] : List ValueType).length 0 mixedOperations := by decide
  have hchecks := control_checksums false hvalid _ List.mem_cons_self rfl
  obtain ⟨r, hrun⟩ := Effect.outcome_eq_ok.mp (show Effect.outcome
    ((Structure.of "lazy" (fun _ => lazyAdapter) false).run (fun _ => 0) [1, 2, 3] mixedOperations
      0 4096 1 0) = .ok
        { updates := 2, queries := 3, buildNodes := 12, nodes := 12, bytes := 192,
          checksum := 16000100000166, samples := [⟨1, 2, 12, 192⟩, ⟨2, 2, 12, 192⟩,
            ⟨3, 3, 12, 192⟩, ⟨4, 3, 12, 192⟩, ⟨5, 3, 12, 192⟩] } by decide +kernel)
  obtain ⟨r', hbatch⟩ := Effect.outcome_eq_ok.mp (show Effect.outcome
    ((Structure.of "lazy" (fun _ => lazyAdapter) false).batchTrial (fun _ => 0) [1, 2, 3]
      mixedOperations 0 4096 0) = .ok
        { updates := 2, queries := 3, buildNodes := 12, batchNs := 0, nodes := 12, bytes := 192,
          checksum := 10000064000112 } by decide +kernel)
  exact ⟨(hchecks.run hrun rfl).checksum.symm, (hchecks.batchTrial hbatch rfl).checksum.symm⟩

end Checksums

end Bench

end Valseg
