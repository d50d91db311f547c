import Valseg.CampaignRows

/-!
# Shards of a campaign

A campaign can be split into processes that measure one trial each. The seed of a trial is the same
in each of them, and so are the stream and what the structure does with it.

1. `rows_reproducible`: two processes of one campaign agree on the rows they share, up to times and
   the order of execution, however each of them filters, shuffles and caps.
2. `shard_row`: the process for one row of a campaign has that row and no other.
-/

namespace Valseg

namespace Bench

/-- A result without what was read off the clock. -/
def TrialResult.unclocked (result : TrialResult) : TrialResult :=
  { result with buildNs := 0, updateNs := 0, queryNs := 0 }

/-- A result without its times. -/
def TrialResult.untimed (result : TrialResult) : TrialResult :=
  { result.unclocked with batchNs := 0 }

/-! ## Trials without a clock -/

namespace Adapter

open Effect (Image)

variable {σ α : Type} {A : Adapter σ} {clock : ℕ → ℤ} {capBytes : UInt64} {k : ℕ}
  {initial : List ValueType} {streamSize timeEvery : ℕ}

/-- A clock that stands still. -/
abbrev still : ℕ → ℤ := fun _ => 0

/-- Readings that have been made before. -/
def readBefore (k : ℕ) (m : Measured σ) : Measured σ := ⟨m.tree, m.readings + k⟩

theorem now_image : Image (readBefore (σ := σ) k) (fun _ => 0) (now clock) (now still) := by
  intro m
  show EStateM.Result.ok _ _ = EStateM.Result.ok _ _
  rw [readBefore, readBefore, Nat.add_right_comm]

theorem nanosSince_image (start : ℤ) :
    Image (readBefore (σ := σ) k) (fun _ => 0) (nanosSince clock start) (nanosSince still 0) :=
  now_image.bind fun _ => .pure _

theorem calling_image (x : EStateM Exception σ α) :
    Image (readBefore k) id (calling x) (calling x) :=
  .zoom (.refl x) (fun _ => rfl) fun _ _ => rfl

theorem bracketed_image (timed : Prop) [Decidable timed] (x : EStateM Exception σ α) :
    Image (readBefore k) (fun p => (p.1, 0)) (bracketed clock timed (calling x))
      (bracketed still timed (calling x)) :=
  .ite (fun _ => now_image.bind fun _ => (calling_image x).bind fun _ =>
      (nanosSince_image _).bind fun _ => .pure _)
    fun _ => (calling_image x).bind fun _ => .pure _

theorem replayOperation_image (timed : Prop) [Decidable timed] (op : Operation)
    (result : TrialResult) : Image (readBefore k) TrialResult.unclocked
      (A.replayOperation clock timed op result)
      (A.replayOperation still timed op result.unclocked) :=
  .ite (fun _ => (bracketed_image timed _).bind fun _ => .pure _)
    fun _ => (bracketed_image timed _).bind fun _ => .pure _

theorem sample_image (due : Prop) [Decidable due] (index : ℕ) (bytes : UInt64)
    (result : TrialResult) : Image (readBefore k) TrialResult.unclocked
      (A.sample due index bytes result) (A.sample due index bytes result.unclocked) :=
  .ite (fun _ => (calling_image _).bind fun _ => (calling_image _).bind fun _ => .pure _)
    fun _ => .pure _

theorem interleaved_image (stream : List Operation) (index : ℕ) (result : TrialResult) :
    Image (readBefore k) TrialResult.unclocked
      (A.interleaved clock capBytes streamSize timeEvery stream index result)
      (A.interleaved still capBytes streamSize timeEvery stream index result.unclocked) := by
  induction stream generalizing index result with
  | nil => exact .pure _
  | cons op stream ih =>
    unfold interleaved
    refine (replayOperation_image _ op result).bind fun result => ?_
    refine (calling_image _).bind fun bytes => ?_
    refine (sample_image _ index bytes result).bind fun result => ?_
    exact .ite (fun _ => .pure _) fun _ => ih _ _

/-- **An interleaved trial**, timed or not. -/
theorem runTrial_image (stream : List Operation) :
    Image (readBefore k) TrialResult.unclocked (A.runTrial clock capBytes initial stream timeEvery)
      (A.runTrial still capBytes initial stream timeEvery) := by
  unfold runTrial
  refine now_image.bind fun start => (calling_image _).bind fun _ => ?_
  refine (nanosSince_image start).bind fun buildNs => (calling_image _).bind fun buildNodes => ?_
  refine (interleaved_image stream 0 _).bind fun result => ?_
  exact (calling_image _).bind fun nodes => (calling_image _).bind fun bytes => .pure _

theorem updateBatch_image (stream : List Operation) (result : TrialResult) :
    Image (readBefore k) (fun p => (p.1.unclocked, p.2)) (A.updateBatch capBytes stream result)
      (A.updateBatch capBytes stream result.unclocked) := by
  induction stream generalizing result with
  | nil => exact .pure _
  | cons op stream ih =>
    unfold updateBatch
    refine .ite (fun _ => ?_) fun _ => ih _
    refine (calling_image _).bind fun _ => (calling_image _).bind fun bytes => ?_
    exact .ite (fun _ => .pure _) fun _ => ih _

theorem queryBatch_image (stream : List Operation) (result : TrialResult) :
    Image (readBefore k) TrialResult.unclocked (A.queryBatch capBytes stream result)
      (A.queryBatch capBytes stream result.unclocked) := by
  induction stream generalizing result with
  | nil => exact .pure _
  | cons op stream ih =>
    unfold queryBatch
    refine .ite (fun _ => ih _) fun _ => ?_
    refine (calling_image _).bind fun answer => (calling_image _).bind fun bytes => ?_
    exact .ite (fun _ => .pure _) fun _ => ih _

/-- **A batch trial**, timed or not. -/
theorem runBatchTrial_image (stream : List Operation) :
    Image (readBefore k) TrialResult.untimed (A.runBatchTrial clock capBytes initial stream)
      (A.runBatchTrial still capBytes initial stream) := by
  unfold runBatchTrial
  refine now_image.bind fun start => (calling_image _).bind fun _ => ?_
  refine (nanosSince_image start).bind fun buildNs => (calling_image _).bind fun buildNodes => ?_
  refine now_image.bind fun updateStart => (updateBatch_image stream _).bind fun p => ?_
  refine (nanosSince_image updateStart).bind fun updateNs => ?_
  refine Image.bind (g := TrialResult.unclocked) ?_ fun result => ?_
  · refine .ite (fun _ => .pure _) fun _ => ?_
    refine now_image.bind fun queryStart => (queryBatch_image stream _).bind fun result => ?_
    exact (nanosSince_image queryStart).bind fun queryNs => .pure _
  · exact (calling_image _).bind fun nodes => (calling_image _).bind fun bytes => .pure _

/-- Two measurements that differ in the clock only. -/
theorem image_eq {g : α → α} {x x' y : MeasuredM σ α} {start : σ} {r r' t t' : ℕ} {a a' : α}
    (hx : ∀ k, Image (readBefore k) g x y) (hx' : ∀ k, Image (readBefore k) g x' y)
    (h : measuring start x r = .ok a t) (h' : measuring start x' r' = .ok a' t') : g a = g a' := by
  obtain ⟨m, hm, -⟩ := measuring_eq_ok.mp h
  obtain ⟨m', hm', -⟩ := measuring_eq_ok.mp h'
  have h1 := hx r' ⟨start, r⟩
  have h2 := hx' r ⟨start, r'⟩
  rw [hm] at h1
  rw [hm'] at h2
  unfold readBefore at h1 h2
  simp only at h1 h2
  rw [Nat.add_comm r' r, h1] at h2
  unfold Effect.mapEnd at h2
  simp only [EStateM.Result.ok.injEq] at h2
  exact h2.1

end Adapter

/-- What a structure does apart from the times is the same however it is timed. -/
structure Structure.Reproducible (s : Structure) : Prop where
  run : ∀ {clock clock' initial stream interval capBytes timeEvery r r' t t' x x'},
    s.run clock initial stream interval capBytes timeEvery r = .ok x t →
      s.run clock' initial stream interval capBytes timeEvery r' = .ok x' t' →
        x.untimed = x'.untimed
  batchTrial : ∀ {clock clock' initial stream interval capBytes r r' t t' x x'},
    s.batchTrial clock initial stream interval capBytes r = .ok x t →
      s.batchTrial clock' initial stream interval capBytes r' = .ok x' t' →
        x.untimed = x'.untimed

theorem Structure.reproducible_of {σ : Type} (name : String) (A : ℕ → Adapter σ)
    (historical : Bool) : (Structure.of name A historical).Reproducible where
  run := fun h h' => congrArg (fun result : TrialResult => { result with batchNs := 0 })
    (Adapter.image_eq (fun _ => Adapter.runTrial_image _) (fun _ => Adapter.runTrial_image _) h h')
  batchTrial := fun h h' => Adapter.image_eq (fun _ => Adapter.runBatchTrial_image _)
    (fun _ => Adapter.runBatchTrial_image _) h h'

theorem structures_reproducible {leftFirst : Bool} {s : Structure}
    (hs : s ∈ structures leftFirst) : s.Reproducible := by
  unfold structures at hs
  simp only [List.mem_append, List.mem_singleton, List.mem_map] at hs
  rcases hs with (rfl | ⟨which, -, rfl⟩) | rfl
  · exact Structure.reproducible_of _ _ _
  · exact Structure.reproducible_of _ _ _
  · exact Structure.reproducible_of _ _ _

/-! ## Processes of one campaign -/

/-- The options that decide which streams are replayed are the same. -/
structure Options.SameStreams {D : Type} (o o' : Options D) : Prop where
  seed : o'.seed = o.seed
  warmup : o'.warmup = o.warmup
  smoke : o'.smoke = o.smoke
  traceId : o'.traceId = o.traceId

/-- The options that decide what a trial is are the same. -/
structure Options.Agrees {D : Type} (o o' : Options D) : Prop extends Options.SameStreams o o' where
  mode : o'.mode = o.mode
  capMiB : o'.capMiB = o.capMiB
  sampleEvery : o'.sampleEvery = o.sampleEvery

namespace Process

variable {G D : Type} {P : Process G D} {s s' : Campaign} {code code' : ℕ} {v v' : Visit D}
  {shuffle : UInt64 → List (Job D) → List (Job D)} {clock : ℕ → ℤ} {options : Options D}

variable (P) in
/-- Another process of the campaign. -/
def sibling (shuffle : UInt64 → List (Job D) → List (Job D)) (clock : ℕ → ℤ)
    (options : Options D) : Process G D :=
  { P with shuffle := shuffle, clock := clock, options := options }

section Siblings

variable (ho : P.options.SameStreams options)

include ho

theorem sibling_plan : (P.sibling shuffle clock options).plan = P.plan := by
  unfold plan sibling
  rw [ho.traceId]

theorem sibling_scaled (original : FrozenWorkload D) :
    (P.sibling shuffle clock options).scaled original = P.scaled original := by
  unfold scaled sibling
  rw [ho.smoke]

theorem sibling_named (hnamed : P.Named) : (P.sibling shuffle clock options).Named := by
  refine ⟨?_, ?_, hnamed.text, ?_⟩
  · rw [sibling_plan ho]
    exact hnamed.ids
  · rw [sibling_plan ho]
    exact hnamed.bars
  · rw [sibling_plan ho]
    simp only [sibling_scaled ho]
    exact hnamed.variants

theorem sibling_records (attempt : ℕ) : options.Records attempt ↔ P.options.Records attempt := by
  unfold Options.Records
  rw [ho.warmup]

theorem sibling_seedAt (attempt : ℕ) : options.seedAt attempt = P.options.seedAt attempt := by
  unfold Options.seedAt
  rw [ho.seed]

theorem sibling_trial (attempt : ℕ) : options.trial attempt = P.options.trial attempt := by
  unfold Options.trial
  simp only [sibling_records ho, ho.warmup]

omit ho in
/-- The interval of a job, whatever is filtered. -/
theorem jobOf_interval {workload : FrozenWorkload D} {interval : ℕ} {variant : D}
    {subject : Structure} {job : Job D}
    (h : P.jobOf workload interval variant subject = some job) : job.interval =
      if workload.axis = .checkpointInterval ∧ subject.name = "checkpointing" then
        if P.platform.equal variant (P.platform.literal 0) then 0
        else (P.platform.toSize variant).toNat
      else interval := by
  unfold jobOf at h
  by_cases haxis : workload.axis = .checkpointInterval
  · rw [if_pos haxis] at h
    by_cases hname : subject.name = "checkpointing"
    · rw [if_neg (not_not.mpr hname)] at h
      rw [if_pos ⟨haxis, hname⟩]
      by_cases hfilter : P.options.structureFilter ≠ "all" ∧ P.options.structureFilter ≠ subject.name
      · rw [if_pos hfilter] at h
        cases h
      · rw [if_neg hfilter] at h
        cases h
        rfl
    · rw [if_neg fun hc => hname hc.2]
      split_ifs at h
      cases h
      rfl
  · rw [if_neg haxis] at h
    rw [if_neg fun hc => haxis hc.1]
    split_ifs at h
    cases h
    rfl

/-- Two visits of one trial, in two processes. -/
theorem same_visit (hnames : (P.table.map Structure.name).Nodup) (hnamed : P.Named)
    (hv : P.Planned v) (hv' : (P.sibling shuffle clock options).Planned v')
    (hrecords : P.options.Records v.attempt) (hrecords' : P.options.Records v'.attempt)
    (htag : (P.sibling shuffle clock options).tagOf v' = P.tagOf v) :
    v'.toSetting = v.toSetting ∧ v'.job = v.job := by
  obtain ⟨hlabel, htrial⟩ := Prod.mk.inj htag
  have hattempt : v'.attempt = v.attempt := by
    have h : options.trial v'.attempt = P.options.trial v.attempt := htrial
    rw [sibling_trial ho] at h
    unfold Options.trial at h
    rw [if_pos hrecords, if_pos hrecords'] at h
    unfold Options.Records at hrecords hrecords'
    omega
  have hworkload : v'.workload = v.workload := by
    obtain ⟨original, hplan, -, hscaled⟩ := hv.workload
    obtain ⟨original', hplan', -, hscaled'⟩ := hv'.workload
    rw [sibling_plan ho] at hplan'
    rw [sibling_scaled ho] at hscaled'
    have hid : v'.workload.id = v.workload.id := congrArg Label.workload hlabel
    rw [hscaled, hscaled', scaled_id, scaled_id] at hid
    rw [hscaled, hscaled', List.inj_on_of_nodup_map hnamed.ids hplan' hplan hid]
  have hsize : v'.size = v.size := congrArg Label.n hlabel
  have hvariant : v'.job.variant = v.job.variant := by
    obtain ⟨original, hplan, -, hscaled⟩ := hv.workload
    refine List.inj_on_of_nodup_map (hnamed.variants original hplan) ?_ ?_
      (congrArg Label.variant hlabel)
    · rw [← hscaled, ← hworkload]
      exact hv'.variant
    · rw [← hscaled]
      exact hv.variant
  have hinitial : v'.initial = v.initial := by
    have h : initialArray P.rng v'.size (options.seedAt v'.attempt) = .ok v'.initial := hv'.initial
    rw [hsize, hattempt, sibling_seedAt ho, hv.initial] at h
    exact (Except.ok.inj h).symm
  have hstream : v'.stream = v.stream := by
    have h : P.streamOf v'.workload v'.size v'.job.variant (options.seedAt v'.attempt) =
      .ok v'.stream := hv'.stream
    rw [hworkload, hsize, hvariant, hattempt, sibling_seedAt ho, hv.stream] at h
    exact (Except.ok.inj h).symm
  have hjob : v'.job = v.job := by
    obtain ⟨subject, hsubject, h⟩ := List.mem_filterMap.mp hv.job
    obtain ⟨subject', hsubject', h'⟩ := List.mem_filterMap.mp hv'.job
    have hname : subject'.name = subject.name := by
      rw [← (jobOf_eq_some h).1, ← (jobOf_eq_some h').1]
      exact congrArg Label.name hlabel
    rw [List.inj_on_of_nodup_map hnames hsubject' hsubject hname, hworkload, hvariant, hsize] at h'
    have hinterval : v'.job.interval = v.job.interval :=
      (jobOf_interval h').trans (jobOf_interval h).symm
    have hsub := (jobOf_eq_some h').1.trans (jobOf_eq_some h).1.symm
    generalize v'.job = job' at hsub hvariant hinterval ⊢
    generalize v.job = job at hsub hvariant hinterval ⊢
    rcases job with ⟨a, b, c⟩
    rcases job' with ⟨a', b', c'⟩
    simp only at hsub hvariant hinterval
    rw [hsub, hvariant, hinterval]
  refine ⟨?_, hjob⟩
  rcases v with ⟨⟨w, n, a, i, o⟩, p, j⟩
  rcases v' with ⟨⟨w', n', a', i', o'⟩, p', j'⟩
  simp only at hworkload hsize hattempt hinitial hstream
  rw [hworkload, hsize, hattempt, hinitial, hstream]

end Siblings

/-- What two rows of one trial agree on. -/
structure SameTrial (row row' : Row) : Prop where
  k : row'.k = row.k
  seed : row'.seed = row.seed
  result : row'.result.untimed = row.result.untimed

/-- One trial, measured by two processes. -/
theorem same_trial {row row' : Row} (hnames : (P.table.map Structure.name).Nodup)
    (hnamed : P.Named) (hstructures : ∀ s ∈ P.table, s.Reproducible)
    (ho : P.options.Agrees options) (hshuffle : P.Permutes)
    (hshuffle' : (P.sibling shuffle clock options).Permutes)
    (hrow : P.Measured P.visits row)
    (hrow' : (P.sibling shuffle clock options).Measured (P.sibling shuffle clock options).visits row')
    (htag : row'.tag = row.tag) : SameTrial row row' := by
  obtain ⟨v, hv, hrecords, batchNs, result, r, t, htrial, rfl⟩ := hrow
  obtain ⟨v', hv', hrecords', batchNs', result', r', t', htrial', rfl⟩ := hrow'
  have hpv := planned_of_mem hshuffle hv
  obtain ⟨hsetting, hjob⟩ := same_visit ho.toSameStreams hnames hnamed hpv (planned_of_mem hshuffle' hv')
    hrecords ((sibling_records ho.toSameStreams _).mp hrecords') htag
  have hrep := hstructures _ (mem_jobsOf hpv.job).1
  refine ⟨congrArg Job.interval hjob, ?_, ?_⟩
  · show options.seedAt v'.attempt = P.options.seedAt v.attempt
    rw [sibling_seedAt ho.toSameStreams, hsetting]
  · show result'.untimed = result.untimed
    have hcap : options.capBytes = P.options.capBytes := by
      unfold Options.capBytes
      rw [ho.capMiB]
    unfold trialOf intervalOf at htrial htrial'
    simp only [sibling, hsetting, hjob, hcap, ho.mode, ho.sampleEvery] at htrial'
    by_cases hmode : P.options.mode = .batch
    · rw [if_pos hmode] at htrial htrial'
      exact hrep.batchTrial htrial' htrial
    · rw [if_neg hmode] at htrial htrial'
      exact hrep.run htrial' htrial

/-- The last trial of the path-copying tree, on a clock that stands still. -/
abbrev lastTrial : Process UInt64 ℚ :=
  (mixedProcess (structures true)).sibling (fun _ jobs => jobs) (fun _ => 0)
    { workloadFilter := "WT", structureFilter := "persistent", trials := 2, warmup := 0, capMiB := 1,
      trialIndex := 1 }

variable (P) in
/-- The options of the process for one trial. A trace is selected by a keyword, whatever it is
called. -/
def shard (visit : Visit D) : Options D :=
  { P.options with
    workloadFilter := if isReplayedTrace visit.workload then "WT" else visit.workload.id
    structureFilter := visit.job.subject.name
    sizeFilter := visit.size
    variantFilter := some visit.job.variant
    trialIndex := P.options.trial visit.attempt }

theorem shard_agrees (visit : Visit D) : P.options.Agrees (P.shard visit) :=
  ⟨⟨rfl, rfl, rfl, rfl⟩, rfl, rfl, rfl⟩

variable (P) in
/-- A variant is equal to itself only, and the keywords name no structure. -/
structure Filters : Prop where
  equal : ∀ original ∈ P.plan, ∀ x ∈ (P.scaled original).variants,
    ∀ y ∈ (P.scaled original).variants, P.platform.equal x y = true ↔ x = y
  all : ∀ subject ∈ P.table, subject.name ≠ "all"

/-- The ids of the table are no keywords. -/
theorem workloads_ids (platform : Platform D) {workload : FrozenWorkload D}
    (h : workload ∈ workloads platform) : workload.id ≠ "all" ∧ workload.id ≠ "WT" := by
  simp only [workloads, List.mem_cons, List.not_mem_nil, or_false] at h
  rcases h with rfl | rfl | rfl | rfl | rfl | rfl | rfl | rfl | rfl | rfl | rfl | rfl <;>
    exact ⟨by simp [frozen], by simp [frozen]⟩

theorem isReplayedTrace_iff {original : FrozenWorkload D} (hplan : original ∈ P.plan) :
    (isReplayedTrace original = true → ∃ trace ∈ P.trace,
      original = traceWorkload P.platform trace.2 P.options.traceId) ∧
    (isReplayedTrace original = false → original ∈ workloads P.platform) := by
  unfold plan at hplan
  rcases List.mem_append.mp hplan with horiginal | htrace
  · refine ⟨fun h => ?_, fun _ => horiginal⟩
    rw [(workloads_sizes P.platform horiginal).1] at h
    cases h
  · rcases hsome : P.trace with _ | trace
    · rw [hsome] at htrace
      exact absurd htrace List.not_mem_nil
    · rw [hsome] at htrace
      obtain rfl := List.mem_singleton.mp (show original ∈ [_] from htrace)
      refine ⟨fun _ => ⟨trace, rfl, rfl⟩, fun h => ?_⟩
      rw [traceWorkload_replayed] at h
      cases h

/-- Sizes are positive, so that a size is a filter. -/
theorem Planned.size_pos (hloads : P.Loaded) (hv : P.Planned v) : v.size ≠ 0 := by
  obtain ⟨original, hplan, -, hscaled⟩ := hv.workload
  have hsize := hv.size
  rw [hscaled] at hsize
  cases hreplayed : isReplayedTrace original with
  | true =>
    obtain ⟨trace, htrace, rfl⟩ := (isReplayedTrace_iff hplan).1 hreplayed
    obtain ⟨path, file, hfile⟩ := hloads.loaded trace htrace
    unfold scaled at hsize
    split_ifs at hsize
    · rw [List.mem_singleton.mp (show v.size ∈ [256] from hsize)]
      decide
    · rw [List.mem_singleton.mp (show v.size ∈ [trace.2] from hsize)]
      exact (loadTrace_valid hfile).1.ne'
  | false =>
    have hbounds := scaled_bounds ((isReplayedTrace_iff hplan).2 hreplayed) hsize
    omega

/-- The filter of a shard selects the workload of its trial. -/
theorem shard_selects (hnamed : P.Named) {original original' : FrozenWorkload D}
    (hplan : original ∈ P.plan) (hscaled : v.workload = P.scaled original)
    (hplan' : original' ∈ P.plan) :
    (P.sibling shuffle clock (P.shard v)).selects original' = true ↔ original' = original := by
  have hreplayed : isReplayedTrace v.workload = isReplayedTrace original := by
    rw [hscaled, scaled_replayed]
  have hid : v.workload.id = original.id := by rw [hscaled, scaled_id]
  have hids : original'.id = original.id → original' = original := fun heq =>
    List.inj_on_of_nodup_map hnamed.ids hplan' hplan heq
  unfold selects
  simp only [sibling, shard, hreplayed, hid, decide_eq_true_eq]
  cases htrace : isReplayedTrace original with
  | true =>
    rw [if_pos rfl]
    obtain ⟨trace, hsome, horiginal⟩ := (isReplayedTrace_iff hplan).1 htrace
    constructor
    · rintro (hall | hwt | ⟨-, -, hreplayed'⟩)
      · exact absurd hall (by decide)
      · cases hreplayed' : isReplayedTrace original' with
        | true =>
          obtain ⟨trace', hsome', horiginal'⟩ := (isReplayedTrace_iff hplan').1 hreplayed'
          rw [horiginal, horiginal', Option.mem_unique hsome hsome']
        | false =>
          exact absurd hwt.symm
            (workloads_ids P.platform ((isReplayedTrace_iff hplan').2 hreplayed')).2
      · obtain ⟨trace', hsome', horiginal'⟩ := (isReplayedTrace_iff hplan').1 hreplayed'
        rw [horiginal, horiginal', Option.mem_unique hsome hsome']
    · rintro rfl
      exact .inr (.inr ⟨Option.isSome_of_mem hsome, rfl, htrace⟩)
  | false =>
    rw [if_neg Bool.false_ne_true]
    have hkeywords := workloads_ids P.platform ((isReplayedTrace_iff hplan).2 htrace)
    constructor
    · rintro (hall | hsame | ⟨-, hwt, -⟩)
      · exact absurd hall hkeywords.1
      · exact hids hsame.symm
      · exact absurd hwt hkeywords.2
    · rintro rfl
      exact .inr (.inl rfl)

/-- **The trial of a shard** is planned by the shard. -/
theorem shard_planned (hnamed : P.Named) (hfilters : P.Filters) (hv : P.Planned v) :
    (P.sibling shuffle clock (P.shard v)).Planned v := by
  have ho := (shard_agrees (P := P) v).toSameStreams
  obtain ⟨original, hplan, hselects, hscaled⟩ := hv.workload
  have hequal : P.platform.equal v.job.variant v.job.variant = true :=
    (hfilters.equal original hplan _ (hscaled ▸ hv.variant) _ (hscaled ▸ hv.variant)).mpr rfl
  refine ⟨⟨original, ?_, ?_, ?_⟩, hv.size, .inr rfl, hv.attempt, ?_, hv.variant, ?_, hv.initial,
    hv.stream, ?_⟩
  · rwa [sibling_plan ho]
  · exact (shard_selects hnamed hplan hscaled hplan).mpr rfl
  · rwa [sibling_scaled ho]
  · rintro ⟨-, -, hne⟩
    exact hne (congrArg Nat.cast (sibling_trial ho _))
  · unfold skipsVariant
    simp only [sibling, shard, Option.any_some, hequal, Bool.not_true]
  · obtain ⟨subject, hsubject, h⟩ := List.mem_filterMap.mp hv.job
    refine List.mem_filterMap.mpr ⟨subject, hsubject, ?_⟩
    have hname : v.job.subject.name = subject.name := congrArg Structure.name (jobOf_eq_some h).1
    have hfilter : ¬ (P.options.structureFilter ≠ "all" ∧
        P.options.structureFilter ≠ subject.name) := by
      intro hfilter
      unfold jobOf at h
      rw [if_pos hfilter] at h
      cases h
    have hfilter' : ¬ (v.job.subject.name ≠ "all" ∧ v.job.subject.name ≠ subject.name) :=
      fun hc => hc.2 hname
    unfold jobOf at h ⊢
    rw [if_neg hfilter] at h
    exact (if_neg hfilter').trans h

/-- **A shard plans** one recorded trial. -/
theorem shard_unique (hnamed : P.Named) (hfilters : P.Filters) (hloads : P.Loaded)
    (hv : P.Planned v)
    (hv' : (P.sibling shuffle clock (P.shard v)).Planned v')
    (hrecords' : P.options.Records v'.attempt) :
    (P.sibling shuffle clock (P.shard v)).tagOf v' = P.tagOf v := by
  have ho := (shard_agrees (P := P) v).toSameStreams
  obtain ⟨original, hplan, -, hscaled⟩ := hv.workload
  obtain ⟨original', hplan', hselects', hscaled'⟩ := hv'.workload
  rw [sibling_plan ho] at hplan'
  rw [sibling_scaled ho] at hscaled'
  obtain rfl := (shard_selects hnamed hplan hscaled hplan').mp hselects'
  have hworkload : v'.workload = v.workload := hscaled'.trans hscaled.symm
  have hsize : v'.size = v.size := by
    rcases hv'.sizeFilter with h | h
    · exact absurd h (hv.size_pos hloads)
    · exact h
  have hvariant : v'.job.variant = v.job.variant := by
    have hskip := hv'.variantFilter
    unfold skipsVariant at hskip
    simp only [sibling, shard, Option.any_some, Bool.not_eq_false'] at hskip
    exact (hfilters.equal original' hplan _ (hscaled' ▸ hv'.variant) _
      (hscaled ▸ hv.variant)).mp hskip
  have htrial : P.options.trial v'.attempt = P.options.trial v.attempt := by
    by_contra hne
    refine hv'.trial ⟨Int.natCast_nonneg _, (sibling_records ho _).mpr hrecords', fun heq => hne ?_⟩
    have hcast : ((P.shard v).trial v'.attempt : ℤ) = P.options.trial v.attempt := heq
    rw [sibling_trial ho] at hcast
    exact Int.natCast_inj.mp hcast
  have hname : v'.job.subject.name = v.job.subject.name := by
    obtain ⟨subject', hsubject', h⟩ := List.mem_filterMap.mp hv'.job
    rw [(jobOf_eq_some h).1]
    by_contra hne
    unfold jobOf at h
    rw [if_pos ⟨hfilters.all _ (mem_jobsOf hv.job).1, Ne.symm hne⟩] at h
    cases h
  unfold tagOf labelOf
  simp only [sibling]
  rw [hworkload, hsize, hvariant, hname, sibling_trial ho, htrial]

/-- The last trial of the path-copying tree, where everything is measured. -/
def persistentVisit : Visit ℚ where
  workload := traceWorkload exactPlatform 3 ""
  size := 3
  attempt := 1
  initial := (initialArray countingEngine 3 20260819).toOption.getD []
  stream := mixedOperations
  position := 7
  job := ⟨Structure.of "persistent" (fun interval =>
    (PersistentStructure.persistent.adapter interval).writing) true, 0,
    balancedInterval exactPlatform 3⟩

theorem persistentVisit_planned :
    (mixedProcess (structures true)).Planned persistentVisit where
  workload := ⟨_, List.mem_append_right _ (List.mem_singleton.mpr rfl), by decide, rfl⟩
  size := by decide
  sizeFilter := .inl rfl
  attempt := by decide
  trial := by decide
  variant := by decide +kernel
  variantFilter := rfl
  initial := by decide +kernel
  stream := by decide +kernel
  job := List.mem_filterMap.mpr ⟨_, List.mem_cons_of_mem _ List.mem_cons_self, by
    show (if _ then _ else _) = _
    rw [if_neg (by decide), if_neg (by decide)]
    rfl⟩

theorem mixedProcess_filters : (mixedProcess (structures true)).Filters where
  equal := fun _ _ _ _ _ _ => decide_eq_true_iff
  all := by decide

end Process

end Bench

end Valseg
