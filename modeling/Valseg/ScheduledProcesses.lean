import Valseg.CommandLine
import Valseg.Schedule

/-!
# The processes of a schedule

`run_schedule` of `bench/run_confirmatory.sh` starts one process for each row of the schedule. What
it writes on the command line is read back (`commandLine_parsed`), and the process measures the
trial of its row, once (`scheduled_run`).
-/

namespace Valseg

namespace Bench

/-! ## Phases -/

/-- The phases that follow a schedule. -/
inductive Phase
  | timing | alloc | latency
  deriving DecidableEq, Repr

namespace Phase

def name : Phase → String
  | timing => "timing"
  | alloc => "alloc"
  | latency => "latency"

/-- What follows `--mode`. -/
def flags : Phase → List String
  | timing => ["batch"]
  | alloc => ["interleaved"]
  | latency => ["latency", "--sample-every", "64"]

def mode : Phase → TimingMode
  | timing => .batch
  | alloc => .interleaved
  | latency => .latency

/-- A dry run lowers the number of trials and never raises it. -/
def lowered (dry : Option ℕ) (trials : ℕ) : ℕ := dry.elim trials fun limit => min limit trials

def trials (phase : Phase) (dry : Option ℕ) : ℕ := lowered dry (if phase = alloc then 3 else 20)

def primaryTrials (phase : Phase) (dry : Option ℕ) : ℕ :=
  lowered dry (if phase = alloc then 3 else 40)

def workloads : Phase → Option (List String)
  | latency => some ["W1", "W3", "W9"]
  | _ => none

end Phase

def campaignSeed (dry : Option ℕ) : ℕ := if dry.isSome then 20260901 else 20270214

def warmupSeconds (dry : Option ℕ) : ℕ := if dry.isSome then 0 else 3

def scheduleSeed : ℕ := 20270214

section Schedule

variable {D : Type} (platform : Platform D) (capped primary : List (List String))
  (shuffle : String → List ScheduledJob → List ScheduledJob) (phase : Phase) (dry : Option ℕ)

def phaseTrials : ScheduledJob → ℕ :=
  trialsFor capped primary 2 (phase.primaryTrials dry) (phase.trials dry)

/-- The schedule of a phase. -/
def phaseSchedule : List ScheduleRow :=
  buildSchedule phase.name (phaseTrials capped primary phase dry) shuffle scheduleSeed
    (buildJobs (listCells platform) scheduledStructures phase.workloads)

end Schedule

/-- The words of one process. -/
def commandLine (phase : Phase) (dry : Option ℕ) (raw : String) (row : ScheduleRow) :
    List String :=
  ["--mode"] ++ phase.flags ++
    ["--workload", row.workload, "--n", row.n, "--variant", row.variant, "--structure", row.name,
      "--trials", toString row.trials, "--trial-index", toString row.trial,
      "--warmup", "1", "--warmup-seconds", toString (warmupSeconds dry),
      "--seed", toString (campaignSeed dry), "--capped-trials", "1", "--batch-trials", "0",
      "--exec-order", toString row.execOrder, "--process-seq", toString row.processSeq,
      "--out-dir", raw, "--tag", row.tag]

/-! ## The command line of a row -/

section Parse

variable {D : Type} {strtod : List Char → Option (Converted D)} {flag : String} {n : ℕ}

theorem digitsValue_toDigits (n : ℕ) : digitsValue (Nat.toDigits 10 n) = n := by
  have h := Nat.ofDigitChars_ten_toDigits (n := n)
  rwa [Nat.ofDigitChars_eq_foldl] at h

/-- The decimals of a number are its numeral. -/
theorem numeral_toString (n : ℕ) : Numeral [] [] (toString n).toList where
  spaces := fun _ h => absurd h List.not_mem_nil
  sign := .inl rfl
  nonempty := by
    rw [Nat.toString_eq_repr, Nat.toList_repr]
    exact Nat.toDigits_ne_nil
  digits := fun c hc => by
    rw [Nat.toString_eq_repr, Nat.toList_repr] at hc
    exact Nat.isDigit_of_mem_toDigits (by decide) (by decide) hc

theorem digitsValue_toString (n : ℕ) : digitsValue (toString n).toList = n := by
  rw [Nat.toString_eq_repr, Nat.toList_repr, digitsValue_toDigits]

theorem parseUnsigned_toString (hn : n < 2 ^ 64) :
    parseUnsigned (toString n).toList flag = .ok n := by
  have h := numeral_toString n
  refine parseUnsigned_eq_ok.mpr ⟨?_, [], [], _, h, cString_numeral h,
    (digitsValue_toString n).symm ▸ hn, ?_⟩
  · intro hminus
    have hdigit := h.digits '-' (List.mem_of_mem_head? hminus)
    exact absurd hdigit (by decide)
  · rw [digitsValue_toString]
    rfl

theorem parseLong_toString (hn : n < 2 ^ 63) :
    parseLong (toString n).toList flag = .ok n := by
  have h := numeral_toString n
  have hconvert := convert_numeral [] (fun negative value =>
    if negative then (if value > 2 ^ 63 then (-2 ^ 63, true) else (-(value : ℤ), false))
    else if value ≥ 2 ^ 63 then (2 ^ 63 - 1, true) else ((value : ℤ), false)) h (by simp)
  refine parseNumber_eq_ok.mpr ⟨h.nonempty, ?_⟩
  rw [show cString (toString n).toList = (toString n).toList from cString_numeral h]
  rw [digitsValue_toString, List.append_nil] at hconvert
  refine Eq.trans hconvert ?_
  rw [show decide (([] : List Char) = ['-']) = false from rfl, if_neg Bool.false_ne_true,
    if_neg (by omega)]

theorem reads_text {put : String → CommandLine D → CommandLine D} {value : String}
    (h : (flags strtod).lookup flag = some (.text put)) :
    Reads strtod (flag, some value) (put value) := .valued h rfl

theorem reads_unsigned {put : ℕ → CommandLine D → CommandLine D}
    (h : (flags strtod).lookup flag = some (.unsigned put)) (hn : n < 2 ^ 64) :
    Reads strtod (flag, some (toString n)) (put n) := by
  refine .valued h ?_
  rw [parseUnsigned_toString hn]
  rfl

theorem reads_long {put : ℤ → CommandLine D → CommandLine D}
    (h : (flags strtod).lookup flag = some (.long put)) (hn : n < 2 ^ 63) :
    Reads strtod (flag, some (toString n)) (put n) := by
  refine .valued h ?_
  rw [parseLong_toString hn]
  rfl

variable {phase : Phase} {dry : Option ℕ} {raw : String} {row : ScheduleRow} {size : ℕ}
  {variant : D} {platform : Platform D} {table : List Structure}

variable (phase dry raw row size variant) in
/-- The options of a process, where the size and the variant of its row are read. -/
def processOptions : CommandLine D where
  workloadFilter := row.workload
  structureFilter := row.name
  seed := .ofNat (campaignSeed dry)
  trials := row.trials
  warmup := 1
  cappedTrials := 1
  batchTrials := 0
  mode := phase.mode
  sizeFilter := size
  variantFilter := some variant
  trialIndex := row.trial
  execOrder := row.execOrder
  processSeq := row.processSeq
  outDir := raw
  tag := row.tag
  warmupSeconds := warmupSeconds dry
  outDirGiven := true

variable (strtod row size variant) in
/-- The numbers of a row are read as they are written. -/
structure ReadsRow : Prop where
  n : row.n = toString size
  variant : parseDouble strtod row.variant.toList "--variant" = .ok variant
  trial : row.trial < row.trials
  size_lt : size < 2 ^ 64
  trials_lt : row.trials < 2 ^ 63
  execOrder_lt : row.execOrder < 2 ^ 63
  processSeq_lt : row.processSeq < 2 ^ 63

variable (dry raw row) in
/-- What every phase gives after its mode. -/
def rowArguments : List Argument :=
  [("--workload", some row.workload), ("--n", some row.n), ("--variant", some row.variant),
    ("--structure", some row.name), ("--trials", some (toString row.trials)),
    ("--trial-index", some (toString row.trial)), ("--warmup", some "1"),
    ("--warmup-seconds", some (toString (warmupSeconds dry))),
    ("--seed", some (toString (campaignSeed dry))), ("--capped-trials", some "1"),
    ("--batch-trials", some "0"), ("--exec-order", some (toString row.execOrder)),
    ("--process-seq", some (toString row.processSeq)), ("--out-dir", some raw),
    ("--tag", some row.tag)]

variable (phase dry raw) in
theorem reads_rowArguments (h : ReadsRow strtod row size variant) : ∃ sets,
    List.Forall₂ (Reads strtod) (rowArguments dry raw row) sets ∧
      sets.foldl (fun o set => set o) { mode := phase.mode } =
        processOptions phase dry raw row size variant := by
  have hseed : campaignSeed dry < 2 ^ 64 := by
    unfold campaignSeed
    split_ifs <;> decide
  have hseconds : warmupSeconds dry < 2 ^ 64 := by
    unfold warmupSeconds
    split_ifs <;> decide
  have htrial := h.trial
  have htrials := h.trials_lt
  have hvariant : Reads strtod ("--variant", some row.variant) fun o =>
      { o with variantFilter := some variant } := by
    refine .valued rfl ?_
    rw [h.variant]
    rfl
  refine ⟨_, .cons (reads_text rfl) (.cons (h.n ▸ reads_unsigned rfl h.size_lt)
    (.cons hvariant (.cons (reads_text rfl) (.cons (reads_unsigned rfl (by omega))
    (.cons (reads_long rfl (by omega)) (.cons (reads_unsigned (n := 1) rfl (by decide))
    (.cons (reads_unsigned rfl hseconds) (.cons (reads_unsigned rfl hseed)
    (.cons (reads_unsigned (n := 1) rfl (by decide))
    (.cons (reads_unsigned (n := 0) rfl (by decide)) (.cons (reads_long rfl h.execOrder_lt)
    (.cons (reads_long rfl h.processSeq_lt) (.cons (reads_text rfl)
    (.cons (reads_text rfl) .nil)))))))))))))), rfl⟩

/-- The mode, and how often a latency is sampled. -/
def modeArguments : Phase → List Argument
  | .timing => [("--mode", some "batch")]
  | .alloc => [("--mode", some "interleaved")]
  | .latency => [("--mode", some "latency"), ("--sample-every", some "64")]

theorem reads_modeArguments (strtod : List Char → Option (Converted D)) (phase : Phase) :
    ∃ sets, List.Forall₂ (Reads strtod) (modeArguments phase) sets ∧
      sets.foldl (fun o set => set o) {} = { mode := phase.mode } := by
  cases phase with
  | timing => exact ⟨_, .cons (.valued rfl rfl) .nil, rfl⟩
  | alloc => exact ⟨_, .cons (.valued rfl rfl) .nil, rfl⟩
  | latency =>
    have hevery : (64 : ℕ) < 2 ^ 64 := by decide
    exact ⟨_, .cons (.valued rfl rfl) (.cons (reads_unsigned rfl hevery) .nil), rfl⟩

theorem commandLine_words (phase : Phase) (dry : Option ℕ) (raw : String) (row : ScheduleRow) :
    commandLine phase dry raw row =
      (modeArguments phase ++ rowArguments dry raw row).flatMap Argument.words := by
  cases phase <;> rfl

/-- **The command line** of a row is read back. -/
theorem commandLine_parsed (h : ReadsRow strtod row size variant)
    (hworkload : ∃ workload ∈ workloads platform, workload.id = row.workload)
    (hname : ∃ subject ∈ table, row.name = subject.name) :
    parse strtod platform table (commandLine phase dry raw row) =
      .ok (processOptions phase dry raw row size variant) := by
  obtain ⟨modes, hmodes, hmode⟩ := reads_modeArguments strtod phase
  obtain ⟨sets, hsets, hfold⟩ := reads_rowArguments phase dry raw h
  have hflags : parseFlags strtod (commandLine phase dry raw row) {} =
      .ok (processOptions phase dry raw row size variant) := by
    refine (parseFlags_eq_ok strtod).mpr ⟨_, modes ++ sets, commandLine_words phase dry raw row,
      List.rel_append hmodes hsets, ?_⟩
    rw [List.foldl_append, hmode, hfold]
  have hchecked : (processOptions phase dry raw row size variant).Checked platform table :=
    ⟨Nat.zero_lt_of_lt h.trial, Nat.one_pos, show 0 < 64 by decide, Int.ofNat_lt.mpr h.trial,
      .inr (.inr hworkload), .inr hname⟩
  refine Effect.bind_eq_ok.mpr ⟨_, hflags, ?_⟩
  rw [mapError_eq_ok, checkOptions_eq_ok]
  exact ⟨hchecked, rfl⟩

end Parse

/-! ## The size of a schedule -/

section Sizes

variable {mode : String} {trials : ScheduledJob → ℕ} {seed : ℕ}
  {shuffle : String → List ScheduledJob → List ScheduledJob} {jobs : List ScheduledJob}
  {row : ScheduleRow}

theorem blockOf_length_le (hshuffle : ShufflesJobs shuffle) (trial : ℕ) :
    (blockOf trials shuffle seed jobs trial).length ≤ jobs.length := by
  unfold blockOf
  rw [(hshuffle _ _).length_eq]
  exact List.length_filter_le _ _

theorem scheduleFrom_length_le (hshuffle : ShufflesJobs shuffle) (ts : List ℕ) (sequence : ℕ) :
    (scheduleFrom mode trials shuffle seed jobs ts sequence).length ≤ ts.length * jobs.length := by
  induction ts generalizing sequence with
  | nil => exact Nat.zero_le _
  | cons trial ts ih =>
    rw [scheduleFrom, List.length_append, blockRows_length, List.length_cons, Nat.succ_mul]
    have hblock : (blockOf trials shuffle seed jobs trial).length ≤ jobs.length :=
      blockOf_length_le hshuffle trial
    have hrest := ih (sequence + (blockOf trials shuffle seed jobs trial).length)
    omega

theorem buildSchedule_length_le (hshuffle : ShufflesJobs shuffle) {bound : ℕ}
    (hbound : ∀ job ∈ jobs, trials job ≤ bound) :
    (buildSchedule mode trials shuffle seed jobs).length ≤ bound * jobs.length := by
  refine (scheduleFrom_length_le hshuffle _ 0).trans (Nat.mul_le_mul_right _ ?_)
  rw [List.length_range]
  refine List.max_le_of_forall_le _ _ fun n hn => ?_
  obtain ⟨job, hjob, rfl⟩ := List.mem_map.mp hn
  exact hbound job hjob

theorem processSeq_lt (h : row ∈ buildSchedule mode trials shuffle seed jobs) :
    row.processSeq < (buildSchedule mode trials shuffle seed jobs).length := by
  have hmem := List.mem_map_of_mem (f := ScheduleRow.processSeq) h
  unfold buildSchedule at hmem
  rw [scheduleFrom_processSeq, ← List.range_eq_range'] at hmem
  exact List.mem_range.mp hmem

theorem execOrder_lt (hshuffle : ShufflesJobs shuffle)
    (h : row ∈ buildSchedule mode trials shuffle seed jobs) : row.execOrder < jobs.length := by
  obtain ⟨trial, start, hrow⟩ := mem_scheduleFrom h
  have hmem := List.mem_map_of_mem (f := ScheduleRow.execOrder) hrow
  rw [blockRows_execOrder] at hmem
  exact (List.mem_range.mp hmem).trans_le (blockOf_length_le hshuffle trial)

theorem buildJobs_length_le (cells : List ListedCell) (names : List String)
    (selected : Option (List String)) :
    (buildJobs cells names selected).length ≤ cells.length * names.length := by
  unfold buildJobs
  rw [List.length_flatMap]
  refine (List.sum_le_card_nsmul _ names.length fun n hn => ?_).trans (by simp)
  obtain ⟨cell, -, rfl⟩ := List.mem_map.mp hn
  split_ifs
  · exact List.length_filterMap_le _ _
  · exact Nat.zero_le _

end Sizes

/-! ## Processes -/

/-- A measured row is of the trial that is scheduled. -/
structure ScheduleRow.Describes (row : ScheduleRow) (r : Row) : Prop where
  workload : r.label.workload = row.workload
  n : toString r.label.n = row.n
  variant : r.label.variant = row.variant
  name : r.label.name = row.name
  trial : r.trial = row.trial
  execOrder : r.execOrder = row.execOrder
  processSeq : r.processSeq = row.processSeq

namespace Process

open Effect (Steps)

variable {G D : Type} {P Q : Process G D} {strtod : List Char → Option (Converted D)}
  {capped primary : List (List String)} {order : String → List ScheduledJob → List ScheduledJob}
  {phase : Phase} {dry : Option ℕ} {raw : String} {row : ScheduleRow} {s t : Campaign} {code : ℕ}

variable (P phase dry) in
/-- The phase in one process, with nothing filtered out. -/
structure OneProcess : Prop where
  trace : P.trace = none
  seed : P.options.seed = .ofNat (campaignSeed dry)
  warmup : P.options.warmup = 1
  smoke : P.options.smoke = false
  traceId : P.options.traceId = ""
  mode : P.options.mode = phase.mode
  capMiB : P.options.capMiB = 4096
  sampleEvery : P.options.sampleEvery = 64
  structureFilter : P.options.structureFilter = "all"

variable (P strtod) in
/-- The texts of the variants are read back, and bars separate the columns. -/
structure Readable : Prop extends P.Spells where
  variant : ∀ original ∈ workloads P.platform, ∀ x ∈ original.variants,
    parseDouble strtod (P.platform.text x).toList "--variant" = .ok x
  bars : ∀ x, '|' ∉ (P.platform.text x).toList

variable (P strtod phase dry raw row) in
/-- A process that `run_schedule` starts for a row. -/
def Launches (Q : Process G D) : Prop :=
  ∃ shuffle clock options, (∀ seed jobs, (shuffle seed jobs).Perm jobs) ∧
    parse strtod P.platform P.table (commandLine phase dry raw row) = .ok options ∧
      Q = P.sibling shuffle clock options.toOptions

variable (P row) in
/-- The cell of a row. -/
structure InCell (original : FrozenWorkload D) (size : ℕ) (variant : D) (subject : Structure) :
    Prop where
  workload_mem : original ∈ workloads P.platform
  size_mem : size ∈ original.sizes
  variant_mem : variant ∈ original.variants
  subject_mem : subject ∈ P.table
  job : (P.jobOf original (balancedInterval P.platform size) variant subject).isSome = true
  row_workload : row.workload = original.id
  row_n : row.n = toString size
  row_variant : row.variant = P.platform.text variant
  row_name : row.name = subject.name

/-- A phase has 40 trials at most. -/
theorem phaseTrials_le (job : ScheduledJob) : phaseTrials capped primary phase dry job ≤ 40 := by
  have hlowered : ∀ n, n ≤ 40 → Phase.lowered dry n ≤ 40 := fun n hn => by
    unfold Phase.lowered
    rcases dry with _ | limit
    · exact hn
    · exact (Nat.min_le_right limit n).trans hn
  unfold phaseTrials trialsFor Phase.primaryTrials Phase.trials
  split_ifs
  all_goals first
    | decide
    | exact hlowered _ (by decide)

theorem phaseSchedule_bounds (platform : Platform D) (horder : ShufflesJobs order)
    (hrow : row ∈ phaseSchedule platform capped primary order phase dry) :
    row.execOrder < 2 ^ 63 ∧ row.processSeq < 2 ^ 63 := by
  let jobs := buildJobs (listCells platform) scheduledStructures phase.workloads
  have hjobs : jobs.length ≤ 54 * 9 := buildJobs_length_le _ _ _
  have hbound : ∀ job ∈ jobs, phaseTrials capped primary phase dry job ≤ 40 :=
    fun job _ => phaseTrials_le job
  have hlength : (phaseSchedule platform capped primary order phase dry).length ≤
      40 * jobs.length := buildSchedule_length_le horder hbound
  have hexec : row.execOrder < jobs.length := execOrder_lt horder hrow
  have hseq : row.processSeq < (phaseSchedule platform capped primary order phase dry).length :=
    processSeq_lt hrow
  omega

/-- **Rows** are of cells of the benchmark, with numbers that can be read. -/
theorem scheduled_inCell (hP : P.OneProcess phase dry) (hreadable : P.Readable strtod)
    (hnames : P.table.map Structure.name = scheduledStructures) (horder : ShufflesJobs order)
    (hrow : row ∈ phaseSchedule P.platform capped primary order phase dry) :
    ∃ original size variant subject, P.InCell row original size variant subject ∧
      ReadsRow strtod row size variant := by
  obtain ⟨hexec, hseq⟩ := phaseSchedule_bounds P.platform horder hrow
  obtain ⟨job, hjob, trial, position, sequence, htrial, rfl⟩ := mem_buildSchedule horder hrow
  obtain ⟨cell, hcell, -, name, hname, hat⟩ := mem_buildJobs.mp hjob
  obtain ⟨original, horiginal, size, hsize, variant, hvariant, rfl⟩ := mem_listCells.mp hcell
  rw [← hnames] at hname
  obtain ⟨subject, hsubject, rfl⟩ := List.mem_map.mp hname
  obtain ⟨hjobCell, hjobName, -⟩ := jobAt_eq_some hat
  have hsome := jobAt_isSome hreadable.toSpells hP.structureFilter horiginal hsize hvariant
    (balancedInterval P.platform size) subject
  rw [hat] at hsome
  have htrials : phaseTrials capped primary phase dry job ≤ 40 := phaseTrials_le job
  have hbounds := (workloads_sizes P.platform horiginal).2.2 size hsize
  refine ⟨original, size, variant, subject, ⟨horiginal, hsize, hvariant, hsubject, hsome.symm, ?_, ?_,
    ?_, hjobName⟩, ⟨?_, ?_, htrial, by omega, ?_, hexec, hseq⟩⟩
  · exact congrArg ListedCell.workload hjobCell
  · exact congrArg ListedCell.n hjobCell
  · exact congrArg ListedCell.variant hjobCell
  · exact congrArg ListedCell.n hjobCell
  · show parseDouble strtod job.variant.toList "--variant" = _
    rw [show job.variant = P.platform.text variant from congrArg ListedCell.variant hjobCell]
    exact hreadable.variant original horiginal variant hvariant
  · exact htrials.trans_lt (by decide)

section Launched

variable {original : FrozenWorkload D} {size : ℕ} {variant : D} {subject : Structure}
  {shuffle : UInt64 → List (Job D) → List (Job D)} {clock : ℕ → ℤ} {v : Visit D}

variable (P phase dry raw row size variant shuffle clock) in
/-- The process of a row. -/
abbrev scheduled : Process G D :=
  P.sibling shuffle clock (processOptions phase dry raw row size variant).toOptions

theorem launches_iff (hcell : P.InCell row original size variant subject)
    (hreads : ReadsRow strtod row size variant) : P.Launches strtod phase dry raw row Q ↔
      ∃ shuffle clock, (∀ seed jobs, (shuffle seed jobs).Perm jobs) ∧
        Q = P.scheduled phase dry raw row size variant shuffle clock := by
  have hparsed : parse strtod P.platform P.table (commandLine phase dry raw row) =
      .ok (processOptions phase dry raw row size variant) :=
    commandLine_parsed hreads ⟨original, hcell.workload_mem, hcell.row_workload.symm⟩
      ⟨subject, hcell.subject_mem, hcell.row_name⟩
  constructor
  · rintro ⟨shuffle, clock, options, hshuffle, hoptions, rfl⟩
    rw [hparsed] at hoptions
    obtain rfl := Except.ok.inj hoptions
    exact ⟨shuffle, clock, hshuffle, rfl⟩
  · rintro ⟨shuffle, clock, hshuffle, rfl⟩
    exact ⟨shuffle, clock, _, hshuffle, hparsed, rfl⟩

variable (raw row size variant) in
theorem scheduled_agrees (hP : P.OneProcess phase dry) :
    P.options.Agrees (processOptions phase dry raw row size variant).toOptions :=
  ⟨⟨hP.seed.symm, hP.warmup.symm, hP.smoke.symm, hP.traceId.symm⟩, hP.mode.symm, hP.capMiB.symm,
    hP.sampleEvery.symm⟩

theorem scheduled_plan (hP : P.OneProcess phase dry) : P.plan = workloads P.platform := by
  unfold plan
  rw [hP.trace]
  exact List.append_nil _

/-- The workload of a row is the only one that its process selects. -/
theorem scheduled_workload (hP : P.OneProcess phase dry)
    (hcell : P.InCell row original size variant subject)
    (hv : (P.scheduled phase dry raw row size variant shuffle clock).Planned v) :
    v.workload = original := by
  have ho := (scheduled_agrees raw row size variant hP).toSameStreams
  obtain ⟨original', hplan, hselects, hscaled⟩ := hv.workload
  rw [sibling_plan ho, scheduled_plan hP] at hplan
  rw [sibling_scaled ho, scaled, if_neg (by rw [hP.smoke]; exact Bool.false_ne_true)] at hscaled
  have hid : row.workload = original'.id := by
    rcases of_decide_eq_true hselects with hall | hid | ⟨htrace, -⟩
    · exact absurd (hcell.row_workload.symm.trans hall)
        (workloads_ids P.platform hcell.workload_mem).1
    · exact hid
    · rw [show (P.scheduled phase dry raw row size variant shuffle clock).trace = none from
        hP.trace] at htrace
      cases htrace
  rw [hscaled]
  exact List.inj_on_of_nodup_map (workloads_ids_nodup P.platform) hplan hcell.workload_mem
    (hid.symm.trans hcell.row_workload)

/-- **The trial of a row** is all that its process records. -/
theorem scheduled_tag (hP : P.OneProcess phase dry) (hspells : P.Spells)
    (hcell : P.InCell row original size variant subject) (hname : subject.name ≠ "all")
    (hv : (P.scheduled phase dry raw row size variant shuffle clock).Planned v)
    (hrecords : 1 ≤ v.attempt) :
    (P.scheduled phase dry raw row size variant shuffle clock).tagOf v =
      (⟨row.workload, row.name, size, axisName original.axis, row.variant⟩, row.trial) := by
  have hworkload := scheduled_workload hP hcell hv
  have hsize : v.size = size := by
    rcases hv.sizeFilter with hzero | hsize
    · have hpos := (workloads_sizes P.platform hcell.workload_mem).2.2 size hcell.size_mem
      have hzero : size = 0 := hzero
      omega
    · exact hsize
  have hvariant : v.job.variant = variant := by
    have hskip : (!P.platform.equal v.job.variant variant) = false := hv.variantFilter
    rw [Bool.not_eq_false'] at hskip
    exact (hspells.equal original hcell.workload_mem _ (hworkload ▸ hv.variant) _
      hcell.variant_mem).mp hskip
  have htrial : (P.scheduled phase dry raw row size variant shuffle clock).options.trial v.attempt =
      row.trial := by
    by_contra hne
    exact hv.trial ⟨Int.natCast_nonneg _, hrecords, fun heq => hne (Int.natCast_inj.mp heq)⟩
  have hsubject : v.job.subject.name = row.name := by
    obtain ⟨other, -, hjob⟩ := List.mem_filterMap.mp hv.job
    rw [(jobOf_eq_some hjob).1]
    by_contra hne
    unfold jobOf at hjob
    have hall : row.name ≠ "all" := fun hall => hname (hcell.row_name.symm.trans hall)
    rw [if_pos ⟨hall, fun heq => hne heq.symm⟩] at hjob
    cases hjob
  unfold tagOf labelOf
  rw [htrial, hworkload, hsize, hvariant, hsubject, hcell.row_workload, hcell.row_variant]
  rfl

/-- The columns of the benchmark tell its cells apart. -/
theorem scheduled_named (hP : P.OneProcess phase dry) (hreadable : P.Readable strtod) :
    P.Named where
  ids := by
    rw [scheduled_plan hP]
    exact workloads_ids_nodup P.platform
  bars := fun original hplan => by
    rw [scheduled_plan hP] at hplan
    exact workloads_bars hplan
  text := hreadable.bars
  variants := fun original hplan => by
    rw [scheduled_plan hP] at hplan
    unfold scaled
    rw [hP.smoke, if_neg Bool.false_ne_true]
    exact hreadable.text original hplan

theorem subject_ne_all (hnames : P.table.map Structure.name = scheduledStructures)
    (hsubject : subject ∈ P.table) : subject.name ≠ "all" := by
  intro hall
  have hmem : "all" ∈ P.table.map Structure.name := hall ▸ List.mem_map_of_mem hsubject
  rw [hnames] at hmem
  exact absurd hmem (by decide)

/-- **What a process records** up to some visit: nothing yet, or the trial of its row. -/
theorem scheduled_steps (hP : P.OneProcess phase dry) (hreadable : P.Readable strtod)
    (hnames : P.table.map Structure.name = scheduledStructures)
    (hcell : P.InCell row original size variant subject) (hreads : ReadsRow strtod row size variant)
    (hlaunches : P.Launches strtod phase dry raw row Q) {done : List (Visit D)}
    (hdone : done <+: Q.visits) (hsteps : Steps Q.Measures done {} s) :
    s.runs = [] ∨ ∃ r, s.runs = [r] ∧ row.Describes r ∧ Q.Measured Q.visits r := by
  obtain ⟨shuffle, clock, hshuffle, rfl⟩ := (launches_iff hcell hreads).mp hlaunches
  let Q := P.scheduled phase dry raw row size variant shuffle clock
  have hpermutes : Q.Permutes := hshuffle
  have hnodup : (Q.table.map Structure.name).Nodup := by
    rw [show Q.table.map Structure.name = scheduledStructures from hnames]
    decide
  have hnamed : Q.Named := sibling_named (scheduled_agrees raw row size variant hP).toSameStreams
    (scheduled_named hP hreadable)
  obtain ⟨rows, hruns, hsub⟩ := rows_sublist hsteps
  rw [List.nil_append] at hruns
  have hmeasured : ∀ r ∈ s.runs, Q.Measured Q.visits r := fun r hr => by
    obtain ⟨v, hv, hrest⟩ := measured_steps hsteps (fun _ hr => absurd hr List.not_mem_nil) r hr
    exact ⟨v, hdone.subset hv, hrest⟩
  have htag : ∀ r ∈ s.runs, r.tag =
      (⟨row.workload, row.name, size, axisName original.axis, row.variant⟩, row.trial) :=
    fun r hr => by
      obtain ⟨v, hv, hrecords, _, _, _, _, -, rfl⟩ := hmeasured r hr
      exact scheduled_tag hP hreadable.toSpells hcell (subject_ne_all hnames hcell.subject_mem)
        (planned_of_mem hpermutes hv) hrecords
  -- the recorded visits differ by their trial, and they all have one
  have hunique : (s.runs.map Row.tag).Nodup := by
    rw [hruns]
    exact (recordedVisits_nodup hpermutes hnodup hnamed).sublist
      (hsub.trans ((hdone.sublist.filter _).map _))
  rcases hrows : s.runs with _ | ⟨r, _ | ⟨r', rest⟩⟩
  · exact .inl rfl
  · rw [hrows] at hmeasured htag
    refine .inr ⟨r, rfl, ?_, hmeasured r List.mem_cons_self⟩
    obtain ⟨hlabel, htrial⟩ := Prod.mk.inj (htag r List.mem_cons_self)
    obtain ⟨v, -, -, batchNs, result, _, _, -, rfl⟩ := hmeasured r List.mem_cons_self
    have horder : (Q.rowOf v batchNs result).execOrder = row.execOrder := by
      show (if (0 : ℤ) ≤ row.execOrder then (row.execOrder : ℤ) else v.position) = row.execOrder
      rw [if_pos (Int.natCast_nonneg row.execOrder)]
    exact ⟨congrArg Label.workload hlabel, hcell.row_n ▸ congrArg (toString ∘ Label.n) hlabel,
      congrArg Label.variant hlabel, congrArg Label.name hlabel, htrial, horder, rfl⟩
  · rw [hrows] at htag hunique
    rw [List.map_cons, List.map_cons, htag r List.mem_cons_self,
      htag r' (List.mem_cons_of_mem _ List.mem_cons_self)] at hunique
    exact absurd List.mem_cons_self (List.nodup_cons.mp hunique).1

/-- The process of a row comes to its trial. -/
theorem scheduled_planned (hP : P.OneProcess phase dry) (hspells : P.Spells)
    (hcell : P.InCell row original size variant subject) (hreads : ReadsRow strtod row size variant)
    (h : (P.scheduled phase dry raw row size variant shuffle clock).run {} = .ok code s) :
    ∃ v, (P.scheduled phase dry raw row size variant shuffle clock).Planned v ∧ 1 ≤ v.attempt := by
  let Q := P.scheduled phase dry raw row size variant shuffle clock
  have ho : P.options.SameStreams Q.options := (scheduled_agrees raw row size variant hP).toSameStreams
  have hscaled : Q.scaled original = original := if_neg (by
    rw [show Q.options.smoke = false from rfl]
    exact Bool.false_ne_true)
  have hplan : original ∈ Q.plan := by
    rw [show Q.plan = P.plan from sibling_plan ho, scheduled_plan hP]
    exact hcell.workload_mem
  have hselects : Q.selects original = true := decide_eq_true (.inr (.inl hcell.row_workload))
  have hattempts : Q.options.attempts = 1 + row.trials := by
    show (1 + row.trials) % 2 ^ 64 = _
    have htrials := hreads.trials_lt
    omega
  have htrial := hreads.trial
  have hskips : ¬ Q.SkipsAttempt (1 + row.trial) := by
    rintro ⟨-, -, hne⟩
    refine hne (Int.natCast_inj.mpr ?_)
    show (if 1 ≤ 1 + row.trial then 1 + row.trial - 1 else 1 + row.trial) = row.trial
    rw [if_pos (Nat.le_add_right 1 _), Nat.add_sub_cancel_left]
  have hskip : Q.skipsVariant variant = false := by
    show (!P.platform.equal variant variant) = false
    rw [(hspells.equal original hcell.workload_mem _ hcell.variant_mem _ hcell.variant_mem).mpr rfl]
    rfl
  obtain ⟨job, hjob⟩ := Option.isSome_iff_exists.mp hcell.job
  have hfilter : ¬ (P.options.structureFilter ≠ "all" ∧
      P.options.structureFilter ≠ subject.name) := fun hc => hc.1 hP.structureFilter
  have hfilter' : ¬ (row.name ≠ "all" ∧ row.name ≠ subject.name) := fun hc => hc.2 hcell.row_name
  have hjob' : Q.jobOf original (balancedInterval P.platform size) variant subject = some job := by
    unfold jobOf at hjob ⊢
    rw [if_neg hfilter] at hjob
    exact (if_neg hfilter').trans hjob
  have hjobs : job ∈ Q.jobsOf (Q.scaled original) size variant := by
    rw [hscaled]
    exact List.mem_filterMap.mpr ⟨subject, hcell.subject_mem, hjob'⟩
  obtain ⟨initial, stream, hv⟩ := exists_planned h hplan hselects (hscaled.symm ▸ hcell.size_mem)
    (.inr rfl) (by omega : 1 + row.trial < Q.options.attempts) hskips
    (hscaled.symm ▸ hcell.variant_mem) hskip hjobs
  exact ⟨_, hv, Nat.le_add_right 1 _⟩

/-- **A process that returns** has recorded the trial of its row, and exits with 0. -/
theorem scheduled_run (hP : P.OneProcess phase dry) (hreadable : P.Readable strtod)
    (hnames : P.table.map Structure.name = scheduledStructures)
    (hcell : P.InCell row original size variant subject) (hreads : ReadsRow strtod row size variant)
    (hlaunches : P.Launches strtod phase dry raw row Q) (h : Q.run {} = .ok code s) :
    code = 0 ∧ ∃ r, s.runs = [r] ∧ row.Describes r ∧ Q.Measured Q.visits r := by
  obtain ⟨hsteps, hcode⟩ := run_steps h
  have hrows : s.runs = [] ∨ ∃ r, s.runs = [r] ∧ row.Describes r ∧ Q.Measured Q.visits r :=
    scheduled_steps hP hreadable hnames hcell hreads hlaunches List.prefix_rfl hsteps
  obtain ⟨shuffle, clock, hshuffle, rfl⟩ := (launches_iff hcell hreads).mp hlaunches
  have hpermutes : (P.scheduled phase dry raw row size variant shuffle clock).Permutes := hshuffle
  obtain ⟨v, hv, hrecords⟩ := scheduled_planned hP hreadable.toSpells hcell hreads h
  have hone : ∃ r, s.runs = [r] ∧ row.Describes r ∧
      (P.scheduled phase dry raw row size variant shuffle clock).Measured
        (P.scheduled phase dry raw row size variant shuffle clock).visits r := by
    refine hrows.resolve_left fun hnil => ?_
    rcases rows_settled hpermutes h hv hrecords with ⟨r, hr, -⟩ | hcap
    · exact absurd (hnil ▸ hr) List.not_mem_nil
    · rw [hnil] at hcap
      exact absurd (show 0 = 1 from hcap) Nat.zero_ne_one
  refine ⟨?_, hone⟩
  obtain ⟨r, hr, -⟩ := hone
  have hnodup : (P.table.map Structure.name).Nodup := by
    rw [hnames]
    decide
  -- a row agrees with itself
  have hchecked : (P.scheduled phase dry raw row size variant shuffle clock).Checked s :=
    .steps hnodup (fun v hv => (mem_jobsOf (planned_of_mem hpermutes hv).job).1) hsteps
      checked_start
  have hmismatches : ¬ 0 < s.mismatches := fun hpos => by
    obtain ⟨r₁, hr₁, hcompared, hne⟩ := hchecked.mismatches.mp hpos
    obtain ⟨x, hx⟩ := hchecked.known r₁ hr₁ hcompared
    obtain ⟨r₂, hr₂, -, -, rfl⟩ := hchecked.first _ x hx
    rw [hr, List.mem_singleton] at hr₁ hr₂
    rw [hr₂, ← hr₁] at hx
    exact hne hx
  rw [hcode, if_neg hmismatches]

end Launched

end Process

end Bench

end Valseg
