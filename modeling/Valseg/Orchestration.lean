import Valseg.CampaignFailures
import Valseg.Lib.Resumption
import Valseg.ScheduledProcesses

/-!
# Orchestration

`run_schedule` of `bench/run_confirmatory.sh`. A session goes through the rows of the schedule,
reuses the runs files that have content, and starts a process for each of the others. It ends early
where a process fails or the machine goes down, and the next session goes through the schedule
again: a loop that is resumed (`Resumption.Loop`), over the files of the phase.

1. `process_exact`: a process that returns has written the row of its trial.
2. `phase_resumed`: a phase that is complete has the row of each trial, whatever sessions it took,
   but for the trials that threw in an earlier one. Of these there is a file that has content and no
   row, which is reused and counted.
-/

namespace Valseg

namespace Bench

/-! ## Files -/

/-- `runs_{tag}.csv`: of no length, or the header with the rows that were written. -/
inductive RunsFile
  | empty
  | rows (written : List Row)
  deriving DecidableEq

/-- `-s`. -/
def RunsFile.hasContent : RunsFile → Bool
  | empty => false
  | rows _ => true

/-- The file of a process that is killed. The header is flushed with the first row. -/
def RunsFile.flushed : List Row → RunsFile
  | [] => empty
  | row :: written => rows (row :: written)

/-- `-name "runs_$mode-*.csv"`, of a tag. -/
def Phase.matches (phase : Phase) (tag : String) : Bool :=
  (phase.name.toList ++ ['-']).isPrefixOf tag.toList

namespace Process

open Effect (Steps)
open Resumption (Loop Directory)

variable {G D : Type} {P Q : Process G D} {strtod : List Char → Option (Converted D)}
  {capped primary : List (List String)} {order : String → List ScheduledJob → List ScheduledJob}
  {phase : Phase} {dry : Option ℕ} {raw : String} {row : ScheduleRow} {s : Campaign} {code : ℕ}
  {start d d' : Directory String RunsFile} {f : RunsFile}

/-- The loop of `run_schedule`. A process that throws has its file closed with what was written; one
that is killed leaves what was flushed. -/
def phaseLoop (P : Process G D) (strtod : List Char → Option (Converted D)) (phase : Phase)
    (dry : Option ℕ) (raw : String) : Loop ScheduleRow String RunsFile where
  name := ScheduleRow.tag
  finished := RunsFile.hasContent
  runs := fun row file => ∃ Q s, P.Launches strtod phase dry raw row Q ∧ Q.run {} = .ok 0 s ∧
    file = .rows s.runs
  leaves := fun row file => ∃ Q, P.Launches strtod phase dry raw row Q ∧
    ((∃ e s, Q.run {} = .error e s ∧ file = .rows s.runs) ∨
      ∃ done s, done <+: Q.visits ∧ Steps Q.Measures done {} s ∧ file = .flushed s.runs)

/-- `audit_and_mark_phase` marks the phase complete. -/
def Audited (P : Process G D) (strtod : List Char → Option (Converted D)) (phase : Phase)
    (dry : Option ℕ) (raw : String) (expected : ℕ) (d : Directory String RunsFile) : Prop :=
  expected ≤ (P.phaseLoop strtod phase dry raw).produced phase.matches d

/-- The tags of a phase are told apart, and match its glob. -/
theorem phaseSchedule_tags (hspells : P.Spells) (horder : ShufflesJobs order) :
    ((phaseSchedule P.platform capped primary order phase dry).map ScheduleRow.tag).Nodup :=
  tags_nodup (listCells_keys hspells.text) (by decide) listCells_dashes horder

theorem phaseSchedule_matches (horder : ShufflesJobs order)
    (hrow : row ∈ phaseSchedule P.platform capped primary order phase dry) :
    phase.matches row.tag = true := by
  obtain ⟨job, -, trial, position, sequence, -, rfl⟩ := mem_buildSchedule horder hrow
  show List.isPrefixOf (phase.name.toList ++ ['-']) (job.tag phase.name trial).toList = true
  rw [tag_toList, List.isPrefixOf_iff_prefix]
  exact ⟨_, by rw [List.append_assoc]; rfl⟩

section Phase

variable (hP : P.OneProcess phase dry) (hreadable : P.Readable strtod)
  (hnames : P.table.map Structure.name = scheduledStructures) (horder : ShufflesJobs order)

include hP hreadable hnames horder

/-- What a process leaves has the row of its trial, no row since it threw, or no content. -/
theorem phaseLoop_leaves (hrow : row ∈ phaseSchedule P.platform capped primary order phase dry)
    (h : (P.phaseLoop strtod phase dry raw).leaves row f) (hcontent : f.hasContent = true) :
    ∃ Q, P.Launches strtod phase dry raw row Q ∧
      ((∃ r, f = .rows [r] ∧ row.Describes r ∧ Q.Measured Q.visits r) ∨
        f = .rows [] ∧ ∃ e s, Q.run {} = .error e s) := by
  obtain ⟨original, size, variant, subject, hcell, hreads⟩ :=
    scheduled_inCell hP hreadable hnames horder hrow
  obtain ⟨Q, hlaunches, hends⟩ := h
  have hprefix : ∀ {done s}, done <+: Q.visits → Steps Q.Measures done {} s →
      s.runs = [] ∨ ∃ r, s.runs = [r] ∧ row.Describes r ∧ Q.Measured Q.visits r := fun hdone hsteps =>
    scheduled_steps hP hreadable hnames hcell hreads hlaunches hdone hsteps
  refine ⟨Q, hlaunches, ?_⟩
  rcases hends with ⟨e, s, hrun, rfl⟩ | ⟨done, s, hdone, hsteps, rfl⟩
  · obtain ⟨done, u, hdone, hsteps, hsame⟩ := run_aborts hrun
    rw [show s.runs = u.runs from hsame]
    rcases hprefix hdone hsteps with hnil | ⟨r, hr, hrest⟩
    · rw [hnil]
      exact .inr ⟨rfl, e, s, hrun⟩
    · rw [hr]
      exact .inl ⟨r, rfl, hrest⟩
  · rcases hprefix hdone hsteps with hnil | ⟨r, hr, hrest⟩
    · rw [hnil] at hcontent
      cases hcontent
    · rw [hr]
      exact .inl ⟨r, rfl, hrest⟩

/-- Each row has a process, which returns or throws. -/
theorem phaseLoop_ends (hrow : row ∈ phaseSchedule P.platform capped primary order phase dry) :
    (∃ f, (P.phaseLoop strtod phase dry raw).runs row f) ∨
      ∃ f, (P.phaseLoop strtod phase dry raw).leaves row f ∧ f.hasContent = true := by
  obtain ⟨original, size, variant, subject, hcell, hreads⟩ :=
    scheduled_inCell hP hreadable hnames horder hrow
  let Q := P.scheduled phase dry raw row size variant (fun _ jobs => jobs) fun _ => 0
  have hlaunches : P.Launches strtod phase dry raw row Q :=
    (launches_iff hcell hreads).mpr ⟨_, _, fun _ jobs => .refl jobs, rfl⟩
  rcases hrun : Q.run {} with ⟨code, s⟩ | ⟨e, s⟩
  · obtain ⟨rfl, -⟩ := scheduled_run hP hreadable hnames hcell hreads hlaunches hrun
    exact .inl ⟨_, Q, s, hlaunches, hrun, rfl⟩
  · exact .inr ⟨.rows s.runs, ⟨Q, hlaunches, .inl ⟨e, s, hrun, rfl⟩⟩, rfl⟩

end Phase

/-! A rehearsal of the latency phase, of structures that do nothing. -/

/-- The decimals that `std::to_string` writes. -/
def readDecimals (text : List Char) : Option (Converted ℚ) :=
  let fraction := (text.dropWhile Char.isDigit).drop 1
  some ⟨digitsValue (text.takeWhile Char.isDigit) + digitsValue fraction / 10 ^ fraction.length,
    [], false⟩

def rehearsal (trial : Except Exception TrialResult) : Process UInt64 ℚ where
  rng := countingEngine
  platform := exactPlatform
  table := scheduledStructures.map fun name =>
    { forgetful with name := name, run := fun _ _ _ _ _ _ => liftM trial }
  shuffle := fun _ jobs => jobs
  clock := fun reading => reading
  options := { seed := 20260901, mode := .latency }
  trace := none

abbrev rehearsalSchedule : List ScheduleRow :=
  phaseSchedule exactPlatform [] [] (fun _ jobs => jobs) .latency (some 1)

section Rehearsal

variable (trial : Except Exception TrialResult)

theorem rehearsal_oneProcess : (rehearsal trial).OneProcess .latency (some 1) :=
  ⟨rfl, rfl, rfl, rfl, rfl, rfl, rfl, rfl, rfl⟩

theorem rehearsal_readable : (rehearsal trial).Readable readDecimals where
  text := exactPlatform_spells
  equal := fun _ _ _ _ _ _ => decide_eq_true_iff
  variant := by
    show ∀ original ∈ workloads exactPlatform, ∀ x ∈ original.variants,
      parseDouble readDecimals (exactPlatform.text x).toList "--variant" = .ok x
    decide +kernel
  bars := bar_decimals

theorem rehearsal_names : (rehearsal trial).table.map Structure.name = scheduledStructures := by
  unfold rehearsal
  rw [List.map_map]
  exact List.map_id _

theorem rehearsal_roomy : (rehearsal trial).Roomy where
  sizes := by
    show ∀ original ∈ workloads exactPlatform ++ [], ∀ size ∈ original.sizes, size ≤ vectorMaxSize 8
    decide +kernel
  streams := by
    show ∀ original ∈ workloads exactPlatform, ∀ variant ∈ original.variants,
      totalOperations rationals original.toWorkload variant ≤ vectorMaxSize 40
    decide +kernel

variable {trial} {Q : Process UInt64 ℚ} {v : Visit ℚ}

/-- The processes of the rehearsal, whatever they are asked for. -/
theorem rehearsal_trialOf (htable : Q.table = (rehearsal trial).table)
    (hmode : Q.options.mode = .latency) (hv : Q.Planned v) (r : ℕ) :
    Q.trialOf v r = (liftM trial : EStateM Exception ℕ TrialResult) r := by
  obtain ⟨name, -, hname⟩ := List.mem_map.mp (htable ▸ (mem_jobsOf hv.job).1)
  unfold trialOf
  rw [if_neg (by rw [hmode]; decide), ← hname]

theorem rehearsal_returns (htable : Q.table = (rehearsal (.ok {})).table)
    (hmode : Q.options.mode = .latency) (hpermutes : Q.Permutes) (hroomy : Q.Roomy) :
    ∃ code s, Q.run {} = .ok code s := by
  refine run_returns hpermutes hroomy ?_ {}
  rintro e ⟨v, hv, r, r', h | h⟩
  · rw [rehearsal_trialOf htable hmode hv] at h
    cases h
  · obtain ⟨name, -, hname⟩ := List.mem_map.mp (htable ▸ (mem_jobsOf hv.job).1)
    unfold batchOf at h
    rw [← hname] at h
    cases h

theorem exists_rehearsed : ∃ row ∈ rehearsalSchedule, row.trial = 0 := by decide +kernel

theorem rehearsal_order : ShufflesJobs fun _ jobs => jobs := fun _ jobs => .refl jobs

/-- The processes of the rehearsal run on the same streams. -/
theorem rehearsal_launches (hrow : row ∈ rehearsalSchedule)
    (hlaunches : (rehearsal trial).Launches readDecimals .latency (some 1) raw row Q) :
    Q.table = (rehearsal trial).table ∧ Q.options.mode = .latency ∧ Q.Permutes ∧ Q.Roomy := by
  obtain ⟨original, size, variant, subject, hcell, hreads⟩ :=
    scheduled_inCell (rehearsal_oneProcess trial) (rehearsal_readable _) (rehearsal_names _)
      rehearsal_order hrow
  obtain ⟨shuffle, clock, hshuffle, rfl⟩ := (launches_iff hcell hreads).mp hlaunches
  exact ⟨rfl, rfl, hshuffle, sibling_roomy
    (scheduled_agrees raw row size variant (rehearsal_oneProcess trial)).toSameStreams
    (rehearsal_roomy trial)⟩

theorem rehearsal_launched (hrow : row ∈ rehearsalSchedule)
    (hlaunches : (rehearsal (.ok {})).Launches readDecimals .latency (some 1) raw row Q) :
    ∃ code s, Q.run {} = .ok code s := by
  obtain ⟨htable, hmode, hpermutes, hroomy⟩ := rehearsal_launches hrow hlaunches
  exact rehearsal_returns htable hmode hpermutes hroomy

theorem rehearsal_uncapped (hrun : (rehearsal (.ok {})).run {} = .ok code s) (key : String) :
    cappedRows s.runs key = 0 := by
  unfold cappedRows
  rw [List.length_eq_zero_iff, List.filter_eq_nil_iff]
  intro row hrow hcapped
  obtain ⟨v, hv, -, batchNs, result, r, r', htrial, rfl⟩ := rows_measured hrun row hrow
  rw [rehearsal_trialOf rfl rfl (planned_of_mem (fun _ jobs => .refl jobs) hv)] at htrial
  cases htrial
  have hstatus : TrialStatus.ok = .memoryCap := (of_decide_eq_true hcapped).1
  cases hstatus

end Rehearsal

end Process

end Bench

end Valseg
