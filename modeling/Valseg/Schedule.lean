import Valseg.CampaignShards
import Valseg.Numerals

/-!
# The schedule of a campaign

`bench/confirm_schedule.py`: one process for each trial of each structure in each cell, in an order
that is shuffled within the trials. The cells are those that `--list-cells` prints.

1. `schedule_exact`: each trial of each job is scheduled once, block after block, and the numbers
   of a row are its positions.
2. `schedule_file`: the shell reads back the rows that were written.
3. `tags_nodup`: the tags tell the processes apart.
4. `jobs_mirror`: the jobs are those that one process would have run.

The order of `random.shuffle` is a parameter.
-/

namespace Valseg

namespace Bench

/-! ## Cells -/

/-- A row of `--list-cells`. -/
structure ListedCell where
  workload : String
  n : String
  axis : String
  variant : String
  deriving DecidableEq, Repr

def listCells {D : Type} (platform : Platform D) : List ListedCell :=
  (workloads platform).flatMap fun workload => workload.sizes.flatMap fun size =>
    workload.variants.map fun variant =>
      ⟨workload.id, toString size, axisName workload.axis, platform.text variant⟩

/-- The variants of a workload at a size, in the order of the cells. -/
def variantsAt (cells : List ListedCell) (cell : ListedCell) : List String :=
  (cells.filter fun other => other.workload = cell.workload ∧ other.n = cell.n).map ListedCell.variant

/-! ## Jobs -/

/-- A structure in a cell, with the index of its variant. -/
structure ScheduledJob extends ListedCell where
  name : String
  variantIndex : ℕ
  deriving DecidableEq, Repr

/-- What a process is told of its job. -/
def ScheduledJob.key (job : ScheduledJob) : String × String × String × String :=
  (job.workload, job.n, job.variant, job.name)

/-- The interval is a parameter of one structure; the others run at the first variant. -/
def jobAt (cells : List ListedCell) (cell : ListedCell) (name : String) : Option ScheduledJob :=
  if cell.axis = "k" ∧ name ≠ "checkpointing" ∧
      some cell.variant ≠ (variantsAt cells cell).head? then none
  else some ⟨cell, name, (variantsAt cells cell).idxOf cell.variant⟩

def buildJobs (cells : List ListedCell) (names : List String) (selected : Option (List String)) :
    List ScheduledJob :=
  cells.flatMap fun cell =>
    if selected.all fun workloads => cell.workload ∈ workloads then
      names.filterMap (jobAt cells cell)
    else []

/-! ## Trials -/

/-- `trials_for`. Both lists hold rows of the registered cells. -/
def trialsFor (capped primary : List (List String)) (cappedTrials primaryTrials trials : ℕ)
    (job : ScheduledJob) : ℕ :=
  if [job.workload, job.n, job.variant, job.name] ∈ capped then cappedTrials
  else if [job.workload, job.n, job.variant] ∈ primary then primaryTrials
  else trials

/-- `{trial:02d}`. -/
def twoDigits (trial : ℕ) : String := if trial < 10 then "0" ++ toString trial else toString trial

def ScheduledJob.tag (mode : String) (job : ScheduledJob) (trial : ℕ) : String :=
  mode ++ "-" ++ job.workload ++ "-n" ++ job.n ++ "-v" ++ toString job.variantIndex ++ "-" ++
    job.name ++ "-t" ++ twoDigits trial

/-- One process. -/
structure ScheduleRow where
  workload : String
  n : String
  variant : String
  name : String
  trial : ℕ
  trials : ℕ
  execOrder : ℕ
  processSeq : ℕ
  tag : String
  deriving DecidableEq, Repr

def ScheduleRow.key (row : ScheduleRow) : String × String × String × String :=
  (row.workload, row.n, row.variant, row.name)

section Build

variable (mode : String) (trials : ScheduledJob → ℕ)
  (shuffle : String → List ScheduledJob → List ScheduledJob) (seed : ℕ)

def scheduleRow (trial position sequence : ℕ) (job : ScheduledJob) : ScheduleRow where
  workload := job.workload
  n := job.n
  variant := job.variant
  name := job.name
  trial := trial
  trials := trials job
  execOrder := position
  processSeq := sequence
  tag := job.tag mode trial

/-- The jobs that have the trial, in the order of its seed. -/
def blockOf (jobs : List ScheduledJob) (trial : ℕ) : List ScheduledJob :=
  shuffle (toString seed ++ "|" ++ toString trial) (jobs.filter fun job => trial < trials job)

def blockRows (trial sequence : ℕ) (block : List ScheduledJob) : List ScheduleRow :=
  block.zipIdx.map fun entry => scheduleRow mode trials trial entry.2 (sequence + entry.2) entry.1

/-- The loop over the trials. -/
def scheduleFrom (jobs : List ScheduledJob) : List ℕ → (sequence : ℕ) → List ScheduleRow
  | [], _ => []
  | trial :: rest, sequence =>
    let block := blockOf trials shuffle seed jobs trial
    blockRows mode trials trial sequence block ++ scheduleFrom jobs rest (sequence + block.length)

def buildSchedule (jobs : List ScheduledJob) : List ScheduleRow :=
  scheduleFrom mode trials shuffle seed jobs
    (List.range ((jobs.map trials).foldr max 0)) 0

/-! ## What is scheduled -/

variable {mode trials shuffle seed} {jobs block : List ScheduledJob} {trial sequence : ℕ}

variable (shuffle) in
/-- `random.shuffle` moves the jobs around. -/
def ShufflesJobs : Prop := ∀ text block, (shuffle text block).Perm block

@[simp] theorem blockRows_length :
    (blockRows mode trials trial sequence block).length = block.length := by
  unfold blockRows
  rw [List.length_map, List.length_zipIdx]

theorem blockRows_processSeq : (blockRows mode trials trial sequence block).map
    ScheduleRow.processSeq = List.range' sequence block.length := by
  unfold blockRows
  rw [List.map_map, show ScheduleRow.processSeq ∘ (fun entry : ScheduledJob × ℕ =>
    scheduleRow mode trials trial entry.2 (sequence + entry.2) entry.1) =
      (sequence + ·) ∘ Prod.snd from rfl, ← List.map_map, List.zipIdx_map_snd,
    List.map_add_range', Nat.add_zero]

theorem blockRows_execOrder : (blockRows mode trials trial sequence block).map
    ScheduleRow.execOrder = List.range block.length := by
  unfold blockRows
  rw [List.map_map, show ScheduleRow.execOrder ∘ (fun entry : ScheduledJob × ℕ =>
    scheduleRow mode trials trial entry.2 (sequence + entry.2) entry.1) = Prod.snd from rfl,
    List.zipIdx_map_snd, List.range_eq_range']

theorem blockRows_job {α : Type} (f : ScheduleRow → α) (g : ScheduledJob → α)
    (h : ∀ position sequence job, f (scheduleRow mode trials trial position sequence job) = g job) :
    (blockRows mode trials trial sequence block).map f = block.map g := by
  unfold blockRows
  rw [List.map_map, show f ∘ (fun entry : ScheduledJob × ℕ =>
    scheduleRow mode trials trial entry.2 (sequence + entry.2) entry.1) = g ∘ Prod.fst from
      funext fun entry => h _ _ _, ← List.map_map, List.zipIdx_map_fst]

theorem scheduleFrom_jobs {α : Type} (f : ScheduleRow → α) (g : ℕ → ScheduledJob → α)
    (h : ∀ trial position sequence job,
      f (scheduleRow mode trials trial position sequence job) = g trial job) (ts : List ℕ)
    (sequence : ℕ) : (scheduleFrom mode trials shuffle seed jobs ts sequence).map f =
      ts.flatMap fun trial => (blockOf trials shuffle seed jobs trial).map (g trial) := by
  induction ts generalizing sequence with
  | nil => rfl
  | cons trial ts ih =>
    rw [scheduleFrom, List.map_append, blockRows_job f (g trial) (h trial), ih, List.flatMap_cons]

theorem scheduleFrom_processSeq (ts : List ℕ) (sequence : ℕ) :
    (scheduleFrom mode trials shuffle seed jobs ts sequence).map ScheduleRow.processSeq =
      List.range' sequence (scheduleFrom mode trials shuffle seed jobs ts sequence).length := by
  induction ts generalizing sequence with
  | nil => rfl
  | cons trial ts ih =>
    rw [scheduleFrom, List.map_append, blockRows_processSeq, ih, List.length_append,
      blockRows_length, List.range'_append_1]

theorem blockRows_trial {row : ScheduleRow}
    (h : row ∈ blockRows mode trials trial sequence block) : row.trial = trial := by
  obtain ⟨entry, -, rfl⟩ := List.mem_map.mp h
  rfl

theorem scheduleFrom_other {ts : List ℕ} (hts : trial ∉ ts) (sequence : ℕ) :
    (scheduleFrom mode trials shuffle seed jobs ts sequence).filter
      (fun row => row.trial = trial) = [] := by
  induction ts generalizing sequence with
  | nil => rfl
  | cons t ts ih =>
    obtain ⟨hne, hts⟩ := not_or.mp (List.mem_cons.not.mp hts)
    rw [scheduleFrom, List.filter_append, ih hts, List.append_nil, List.filter_eq_nil_iff]
    intro row hrow
    rw [blockRows_trial hrow, decide_eq_true_eq]
    exact fun heq => hne heq.symm

/-- The rows of a trial stand together. -/
theorem scheduleFrom_block {ts : List ℕ} (hts : ts.Nodup) (htrial : trial ∈ ts) (sequence : ℕ) :
    ∃ start, ((scheduleFrom mode trials shuffle seed jobs ts sequence).filter fun row =>
      row.trial = trial) =
        blockRows mode trials trial start (blockOf trials shuffle seed jobs trial) := by
  induction ts generalizing sequence with
  | nil => exact absurd htrial List.not_mem_nil
  | cons t ts ih =>
    obtain ⟨hnot, hts⟩ := List.nodup_cons.mp hts
    rw [scheduleFrom, List.filter_append]
    by_cases heq : trial = t
    · subst heq
      rw [scheduleFrom_other hnot, List.append_nil, List.filter_eq_self.mpr]
      · exact ⟨sequence, rfl⟩
      · intro row hrow
        exact decide_eq_true (blockRows_trial hrow)
    · rw [List.filter_eq_nil_iff.mpr, List.nil_append]
      · exact ih hts ((List.mem_cons.mp htrial).resolve_left heq) _
      · intro row hrow
        rw [blockRows_trial hrow, decide_eq_true_eq]
        exact fun hc => heq hc.symm

theorem mem_blockOf (hshuffle : ShufflesJobs shuffle) {job : ScheduledJob} :
    job ∈ blockOf trials shuffle seed jobs trial ↔ job ∈ jobs ∧ trial < trials job := by
  unfold blockOf
  rw [(hshuffle _ _).mem_iff, List.mem_filter, decide_eq_true_eq]

theorem trials_le {job : ScheduledJob} (h : job ∈ jobs) :
    trials job ≤ (jobs.map trials).foldr max 0 :=
  List.le_max_of_le (List.mem_map_of_mem h) le_rfl

theorem scheduleFrom_sorted {ts : List ℕ} (hts : ts.Pairwise (· ≤ ·)) (sequence : ℕ) :
    ((scheduleFrom mode trials shuffle seed jobs ts sequence).map ScheduleRow.trial).Pairwise
      (· ≤ ·) := by
  rw [scheduleFrom_jobs ScheduleRow.trial (fun trial _ => trial) fun _ _ _ _ => rfl]
  refine List.pairwise_flatMap.mpr ⟨fun trial _ => ?_, hts.imp fun hle t ht t' ht' => ?_⟩
  · exact List.pairwise_map.mpr (List.pairwise_of_forall fun _ _ => le_rfl)
  · obtain ⟨job, -, rfl⟩ := List.mem_map.mp ht
    obtain ⟨job', -, rfl⟩ := List.mem_map.mp ht'
    exact hle

/-- The trials of the jobs, as they are scheduled. -/
theorem scheduleFrom_keys (ts : List ℕ) (sequence : ℕ) :
    (scheduleFrom mode trials shuffle seed jobs ts sequence).map (fun row => (row.key, row.trial)) =
      ts.flatMap fun trial => (blockOf trials shuffle seed jobs trial).map fun job =>
        (job.key, trial) :=
  scheduleFrom_jobs _ (fun trial job => (job.key, trial)) (fun _ _ _ _ => rfl) ts sequence

/-- No trial of a job is scheduled twice. -/
theorem buildSchedule_keys (hkeys : (jobs.map ScheduledJob.key).Nodup)
    (hshuffle : ShufflesJobs shuffle) :
    ((buildSchedule mode trials shuffle seed jobs).map fun row => (row.key, row.trial)).Nodup := by
  unfold buildSchedule
  rw [scheduleFrom_keys, List.nodup_flatMap]
  refine ⟨fun trial _ => ?_, List.nodup_range.imp fun hne => ?_⟩
  · have hblock : ((blockOf trials shuffle seed jobs trial).map ScheduledJob.key).Nodup :=
      ((hshuffle _ _).map _).nodup_iff.mpr (hkeys.sublist (List.filter_sublist.map _))
    have hpairs := hblock.map (f := fun key => (key, trial)) fun _ _ h => congrArg Prod.fst h
    rwa [List.map_map] at hpairs
  · rintro ⟨key, trial⟩ hmem hmem'
    obtain ⟨job, -, hjob⟩ := List.mem_map.mp hmem
    obtain ⟨job', -, hjob'⟩ := List.mem_map.mp hmem'
    exact hne ((congrArg Prod.snd hjob).trans (congrArg Prod.snd hjob').symm)

/-- **The schedule.** Every trial of every job is scheduled once, block after block; the sequence
numbers count the rows, and the orders of execution count those of a block. -/
theorem schedule_exact (hkeys : (jobs.map ScheduledJob.key).Nodup)
    (hshuffle : ShufflesJobs shuffle) :
    let rows := buildSchedule mode trials shuffle seed jobs
    (rows.map fun row => (row.key, row.trial)).Nodup ∧
      (∀ key trial, (key, trial) ∈ rows.map (fun row => (row.key, row.trial)) ↔
        ∃ job ∈ jobs, job.key = key ∧ trial < trials job) ∧
      (rows.map ScheduleRow.trial).Pairwise (· ≤ ·) ∧
      rows.map ScheduleRow.processSeq = List.range rows.length ∧
      ∀ trial, (rows.filter fun row => row.trial = trial).map ScheduleRow.execOrder =
        List.range (jobs.filter fun job => trial < trials job).length := by
  refine ⟨buildSchedule_keys hkeys hshuffle, fun key trial => ?_, scheduleFrom_sorted ?_ 0, ?_,
    fun trial => ?_⟩
  · unfold buildSchedule
    rw [scheduleFrom_keys]
    simp only [List.mem_flatMap, List.mem_range, List.mem_map, mem_blockOf hshuffle, Prod.mk.injEq]
    constructor
    · rintro ⟨t, -, job, ⟨hjob, ht⟩, rfl, rfl⟩
      exact ⟨job, hjob, rfl, ht⟩
    · rintro ⟨job, hjob, rfl, ht⟩
      exact ⟨trial, ht.trans_le (trials_le hjob), job, ⟨hjob, ht⟩, rfl, rfl⟩
  · exact List.pairwise_le_range
  · rw [List.range_eq_range']
    exact scheduleFrom_processSeq _ 0
  · have hlength : (blockOf trials shuffle seed jobs trial).length =
        (jobs.filter fun job => trial < trials job).length := (hshuffle _ _).length_eq
    rw [← hlength]
    unfold buildSchedule
    by_cases htrial : trial ∈ List.range ((jobs.map trials).foldr max 0)
    · obtain ⟨start, hrows⟩ := scheduleFrom_block List.nodup_range htrial 0
      rw [hrows, blockRows_execOrder]
    · -- no job has so many trials
      have hnone : blockOf trials shuffle seed jobs trial = [] := by
        refine List.eq_nil_iff_forall_not_mem.mpr fun job hjob => ?_
        obtain ⟨hjob, hlt⟩ := (mem_blockOf hshuffle).mp hjob
        exact htrial (List.mem_range.mpr (hlt.trans_le (trials_le hjob)))
      rw [scheduleFrom_other htrial, hnone]
      rfl

/-- Two jobs of the sweep, one of them for one trial only. -/
def sweepJobs : List ScheduledJob :=
  [⟨⟨"W7", "10000", "k", "1.000000"⟩, "persistent", 0⟩,
    ⟨⟨"W7", "10000", "k", "16.000000"⟩, "checkpointing", 1⟩]

def sweepRows : List ScheduleRow :=
  buildSchedule "timing" (fun job => 1 + job.variantIndex) (fun _ block => block.reverse) 20270214
    sweepJobs

theorem schedule_exact_sweep : (("W7", "10000", "16.000000", "checkpointing"), 1) ∈
      sweepRows.map (fun row => (row.key, row.trial)) ∧
    (("W7", "10000", "1.000000", "persistent"), 1) ∉
      sweepRows.map fun row => (row.key, row.trial) := by
  have hkeys : (sweepJobs.map ScheduledJob.key).Nodup := by decide
  have hshuffle : ShufflesJobs fun _ block => block.reverse := fun _ _ => List.reverse_perm _
  have hiff : ∀ key trial, (key, trial) ∈ sweepRows.map (fun row => (row.key, row.trial)) ↔
      ∃ job ∈ sweepJobs, job.key = key ∧ trial < 1 + job.variantIndex :=
    (schedule_exact hkeys hshuffle).2.1
  refine ⟨(hiff _ _).mpr (by decide), fun h => ?_⟩
  have hnone : ¬ ∃ job ∈ sweepJobs, job.key = ("W7", "10000", "1.000000", "persistent") ∧
      1 < 1 + job.variantIndex := by decide
  exact hnone ((hiff _ _).mp h)

end Build

/-! ## The file -/

/-- `SCHEDULE_COLUMNS`, after the mark of a comment. -/
def scheduleHeader : List Char :=
  "# workload\tn\tvariant\tstructure\ttrial\ttrials\texec_order\tprocess_seq\ttag".toList

/-- The columns of a row as texts. -/
def ScheduleRow.fields (row : ScheduleRow) : List (List Char) :=
  [row.workload.toList, row.n.toList, row.variant.toList, row.name.toList,
    (toString row.trial).toList, (toString row.trials).toList, (toString row.execOrder).toList,
    (toString row.processSeq).toList, row.tag.toList]

/-- `write_schedule`. -/
def writeSchedule (rows : List ScheduleRow) : List Char :=
  let lines := rows.map fun row => ['\t'].intercalate row.fields
  scheduleHeader ++ '\n' :: (['\n'].intercalate lines ++ ['\n'])

/-- `IFS=$'\t' read -r` on a line with no more fields than there are names, which takes tabs that
stand together as one. -/
def readFields (line : List Char) : List (List Char) := (line.splitOn '\t').filter (· ≠ [])

/-- The lines that `run_schedule` goes through. -/
def readSchedule (contents : List Char) : List (List (List Char)) :=
  ((linesOf contents).map readFields).filter fun fields => (fields.headD []).head? ≠ some '#'

/-- Rows that can be written with tabs between their columns. -/
structure ScheduleRow.Writable (row : ScheduleRow) : Prop where
  nonempty : ∀ field ∈ row.fields, field ≠ []
  tab : ∀ field ∈ row.fields, '\t' ∉ field
  newline : ∀ field ∈ row.fields, '\n' ∉ field
  comment : row.workload.toList.head? ≠ some '#'

theorem ScheduleRow.Writable.fields {row : ScheduleRow} (h : row.Writable) :
    readFields (['\t'].intercalate row.fields) = row.fields := by
  unfold readFields
  rw [List.splitOn_intercalate '\t' h.tab (by simp [ScheduleRow.fields]), List.filter_eq_self]
  exact fun field hfield => decide_eq_true (h.nonempty field hfield)

theorem not_mem_intercalate {c sep : Char} (hne : c ≠ sep) {parts : List (List Char)}
    (h : ∀ part ∈ parts, c ∉ part) : c ∉ [sep].intercalate parts := by
  induction parts with
  | nil => exact List.not_mem_nil
  | cons part parts ih =>
    have hpart := h part List.mem_cons_self
    have hparts := ih fun x hx => h x (List.mem_cons_of_mem _ hx)
    rcases parts with _ | ⟨next, parts⟩
    · rwa [List.intercalate_singleton]
    · rw [List.intercalate_cons_cons]
      simp only [List.mem_append, List.mem_singleton, not_or]
      exact ⟨⟨hpart, hne⟩, hparts⟩

/-- A separator after the last part is one before an empty one. -/
theorem intercalate_append_nil {sep : Char} {parts : List (List Char)} (h : parts ≠ []) :
    [sep].intercalate parts ++ [sep] = [sep].intercalate (parts ++ [[]]) := by
  induction parts with
  | nil => exact absurd rfl h
  | cons part parts ih =>
    rcases parts with _ | ⟨next, parts⟩
    · rw [List.intercalate_singleton, List.singleton_append, List.intercalate_cons_cons,
        List.intercalate_singleton, List.append_nil]
    · rw [List.intercalate_cons_cons, List.append_assoc, ih (List.cons_ne_nil _ _)]
      exact List.intercalate_cons_cons.symm

section Tags

variable {mode : String} {job job' : ScheduledJob} {trial trial' : ℕ}

theorem dash_toDigits (n : ℕ) : '-' ∉ Nat.toDigits 10 n := by
  intro h
  exact absurd (Nat.isDigit_of_mem_toDigits (by decide) (by decide) h) (by decide)

theorem toDigits_inj {m n : ℕ} (h : Nat.toDigits 10 m = Nat.toDigits 10 n) : m = n := by
  rw [← Nat.ofDigitChars_ten_toDigits (n := m), h, Nat.ofDigitChars_ten_toDigits]

/-- The digits of `{trial:02d}`. -/
def paddedDigits (trial : ℕ) : List Char :=
  if trial < 10 then '0' :: Nat.toDigits 10 trial else Nat.toDigits 10 trial

theorem twoDigits_toList (trial : ℕ) : (twoDigits trial).toList = paddedDigits trial := by
  unfold twoDigits paddedDigits
  split_ifs
  · rw [String.toList_append, Nat.toString_eq_repr, Nat.toList_repr]
    rfl
  · rw [Nat.toString_eq_repr, Nat.toList_repr]

theorem ofDigitChars_paddedDigits (trial : ℕ) :
    Nat.ofDigitChars 10 (paddedDigits trial) 0 = trial := by
  unfold paddedDigits
  split_ifs
  · rw [Nat.ofDigitChars_cons]
    exact Nat.ofDigitChars_ten_toDigits
  · exact Nat.ofDigitChars_ten_toDigits

theorem paddedDigits_inj (h : paddedDigits trial = paddedDigits trial') : trial = trial' := by
  rw [← ofDigitChars_paddedDigits trial, h, ofDigitChars_paddedDigits]

theorem dash_paddedDigits (trial : ℕ) : '-' ∉ paddedDigits trial := by
  unfold paddedDigits
  split_ifs
  · exact List.mem_cons.not.mpr (not_or.mpr ⟨by decide, dash_toDigits trial⟩)
  · exact dash_toDigits trial

theorem tag_toList (mode : String) (job : ScheduledJob) (trial : ℕ) :
    (job.tag mode trial).toList = mode.toList ++ '-' :: (job.workload.toList ++ '-' ::
      ('n' :: job.n.toList ++ '-' :: ('v' :: Nat.toDigits 10 job.variantIndex ++ '-' ::
        (job.name.toList ++ '-' :: 't' :: paddedDigits trial)))) := by
  unfold ScheduledJob.tag
  simp only [String.toList_append, twoDigits_toList, Nat.toString_eq_repr, Nat.toList_repr,
    List.append_assoc, List.cons_append]
  rfl

/-- A text up to its first dash. -/
theorem first_dash {xs ys x y : List Char} (hxs : '-' ∉ xs) (hys : '-' ∉ ys)
    (h : xs ++ '-' :: x = ys ++ '-' :: y) : xs = ys ∧ x = y := by
  have hfront : ∀ {xs x : List Char}, '-' ∉ xs →
      (xs ++ '-' :: x).takeWhile (fun c => decide (c ≠ '-')) = xs := fun hxs =>
    takeWhile_append (fun c hc => decide_eq_true fun heq => hxs (heq ▸ hc)) (by simp)
  have hsame : xs = ys := by rw [← hfront hxs (x := x), h, hfront hys]
  subst hsame
  exact ⟨rfl, (List.cons.inj (List.append_cancel_left h)).2⟩

/-- A text up to its last dash. -/
theorem last_dash {xs ys x y : List Char} (hx : '-' ∉ x) (hy : '-' ∉ y)
    (h : xs ++ '-' :: x = ys ++ '-' :: y) : xs = ys ∧ x = y := by
  have hreverse := congrArg List.reverse h
  simp only [List.reverse_append, List.reverse_cons, List.append_assoc, List.singleton_append]
    at hreverse
  obtain ⟨hback, hfront⟩ := first_dash (List.mem_reverse.not.mpr hx) (List.mem_reverse.not.mpr hy)
    hreverse
  exact ⟨List.reverse_injective hfront, List.reverse_injective hback⟩

/-- **Tags** tell the jobs and the trials apart. -/
theorem tag_inj (hw : '-' ∉ job.workload.toList) (hw' : '-' ∉ job'.workload.toList)
    (hn : '-' ∉ job.n.toList) (hn' : '-' ∉ job'.n.toList)
    (h : job.tag mode trial = job'.tag mode trial') :
    job.workload = job'.workload ∧ job.n = job'.n ∧ job.variantIndex = job'.variantIndex ∧
      job.name = job'.name ∧ trial = trial' := by
  have hcons : ∀ {c : Char} {x : List Char}, '-' ≠ c → '-' ∉ x → '-' ∉ c :: x := fun hc hx =>
    List.mem_cons.not.mpr (not_or.mpr ⟨hc, hx⟩)
  have htags := congrArg String.toList h
  rw [tag_toList, tag_toList, List.append_cancel_left_eq, List.cons.injEq] at htags
  obtain ⟨hworkload, h1⟩ := first_dash hw hw' htags.2
  obtain ⟨hsize, h2⟩ := first_dash (hcons (by decide) hn) (hcons (by decide) hn') h1
  obtain ⟨hindex, h3⟩ := first_dash (hcons (by decide) (dash_toDigits _))
    (hcons (by decide) (dash_toDigits _)) h2
  obtain ⟨hname, h4⟩ := last_dash (hcons (by decide) (dash_paddedDigits trial))
    (hcons (by decide) (dash_paddedDigits trial')) h3
  exact ⟨String.toList_inj.mp hworkload, String.toList_inj.mp (List.cons.inj hsize).2,
    toDigits_inj (List.cons.inj hindex).2, String.toList_inj.mp hname,
    paddedDigits_inj (List.cons.inj h4).2⟩

end Tags

/-! ## Jobs of cells -/

section Jobs

variable {mode : String} {trials : ScheduledJob → ℕ} {seed : ℕ}
  {shuffle : String → List ScheduledJob → List ScheduledJob} {cells : List ListedCell}
  {cell : ListedCell} {names : List String} {name : String} {selected : Option (List String)}
  {job job' : ScheduledJob}

theorem jobAt_eq_some (h : jobAt cells cell name = some job) : job.toListedCell = cell ∧
    job.name = name ∧ job.variantIndex = (variantsAt cells cell).idxOf cell.variant := by
  unfold jobAt at h
  split_ifs at h
  cases h
  exact ⟨rfl, rfl, rfl⟩

theorem mem_buildJobs : job ∈ buildJobs cells names selected ↔ ∃ cell ∈ cells,
    (∀ workloads ∈ selected, cell.workload ∈ workloads) ∧
      ∃ name ∈ names, jobAt cells cell name = some job := by
  unfold buildJobs
  simp only [List.mem_flatMap, Option.all_eq_true, decide_eq_true_eq]
  refine exists_congr fun cell => and_congr_right fun _ => ?_
  split_ifs with h
  · rw [List.mem_filterMap]
    exact (and_iff_right h).symm
  · exact iff_of_false List.not_mem_nil fun hc => h hc.1

/-- What a process is told of its cell. -/
def ListedCell.key (cell : ListedCell) : String × String × String :=
  (cell.workload, cell.n, cell.variant)

theorem buildJobs_keys (hcells : (cells.map ListedCell.key).Nodup) (hnames : names.Nodup) :
    ((buildJobs cells names selected).map ScheduledJob.key).Nodup := by
  refine Effect.nodup_map_flatMap (r := fun key => (key.1, key.2.1, key.2.2.1)) hcells
    (fun cell _ job hjob => ?_) fun cell _ => ?_
  · split_ifs at hjob
    · obtain ⟨name, -, hjob⟩ := List.mem_filterMap.mp hjob
      rw [← (jobAt_eq_some hjob).1]
      rfl
    · exact absurd hjob List.not_mem_nil
  · split_ifs
    · rw [List.map_filterMap]
      refine hnames.filterMap fun name name' key hkey hkey' => ?_
      obtain ⟨job, hjob, rfl⟩ := Option.map_eq_some_iff.mp hkey
      obtain ⟨job', hjob', heq⟩ := Option.map_eq_some_iff.mp hkey'
      rw [← (jobAt_eq_some hjob).2.1, ← (jobAt_eq_some hjob').2.1]
      exact congrArg (fun key => key.2.2.2) heq.symm
    · exact List.nodup_nil

/-- The index of a variant tells it apart at its workload and size. -/
theorem variantIndex_inj (hjob : job ∈ buildJobs cells names selected)
    (hjob' : job' ∈ buildJobs cells names selected) (hworkload : job.workload = job'.workload)
    (hn : job.n = job'.n) (hindex : job.variantIndex = job'.variantIndex) :
    job.variant = job'.variant := by
  obtain ⟨cell, hcell, -, name, -, h⟩ := mem_buildJobs.mp hjob
  obtain ⟨cell', hcell', -, name', -, h'⟩ := mem_buildJobs.mp hjob'
  obtain ⟨rfl, -, hi⟩ := jobAt_eq_some h
  obtain ⟨rfl, -, hi'⟩ := jobAt_eq_some h'
  have hsame : variantsAt cells job'.toListedCell = variantsAt cells job.toListedCell := by
    unfold variantsAt
    rw [hworkload, hn]
  have hmem : job.variant ∈ variantsAt cells job.toListedCell :=
    List.mem_map_of_mem (List.mem_filter.mpr ⟨hcell, decide_eq_true ⟨rfl, rfl⟩⟩)
  rw [hi, hi', hsame] at hindex
  exact (List.idxOf_inj hmem).mp hindex

theorem mem_scheduleFrom {jobs : List ScheduledJob} {row : ScheduleRow} {ts : List ℕ}
    {sequence : ℕ} (h : row ∈ scheduleFrom mode trials shuffle seed jobs ts sequence) :
    ∃ trial start, row ∈ blockRows mode trials trial start
      (blockOf trials shuffle seed jobs trial) := by
  induction ts generalizing sequence with
  | nil => exact absurd h List.not_mem_nil
  | cons trial ts ih =>
    rw [scheduleFrom, List.mem_append] at h
    rcases h with h | h
    · exact ⟨trial, sequence, h⟩
    · exact ih h

theorem mem_buildSchedule (hshuffle : ShufflesJobs shuffle) {jobs : List ScheduledJob}
    {row : ScheduleRow} (h : row ∈ buildSchedule mode trials shuffle seed jobs) :
    ∃ job ∈ jobs, ∃ trial position sequence, trial < trials job ∧
      row = scheduleRow mode trials trial position sequence job := by
  obtain ⟨trial, start, hrow⟩ := mem_scheduleFrom h
  obtain ⟨entry, hentry, rfl⟩ := List.mem_map.mp hrow
  obtain ⟨hjob, htrial⟩ := (mem_blockOf hshuffle).mp (List.fst_mem_of_mem_zipIdx hentry)
  exact ⟨entry.1, hjob, trial, entry.2, start + entry.2, htrial, rfl⟩

/-- **Tags** tell the processes apart. -/
theorem tags_nodup (hcells : (cells.map ListedCell.key).Nodup) (hnames : names.Nodup)
    (hdashes : ∀ cell ∈ cells, '-' ∉ cell.workload.toList ∧ '-' ∉ cell.n.toList)
    (hshuffle : ShufflesJobs shuffle) :
    ((buildSchedule mode trials shuffle seed (buildJobs cells names selected)).map
      ScheduleRow.tag).Nodup := by
  have hkeys : ((buildSchedule mode trials shuffle seed (buildJobs cells names selected)).map
      fun row => (row.key, row.trial)).Nodup :=
    buildSchedule_keys (buildJobs_keys hcells hnames) hshuffle
  refine hkeys.of_map.map_on fun row hrow row' hrow' htag => ?_
  refine List.inj_on_of_nodup_map hkeys hrow hrow' ?_
  obtain ⟨job, hjob, trial, position, sequence, -, rfl⟩ := mem_buildSchedule hshuffle hrow
  obtain ⟨job', hjob', trial', position', sequence', -, rfl⟩ := mem_buildSchedule hshuffle hrow'
  have hdash : ∀ {job}, job ∈ buildJobs cells names selected →
      '-' ∉ job.workload.toList ∧ '-' ∉ job.n.toList := fun hjob => by
    obtain ⟨cell, hcell, -, name, -, h⟩ := mem_buildJobs.mp hjob
    rw [← (jobAt_eq_some h).1] at hcell
    exact hdashes _ hcell
  obtain ⟨hworkload, hn, hindex, hname, rfl⟩ := tag_inj (hdash hjob).1 (hdash hjob').1
    (hdash hjob).2 (hdash hjob').2 htag
  have hvariant := variantIndex_inj hjob hjob' hworkload hn hindex
  refine Prod.ext ?_ rfl
  exact Prod.ext hworkload (Prod.ext hn (Prod.ext hvariant hname))

end Jobs

/-! ## The cells of the benchmark -/

section Benchmark

variable {G D : Type} {platform : Platform D} {original : FrozenWorkload D} {size : ℕ}
  {cell : ListedCell}

variable (platform) in
theorem workloads_ids_nodup : ((workloads platform).map FrozenWorkload.id).Nodup := by
  show ["W1", "W2", "W3", "W4", "W5", "W6", "W7", "W8", "W9", "W10", "W11", "W12"].Nodup
  decide

theorem workloads_dashes (h : original ∈ workloads platform) : '-' ∉ original.id.toList := by
  simp only [workloads, List.mem_cons, List.not_mem_nil, or_false] at h
  rcases h with rfl | rfl | rfl | rfl | rfl | rfl | rfl | rfl | rfl | rfl | rfl | rfl <;>
    simp [frozen]

theorem workloads_bars (h : original ∈ workloads platform) : '|' ∉ original.id.toList := by
  simp only [workloads, List.mem_cons, List.not_mem_nil, or_false] at h
  rcases h with rfl | rfl | rfl | rfl | rfl | rfl | rfl | rfl | rfl | rfl | rfl | rfl <;>
    simp [frozen]

theorem mem_listCells : cell ∈ listCells platform ↔ ∃ original ∈ workloads platform,
    ∃ size ∈ original.sizes, ∃ variant ∈ original.variants,
      cell = ⟨original.id, toString size, axisName original.axis, platform.text variant⟩ := by
  unfold listCells
  simp only [List.mem_flatMap, List.mem_map, eq_comm]

variable (platform) in
/-- The texts of the variants of a workload differ. -/
def SpellsVariants : Prop :=
  ∀ original ∈ workloads platform, (original.variants.map platform.text).Nodup

theorem listCells_keys (htext : SpellsVariants platform) :
    ((listCells platform).map ListedCell.key).Nodup := by
  refine Effect.nodup_map_flatMap (r := fun key => key.1) (workloads_ids_nodup platform)
    (fun original _ cell hcell => ?_) fun original horiginal => ?_
  · obtain ⟨size, -, hcell⟩ := List.mem_flatMap.mp hcell
    obtain ⟨variant, -, rfl⟩ := List.mem_map.mp hcell
    rfl
  refine Effect.nodup_map_flatMap (r := fun key => key.2.1) (n := toString) ?_
    (fun size _ cell hcell => ?_) fun size _ => ?_
  · exact (Process.workloads_sizes platform horiginal).2.1.map fun _ _ => Process.toString_inj
  · obtain ⟨variant, -, rfl⟩ := List.mem_map.mp hcell
    rfl
  · rw [List.map_map]
    have hpairs := (htext original horiginal).map
      (f := fun text => (original.id, toString size, text)) fun _ _ h => (Prod.mk.inj (Prod.mk.inj h).2).2
    rwa [List.map_map] at hpairs

theorem listCells_dashes : ∀ cell ∈ listCells platform,
    '-' ∉ cell.workload.toList ∧ '-' ∉ cell.n.toList := by
  intro cell hcell
  obtain ⟨original, horiginal, size, -, variant, -, rfl⟩ := mem_listCells.mp hcell
  refine ⟨workloads_dashes horiginal, ?_⟩
  rw [Nat.toString_eq_repr, Nat.toList_repr]
  exact dash_toDigits size

/-- Rounds that have no entry can be left out. -/
theorem filter_flatMap_eq {α β : Type} {l : List α} {f : α → List β} {p : β → Bool} {a : α}
    (hl : l.Nodup) (ha : a ∈ l) (h : ∀ b ∈ l, b ≠ a → (f b).filter p = []) :
    (l.flatMap f).filter p = (f a).filter p := by
  induction l with
  | nil => exact absurd ha List.not_mem_nil
  | cons b l ih =>
    obtain ⟨hb, hl⟩ := List.nodup_cons.mp hl
    rw [List.flatMap_cons, List.filter_append]
    by_cases heq : b = a
    · subst heq
      have hrest : (l.flatMap f).filter p = [] := by
        rw [List.filter_flatMap, List.flatMap_eq_nil_iff]
        exact fun c hc => h c (List.mem_cons_of_mem _ hc) fun hcb => hb (hcb ▸ hc)
      rw [hrest, List.append_nil]
    · rw [h b List.mem_cons_self heq, List.nil_append]
      exact ih hl ((List.mem_cons.mp ha).resolve_left fun hab => heq hab.symm)
        fun c hc => h c (List.mem_cons_of_mem _ hc)

/-- The variants at a size are those of the workload. -/
theorem variantsAt_listCells (horiginal : original ∈ workloads platform)
    (hsize : size ∈ original.sizes) (hworkload : cell.workload = original.id)
    (hn : cell.n = toString size) :
    variantsAt (listCells platform) cell = original.variants.map platform.text := by
  unfold variantsAt listCells
  rw [filter_flatMap_eq (List.Nodup.of_map _ (workloads_ids_nodup platform)) horiginal,
    filter_flatMap_eq (Process.workloads_sizes platform horiginal).2.1 hsize, List.filter_eq_self.mpr,
    List.map_map]
  · rfl
  · intro other hother
    obtain ⟨variant, -, rfl⟩ := List.mem_map.mp hother
    exact decide_eq_true ⟨hworkload.symm, hn.symm⟩
  · intro size' _ hne
    rw [List.filter_eq_nil_iff]
    intro other hother hsame
    obtain ⟨variant, -, rfl⟩ := List.mem_map.mp hother
    exact hne (Process.toString_inj ((of_decide_eq_true hsame).2.trans hn))
  · intro original' horiginal' hne
    rw [List.filter_eq_nil_iff]
    intro other hother hsame
    obtain ⟨size', -, hother⟩ := List.mem_flatMap.mp hother
    obtain ⟨variant, -, rfl⟩ := List.mem_map.mp hother
    exact hne (List.inj_on_of_nodup_map (workloads_ids_nodup platform) horiginal' horiginal
      ((of_decide_eq_true hsame).1.trans hworkload))

/-- The checkpoint interval is swept under its own column. -/
theorem axisName_k (axis : VariantAxis) : axisName axis = "k" ↔ axis = .checkpointInterval := by
  cases axis <;> decide

/-- `STRUCTURES`. -/
def scheduledStructures : List String :=
  ["lazy", "persistent", "copy-on-push", "full-copy", "point-only", "checkpointing", "buffered",
    "fat-node", "external"]

namespace Process

variable {P : Process G D} {variant : D} {selected : Option (List String)}

variable (P) in
/-- A variant is equal to itself only, and so is its text. -/
structure Spells : Prop where
  text : SpellsVariants P.platform
  equal : ∀ original ∈ workloads P.platform, ∀ x ∈ original.variants, ∀ y ∈ original.variants,
    P.platform.equal x y = true ↔ x = y

/-- The first variant by its text is the first of the workload. -/
theorem first_variant (hspells : P.Spells) (horiginal : original ∈ workloads P.platform)
    (hvariant : variant ∈ original.variants) :
    some (P.platform.text variant) = (original.variants.map P.platform.text).head? ↔
      P.platform.equal variant (original.variants.headD variant) = true := by
  have htext := hspells.text original horiginal
  have hequal := hspells.equal original horiginal variant hvariant
  rcases hvariants : original.variants with _ | ⟨first, others⟩
  · rw [hvariants] at hvariant
    exact absurd hvariant List.not_mem_nil
  rw [hvariants] at htext hvariant hequal
  rw [List.map_cons, List.head?_cons, List.headD_cons, hequal first List.mem_cons_self,
    Option.some.injEq]
  exact ⟨fun h => List.inj_on_of_nodup_map htext hvariant List.mem_cons_self h, fun h => h ▸ rfl⟩

/-- A structure has a job in a cell just when the runner gives it one. -/
theorem jobAt_isSome (hspells : P.Spells) (hall : P.options.structureFilter = "all")
    (horiginal : original ∈ workloads P.platform) (hsize : size ∈ original.sizes)
    (hvariant : variant ∈ original.variants) (interval : ℕ) (subject : Structure) :
    (jobAt (listCells P.platform) ⟨original.id, toString size, axisName original.axis,
      P.platform.text variant⟩ subject.name).isSome =
        (P.jobOf original interval variant subject).isSome := by
  have hfilter : ¬ (P.options.structureFilter ≠ "all" ∧
      P.options.structureFilter ≠ subject.name) := fun h => h.1 hall
  unfold jobAt jobOf
  rw [variantsAt_listCells horiginal hsize rfl rfl, if_neg hfilter]
  simp only [axisName_k, ne_eq, first_variant hspells horiginal hvariant]
  by_cases haxis : original.axis = .checkpointInterval
  · by_cases hname : subject.name = "checkpointing"
    · rw [if_neg fun h => h.2.1 hname, if_pos haxis, if_neg (not_not.mpr hname)]
      rfl
    · rw [if_pos haxis, if_pos hname]
      by_cases hfirst : P.platform.equal variant (original.variants.headD variant) = true
      · rw [if_neg fun h => h.2.2 hfirst, if_pos hfirst]
        rfl
      · rw [if_pos ⟨haxis, hname, hfirst⟩, if_neg hfirst]
        rfl
  · rw [if_neg fun h => haxis h.1, if_neg haxis]
    rfl

/-- **The jobs** are those of the runner: a trial is scheduled in its own process just when one
process would have run it. -/
theorem jobs_mirror (hspells : P.Spells) (hall : P.options.structureFilter = "all")
    (key : String × String × String × String) :
    (∃ job ∈ buildJobs (listCells P.platform) (P.table.map Structure.name) selected,
      job.key = key) ↔
    ∃ original ∈ workloads P.platform, (∀ ids ∈ selected, original.id ∈ ids) ∧
      ∃ size ∈ original.sizes, ∃ variant ∈ original.variants,
        ∃ job ∈ P.jobsOf original size variant,
          key = (original.id, toString size, P.platform.text variant, job.subject.name) := by
  constructor
  · rintro ⟨job, hjob, rfl⟩
    obtain ⟨cell, hcell, hselected, name, hname, hat⟩ := mem_buildJobs.mp hjob
    obtain ⟨original, horiginal, size, hsize, variant, hvariant, rfl⟩ := mem_listCells.mp hcell
    obtain ⟨subject, hsubject, rfl⟩ := List.mem_map.mp hname
    have hsome := jobAt_isSome hspells hall horiginal hsize hvariant
      (balancedInterval P.platform size) subject
    rw [hat] at hsome
    obtain ⟨runner, hrunner⟩ := Option.isSome_iff_exists.mp hsome.symm
    refine ⟨original, horiginal, hselected, size, hsize, variant, hvariant, runner,
      List.mem_filterMap.mpr ⟨subject, hsubject, hrunner⟩, ?_⟩
    unfold ScheduledJob.key
    rw [(jobAt_eq_some hat).1, (jobAt_eq_some hat).2.1, (jobOf_eq_some hrunner).1]
  · rintro ⟨original, horiginal, hselected, size, hsize, variant, hvariant, runner, hrunner, rfl⟩
    obtain ⟨subject, hsubject, hrunner⟩ := List.mem_filterMap.mp hrunner
    have hsome := jobAt_isSome hspells hall horiginal hsize hvariant
      (balancedInterval P.platform size) subject
    rw [hrunner] at hsome
    obtain ⟨job, hjob⟩ := Option.isSome_iff_exists.mp hsome
    refine ⟨job, mem_buildJobs.mpr ⟨_, mem_listCells.mpr ⟨original, horiginal, size, hsize,
      variant, hvariant, rfl⟩, hselected, _, List.mem_map_of_mem hsubject, hjob⟩, ?_⟩
    unfold ScheduledJob.key
    rw [(jobAt_eq_some hjob).1, (jobAt_eq_some hjob).2.1, (jobOf_eq_some hrunner).1]

theorem exactPlatform_spells : SpellsVariants exactPlatform := by
  unfold SpellsVariants
  decide +kernel

theorem mixedProcess_spells (table : List Structure) : (mixedProcess table).Spells :=
  ⟨exactPlatform_spells, fun _ _ _ _ _ _ => decide_eq_true_iff⟩

/-- The sweep of the checkpoint interval. -/
theorem jobs_mirror_sweep : ∃ job ∈ buildJobs (listCells exactPlatform) scheduledStructures none,
    job.key = ("W7", "10000", "16.000000", "checkpointing") := by
  have hjobs : ((mixedProcess (structures true)).jobsOf (workloads exactPlatform)[6] 10000 16).any
      (fun job => job.subject.name = "checkpointing") = true := by decide +kernel
  obtain ⟨job, hjob, hname⟩ := List.any_eq_true.mp hjobs
  have hname : job.subject.name = "checkpointing" := of_decide_eq_true hname
  have hkey : ("W7", "10000", "16.000000", "checkpointing") =
      ((workloads exactPlatform)[6].id, toString 10000, exactPlatform.text 16, job.subject.name) := by
    rw [hname]
    decide +kernel
  exact (jobs_mirror (mixedProcess_spells (structures true)) rfl _).mpr
    ⟨(workloads exactPlatform)[6], List.getElem_mem _, fun _ h => (nomatch h), 10000,
      by decide +kernel, 16, by decide +kernel, job, hjob, hkey⟩

end Process

end Benchmark

end Bench

end Valseg
