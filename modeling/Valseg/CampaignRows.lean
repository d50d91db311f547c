import Valseg.CampaignChecks

/-!
# The rows of a campaign

The rows are the planned trials in the order of the loops, each at most once. A planned trial has
no row only after the memory cap was reached often enough by its structure in its cell
(`rows_complete`).
-/

namespace Valseg

namespace Bench

/-- The trial a row is of. -/
def Row.tag (row : Row) : Label × ℕ := (row.label, row.trial)

/-- The trials of a structure in a cell that reached the cap. -/
def cappedRows (runs : List Row) (key : String) : ℕ :=
  (runs.filter fun row => row.result.status = .memoryCap ∧ cellKey row.label = key).length

namespace Process

open Effect (Steps pointsAfter)

variable {G D : Type} {P : Process G D} {s t : Campaign} {visit b : Visit D} {code : ℕ}

variable (P) in
/-- The trial a visit is of. -/
def tagOf (visit : Visit D) : Label × ℕ := (P.labelOf visit, P.options.trial visit.attempt)

variable (P) in
/-- The visits of recorded trials. -/
def recordedVisits : List (Visit D) :=
  P.visits.filter fun visit => P.options.Records visit.attempt

/-! ## Visits differ -/

section Loops

variable {workload original : FrozenWorkload D} {size attempt : ℕ} {initial : List ValueType}
  {variant : D}

theorem of_variantVisits (hshuffle : P.Permutes)
    (h : b ∈ P.variantVisits workload size attempt initial variant) :
    (b.workload = workload ∧ b.size = size ∧ b.attempt = attempt) ∧ b.job.variant = variant := by
  unfold variantVisits at h
  split_ifs at h
  · exact absurd h List.not_mem_nil
  · exact absurd h List.not_mem_nil
  obtain ⟨stream, -, h⟩ := mem_pointsAfter.mp h
  obtain ⟨entry, hentry, h⟩ := List.mem_flatMap.mp h
  obtain rfl := List.mem_singleton.mp h
  have hjob := (orderedJobs_perm hshuffle _ size attempt variant).mem_iff.mp
    (List.fst_mem_of_mem_zipIdx hentry)
  exact ⟨⟨rfl, rfl, rfl⟩, (mem_jobsOf hjob).2⟩

theorem of_attemptVisits (hshuffle : P.Permutes) (h : b ∈ P.attemptVisits workload size attempt) :
    b.workload = workload ∧ b.size = size ∧ b.attempt = attempt := by
  unfold attemptVisits at h
  split_ifs at h
  · exact absurd h List.not_mem_nil
  obtain ⟨initial, -, h⟩ := mem_pointsAfter.mp h
  obtain ⟨variant, -, h⟩ := List.mem_flatMap.mp h
  exact (of_variantVisits hshuffle h).1

theorem of_sizeVisits (hshuffle : P.Permutes) (h : b ∈ P.sizeVisits workload size) :
    b.workload = workload ∧ b.size = size := by
  unfold sizeVisits at h
  split_ifs at h
  · exact absurd h List.not_mem_nil
  obtain ⟨attempt, -, h⟩ := List.mem_flatMap.mp h
  have key := of_attemptVisits hshuffle h
  exact ⟨key.1, key.2.1⟩

theorem of_workloadVisits (hshuffle : P.Permutes) (h : b ∈ P.workloadVisits original) :
    b.workload = P.scaled original := by
  unfold workloadVisits at h
  split_ifs at h
  · obtain ⟨size, -, h⟩ := List.mem_flatMap.mp h
    exact (of_sizeVisits hshuffle h).1
  · exact absurd h List.not_mem_nil

/-- The jobs of an attempt are of different structures. -/
theorem orderedJobs_names (hshuffle : P.Permutes) (hnames : (P.table.map Structure.name).Nodup) :
    ((P.orderedJobs workload size attempt variant).map fun job => job.subject.name).Nodup := by
  have hperm := (orderedJobs_perm hshuffle workload size attempt variant).map
    fun job => job.subject.name
  refine hperm.nodup_iff.mpr (hnames.sublist ?_)
  unfold jobsOf
  -- a job is of the structure it was made for
  generalize P.table = table
  induction table with
  | nil => exact .slnil
  | cons subject table ih =>
    rw [List.filterMap_cons, List.map_cons]
    rcases hjob : P.jobOf workload (balancedInterval P.platform size) variant subject with _ | job
    · exact ih.cons _
    · rw [List.map_cons, (jobOf_eq_some hjob).1]
      exact ih.cons_cons _

/-- The sizes of a planned workload differ. -/
theorem scaled_sizes (hplan : original ∈ P.plan) : (P.scaled original).sizes.Nodup := by
  unfold scaled
  split_ifs
  · exact List.nodup_singleton 256
  unfold plan at hplan
  rcases List.mem_append.mp hplan with horiginal | htrace
  · exact (workloads_sizes P.platform horiginal).2.1
  · rcases hsome : P.trace with _ | trace
    · rw [hsome] at htrace
      exact absurd htrace List.not_mem_nil
    · rw [hsome] at htrace
      obtain rfl := List.mem_singleton.mp (show original ∈ [_] from htrace)
      exact List.nodup_singleton trace.2

/-- **The visits** differ in their label or in their attempt. -/
theorem visits_nodup (hshuffle : P.Permutes) (hnames : (P.table.map Structure.name).Nodup)
    (hnamed : P.Named) : (P.visits.map fun v => (P.labelOf v, v.attempt)).Nodup := by
  refine Effect.nodup_map_flatMap (r := fun tag => tag.1.workload) (n := FrozenWorkload.id)
    hnamed.ids (fun original _ v hv => ?_) fun original hplan => ?_
  · unfold labelOf
    rw [of_workloadVisits hshuffle hv]
    exact scaled_id original
  unfold workloadVisits
  split_ifs
  swap
  · exact List.nodup_nil
  refine Effect.nodup_map_flatMap (r := fun tag => tag.1.n) (n := id)
    (by rw [List.map_id]; exact scaled_sizes hplan)
    (fun size _ v hv => (of_sizeVisits hshuffle hv).2) fun size _ => ?_
  unfold sizeVisits
  split_ifs
  · exact List.nodup_nil
  refine Effect.nodup_map_flatMap (r := fun tag => tag.2) (n := id)
    (by rw [List.map_id]; exact List.nodup_range)
    (fun attempt _ v hv => (of_attemptVisits hshuffle hv).2.2) fun attempt _ => ?_
  unfold attemptVisits
  split_ifs
  · exact List.nodup_nil
  refine Effect.nodup_pointsAfter fun initial _ => ?_
  refine Effect.nodup_map_flatMap (r := fun tag => tag.1.variant) (n := P.platform.text)
    (hnamed.variants original hplan) (fun variant _ v hv => ?_) fun variant _ => ?_
  · unfold labelOf
    rw [(of_variantVisits hshuffle hv).2]
  unfold variantVisits
  split_ifs
  · exact List.nodup_nil
  · exact List.nodup_nil
  refine Effect.nodup_pointsAfter fun stream _ => ?_
  refine Effect.nodup_map_flatMap (r := fun tag => tag.1.name)
    (n := fun entry => entry.1.subject.name) ?_ (fun entry _ v hv => ?_) fun entry _ => ?_
  · show (List.map ((fun job : Job D => job.subject.name) ∘ Prod.fst) _).Nodup
    rw [← List.map_map, List.zipIdx_map_fst]
    exact orderedJobs_names hshuffle hnames
  · obtain rfl := List.mem_singleton.mp hv
    rfl
  · exact List.nodup_singleton _

/-- The recorded trials are different trials. -/
theorem recordedVisits_nodup (hshuffle : P.Permutes)
    (hnames : (P.table.map Structure.name).Nodup) (hnamed : P.Named) :
    (P.recordedVisits.map P.tagOf).Nodup := by
  have hvisits := visits_nodup hshuffle hnames hnamed
  refine (hvisits.of_map _).filter _ |>.map_on fun v hv w hw heq => ?_
  obtain ⟨hv, hrv⟩ := List.mem_filter.mp hv
  obtain ⟨hw, hrw⟩ := List.mem_filter.mp hw
  have hrv := of_decide_eq_true hrv
  have hrw := of_decide_eq_true hrw
  refine List.inj_on_of_nodup_map hvisits hv hw ?_
  unfold tagOf Options.trial at heq
  rw [if_pos hrv, if_pos hrw, Prod.mk.injEq] at heq
  unfold Options.Records at hrv hrw
  rw [Prod.mk.injEq]
  exact ⟨heq.1, by omega⟩

end Loops

/-! ## Rows -/

/-- **Rows** are recorded trials, in the order of the visits. -/
theorem rows_sublist {visits : List (Visit D)} (hsteps : Steps P.Measures visits s t) :
    ∃ rows, t.runs = s.runs ++ rows ∧ (rows.map Row.tag).Sublist
      ((visits.filter fun v => P.options.Records v.attempt).map P.tagOf) := by
  induction hsteps with
  | nil s => exact ⟨[], (List.append_nil _).symm, .slnil⟩
  | @cons v visits s t u hstep hsteps ih =>
    obtain ⟨rows, hruns, hsub⟩ := ih
    have hskip : (rows.map Row.tag).Sublist
        (((v :: visits).filter fun v => P.options.Records v.attempt).map P.tagOf) :=
      hsub.trans (((List.sublist_cons_self v visits).filter _).map _)
    rcases measure_cases hstep with ⟨-, -, rfl⟩ | ⟨-, r, rfl⟩ |
      ⟨hrecords, -, batchNs, result, r, r', r'', -, rfl⟩
    · exact ⟨rows, hruns, hskip⟩
    · exact ⟨rows, hruns, hskip⟩
    · refine ⟨P.rowOf v batchNs result :: rows, ?_, ?_⟩
      · rw [hruns, record_runs, List.append_assoc, List.singleton_append]
      · rw [List.filter_cons_of_pos (by exact decide_eq_true hrecords), List.map_cons, List.map_cons]
        exact hsub.cons_cons _

theorem cappedRows_append (runs : List Row) (row : Row) (key : String) :
    cappedRows (runs ++ [row]) key = cappedRows runs key +
      if row.result.status = .memoryCap ∧ cellKey row.label = key then 1 else 0 := by
  unfold cappedRows
  rw [List.filter_append, List.length_append]
  congr 1
  split_ifs with h
  · rw [List.filter_cons_of_pos (by exact decide_eq_true h)]
    rfl
  · rw [List.filter_cons_of_neg (by exact fun hc => h (of_decide_eq_true hc))]
    rfl

variable (P) in
/-- The counts are those of the rows, and no trial is measured past the limit. -/
def Counted (s : Campaign) : Prop :=
  ∀ key, s.cappedSeen key = cappedRows s.runs key ∧
    cappedRows s.runs key ≤ P.options.cappedTrials

theorem Counted.record {batchNs : ℤ} {result : TrialResult} (h : P.Counted s)
    (hlt : s.cappedSeen (cellKey (P.labelOf visit)) < P.options.cappedTrials) :
    P.Counted (P.record visit batchNs result s) := by
  intro key
  obtain ⟨hseen, hle⟩ := h key
  rw [record_runs, cappedRows_append, record_cappedSeen]
  have hrow : cellKey (P.rowOf visit batchNs result).label = cellKey (P.labelOf visit) := rfl
  have hstatus : (P.rowOf visit batchNs result).result.status = result.status := rfl
  rw [hrow, hstatus]
  by_cases hcap : result.status = .memoryCap
  · rw [if_pos hcap]
    by_cases hkey : cellKey (P.labelOf visit) = key
    · subst hkey
      rw [if_pos ⟨hcap, rfl⟩, Function.update_self]
      omega
    · rw [if_neg fun hc => hkey hc.2, Function.update_of_ne (Ne.symm hkey)]
      exact ⟨hseen, hle⟩
  · rw [if_neg hcap, if_neg fun hc => hcap hc.1]
    exact ⟨hseen, hle⟩

/-- **Counts** through the visits. -/
theorem counted_step (hstep : P.Measures visit s t) (h : P.Counted s) : P.Counted t := by
  rcases measure_cases hstep with ⟨-, -, rfl⟩ | ⟨-, r, rfl⟩ |
    ⟨-, hlt, batchNs, result, r, r', r'', -, rfl⟩
  · exact h
  · exact h
  · exact Counted.record (s := { s with readings := r'' }) h hlt

variable (P) in
/-- A recorded trial has a row, or its structure reached the cap often enough in its cell. -/
def Settled (visit : Visit D) (s : Campaign) : Prop :=
  P.options.Records visit.attempt → (∃ row ∈ s.runs, row.tag = P.tagOf visit) ∨
    P.options.cappedTrials ≤ cappedRows s.runs (cellKey (P.labelOf visit))

theorem settled_of_step (hstep : P.Measures visit s t) (h : P.Counted s) : P.Settled visit t := by
  intro hrecords
  rcases measure_cases hstep with ⟨-, hcap, rfl⟩ | ⟨hnot, -⟩ |
    ⟨-, -, batchNs, result, r, r', r'', -, rfl⟩
  · exact .inr ((h _).1 ▸ hcap)
  · exact absurd hrecords hnot
  · refine .inl ⟨P.rowOf visit batchNs result, ?_, rfl⟩
    rw [record_runs]
    exact List.mem_append_right _ List.mem_cons_self

theorem Settled.step {v : Visit D} (hsettled : P.Settled visit s) (hstep : P.Measures v s t) :
    P.Settled visit t := by
  intro hrecords
  have hgrow : ∃ rows, t.runs = s.runs ++ rows := by
    obtain ⟨rows, hruns, -⟩ := rows_sublist (Steps.one hstep)
    exact ⟨rows, hruns⟩
  obtain ⟨rows, hruns⟩ := hgrow
  rcases hsettled hrecords with ⟨row, hrow, htag⟩ | hcap
  · exact .inl ⟨row, hruns ▸ List.mem_append_left _ hrow, htag⟩
  · refine .inr (hcap.trans ?_)
    unfold cappedRows
    rw [hruns, List.filter_append, List.length_append]
    exact Nat.le_add_right _ _

/-- The rows are recorded visits in the order of the loops. -/
theorem rows_ordered (h : P.run {} = .ok code s) :
    (s.runs.map Row.tag).Sublist (P.recordedVisits.map P.tagOf) := by
  obtain ⟨rows, hruns, hsub⟩ := rows_sublist (run_steps h).1
  rw [List.nil_append] at hruns
  exact hruns ▸ hsub

theorem counted_start : P.Counted {} := fun _ => ⟨rfl, Nat.zero_le _⟩

theorem rows_counted (h : P.run {} = .ok code s) : P.Counted s :=
  (run_steps h).1.invariant (fun _ _ _ _ hstep hs => counted_step hstep hs) counted_start

/-- A recorded trial that is planned has a row, or comes after the cap. -/
theorem rows_settled (hshuffle : P.Permutes) (h : P.run {} = .ok code s) (hplanned : P.Planned visit)
    (hrecords : P.options.Records visit.attempt) : (∃ row ∈ s.runs, row.tag = P.tagOf visit) ∨
      cappedRows s.runs (cellKey (P.labelOf visit)) = P.options.cappedTrials := by
  have hsettled : ∀ v ∈ P.visits, P.Settled v s :=
    (run_steps h).1.each (I := P.Counted) (P := P.Settled)
      (fun v _ s t hstep hs => counted_step hstep hs)
      (fun v _ s t hstep hs => settled_of_step hstep hs)
      (fun v w _ s t hstep _ hs => hs.step hstep) counted_start
  obtain ⟨position, hmem⟩ := exists_mem_of_planned hshuffle hplanned
  rcases hsettled _ hmem hrecords with hrow | hcap
  · exact .inl hrow
  · exact .inr (Nat.le_antisymm (rows_counted h _).2 hcap)

/-- **The rows of a campaign** are planned trials in the order of the loops, each at most once. No
structure has more trials past the memory cap in a cell than the limit, and a planned trial without
a row comes after so many. -/
theorem rows_complete (hnames : (P.table.map Structure.name).Nodup) (hshuffle : P.Permutes)
    (hnamed : P.Named) (h : P.run {} = .ok code s) :
    (s.runs.map Row.tag).Sublist (P.recordedVisits.map P.tagOf) ∧
      (s.runs.map Row.tag).Nodup ∧
      (∀ key, cappedRows s.runs key ≤ P.options.cappedTrials) ∧
      ∀ visit, P.Planned visit → P.options.Records visit.attempt →
        (∃ row ∈ s.runs, row.tag = P.tagOf visit) ∨
          cappedRows s.runs (cellKey (P.labelOf visit)) = P.options.cappedTrials :=
  ⟨rows_ordered h, (recordedVisits_nodup hshuffle hnames hnamed).sublist (rows_ordered h),
    fun key => (rows_counted h key).2, fun _ => rows_settled hshuffle h⟩

/-- What a campaign leaves, next to its exit code. -/
theorem run_reading {α : Type} {f : Campaign → α} {a : α} (h : Effect.outcome ((do
    let code ← P.run
    return (code, f (← get))) {}) = .ok (code, a)) : ∃ s, P.run {} = .ok code s ∧ f s = a := by
  obtain ⟨s, hs⟩ := Effect.outcome_eq_ok.mp h
  obtain ⟨code', s', hrun, hrest⟩ := Effect.run_bind_eq_ok.mp hs
  rw [Effect.run_bind_ok (Effect.run_get s')] at hrest
  cases hrest
  exact ⟨s, hrun, rfl⟩

/-- No room at all, and one trial more than are measured without it. -/
def crampedProcess : Process UInt64 ℚ :=
  { mixedProcess [Structure.of "external" (fun _ => externalAdapter true) true] with
    options := { workloadFilter := "WT", trials := 3, warmup := 0, capMiB := 0 } }

theorem rows_complete_cramped : ∃ code s, crampedProcess.run {} = .ok code s ∧
    s.runs.map Row.trial = [0, 1] ∧ ∀ visit, crampedProcess.Planned visit → visit.attempt = 2 →
      cappedRows s.runs (cellKey (crampedProcess.labelOf visit)) = 2 := by
  obtain ⟨s, hrun, htrials⟩ := run_reading (P := crampedProcess)
    (f := fun s => s.runs.map Row.trial) (show _ = Except.ok (0, [0, 1]) by decide +kernel)
  have hnamed : crampedProcess.Named :=
    ⟨by decide +kernel, by decide +kernel, bar_decimals, by decide +kernel⟩
  obtain ⟨-, -, -, hsettled⟩ :=
    rows_complete (by decide) (fun _ _ => List.reverse_perm _) hnamed hrun
  refine ⟨0, s, hrun, htrials, fun visit hplanned hattempt => ?_⟩
  rcases hsettled visit hplanned (Nat.zero_le _) with ⟨row, hrow, htag⟩ | hcap
  · have htrial : row.trial = 2 := (congrArg Prod.snd htag).trans hattempt
    have hmem := List.mem_map_of_mem (f := Row.trial) hrow
    rw [htrials, htrial] at hmem
    exact absurd hmem (by decide)
  · exact hcap

end Process

end Bench

end Valseg
