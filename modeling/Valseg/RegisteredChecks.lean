import Valseg.FinishedTrials
import Valseg.StructuralRows

/-!
# Registered checks

Two checks of `bench/analysis/confirm.py` on the rows of fresh processes: `checksum_agreement`,
which takes the place of the comparison inside a process, and `h1_identities`, which compares the
records that four structures have stored with the ones that are predicted from the streams.

1. `checksums_agree`: on the nine structures no stream has two checksums.
2. `identities_exact`: no prediction is missed.
-/

namespace Valseg

namespace Bench

/-! ## The checks -/

/-- `checksum_agreement`: the streams that have more than one checksum. -/
def checksumAgreement (runs : List Row) : List StreamKey :=
  let historical := runs.filter fun row => row.label.name ≠ "lazy" ∧ row.result.status = .ok
  (historical.map Row.key).dedup.filter fun key =>
    1 < ((historical.filter fun row => row.key = key).map (·.result.checksum)).dedup.length

inductive AnalysisError
  | merge
  | registered (message : String)
  deriving DecidableEq, Repr

structure Identity where
  name : String
  rows : ℕ
  mismatches : ℕ
  exact : Bool
  deriving DecidableEq, Repr

/-- `H1_STRUCTURES`, with what is predicted of them. -/
def predictions : List (String × (StructuralRow → ℤ)) :=
  [("persistent", fun row => row.counts.updateVisits),
    ("copy-on-push", fun row => row.counts.updateVisits + 2 * row.counts.pushes),
    ("point-only", fun row => row.counts.intersecting),
    ("full-copy", fun row => (2 * row.key.n - 1) * row.counts.nonZeroUpdates)]

def eligible (runs : List Row) : List Row :=
  runs.filter fun row => row.result.status = .ok ∧ row.label.name ∈ predictions.map Prod.fst

/-- The row of a left join, where both sides have to be there. -/
def joinRow (structural : List StructuralRow) (row : Row) :
    Except AnalysisError (Row × StructuralRow) :=
  match structural.find? fun other => other.key = row.key with
  | some other => .ok (row, other)
  | none => .error (.registered "H1 is missing a complete run or structural-count row")

def measuredRecords (row : Row) : ℤ := row.result.nodes - row.result.buildNodes

def identityOf (merged : List (Row × StructuralRow)) (entry : String × (StructuralRow → ℤ)) :
    Except AnalysisError Identity :=
  let subset := merged.filter fun p => p.1.label.name = entry.1
  if subset = [] then .error (.registered ("H1 has no complete " ++ entry.1 ++ " trial"))
  else
    let mismatches := (subset.filter fun p => measuredRecords p.1 ≠ entry.2 p.2).length
    .ok ⟨entry.1, subset.length, mismatches, mismatches = 0⟩

/-- `h1_identities`. -/
def h1Identities (runs : List Row) (structural : List StructuralRow) :
    Except AnalysisError (List Identity) := do
  (if (structural.map StructuralRow.key).Nodup then .ok () else .error .merge)
  (if eligible runs = [] then
    .error (.registered "H1 is missing a complete run or structural-count row") else .ok ())
  let merged ← (eligible runs).mapM (joinRow structural)
  predictions.mapM (identityOf merged)

/-! ## Rows of fresh processes -/

theorem Options.SameStreams.across {D : Type} {o o₁ o₂ : Options D} (h₁ : o.SameStreams o₁)
    (h₂ : o.SameStreams o₂) : o₁.SameStreams o₂ :=
  ⟨h₂.seed.trans h₁.seed.symm, h₂.warmup.trans h₁.warmup.symm, h₂.smoke.trans h₁.smoke.symm,
    h₂.traceId.trans h₁.traceId.symm⟩

theorem structures_historical {leftFirst : Bool} {s : Structure} (hs : s ∈ structures leftFirst) :
    s.historical = true ↔ s.name ≠ "lazy" := by
  unfold structures at hs
  simp only [List.mem_append, List.mem_singleton, List.mem_map] at hs
  rcases hs with (rfl | ⟨which, -, rfl⟩) | rfl
  · decide
  · cases which <;> decide
  · exact iff_of_true rfl (show "external" ≠ "lazy" by decide)

/-- A list with two different entries. -/
theorem one_lt_length_dedup {l : List UInt64} :
    1 < l.dedup.length ↔ ∃ a ∈ l, ∃ b ∈ l, a ≠ b := by
  rw [← List.card_toFinset, Finset.one_lt_card]
  simp only [List.mem_toFinset]

theorem checksumAgreement_eq_nil {runs : List Row} : checksumAgreement runs = [] ↔
    ∀ row ∈ runs, ∀ row' ∈ runs, row.label.name ≠ "lazy" → row.result.status = .ok →
      row'.label.name ≠ "lazy" → row'.result.status = .ok → row.key = row'.key →
        row.result.checksum = row'.result.checksum := by
  unfold checksumAgreement
  simp only [List.filter_eq_nil_iff, List.mem_dedup, List.mem_map, decide_eq_true_eq,
    one_lt_length_dedup, List.mem_filter]
  constructor
  · intro h row hrow row' hrow' hname hstatus hname' hstatus' hkey
    by_contra hne
    exact h row.key ⟨row, ⟨hrow, hname, hstatus⟩, rfl⟩ ⟨_, ⟨row, ⟨⟨hrow, hname, hstatus⟩, rfl⟩, rfl⟩,
      _, ⟨row', ⟨⟨hrow', hname', hstatus'⟩, hkey.symm⟩, rfl⟩, hne⟩
  · rintro h _ - ⟨_, ⟨row, ⟨⟨hrow, hname, hstatus⟩, hkey⟩, rfl⟩, _,
      ⟨row', ⟨⟨hrow', hname', hstatus'⟩, hkey'⟩, rfl⟩, hne⟩
    exact hne (h row hrow row' hrow' hname hstatus hname' hstatus' (hkey.trans hkey'.symm))

namespace Process

variable {G D : Type} {P : Process G D} {row row' : Row} {leftFirst : Bool}

variable (P) in
/-- A row that some process of the campaign has written. -/
def Reported (row : Row) : Prop :=
  ∃ shuffle clock options code s, P.options.SameStreams options ∧
    (P.sibling shuffle clock options).Permutes ∧
      (P.sibling shuffle clock options).run {} = .ok code s ∧ row ∈ s.runs

variable (P) in
/-- A structural row that some process of the campaign has written. -/
def Counts (row : StructuralRow) : Prop :=
  ∃ shuffle clock options code rows, P.options.SameStreams options ∧
    (P.sibling shuffle clock options).runStructural [] = .ok code rows ∧ row ∈ rows

variable (P) in
/-- The external tree counts the elements and the versions in 32 bits, whatever is asked for. -/
structure FitsAll : Prop where
  trace : ∀ trace ∈ P.trace, trace.2 < 2 ^ 32 ∧ updateCount trace.1 < 2 ^ 32
  budgets : ∀ original ∈ workloads P.platform, ∀ variant ∈ (P.scaled original).variants,
    totalOperations P.platform.toFloatingPoint (P.scaled original).toWorkload variant < 2 ^ 32

section Siblings

variable {shuffle : UInt64 → List (Job D) → List (Job D)} {clock : ℕ → ℤ} {options : Options D}

theorem sibling_loads (ho : P.options.SameStreams options) (hloads : P.Loads) :
    (P.sibling shuffle clock options).Loads :=
  ⟨⟨hloads.loaded⟩, fun trace htrace hsmoke => hloads.smoke trace htrace (ho.smoke ▸ hsmoke)⟩

theorem sibling_keepsTrace (ho : P.options.SameStreams options) (hkeeps : P.KeepsTrace) :
    (P.sibling shuffle clock options).KeepsTrace := fun trace htrace =>
  ho.smoke.trans (hkeeps trace htrace)

theorem sibling_fits (ho : P.options.SameStreams options) (hfits : P.FitsAll) :
    (P.sibling shuffle clock options).Fits := by
  intro v hv
  obtain ⟨original, hplan, -, hscaled⟩ := hv.workload
  rw [sibling_plan ho] at hplan
  rw [sibling_scaled ho] at hscaled
  have hsize := hv.size
  have hstream : P.streamOf v.workload v.size v.job.variant (options.seedAt v.attempt) =
    .ok v.stream := hv.stream
  have hvariant := hv.variant
  rw [hscaled] at hsize hstream hvariant
  unfold streamOf at hstream
  rw [scaled_replayed] at hstream
  cases hreplayed : isReplayedTrace original with
  | true =>
    obtain ⟨trace, htrace, rfl⟩ := (isReplayedTrace_iff hplan).1 hreplayed
    obtain ⟨hn, hcount⟩ := hfits.trace trace htrace
    rw [if_pos hreplayed, Option.mem_def.mp htrace] at hstream
    rw [← show trace.1 = v.stream from Except.ok.inj hstream]
    refine ⟨?_, hcount⟩
    unfold scaled at hsize
    split_ifs at hsize
    · rw [List.mem_singleton.mp (show v.size ∈ [256] from hsize)]
      decide
    · rw [List.mem_singleton.mp (show v.size ∈ [trace.2] from hsize)]
      exact hn
  | false =>
    have horiginal := (isReplayedTrace_iff hplan).2 hreplayed
    obtain ⟨hpos, hmax⟩ := scaled_bounds horiginal hsize
    rw [if_neg (by rw [hreplayed]; exact Bool.false_ne_true)] at hstream
    have hlength := (generate_ok hpos (hmax.trans (by decide)) hstream).1
    have hbudget := hfits.budgets original horiginal v.job.variant hvariant
    have hle : updateCount v.stream ≤ v.stream.length := List.length_filter_le _ _
    exact ⟨by omega, by omega⟩

end Siblings

/-- A process reports the rows it writes. -/
theorem reported_self {code : ℕ} {s : Campaign} (hshuffle : P.Permutes)
    (h : P.run {} = .ok code s) : ∀ row ∈ s.runs, P.Reported row := fun _ hrow =>
  ⟨P.shuffle, P.clock, P.options, code, s, ⟨rfl, rfl, rfl, rfl⟩, hshuffle, h, hrow⟩

theorem counts_self {code : ℕ} {rows : List StructuralRow}
    (h : P.runStructural [] = .ok code rows) : ∀ other ∈ rows, P.Counts other := fun _ hother =>
  ⟨P.shuffle, P.clock, P.options, code, rows, ⟨rfl, rfl, rfl, rfl⟩, h, hother⟩

/-- **One key, one stream**, in whichever processes. -/
theorem same_key {shuffle₁ shuffle₂ : UInt64 → List (Job D) → List (Job D)} {clock₁ clock₂ : ℕ → ℤ}
    {o₁ o₂ : Options D} {v₁ v₂ : Visit D} (hnamed : P.Named) (ho₁ : P.options.SameStreams o₁)
    (ho₂ : P.options.SameStreams o₂) (hv₁ : (P.sibling shuffle₁ clock₁ o₁).Planned v₁)
    (hv₂ : (P.sibling shuffle₂ clock₂ o₂).Planned v₂)
    (hworkload : v₁.workload.id = v₂.workload.id) (hsize : v₁.size = v₂.size)
    (hvariant : P.platform.text v₁.job.variant = P.platform.text v₂.job.variant)
    (hseed : o₁.seedAt v₁.attempt = o₂.seedAt v₂.attempt) :
    v₁.initial = v₂.initial ∧ v₁.stream = v₂.stream := by
  obtain ⟨original₁, hplan₁, -, hscaled₁⟩ := hv₁.workload
  obtain ⟨original₂, hplan₂, -, hscaled₂⟩ := hv₂.workload
  rw [sibling_plan ho₁] at hplan₁
  rw [sibling_plan ho₂] at hplan₂
  rw [sibling_scaled ho₁] at hscaled₁
  rw [sibling_scaled ho₂] at hscaled₂
  have hsame : v₁.workload = v₂.workload := by
    rw [hscaled₁, hscaled₂, scaled_id, scaled_id] at hworkload
    rw [hscaled₁, hscaled₂, List.inj_on_of_nodup_map hnamed.ids hplan₁ hplan₂ hworkload]
  have hx : v₁.job.variant = v₂.job.variant := by
    refine List.inj_on_of_nodup_map (hnamed.variants original₁ hplan₁) ?_ ?_ hvariant
    · rw [← hscaled₁]
      exact hv₁.variant
    · rw [← hscaled₁, hsame]
      exact hv₂.variant
  have hinitial₁ : initialArray P.rng v₁.size (o₁.seedAt v₁.attempt) = .ok v₁.initial := hv₁.initial
  have hinitial₂ : initialArray P.rng v₂.size (o₂.seedAt v₂.attempt) = .ok v₂.initial := hv₂.initial
  have hstream₁ : P.streamOf v₁.workload v₁.size v₁.job.variant (o₁.seedAt v₁.attempt) =
    .ok v₁.stream := hv₁.stream
  have hstream₂ : P.streamOf v₂.workload v₂.size v₂.job.variant (o₂.seedAt v₂.attempt) =
    .ok v₂.stream := hv₂.stream
  rw [hsize, hseed, hinitial₂] at hinitial₁
  rw [hsame, hsize, hx, hseed, hstream₂] at hstream₁
  exact ⟨(Except.ok.inj hinitial₁).symm, (Except.ok.inj hstream₁).symm⟩

/-- The checksum of a reported row. -/
theorem Reported.exact (htable : P.table = structures leftFirst) (hloads : P.Loads)
    (hfits : P.FitsAll) (h : P.Reported row) (hname : row.label.name ≠ "lazy")
    (hstatus : row.result.status = .ok) : ∃ shuffle clock options v,
      P.options.SameStreams options ∧ (P.sibling shuffle clock options).Planned v ∧
        row.label = P.labelOf v ∧ row.seed = options.seedAt v.attempt ∧
          row.result.checksum =
            exactChecksum (versionsOf v.initial (additions v.stream)) v.stream 0 := by
  obtain ⟨shuffle, clock, options, code, s, ho, hshuffle, hrun, hrow⟩ := h
  have hplanned : ∀ v ∈ (P.sibling shuffle clock options).visits,
      (P.sibling shuffle clock options).Planned v := fun v hv => planned_of_mem hshuffle hv
  have hmeasured := rows_measured hrun row hrow
  have hcompared : (P.sibling shuffle clock options).Compared row := by
    obtain ⟨v, hv, -, batchNs, result, r, r', -, rfl⟩ := hmeasured
    have hsubject : v.job.subject ∈ P.table := (mem_jobsOf (hplanned v hv).job).1
    exact ⟨hstatus, _, hsubject, rfl, (structures_historical (htable ▸ hsubject)).mpr hname⟩
  obtain ⟨v, hv, hlabel, hseed, hsum⟩ := Measured.exact (P := P.sibling shuffle clock options)
    htable (sibling_loads ho hloads) (sibling_fits ho hfits) hplanned hmeasured hcompared
  exact ⟨shuffle, clock, options, v, ho, hv, hlabel, hseed, hsum⟩

/-- **Checksums agree.** Whatever processes of a campaign on the nine structures wrote the rows,
and in whatever modes, no stream has two checksums. -/
theorem checksums_agree (htable : P.table = structures leftFirst) (hnamed : P.Named)
    (hloads : P.Loads) (hfits : P.FitsAll) {runs : List Row} (hruns : ∀ row ∈ runs, P.Reported row) :
    checksumAgreement runs = [] := by
  refine checksumAgreement_eq_nil.mpr fun row hrow row' hrow' hname hstatus hname' hstatus' hkey => ?_
  obtain ⟨_, _, _, v, ho, hv, hlabel, hseed, hsum⟩ :=
    (hruns row hrow).exact htable hloads hfits hname hstatus
  obtain ⟨_, _, _, v', ho', hv', hlabel', hseed', hsum'⟩ :=
    (hruns row' hrow').exact htable hloads hfits hname' hstatus'
  unfold Row.key at hkey
  rw [hlabel, hlabel', hseed, hseed'] at hkey
  obtain ⟨hworkload, hsize, -, hvariant, hseeds⟩ := StreamKey.mk.inj hkey
  obtain ⟨hinitial, hstream⟩ := same_key hnamed ho ho' hv hv' hworkload hsize hvariant hseeds
  rw [hsum, hsum', hinitial, hstream]

theorem mixedProcess_fits : (mixedProcess (structures true)).FitsAll where
  trace := by
    intro trace htrace
    cases htrace
    decide
  budgets := by decide +kernel

/-- Two processes that replay the same trace. -/
theorem checksums_agree_mixed : ∃ s s', (mixedProcess (structures true)).run {} = .ok 0 s ∧
    lastTrial.run {} = .ok 0 s' ∧ checksumAgreement (s.runs ++ s'.runs) = [] := by
  obtain ⟨s, hs⟩ := Effect.outcome_eq_ok.mp
    (show Effect.outcome ((mixedProcess (structures true)).run {}) = .ok 0 by decide +kernel)
  obtain ⟨s', hs'⟩ := Effect.outcome_eq_ok.mp
    (show Effect.outcome (lastTrial.run {}) = .ok 0 by decide +kernel)
  have hlast : lastTrial.Permutes := fun _ jobs => .refl jobs
  have ho : (mixedProcess (structures true)).options.SameStreams lastTrial.options :=
    ⟨rfl, rfl, rfl, rfl⟩
  have hruns : ∀ row ∈ s.runs ++ s'.runs, (mixedProcess (structures true)).Reported row := by
    intro row hrow
    rcases List.mem_append.mp hrow with hrow | hrow
    · exact reported_self (mixedProcess_permutes _) hs row hrow
    · exact ⟨_, _, lastTrial.options, 0, s', ho, hlast, hs', hrow⟩
  exact ⟨s, s', hs, hs', checksums_agree (P := mixedProcess (structures true)) rfl
    mixedProcess_named (mixedProcess_loads _) mixedProcess_fits hruns⟩

/-! ## Stored records -/

/-- The structure of a name. -/
theorem structures_named {s : Structure} (which : PersistentStructure)
    (hs : s ∈ structures leftFirst) (hname : s.name = which.name) :
    s = Structure.of which.name (fun interval => (which.adapter interval).writing) true := by
  refine List.inj_on_of_nodup_map (structures_names leftFirst) hs ?_ hname
  refine List.mem_append_left _ (List.mem_append_right _ (List.mem_map.mpr ⟨which, ?_, rfl⟩))
  cases which <;> decide

/-- **Stored records** of a reported row are the ones predicted from its structural row. -/
theorem Reported.stored {other : StructuralRow} {count : ℕ} (which : PersistentStructure)
    (htable : P.table = structures leftFirst) (hnamed : P.Named) (hkeeps : P.KeepsTrace)
    (h : P.Reported row) (hother : P.Counts other) (hname : row.label.name = which.name)
    (hstatus : row.result.status = .ok) (hkey : other.key = row.key)
    (hcount : which.predicted other.key.n other.counts = some count) :
    row.result.nodes = row.result.buildNodes + count := by
  obtain ⟨shuffle, clock, options, code, s, ho, hshuffle, hrun, hrow⟩ := h
  obtain ⟨shuffle', clock', options', code', rows, ho', hstructural, hmem⟩ := hother
  obtain ⟨v, hv, -, batchNs, result, r, r', htrial, rfl⟩ := rows_measured hrun row hrow
  have hpv := planned_of_mem hshuffle hv
  obtain ⟨point, hpoint, hpointRow⟩ :=
    Effect.Steps.exists_point (structural_rows hstructural) hmem
  obtain ⟨stream, counts, hstream, hcounts, rfl⟩ := structuralRow_eq_ok.mp hpointRow
  obtain ⟨-, hn, -, -, hsame⟩ := same_point (sibling_keepsTrace ho' hkeeps)
    (sibling_named ho' hnamed) (ho'.across ho) hpoint hpv hkey
  rw [hstream] at hsame
  obtain rfl := Except.ok.inj hsame
  have hlength : v.initial.length = point.size := (initialArray_length hpv.initial).trans hn.symm
  rw [← hlength] at hcounts
  have hsubject : v.job.subject ∈ P.table := (mem_jobsOf hpv.job).1
  have hstructure := structures_named which (htable ▸ hsubject) hname
  have hstores : (which.adapter (intervalOf v)).Stores v.initial v.stream result := by
    unfold trialOf at htrial
    rw [hstructure] at htrial
    split_ifs at htrial
    · obtain ⟨m, hm, -⟩ := measuring_eq_ok.mp htrial
      exact PersistentAdapter.runBatchTrial_stores hm hstatus
    · obtain ⟨m, hm, -⟩ := measuring_eq_ok.mp htrial
      exact PersistentAdapter.runTrial_stores hm hstatus
    · obtain ⟨m, hm, -⟩ := measuring_eq_ok.mp htrial
      exact PersistentAdapter.runTrial_stores hm hstatus
  have hcount' : which.predicted v.initial.length counts = some count := by
    rw [hlength]
    exact hcount
  exact which.stores_predicted hcounts hcount' hstores

/-- Each prediction is that of its structure. -/
theorem predictions_predicted {entry : String × (StructuralRow → ℤ)} (hentry : entry ∈ predictions)
    (other : StructuralRow) (hn : 0 < other.key.n) : ∃ (which : PersistentStructure) (count : ℕ),
      which.name = entry.1 ∧ which.predicted other.key.n other.counts = some count ∧
        entry.2 other = count := by
  have hsize : ((2 * other.key.n - 1 : ℕ) : ℤ) = 2 * other.key.n - 1 := by omega
  unfold predictions at hentry
  simp only [List.mem_cons, List.not_mem_nil, or_false] at hentry
  rcases hentry with rfl | rfl | rfl | rfl
  · exact ⟨.persistent, _, rfl, rfl, rfl⟩
  · exact ⟨.copyOnPush, _, rfl, rfl, by push_cast; rfl⟩
  · exact ⟨.pointOnly, _, rfl, rfl, rfl⟩
  · exact ⟨.fullCopy, _, rfl, rfl, by rw [Nat.cast_mul, hsize]⟩

theorem joinRow_eq_ok {structural : List StructuralRow} {p : Row × StructuralRow}
    (h : joinRow structural row = .ok p) :
    p.1 = row ∧ p.2 ∈ structural ∧ p.2.key = row.key := by
  unfold joinRow at h
  rcases hfind : structural.find? (fun other => other.key = row.key) with _ | other
  · rw [hfind] at h
    cases h
  · rw [hfind] at h
    cases h
    have hkey := List.find?_some hfind
    exact ⟨rfl, List.mem_of_find?_eq_some hfind, of_decide_eq_true hkey⟩

/-- The identity of a structure none of whose rows differs from its prediction. -/
theorem identityOf_eq_ok {merged : List (Row × StructuralRow)}
    {entry : String × (StructuralRow → ℤ)} {identity : Identity}
    (hmatch : ∀ p ∈ merged, p.1.label.name = entry.1 → measuredRecords p.1 = entry.2 p.2)
    (h : identityOf merged entry = .ok identity) :
    identity =
      ⟨entry.1, ((merged.map Prod.fst).filter fun row => row.label.name = entry.1).length, 0,
        true⟩ := by
  have hnone : (merged.filter fun p => p.1.label.name = entry.1).filter
      (fun p => measuredRecords p.1 ≠ entry.2 p.2) = [] := by
    simp only [List.filter_eq_nil_iff, List.mem_filter, decide_eq_true_eq, not_not]
    exact fun p hp => hmatch p hp.1 hp.2
  have hlength : ((merged.map Prod.fst).filter fun row => row.label.name = entry.1).length =
      (merged.filter fun p => p.1.label.name = entry.1).length := by
    rw [List.filter_map, List.length_map]
    rfl
  unfold identityOf at h
  simp only [hnone, List.length_nil] at h
  split_ifs at h
  cases h
  rw [hlength]
  rfl

/-- Streams that are counted are of arrays with elements. -/
theorem Counts.pos {other : StructuralRow} (h : P.Counts other) : 0 < other.key.n := by
  obtain ⟨shuffle, clock, options, code, rows, -, hstructural, hmem⟩ := h
  obtain ⟨point, -, hrow⟩ := Effect.Steps.exists_point (structural_rows hstructural) hmem
  obtain ⟨stream, counts, -, hcounts, rfl⟩ := structuralRow_eq_ok.mp hrow
  exact (structuralCounts_eq_ok hcounts).1

/-- **Identities.** Whatever processes of a campaign on the nine structures wrote the runs and the
structural rows, a check that returns has found no mismatch, of all finished trials of each of the
four structures. -/
theorem identities_exact (htable : P.table = structures leftFirst) (hnamed : P.Named)
    (hkeeps : P.KeepsTrace) {runs : List Row} {structural : List StructuralRow}
    {identities : List Identity} (hruns : ∀ row ∈ runs, P.Reported row)
    (hstructural : ∀ other ∈ structural, P.Counts other)
    (h : h1Identities runs structural = .ok identities) :
    identities = predictions.map fun entry =>
      ⟨entry.1, ((eligible runs).filter fun row => row.label.name = entry.1).length, 0, true⟩ := by
  unfold h1Identities at h
  obtain ⟨⟨⟩, -, h⟩ := Effect.bind_eq_ok.mp h
  obtain ⟨⟨⟩, -, h⟩ := Effect.bind_eq_ok.mp h
  obtain ⟨merged, hmerged, h⟩ := Effect.bind_eq_ok.mp h
  have hjoin := Effect.forall₂_of_mapM hmerged
  have hleft : merged.map Prod.fst = eligible runs := by
    rw [← List.forall₂_eq_eq_eq, List.forall₂_map_left_iff]
    exact (hjoin.imp fun row p hp => (joinRow_eq_ok hp).1).flip
  have hmatch : ∀ p ∈ merged, p.1 ∈ eligible runs ∧ p.2 ∈ structural ∧ p.2.key = p.1.key := by
    intro p hp
    obtain ⟨row, hrow, hjoined⟩ := Effect.Steps.exists_point hjoin hp
    obtain ⟨rfl, hmem, hkey⟩ := joinRow_eq_ok hjoined
    exact ⟨hrow, hmem, hkey⟩
  have hentry : ∀ entry ∈ predictions, ∀ identity, identityOf merged entry = .ok identity →
      identity = ⟨entry.1, ((eligible runs).filter fun row => row.label.name = entry.1).length, 0,
        true⟩ := by
    intro entry hentry identity hidentity
    rw [← hleft]
    refine identityOf_eq_ok (fun p hp hname => ?_) hidentity
    obtain ⟨hmem, hother, hkey⟩ := hmatch p hp
    obtain ⟨hrow, hstatus⟩ := List.mem_filter.mp hmem
    obtain ⟨which, count, hwhich, hcount, hpredicted⟩ :=
      predictions_predicted hentry p.2 (hstructural _ hother).pos
    have hstored := (hruns p.1 hrow).stored which htable hnamed hkeeps (hstructural _ hother)
      (hname.trans hwhich.symm) (of_decide_eq_true hstatus).1 hkey hcount
    unfold measuredRecords
    rw [hpredicted, hstored]
    push_cast
    ring
  have hall := (List.forall₂_and_left _ _).mpr ⟨fun _ h => h, Effect.forall₂_of_mapM h⟩
  rw [eq_comm, ← List.forall₂_eq_eq_eq, List.forall₂_map_left_iff]
  exact hall.imp fun entry identity hp => (hentry entry hp.1 identity hp.2).symm

theorem identities_exact_mixed : ∃ s rows identities,
    (mixedProcess (structures true)).run {} = .ok 0 s ∧
      (mixedProcess (structures true)).runStructural [] = .ok 0 rows ∧
        h1Identities s.runs rows = .ok identities ∧
          identities.map Identity.mismatches = [0, 0, 0, 0] := by
  let rows := Effect.finalState ((mixedProcess (structures true)).runStructural [])
  obtain ⟨rows', hrows⟩ := Effect.outcome_eq_ok.mp (show Effect.outcome
    ((mixedProcess (structures true)).runStructural []) = .ok 0 by decide +kernel)
  have heq : rows = rows' := by
    show Effect.finalState _ = _
    rw [hrows, Effect.finalState_ok]
  obtain ⟨s, hs, hcheck⟩ := run_reading (P := mixedProcess (structures true))
    (f := fun s => h1Identities s.runs rows)
    (show _ = Except.ok (0, Except.ok [⟨"persistent", 2, 0, true⟩, ⟨"copy-on-push", 2, 0, true⟩,
      ⟨"point-only", 2, 0, true⟩, ⟨"full-copy", 2, 0, true⟩]) by decide +kernel)
  rw [heq] at hcheck
  have hkeeps : (mixedProcess (structures true)).KeepsTrace := fun _ _ => rfl
  have hruns := reported_self (mixedProcess_permutes (structures true)) hs
  have hcounts := counts_self hrows
  have hexact := identities_exact (P := mixedProcess (structures true)) rfl mixedProcess_named hkeeps
    hruns hcounts hcheck
  refine ⟨s, rows', _, hs, hrows, hcheck, ?_⟩
  rw [hexact]
  rfl

end Process

end Bench

end Valseg
