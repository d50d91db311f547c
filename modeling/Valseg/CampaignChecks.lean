import Valseg.CampaignVisits

/-!
# The cross-check of a campaign

A campaign compares each checksum with the first of its cell, and exits with 1 when some comparison
failed.

1. `exit_code_exact`: whatever is in the table, the code is 1 just when two rows of one cell
   disagree. `Checked` is the invariant of the visits.
2. `no_false_alarm`: on the nine structures the code is 0, where the columns tell the streams apart.
-/

namespace Valseg

namespace Bench

/-- The cell a row belongs to. -/
def Row.cell (row : Row) : String := Bench.cell row.label row.seed

namespace Process

open Effect (Steps)

variable {G D : Type} {P : Process G D} {s t : Campaign} {visit : Visit D} {batchNs : ℤ}
  {result : TrialResult} {code : ℕ}

/-! ## What is compared -/

variable (P) in
/-- A finished trial of a structure that answers historical queries. -/
def Compared (row : Row) : Prop :=
  row.result.status = .ok ∧ ∃ s ∈ P.table, s.name = row.label.name ∧ s.historical = true

/-- One name, one structure. -/
theorem compared_rowOf (hnames : (P.table.map Structure.name).Nodup)
    (hsubject : visit.job.subject ∈ P.table) : P.Compared (P.rowOf visit batchNs result) ↔
      visit.job.subject.historical = true ∧ result.status = .ok := by
  constructor
  · rintro ⟨hstatus, s, hs, hname, hhistorical⟩
    have heq : s = visit.job.subject := List.inj_on_of_nodup_map hnames hs hsubject hname
    exact ⟨heq ▸ hhistorical, hstatus⟩
  · rintro ⟨hhistorical, hstatus⟩
    exact ⟨hstatus, _, hsubject, rfl, hhistorical⟩

variable (P) in
/-- What is expected of a cell is the checksum of one of its rows, and the mismatches are rows that
differ from it. -/
structure Checked (s : Campaign) : Prop where
  known : ∀ r ∈ s.runs, P.Compared r → ∃ x, s.expected r.cell = some x
  first : ∀ c x, s.expected c = some x →
    ∃ r ∈ s.runs, P.Compared r ∧ r.cell = c ∧ r.result.checksum = x
  mismatches : 0 < s.mismatches ↔
    ∃ r ∈ s.runs, P.Compared r ∧ s.expected r.cell ≠ some r.result.checksum

/-- A row that is not compared changes nothing. -/
theorem Checked.skip {row : Row} (h : P.Checked s) (hrow : ¬ P.Compared row)
    (hexpected : t.expected = s.expected) (hmismatches : t.mismatches = s.mismatches)
    (hruns : t.runs = s.runs ++ [row]) : P.Checked t := by
  have hmem : ∀ r, r ∈ t.runs ∧ P.Compared r ↔ r ∈ s.runs ∧ P.Compared r := fun r => by
    rw [hruns, List.mem_append, List.mem_singleton]
    constructor
    · rintro ⟨hr | rfl, hc⟩
      · exact ⟨hr, hc⟩
      · exact absurd hc hrow
    · exact fun hr => ⟨.inl hr.1, hr.2⟩
  refine ⟨fun r hr hc => ?_, fun c x hx => ?_, ?_⟩
  · rw [hexpected]
    exact h.known r ((hmem r).mp ⟨hr, hc⟩).1 hc
  · rw [hexpected] at hx
    obtain ⟨r, hr, hc, hrest⟩ := h.first c x hx
    exact ⟨r, ((hmem r).mpr ⟨hr, hc⟩).1, hc, hrest⟩
  · rw [hmismatches, h.mismatches, hexpected]
    refine exists_congr fun r => ?_
    have := hmem r
    tauto

/-- The first row of a cell is expected from then on. -/
theorem Checked.open {row : Row} (h : P.Checked s) (hrow : P.Compared row)
    (hnone : s.expected row.cell = none)
    (hexpected : t.expected = Function.update s.expected row.cell (some row.result.checksum))
    (hmismatches : t.mismatches = s.mismatches) (hruns : t.runs = s.runs ++ [row]) :
    P.Checked t := by
  have hself : t.expected row.cell = some row.result.checksum := by
    rw [hexpected, Function.update_self]
  have hother : ∀ r ∈ s.runs, P.Compared r → t.expected r.cell = s.expected r.cell :=
    fun r hr hc => by
      have hne : r.cell ≠ row.cell := fun heq => by
        obtain ⟨x, hx⟩ := h.known r hr hc
        rw [heq, hnone] at hx
        cases hx
      rw [hexpected, Function.update_of_ne hne]
  have hmem : ∀ r, r ∈ t.runs ↔ r ∈ s.runs ∨ r = row := fun r => by
    rw [hruns, List.mem_append, List.mem_singleton]
  refine ⟨fun r hr hc => ?_, fun c x hx => ?_, ?_⟩
  · rcases (hmem r).mp hr with hr | rfl
    · rw [hother r hr hc]
      exact h.known r hr hc
    · exact ⟨_, hself⟩
  · by_cases hc : c = row.cell
    · subst hc
      rw [hself] at hx
      exact ⟨row, (hmem row).mpr (.inr rfl), hrow, rfl, Option.some.inj hx⟩
    · rw [hexpected, Function.update_of_ne hc] at hx
      obtain ⟨r, hr, hrest⟩ := h.first c x hx
      exact ⟨r, (hmem r).mpr (.inl hr), hrest⟩
  · rw [hmismatches, h.mismatches]
    constructor
    · rintro ⟨r, hr, hc, hne⟩
      exact ⟨r, (hmem r).mpr (.inl hr), hc, hother r hr hc ▸ hne⟩
    · rintro ⟨r, hr, hc, hne⟩
      rcases (hmem r).mp hr with hr | rfl
      · exact ⟨r, hr, hc, hother r hr hc ▸ hne⟩
      · exact absurd hself hne

/-- A later row of a cell is compared with the first. -/
theorem Checked.compare {row : Row} {x : UInt64} (h : P.Checked s) (hrow : P.Compared row)
    (hsome : s.expected row.cell = some x) (hexpected : t.expected = s.expected)
    (hmismatches : t.mismatches =
      if x ≠ row.result.checksum then s.mismatches + 1 else s.mismatches)
    (hruns : t.runs = s.runs ++ [row]) : P.Checked t := by
  have hmem : ∀ r, r ∈ t.runs ↔ r ∈ s.runs ∨ r = row := fun r => by
    rw [hruns, List.mem_append, List.mem_singleton]
  refine ⟨fun r hr hc => ?_, fun c y hy => ?_, ?_⟩
  · rw [hexpected]
    rcases (hmem r).mp hr with hr | rfl
    · exact h.known r hr hc
    · exact ⟨x, hsome⟩
  · rw [hexpected] at hy
    obtain ⟨r, hr, hrest⟩ := h.first c y hy
    exact ⟨r, (hmem r).mpr (.inl hr), hrest⟩
  · rw [hmismatches, hexpected]
    by_cases hne : x = row.result.checksum
    · rw [if_neg (not_not.mpr hne), h.mismatches]
      constructor
      · rintro ⟨r, hr, hrest⟩
        exact ⟨r, (hmem r).mpr (.inl hr), hrest⟩
      · rintro ⟨r, hr, hc, hdiff⟩
        rcases (hmem r).mp hr with hr | rfl
        · exact ⟨r, hr, hc, hdiff⟩
        · rw [hsome, hne] at hdiff
          exact absurd rfl hdiff
    · rw [if_pos hne]
      refine iff_of_true (Nat.succ_pos _) ⟨row, (hmem row).mpr (.inr rfl), hrow, ?_⟩
      rw [hsome]
      exact fun heq => hne (Option.some.inj heq)

/-- **A trial** that is recorded. -/
theorem Checked.record (hnames : (P.table.map Structure.name).Nodup)
    (hsubject : visit.job.subject ∈ P.table) (h : P.Checked s) :
    P.Checked (P.record visit batchNs result s) := by
  have hcompared : P.Compared (P.rowOf visit batchNs result) ↔
      visit.job.subject.historical = true ∧ result.status = .ok := compared_rowOf hnames hsubject
  have hruns : (P.record visit batchNs result s).runs = s.runs ++ [P.rowOf visit batchNs result] :=
    record_runs
  -- the capped trials are counted apart
  have hcounted : ∀ key, (if result.status = .memoryCap then countCapped key s else s).expected =
      s.expected ∧ (if result.status = .memoryCap then countCapped key s else s).mismatches =
        s.mismatches := fun key => by split_ifs <;> exact ⟨rfl, rfl⟩
  by_cases hc : visit.job.subject.historical = true ∧ result.status = .ok
  · have hrow := hcompared.mpr hc
    rcases hx : s.expected (P.rowOf visit batchNs result).cell with _ | x
    · refine h.open hrow hx ?_ ?_ hruns
      · unfold Process.record crossCheck
        simp only [if_pos hc, (hcounted _).1]
        rw [show s.expected (Bench.cell (P.labelOf visit) (P.options.seedAt visit.attempt)) = none
          from hx]
        rfl
      · unfold Process.record crossCheck
        simp only [if_pos hc, (hcounted _).1]
        rw [show s.expected (Bench.cell (P.labelOf visit) (P.options.seedAt visit.attempt)) = none
          from hx]
        exact (hcounted _).2
    · have hx' : s.expected (Bench.cell (P.labelOf visit) (P.options.seedAt visit.attempt)) =
          some x := hx
      refine h.compare hrow hx ?_ ?_ hruns
      · unfold Process.record crossCheck
        simp only [if_pos hc, (hcounted _).1, hx']
        split_ifs <;> rfl
      · unfold Process.record crossCheck
        simp only [if_pos hc, (hcounted _).1, hx']
        show _ = if x ≠ result.checksum then _ else _
        split_ifs <;> rfl
  · refine h.skip (fun hrow => hc (hcompared.mp hrow)) ?_ ?_ hruns
    · unfold Process.record crossCheck
      simp only [if_neg hc]
      exact (hcounted _).1
    · unfold Process.record crossCheck
      simp only [if_neg hc]
      exact (hcounted _).2

/-- **The visits** keep the invariant. -/
theorem Checked.steps {visits : List (Visit D)} (hnames : (P.table.map Structure.name).Nodup)
    (htable : ∀ v ∈ visits, v.job.subject ∈ P.table) (hsteps : Steps P.Measures visits s t)
    (hs : P.Checked s) : P.Checked t := by
  refine hsteps.invariant (I := P.Checked) (fun v hv s t hstep hs => ?_) hs
  rcases measure_cases hstep with ⟨-, -, rfl⟩ | ⟨-, r, rfl⟩ | ⟨-, -, _, _, _, _, r, -, rfl⟩
  · exact hs
  · exact ⟨hs.known, hs.first, hs.mismatches⟩
  · exact .record hnames (htable v hv) ⟨hs.known, hs.first, hs.mismatches⟩

theorem checked_start : P.Checked {} :=
  ⟨fun _ hr => absurd hr List.not_mem_nil, fun _ _ hx => (nomatch hx),
    iff_of_false (Nat.lt_irrefl 0) fun h => by
      obtain ⟨r, hr, -⟩ := h
      exact absurd hr List.not_mem_nil⟩

/-! A campaign over exact numbers that replays a trace. -/

/-- Six decimals of a number that has no more. -/
def decimals (x : ℚ) : String :=
  let micros := (x * 1000000).num.toNat / (x * 1000000).den
  toString (micros / 1000000) ++ "." ++
    String.ofList ((toString (micros % 1000000 + 1000000)).toList.drop 1)

def exactPlatform : Platform ℚ where
  toFloatingPoint := rationals
  equal x y := x = y
  text := decimals
  roundedRoot n := (Nat.sqrt (4 * n) + 1) / 2

/-- The order is shuffled to the reverse, and the clock ticks. -/
def mixedProcess (table : List Structure) : Process UInt64 ℚ where
  rng := countingEngine
  platform := exactPlatform
  table := table
  shuffle := fun _ jobs => jobs.reverse
  clock := fun reading => reading
  options := { workloadFilter := "WT", trials := 2, warmup := 0, capMiB := 1 }
  trace := some (mixedOperations, 3)

theorem mixedProcess_permutes (table : List Structure) : (mixedProcess table).Permutes :=
  fun _ _ => List.reverse_perm _

/-- **The exit code** is 1 just when two rows of one cell disagree, whatever structures are in the
table, and 0 otherwise. -/
theorem exit_code_exact (hnames : (P.table.map Structure.name).Nodup) (hshuffle : P.Permutes)
    (h : P.run {} = .ok code s) : (code = 0 ∨ code = 1) ∧ (code = 1 ↔
      ∃ r ∈ s.runs, ∃ r' ∈ s.runs, P.Compared r ∧ P.Compared r' ∧ r.cell = r'.cell ∧
        r.result.checksum ≠ r'.result.checksum) := by
  obtain ⟨hsteps, rfl⟩ := run_steps h
  have hs : P.Checked s := Checked.steps hnames
    (fun v hv => (mem_jobsOf (planned_of_mem hshuffle hv).job).1) hsteps checked_start
  refine ⟨by split_ifs <;> simp, ?_⟩
  have hcode : (if s.mismatches > 0 then 1 else 0) = 1 ↔ 0 < s.mismatches := by
    split_ifs with hpos
    · exact iff_of_true rfl hpos
    · exact iff_of_false (by decide) hpos
  rw [hcode, hs.mismatches]
  constructor
  · rintro ⟨r, hr, hc, hne⟩
    obtain ⟨x, hx⟩ := hs.known r hr hc
    obtain ⟨r', hr', hc', hcell, rfl⟩ := hs.first _ x hx
    exact ⟨r, hr, r', hr', hc, hc', hcell.symm, fun heq => hne (by rw [hx, heq])⟩
  · rintro ⟨r, hr, r', hr', hc, hc', hcell, hne⟩
    by_cases hx : s.expected r.cell = some r.result.checksum
    · refine ⟨r', hr', hc', fun hx' => hne ?_⟩
      rw [← hcell, hx] at hx'
      exact Option.some.inj hx'
    · exact ⟨r, hr, hc, hx⟩

/-- A structure that loses every answer. -/
def forgetful : Structure where
  name := "forgetful"
  run := fun _ _ _ _ _ _ => return {}
  batch := fun _ _ _ _ _ => return 0
  batchTrial := fun _ _ _ _ _ => return {}
  historical := true

theorem exit_code_exact_forgetful : ∃ s r r', (mixedProcess [forgetful,
      Structure.of "external" (fun _ => externalAdapter true) true]).run {} = .ok 1 s ∧
    r ∈ s.runs ∧ r' ∈ s.runs ∧ r.cell = r'.cell ∧ r.result.checksum ≠ r'.result.checksum := by
  obtain ⟨s, hs⟩ := Effect.outcome_eq_ok.mp (show Effect.outcome ((mixedProcess [forgetful,
    Structure.of "external" (fun _ => externalAdapter true) true]).run {}) = .ok 1 by
      decide +kernel)
  obtain ⟨r, hr, r', hr', -, -, hcell, hne⟩ :=
    (exit_code_exact (by decide) (mixedProcess_permutes _) hs).2.mp rfl
  exact ⟨s, r, r', hs, hr, hr', hcell, hne⟩

/-! ## Where rows come from -/

variable (P) in
/-- The row of a planned trial that returned. -/
def Measured (visits : List (Visit D)) (row : Row) : Prop :=
  ∃ visit ∈ visits, P.options.Records visit.attempt ∧ ∃ batchNs result r r',
    P.trialOf visit r = .ok result r' ∧ row = P.rowOf visit batchNs result

theorem measured_steps {visits : List (Visit D)} (hsteps : Steps P.Measures visits s t)
    (hs : ∀ row ∈ s.runs, P.Measured visits row) : ∀ row ∈ t.runs, P.Measured visits row := by
  refine hsteps.invariant (I := fun s => ∀ row ∈ s.runs, P.Measured visits row)
    (fun v hv s t hstep hs => ?_) hs
  rcases measure_cases hstep with ⟨-, -, rfl⟩ | ⟨-, r, rfl⟩ |
    ⟨hrecords, -, batchNs, result, r, r', r'', htrial, rfl⟩
  · exact hs
  · exact hs
  · intro row hrow
    rw [record_runs, List.mem_append, List.mem_singleton] at hrow
    rcases hrow with hrow | rfl
    · exact hs row hrow
    · exact ⟨v, hv, hrecords, batchNs, result, r, r', htrial, rfl⟩

/-- Every row of a campaign is one of a visit. -/
theorem rows_measured (h : P.run {} = .ok code s) : ∀ row ∈ s.runs, P.Measured P.visits row :=
  measured_steps (run_steps h).1 fun _ hrow => absurd hrow List.not_mem_nil

/-! ## Cells -/

theorem bar_toString (n : ℕ) : '|' ∉ (toString n).toList := by
  intro h
  have hdigit := Nat.isDigit_of_mem_toDigits (by decide) (by decide)
    (show '|' ∈ Nat.toDigits 10 n by rwa [← Nat.toList_repr])
  exact absurd hdigit (by decide)

theorem toString_inj {m n : ℕ} (h : toString m = toString n) : m = n := by
  have hdigits : Nat.toDigits 10 m = Nat.toDigits 10 n := by
    rw [← Nat.toList_repr, ← Nat.toList_repr]
    exact congrArg String.toList h
  rw [← Nat.ofDigitChars_ten_toDigits (n := m), hdigits, Nat.ofDigitChars_ten_toDigits]

/-- Four texts without a bar, joined by bars. -/
theorem bars_inj {a b c d a' b' c' d' : String} (ha : '|' ∉ a.toList) (hb : '|' ∉ b.toList)
    (hc : '|' ∉ c.toList) (hd : '|' ∉ d.toList) (ha' : '|' ∉ a'.toList) (hb' : '|' ∉ b'.toList)
    (hc' : '|' ∉ c'.toList) (hd' : '|' ∉ d'.toList)
    (h : a ++ "|" ++ b ++ "|" ++ c ++ "|" ++ d = a' ++ "|" ++ b' ++ "|" ++ c' ++ "|" ++ d') :
    a = a' ∧ b = b' ∧ c = c' ∧ d = d' := by
  have hjoin : ∀ a b c d : String, (a ++ "|" ++ b ++ "|" ++ c ++ "|" ++ d).toList =
      ['|'].intercalate [a.toList, b.toList, c.toList, d.toList] := fun a b c d => by
    simp only [String.toList_append, List.intercalate, List.intersperse, List.flatten_cons,
      List.flatten_nil, List.append_nil, List.append_assoc]
    rfl
  have hsplit : ∀ {a b c d : String}, '|' ∉ a.toList → '|' ∉ b.toList → '|' ∉ c.toList →
      '|' ∉ d.toList → (['|'].intercalate [a.toList, b.toList, c.toList, d.toList]).splitOn '|' =
        [a.toList, b.toList, c.toList, d.toList] := fun ha hb hc hd => by
    refine List.splitOn_intercalate '|' (fun l hl => ?_) (by simp)
    simp only [List.mem_cons, List.not_mem_nil, or_false] at hl
    rcases hl with rfl | rfl | rfl | rfl <;> assumption
  have key := congrArg (fun x => (String.toList x).splitOn '|') h
  simp only [hjoin, hsplit ha hb hc hd, hsplit ha' hb' hc' hd', List.cons.injEq,
    String.toList_inj] at key
  exact ⟨key.1, key.2.1, key.2.2.1, key.2.2.2.1⟩

/-- A cell is its workload, size, variant and seed. -/
theorem cell_inj {l l' : Label} {seed seed' : UInt64} (hw : '|' ∉ l.workload.toList)
    (hv : '|' ∉ l.variant.toList) (hw' : '|' ∉ l'.workload.toList)
    (hv' : '|' ∉ l'.variant.toList) (h : Bench.cell l seed = Bench.cell l' seed') :
    l.workload = l'.workload ∧ l.n = l'.n ∧ l.variant = l'.variant ∧ seed = seed' := by
  obtain ⟨h1, h2, h3, h4⟩ := bars_inj hw (bar_toString _) hv (bar_toString _) hw' (bar_toString _)
    hv' (bar_toString _) h
  exact ⟨h1, toString_inj h2, h3, UInt64.toNat_inj.mp (toString_inj h4)⟩

variable (P) in
/-- The columns tell the workloads apart, and the variants of a workload. -/
structure Named : Prop where
  ids : (P.plan.map FrozenWorkload.id).Nodup
  bars : ∀ original ∈ P.plan, '|' ∉ original.id.toList
  text : ∀ x, '|' ∉ (P.platform.text x).toList
  variants : ∀ original ∈ P.plan, ((P.scaled original).variants.map P.platform.text).Nodup

theorem scaled_id (original : FrozenWorkload D) : (P.scaled original).id = original.id := by
  unfold scaled
  split_ifs <;> rfl

/-- Two planned visits with the same workload, variant, size and attempt by their labels. -/
theorem Planned.unique {v v' : Visit D} (hnamed : P.Named) (hv : P.Planned v) (hv' : P.Planned v')
    (hworkload : (P.labelOf v).workload = (P.labelOf v').workload)
    (hvariant : (P.labelOf v).variant = (P.labelOf v').variant) :
    v.workload = v'.workload ∧ v.job.variant = v'.job.variant := by
  obtain ⟨original, hplan, -, hscaled⟩ := hv.workload
  obtain ⟨original', hplan', -, hscaled'⟩ := hv'.workload
  have hid : original.id = original'.id := by
    have h : v.workload.id = v'.workload.id := hworkload
    rwa [hscaled, hscaled', scaled_id, scaled_id] at h
  obtain rfl := List.inj_on_of_nodup_map hnamed.ids hplan hplan' hid
  have hsame : v.workload = v'.workload := hscaled.trans hscaled'.symm
  exact ⟨hsame, List.inj_on_of_nodup_map (hnamed.variants original hplan) (hscaled ▸ hv.variant)
    (hscaled' ▸ hv'.variant) hvariant⟩

/-- **One cell, one stream.** -/
theorem Planned.same_stream {v v' : Visit D} (hnamed : P.Named) (hv : P.Planned v)
    (hv' : P.Planned v') (h : Bench.cell (P.labelOf v) (P.options.seedAt v.attempt) =
      Bench.cell (P.labelOf v') (P.options.seedAt v'.attempt)) :
    v.initial = v'.initial ∧ v.stream = v'.stream := by
  have hbar : ∀ {v : Visit D}, P.Planned v → '|' ∉ (P.labelOf v).workload.toList := fun hv => by
    obtain ⟨original, hplan, -, hscaled⟩ := hv.workload
    unfold labelOf
    rw [hscaled, scaled_id]
    exact hnamed.bars original hplan
  obtain ⟨hworkload, hn, hvariant, hseed⟩ := cell_inj (hbar hv) (hnamed.text _) (hbar hv')
    (hnamed.text _) h
  obtain ⟨hsame, hvar⟩ := hv.unique hnamed hv' hworkload hvariant
  have hsize : v.size = v'.size := hn
  have hinitial := hv.initial
  have hstream := hv.stream
  rw [hsize, hseed, hv'.initial] at hinitial
  rw [hsame, hsize, hvar, hseed, hv'.stream] at hstream
  exact ⟨(Except.ok.inj hinitial).symm, (Except.ok.inj hstream).symm⟩

/-! ## Planned streams are valid -/

section Streams

variable {rng : RandomEngine G} {size size' latest n : ℕ} {stream : List Operation}

theorem validFrom_mono (hle : size ≤ size') (h : ValidFrom size latest stream) :
    ValidFrom size' latest stream := by
  induction stream generalizing latest with
  | nil => trivial
  | cons op stream ih =>
    obtain ⟨hlr, hlt, hrest⟩ := h
    refine ⟨hlr, hlt.trans_le hle, ?_⟩
    by_cases hu : op.isUpdate = true
    · rw [if_pos hu] at hrest ⊢
      exact ih hrest
    · rw [if_neg hu] at hrest ⊢
      exact ⟨hrest.1, ih hrest.2⟩

theorem drawValues_length {g g' : G} {values : List ValueType}
    (h : drawValues rng n g = .ok values g') : values.length = n := by
  induction n generalizing g values with
  | zero =>
    cases h
    rfl
  | succ n ih =>
    obtain ⟨draw, g₁, -, h⟩ := Effect.run_bind_eq_ok.mp h
    obtain ⟨rest, g₂, hrest, h⟩ := Effect.run_bind_eq_ok.mp h
    cases h
    rw [List.length_cons, ih hrest]

theorem initialArray_length {seed : UInt64} {values : List ValueType}
    (h : initialArray rng n seed = .ok values) : values.length = n := by
  obtain ⟨g, h⟩ := Effect.outcome_eq_ok.mp h
  obtain ⟨u, -, h⟩ := Effect.run_liftM_bind_eq_ok.mp h
  exact drawValues_length h

/-- A stream that was generated is complete and valid: there was room for it. -/
theorem generate_ok {fp : FloatingPoint D} {workload : Workload D} {variant : D}
    {seed : UInt64} (hpos : 1 ≤ size) (hmax : size ≤ sizeMax)
    (h : generate rng fp workload size variant seed = .ok stream) :
    stream.length = totalOperations fp workload variant ∧ ValidFrom size 0 stream := by
  obtain ⟨g, h⟩ := Effect.outcome_eq_ok.mp h
  have hroom : totalOperations fp workload variant ≤ vectorMaxSize 40 := by
    have hinv := h
    unfold drawStream at hinv
    obtain ⟨rest, -, hinv⟩ := Effect.run_liftM_bind_eq_ok.mp hinv
    obtain ⟨bound, -, hinv⟩ := Effect.run_liftM_bind_eq_ok.mp hinv
    obtain ⟨hotStart, g₁, -, hinv⟩ := Effect.run_bind_eq_ok.mp hinv
    obtain ⟨harmonic, -, hinv⟩ := Effect.run_liftM_bind_eq_ok.mp hinv
    obtain ⟨u, hcheck, -⟩ := Effect.run_liftM_bind_eq_ok.mp hinv
    exact checkVectorLength_eq_ok.mp hcheck
  obtain ⟨stream', g', hdraw, hyields⟩ := drawStream_yields rng hpos hmax hroom (rng.seeded seed)
  rw [h] at hdraw
  cases hdraw
  exact hyields

/-- The sizes of the table. -/
theorem workloads_sizes (platform : Platform D) {workload : FrozenWorkload D}
    (h : workload ∈ workloads platform) : isReplayedTrace workload = false ∧
      workload.sizes.Nodup ∧ ∀ size ∈ workload.sizes, 1 ≤ size ∧ size ≤ 10000000 := by
  simp only [workloads, List.mem_cons, List.not_mem_nil, or_false] at h
  rcases h with rfl | rfl | rfl | rfl | rfl | rfl | rfl | rfl | rfl | rfl | rfl | rfl <;>
    exact ⟨by simp [isReplayedTrace, replayedTraceSummary, frozen], by simp [frozen],
      by simp [frozen]⟩

theorem traceWorkload_replayed (platform : Platform D) (size : ℕ) (traceId : String) :
    isReplayedTrace (traceWorkload platform size traceId) = true := decide_eq_true rfl

end Streams

variable (P) in
/-- The trace was loaded from a file. -/
structure Loaded : Prop where
  loaded : ∀ trace ∈ P.trace, ∃ path file, loadTrace path file 0 = .ok trace

variable (P) in
/-- In a smoke run the trace is one of the size of that. -/
structure Loads : Prop extends P.Loaded where
  smoke : ∀ trace ∈ P.trace, P.options.smoke = true → trace.2 ≤ 256

theorem scaled_replayed (original : FrozenWorkload D) :
    isReplayedTrace (P.scaled original) = isReplayedTrace original := by
  unfold scaled
  split_ifs <;> rfl

theorem scaled_bounds {original : FrozenWorkload D} {size : ℕ}
    (horiginal : original ∈ workloads P.platform) (hsize : size ∈ (P.scaled original).sizes) :
    1 ≤ size ∧ size ≤ 10000000 := by
  unfold scaled at hsize
  split_ifs at hsize
  · rw [List.mem_singleton.mp (show size ∈ [256] from hsize)]
    decide
  · exact (workloads_sizes P.platform horiginal).2.2 _ hsize

/-- **Streams of planned visits** are valid for the arrays. -/
theorem Planned.valid (hloads : P.Loads) (h : P.Planned visit) :
    ValidFrom visit.initial.length 0 visit.stream := by
  obtain ⟨original, hplan, -, hscaled⟩ := h.workload
  have hsize := h.size
  have hstream := h.stream
  rw [initialArray_length h.initial]
  unfold streamOf at hstream
  rw [hscaled, scaled_replayed] at hstream
  rw [hscaled] at hsize
  unfold plan at hplan
  rcases List.mem_append.mp hplan with horiginal | htrace
  · obtain ⟨hreplayed, -, -⟩ := workloads_sizes P.platform horiginal
    rw [if_neg (by rw [hreplayed]; exact Bool.false_ne_true)] at hstream
    obtain ⟨hpos, hmax⟩ := scaled_bounds horiginal hsize
    exact (generate_ok hpos (hmax.trans (by decide)) hstream).2
  · rcases hsome : P.trace with _ | trace
    · rw [hsome] at htrace
      exact absurd htrace List.not_mem_nil
    · rw [hsome] at htrace hstream
      obtain rfl := List.mem_singleton.mp (show original ∈ [_] from htrace)
      rw [if_pos (traceWorkload_replayed P.platform trace.2 P.options.traceId)] at hstream
      obtain ⟨path, file, hfile⟩ := hloads.loaded trace hsome
      have hvalid := (loadTrace_valid hfile).2.2
      rw [← show trace.1 = visit.stream from Except.ok.inj hstream]
      unfold scaled at hsize
      split_ifs at hsize with hsmoke
      · rw [List.mem_singleton.mp (show visit.size ∈ [256] from hsize)]
        exact validFrom_mono (hloads.smoke trace hsome hsmoke) hvalid
      · rw [List.mem_singleton.mp (show visit.size ∈ [trace.2] from hsize)]
        exact hvalid

/-! ## The nine structures -/

variable (P) in
/-- The external tree counts the elements and the versions in 32 bits. -/
def Fits : Prop :=
  ∀ visit, P.Planned visit → visit.size < 2 ^ 32 ∧ updateCount visit.stream < 2 ^ 32

variable {leftFirst : Bool}

theorem structures_names (leftFirst : Bool) :
    ((structures leftFirst).map Structure.name).Nodup := by
  have hlist : (structures leftFirst).map Structure.name = ["lazy", "persistent", "copy-on-push",
      "full-copy", "point-only", "checkpointing", "buffered", "fat-node", "external"] := rfl
  rw [hlist]
  decide

/-- **Rows are exact.** A finished trial of a historical structure has the checksum of the exact
answers of the stream of its cell. -/
theorem Measured.exact {row : Row} {visits : List (Visit D)}
    (htable : P.table = structures leftFirst) (hloads : P.Loads) (hfits : P.Fits)
    (hplanned : ∀ v ∈ visits, P.Planned v) (hrow : P.Measured visits row)
    (hcompared : P.Compared row) :
    ∃ v, P.Planned v ∧ row.label = P.labelOf v ∧ row.seed = P.options.seedAt v.attempt ∧
      row.result.checksum =
        exactChecksum (versionsOf v.initial (additions v.stream)) v.stream 0 := by
  obtain ⟨v, hv, -, batchNs, result, r, r', htrial, rfl⟩ := hrow
  have hpv := hplanned v hv
  obtain ⟨hsize, hcount⟩ := hfits v hpv
  have hlength : v.initial.length = v.size := initialArray_length hpv.initial
  have hsubject : v.job.subject ∈ P.table := (mem_jobsOf hpv.job).1
  obtain ⟨hhistorical, hstatus⟩ :=
    (compared_rowOf (htable ▸ structures_names leftFirst) hsubject).mp hcompared
  have hchecks := structures_check leftFirst (hlength ▸ hsize) (hpv.valid hloads) hcount
    (htable ▸ hsubject) hhistorical
  refine ⟨v, hpv, rfl, rfl, ?_⟩
  unfold trialOf at htrial
  split_ifs at htrial
  · exact (hchecks.batchTrial htrial hstatus).checksum
  · exact (hchecks.run htrial hstatus).checksum
  · exact (hchecks.run htrial hstatus).checksum

/-- **No false alarm.** On the nine structures, where the columns tell the streams apart and these
fit 32 bits, the cross-check does not fail: a campaign that finishes exits with 0, in every mode,
whatever is filtered, shuffled, timed and capped. A trace that is given the id of a frozen workload,
which `parse` accepts, would share its cells. -/
theorem no_false_alarm (htable : P.table = structures leftFirst) (hshuffle : P.Permutes)
    (hnamed : P.Named) (hloads : P.Loads) (hfits : P.Fits) (h : P.run {} = .ok code s) :
    code = 0 := by
  have hnames : (P.table.map Structure.name).Nodup := htable ▸ structures_names leftFirst
  have hplanned : ∀ v ∈ P.visits, P.Planned v := fun v hv => planned_of_mem hshuffle hv
  obtain ⟨hsteps, rfl⟩ := run_steps h
  have hchecked : P.Checked s := Checked.steps hnames
    (fun v hv => (mem_jobsOf (hplanned v hv).job).1) hsteps checked_start
  have hmeasured := rows_measured h
  have hzero : ¬ 0 < s.mismatches := by
    intro hpos
    obtain ⟨r, hr, hc, hne⟩ := hchecked.mismatches.mp hpos
    obtain ⟨x, hx⟩ := hchecked.known r hr hc
    obtain ⟨r', hr', hc', hcell, rfl⟩ := hchecked.first _ x hx
    obtain ⟨v, hv, hlabel, hseed, hsum⟩ :=
      (hmeasured r hr).exact htable hloads hfits hplanned hc
    obtain ⟨v', hv', hlabel', hseed', hsum'⟩ :=
      (hmeasured r' hr').exact htable hloads hfits hplanned hc'
    unfold Row.cell at hcell
    rw [hlabel, hlabel', hseed, hseed'] at hcell
    obtain ⟨hinitial, hstream⟩ := hv'.same_stream hnamed hv hcell
    rw [hx, hsum, hsum', hinitial, hstream] at hne
    exact hne rfl
  rw [if_neg hzero]

theorem bar_decimals (x : ℚ) : '|' ∉ (decimals x).toList := by
  unfold decimals
  simp only [String.toList_append, String.toList_ofList, List.mem_append, not_or]
  refine ⟨⟨bar_toString _, by decide⟩, fun h => bar_toString _ (List.mem_of_mem_drop h)⟩

theorem mixedProcess_named : (mixedProcess (structures true)).Named :=
  ⟨by decide +kernel, by decide +kernel, bar_decimals, by decide +kernel⟩

theorem mixedProcess_loads (table : List Structure) : (mixedProcess table).Loads := by
  refine ⟨⟨fun trace htrace => ⟨"mixed.trace",
    some "n,3\nu,0,1,5\nq,0,2,1\nu,1,2,-3\nq,1,1,1\nq,0,2,0\n".toList, ?_⟩⟩, ?_⟩
  · cases htrace
    decide +kernel
  · intro trace _ hsmoke
    cases hsmoke

theorem no_false_alarm_mixed : ∃ code s,
    (mixedProcess (structures true)).run {} = .ok code s ∧ code = 0 := by
  obtain ⟨s, hs⟩ := Effect.outcome_eq_ok.mp
    (show Effect.outcome ((mixedProcess (structures true)).run {}) = .ok 0 by decide +kernel)
  have hselected : ∀ original ∈ (mixedProcess (structures true)).plan,
      (mixedProcess (structures true)).selects original = true →
        original.sizes = [3] ∧ isReplayedTrace original = true := by decide +kernel
  refine ⟨0, s, hs, no_false_alarm rfl (mixedProcess_permutes _) mixedProcess_named
    (mixedProcess_loads _) ?_ hs⟩
  intro visit hplanned
  obtain ⟨original, hplan, hselects, hscaled⟩ := hplanned.workload
  obtain ⟨hsizes, hreplayed⟩ := hselected original hplan hselects
  have hsize := hplanned.size
  have hstream := hplanned.stream
  rw [hscaled] at hsize hstream
  unfold streamOf at hstream
  rw [scaled_replayed, if_pos hreplayed] at hstream
  rw [show visit.size = 3 from List.mem_singleton.mp (hsizes ▸ hsize),
    ← show mixedOperations = visit.stream from Except.ok.inj hstream]
  decide

end Process

end Bench

end Valseg
