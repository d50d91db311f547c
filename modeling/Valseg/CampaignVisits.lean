import Valseg.Campaign

/-!
# Visits of a campaign

The loops of a campaign come to the innermost body visit by visit, and which visits these are is
known beforehand (`visits`). `run_steps` says that a campaign that returns is the chain of these
steps, `run_aborts` that one that throws is a chain of the first of them, and `measure_cases` what a
step does: it may be left out, a warm-up, or a trial that adds a row (`record`). What holds of
campaigns is shown by induction over this chain.
-/

namespace Valseg

namespace Bench

namespace Process

open Effect (Aborts Steps Through Within pointsAfter)

variable {G D : Type} (P : Process G D)

/-! ## The visits -/

def variantVisits (workload : FrozenWorkload D) (size attempt : ℕ) (initial : List ValueType)
    (variant : D) : List (Visit D) :=
  if P.skipsVariant variant then []
  else if P.jobsOf workload size variant = [] then []
  else pointsAfter (P.streamOf workload size variant (P.options.seedAt attempt)) fun stream =>
    (P.orderedJobs workload size attempt variant).zipIdx.flatMap fun entry =>
      [⟨⟨workload, size, attempt, initial, stream⟩, entry.2, entry.1⟩]

def attemptVisits (workload : FrozenWorkload D) (size attempt : ℕ) : List (Visit D) :=
  if P.SkipsAttempt attempt then []
  else pointsAfter (initialArray P.rng size (P.options.seedAt attempt)) fun initial =>
    workload.variants.flatMap (P.variantVisits workload size attempt initial)

def sizeVisits (workload : FrozenWorkload D) (size : ℕ) : List (Visit D) :=
  if P.options.sizeFilter ≠ 0 ∧ size ≠ P.options.sizeFilter then []
  else (List.range P.options.attempts).flatMap (P.attemptVisits workload size)

def workloadVisits (original : FrozenWorkload D) : List (Visit D) :=
  if P.selects original then
    (P.scaled original).sizes.flatMap (P.sizeVisits (P.scaled original))
  else []

def visits : List (Visit D) := P.plan.flatMap P.workloadVisits

/-- The body returns. -/
def Measures (visit : Visit D) (s t : Campaign) : Prop := P.measure visit s = .ok () t

variable {P}

/-! ## One visit -/

variable (P) in
/-- What a recorded trial leaves. -/
def record (visit : Visit D) (batchNs : ℤ) (result : TrialResult) (this : Campaign) : Campaign :=
  let counted := if result.status = .memoryCap then
    countCapped (cellKey (P.labelOf visit)) this else this
  let checked := crossCheck (cell (P.labelOf visit) (P.options.seedAt visit.attempt))
    visit.job.subject.historical result counted
  { checked with runs := checked.runs ++ [P.rowOf visit batchNs result] }

section Records

variable {key c : String} {historical : Bool} {result : TrialResult} {this s t : Campaign}
  {visit : Visit D} {batchNs : ℤ}

@[simp] theorem crossCheck_runs :
    (crossCheck c historical result this).runs = this.runs := by
  unfold crossCheck
  split_ifs
  · rcases this.expected c with _ | first
    · rfl
    · show (if first ≠ result.checksum then _ else this).runs = _
      split_ifs <;> rfl
  · rfl

@[simp] theorem crossCheck_cappedSeen :
    (crossCheck c historical result this).cappedSeen = this.cappedSeen := by
  unfold crossCheck
  split_ifs
  · rcases this.expected c with _ | first
    · rfl
    · show (if first ≠ result.checksum then _ else this).cappedSeen = _
      split_ifs <;> rfl
  · rfl

theorem record_runs : (P.record visit batchNs result this).runs =
    this.runs ++ [P.rowOf visit batchNs result] := by
  unfold record
  simp only [crossCheck_runs]
  split_ifs <;> rfl

theorem record_cappedSeen : (P.record visit batchNs result this).cappedSeen =
    if result.status = .memoryCap then Function.update this.cappedSeen (cellKey (P.labelOf visit))
      (this.cappedSeen (cellKey (P.labelOf visit)) + 1) else this.cappedSeen := by
  unfold record
  simp only [crossCheck_cappedSeen]
  split_ifs <;> rfl

/-- A replay moves the clock only. -/
theorem replaying_eq_ok {α : Type} {x : EStateM Exception ℕ α} {a : α} :
    replaying x s = .ok a t ↔ ∃ r, x s.readings = .ok a r ∧ t = { s with readings := r } := by
  unfold replaying
  rw [Effect.zoom_eq_ok]
  exact exists_congr fun r => and_congr_right fun _ => eq_comm

/-- The pass that prices the instrumentation, if there is one. -/
theorem pricing_eq_ok {p : Prop} [Decidable p] {n d : ℤ} (h : (if p then
    replaying (P.batchOf visit) else (return d : CampaignM ℤ)) s = .ok n t) :
    ∃ r, t = { s with readings := r } := by
  split_ifs at h
  · obtain ⟨r, -, rfl⟩ := replaying_eq_ok.mp h
    exact ⟨r, rfl⟩
  · cases h
    exact ⟨s.readings, rfl⟩

/-- **One visit** that returns. -/
theorem measure_cases (h : P.measure visit s = .ok () t) :
    (P.options.Records visit.attempt ∧
        P.options.cappedTrials ≤ s.cappedSeen (cellKey (P.labelOf visit)) ∧ t = s) ∨
      (¬ P.options.Records visit.attempt ∧ ∃ r, t = { s with readings := r }) ∨
      (P.options.Records visit.attempt ∧
        s.cappedSeen (cellKey (P.labelOf visit)) < P.options.cappedTrials ∧
        ∃ batchNs result r r' r'', P.trialOf visit r = .ok result r' ∧
          t = P.record visit batchNs result { s with readings := r'' }) := by
  unfold measure at h
  rw [Effect.run_bind_ok (Effect.run_get s)] at h
  by_cases hskip : P.options.Records visit.attempt ∧
      P.options.cappedTrials ≤ s.cappedSeen (cellKey (P.labelOf visit))
  · rw [if_pos hskip] at h
    cases h
    exact .inl ⟨hskip.1, hskip.2, rfl⟩
  rw [if_neg hskip] at h
  obtain ⟨batchNs, s₁, h1, h⟩ := Effect.run_bind_eq_ok.mp h
  obtain ⟨r₁, rfl⟩ := pricing_eq_ok h1
  obtain ⟨result, s₂, h2, h⟩ := Effect.run_bind_eq_ok.mp h
  obtain ⟨r₂, htrial, rfl⟩ := replaying_eq_ok.mp h2
  by_cases hrecorded : P.options.Records visit.attempt
  · rw [if_neg (not_not.mpr hrecorded)] at h
    refine .inr (.inr ⟨hrecorded, not_le.mp fun hle => hskip ⟨hrecorded, hle⟩, ?_⟩)
    obtain ⟨u, s₃, h3, h⟩ := Effect.run_bind_eq_ok.mp h
    obtain ⟨n, s₄, h4, h⟩ := Effect.run_bind_eq_ok.mp h
    obtain ⟨r₃, rfl⟩ := pricing_eq_ok h4
    cases h
    refine ⟨if P.options.mode = .batch then result.batchNs else n, result, r₁, r₂, r₃, htrial, ?_⟩
    by_cases hcap : result.status = .memoryCap
    · rw [if_pos hcap] at h3
      cases h3
      unfold record
      simp only [if_pos hcap]
      rfl
    · rw [if_neg hcap] at h3
      cases h3
      unfold record
      simp only [if_neg hcap]
  · rw [if_pos hrecorded] at h
    cases h
    exact .inr (.inl ⟨hrecorded, r₂, rfl⟩)

end Records

/-! ## The loops -/

section Loops

/-- No row has been written in between. -/
def SameRuns (s t : Campaign) : Prop := t.runs = s.runs

theorem SameRuns.trans {s t u : Campaign} (h : SameRuns s t) (h' : SameRuns t u) : SameRuns s u :=
  Eq.trans h' h

/-- **One visit** that throws has not written a row. -/
theorem measure_aborts (visit : Visit D) : Aborts SameRuns (P.measure visit) := by
  have hrefl : ∀ s, SameRuns s s := fun _ => rfl
  have hreplaying : ∀ {α : Type} (x : EStateM Exception ℕ α), Within SameRuns (replaying x) :=
    fun x => .zoom (Q := fun _ _ => True) (fun _ => trivial) fun _ _ _ => rfl
  unfold measure
  refine Aborts.bind (R := SameRuns) .trans hrefl fun this => ?_
  refine .ite (fun _ => .pure _) fun _ => ?_
  refine .bind .trans (.ite (fun _ => hreplaying _) fun _ => .pure hrefl _) fun batchNs => ?_
  refine .bind .trans (hreplaying _) fun result => ?_
  refine .ite (fun _ => .pure _) fun _ => ?_
  refine .bind .trans (.ite (fun _ _ => rfl) fun _ => .pure hrefl _) fun _ => ?_
  refine .bind .trans (.ite (fun _ => hreplaying _) fun _ => .pure hrefl _) fun _ => ?_
  exact .bind .trans (fun s => crossCheck_runs) fun _ => .modify _

theorem through_variant (workload : FrozenWorkload D) (size attempt : ℕ)
    (initial : List ValueType) (variant : D) :
    Through P.Measures SameRuns (P.variantVisits workload size attempt initial variant)
      (P.runVariant workload size attempt initial variant) :=
  .ite (fun _ => .pure _) fun _ => .ite (fun _ => .pure _) fun _ =>
    .lift (fun _ => rfl) fun _ _ => .forM fun _ _ => .step (fun _ _ _ h => h) (measure_aborts _)

theorem through_attempt (workload : FrozenWorkload D) (size attempt : ℕ) :
    Through P.Measures SameRuns (P.attemptVisits workload size attempt)
      (P.runAttempt workload size attempt) :=
  .ite (fun _ => .pure _) fun _ => .lift (fun _ => rfl) fun initial _ =>
    .forM fun variant _ => through_variant _ _ _ initial variant

theorem through_size (workload : FrozenWorkload D) (size : ℕ) :
    Through P.Measures SameRuns (P.sizeVisits workload size) (P.runSize workload size) :=
  .ite (fun _ => .pure _) fun _ => .forM fun attempt _ => through_attempt workload size attempt

theorem through_workload (original : FrozenWorkload D) :
    Through P.Measures SameRuns (P.workloadVisits original) (P.runWorkload original) :=
  .ite (fun _ => .forM fun size _ => through_size _ size) fun _ => .pure _

theorem through_plan : Through P.Measures SameRuns P.visits (P.plan.forM P.runWorkload) :=
  .forM fun original _ => through_workload original

variable {s t : Campaign} {e : Exception} {code : ℕ}

/-- **The loops.** A campaign that returns has made its visits in order. -/
theorem run_steps (h : P.run s = .ok code t) :
    Steps P.Measures P.visits s t ∧ code = if t.mismatches > 0 then 1 else 0 := by
  obtain ⟨u, s', hloops, h⟩ := Effect.run_bind_eq_ok.mp h
  cases h
  exact ⟨through_plan.returns s u _ hloops, rfl⟩

/-- A campaign that throws has made the first of its visits, and its rows are theirs. -/
theorem run_aborts (h : P.run s = .error e t) :
    ∃ done u, done <+: P.visits ∧ Steps P.Measures done s u ∧ SameRuns u t := by
  rcases Effect.run_bind_eq_error.mp h with h | ⟨u, s', -, h⟩
  · exact through_plan.throws s e t h
  · cases h

end Loops

/-! ## Which visits are planned -/

section Planned

variable (P) in
/-- What `std::shuffle` does: it permutes. -/
def Permutes : Prop := ∀ seed jobs, (P.shuffle seed jobs).Perm jobs

variable (P) in
/-- The workload, the size, the attempt, the variant and the structure are all asked for. -/
structure Planned (visit : Visit D) : Prop where
  workload : ∃ original ∈ P.plan, P.selects original = true ∧ visit.workload = P.scaled original
  size : visit.size ∈ visit.workload.sizes
  sizeFilter : P.options.sizeFilter = 0 ∨ visit.size = P.options.sizeFilter
  attempt : visit.attempt < P.options.attempts
  trial : ¬ P.SkipsAttempt visit.attempt
  variant : visit.job.variant ∈ visit.workload.variants
  variantFilter : P.skipsVariant visit.job.variant = false
  initial : initialArray P.rng visit.size (P.options.seedAt visit.attempt) = .ok visit.initial
  stream : P.streamOf visit.workload visit.size visit.job.variant
    (P.options.seedAt visit.attempt) = .ok visit.stream
  job : visit.job ∈ P.jobsOf visit.workload visit.size visit.job.variant

variable {workload original : FrozenWorkload D} {size attempt interval : ℕ} {variant : D}
  {job : Job D} {visit : Visit D} {subject : Structure}

theorem mem_pointsAfter {ε α π : Type} {z : Except ε α} {ps : α → List π} {p : π} :
    p ∈ pointsAfter z ps ↔ ∃ a, z = .ok a ∧ p ∈ ps a := by
  unfold pointsAfter
  rcases z with e | a <;> simp

/-- A job is of the structure and the variant. -/
theorem jobOf_eq_some (h : P.jobOf workload interval variant subject = some job) :
    job.subject = subject ∧ job.variant = variant := by
  unfold jobOf at h
  split_ifs at h <;> cases h <;> exact ⟨rfl, rfl⟩

theorem mem_jobsOf (h : job ∈ P.jobsOf workload size variant) :
    job.subject ∈ P.table ∧ job.variant = variant := by
  obtain ⟨subject, hsubject, hjob⟩ := List.mem_filterMap.mp h
  obtain ⟨rfl, rfl⟩ := jobOf_eq_some hjob
  exact ⟨hsubject, rfl⟩

theorem orderedJobs_perm (hshuffle : P.Permutes) (workload : FrozenWorkload D)
    (size attempt : ℕ) (variant : D) :
    (P.orderedJobs workload size attempt variant).Perm (P.jobsOf workload size variant) := by
  unfold orderedJobs
  simp only
  split_ifs
  · exact hshuffle _ _
  · exact .refl _

/-- The visits of the innermost loop. -/
theorem planned_of_entry {initial : List ValueType} {stream : List Operation} {entry : Job D × ℕ}
    (hshuffle : P.Permutes) (hplan : original ∈ P.plan) (hselects : P.selects original = true)
    (hsize : size ∈ (P.scaled original).sizes)
    (hfilter : ¬ (P.options.sizeFilter ≠ 0 ∧ size ≠ P.options.sizeFilter))
    (hattempt : attempt ∈ List.range P.options.attempts) (htrial : ¬ P.SkipsAttempt attempt)
    (hinitial : initialArray P.rng size (P.options.seedAt attempt) = .ok initial)
    (hvariant : variant ∈ (P.scaled original).variants) (hskip : ¬ P.skipsVariant variant = true)
    (hstream : P.streamOf (P.scaled original) size variant (P.options.seedAt attempt) = .ok stream)
    (hentry : entry ∈ (P.orderedJobs (P.scaled original) size attempt variant).zipIdx) :
    P.Planned ⟨⟨P.scaled original, size, attempt, initial, stream⟩, entry.2, entry.1⟩ := by
  have hjob := (orderedJobs_perm hshuffle _ size attempt variant).mem_iff.mp
    (List.fst_mem_of_mem_zipIdx hentry)
  have heq : entry.1.variant = variant := (mem_jobsOf hjob).2
  refine ⟨⟨original, hplan, hselects, rfl⟩, hsize, ?_, List.mem_range.mp hattempt, htrial,
    heq ▸ hvariant, ?_, hinitial, heq ▸ hstream, heq ▸ hjob⟩
  · simp only
    tauto
  · show P.skipsVariant entry.1.variant = false
    rw [heq, Bool.eq_false_iff]
    exact hskip

/-- **The visits** are those that are planned. -/
theorem planned_of_mem (hshuffle : P.Permutes) (h : visit ∈ P.visits) : P.Planned visit := by
  unfold visits at h
  obtain ⟨original, hplan, h⟩ := List.mem_flatMap.mp h
  unfold workloadVisits at h
  split_ifs at h with hselects
  swap
  · exact absurd h List.not_mem_nil
  obtain ⟨size, hsize, h⟩ := List.mem_flatMap.mp h
  unfold sizeVisits at h
  split_ifs at h with hfilter
  · exact absurd h List.not_mem_nil
  obtain ⟨attempt, hattempt, h⟩ := List.mem_flatMap.mp h
  unfold attemptVisits at h
  split_ifs at h with hskips
  · exact absurd h List.not_mem_nil
  obtain ⟨initial, hinitial, h⟩ := mem_pointsAfter.mp h
  obtain ⟨variant, hvariant, h⟩ := List.mem_flatMap.mp h
  unfold variantVisits at h
  split_ifs at h with hskip hjobs
  · exact absurd h List.not_mem_nil
  · exact absurd h List.not_mem_nil
  obtain ⟨stream, hstream, h⟩ := mem_pointsAfter.mp h
  obtain ⟨entry, hentry, h⟩ := List.mem_flatMap.mp h
  obtain rfl := List.mem_singleton.mp h
  exact planned_of_entry hshuffle hplan hselects hsize hfilter hattempt hskips hinitial hvariant
    hskip hstream hentry

/-- What is planned is visited, at some position. -/
theorem exists_mem_of_planned (hshuffle : P.Permutes) (h : P.Planned visit) :
    ∃ position, { visit with position := position } ∈ P.visits := by
  obtain ⟨original, hplan, hselects, hworkload⟩ := h.workload
  have hjob := (orderedJobs_perm hshuffle visit.workload visit.size visit.attempt
    visit.job.variant).mem_iff.mpr h.job
  obtain ⟨position, hposition, hat⟩ := List.getElem_of_mem hjob
  refine ⟨position, ?_⟩
  unfold visits
  refine List.mem_flatMap.mpr ⟨original, hplan, ?_⟩
  unfold workloadVisits
  rw [if_pos hselects, ← hworkload]
  refine List.mem_flatMap.mpr ⟨visit.size, h.size, ?_⟩
  unfold sizeVisits
  rw [if_neg (by have := h.sizeFilter; tauto)]
  refine List.mem_flatMap.mpr ⟨visit.attempt, List.mem_range.mpr h.attempt, ?_⟩
  unfold attemptVisits
  rw [if_neg h.trial]
  refine mem_pointsAfter.mpr ⟨visit.initial, h.initial,
    List.mem_flatMap.mpr ⟨visit.job.variant, h.variant, ?_⟩⟩
  have hjobs : P.jobsOf visit.workload visit.size visit.job.variant ≠ [] :=
    List.ne_nil_of_mem h.job
  unfold variantVisits
  rw [if_neg (by rw [h.variantFilter]; exact Bool.false_ne_true), if_neg hjobs]
  refine mem_pointsAfter.mpr ⟨visit.stream, h.stream,
    List.mem_flatMap.mpr ⟨(visit.job, position), ?_, List.mem_singleton.mpr rfl⟩⟩
  rw [List.mk_mem_zipIdx_iff_getElem?, List.getElem?_eq_getElem hposition, hat]

/-- A campaign that returns has made the array and the stream of every job it came to. -/
theorem exists_planned {s t : Campaign} {code : ℕ} (h : P.run s = .ok code t)
    (hplan : original ∈ P.plan) (hselects : P.selects original = true)
    (hsize : size ∈ (P.scaled original).sizes)
    (hfilter : P.options.sizeFilter = 0 ∨ size = P.options.sizeFilter)
    (hattempt : attempt < P.options.attempts) (htrial : ¬ P.SkipsAttempt attempt)
    (hvariant : variant ∈ (P.scaled original).variants) (hskip : P.skipsVariant variant = false)
    (hjob : job ∈ P.jobsOf (P.scaled original) size variant) : ∃ initial stream,
      P.Planned ⟨⟨P.scaled original, size, attempt, initial, stream⟩, 0, job⟩ := by
  obtain ⟨⟨⟩, s₁, hloops, -⟩ := Effect.run_bind_eq_ok.mp h
  obtain ⟨_, _, hworkload⟩ := Effect.exists_of_forM hloops hplan
  unfold runWorkload at hworkload
  rw [if_pos hselects] at hworkload
  obtain ⟨_, _, hsizes⟩ := Effect.exists_of_forM hworkload hsize
  unfold runSize at hsizes
  rw [if_neg (by tauto)] at hsizes
  obtain ⟨_, _, hrun⟩ := Effect.exists_of_forM hsizes (List.mem_range.mpr hattempt)
  unfold runAttempt at hrun
  rw [if_neg htrial] at hrun
  obtain ⟨initial, hinitial, hvariants⟩ := Effect.run_liftM_bind_eq_ok.mp hrun
  obtain ⟨_, _, hruns⟩ := Effect.exists_of_forM hvariants hvariant
  have hjobs : P.jobsOf (P.scaled original) size variant ≠ [] := List.ne_nil_of_mem hjob
  unfold runVariant at hruns
  rw [if_neg (by rw [hskip]; exact Bool.false_ne_true), if_neg hjobs] at hruns
  obtain ⟨stream, hstream, -⟩ := Effect.run_liftM_bind_eq_ok.mp hruns
  have heq : job.variant = variant := (mem_jobsOf hjob).2
  exact ⟨initial, stream, ⟨original, hplan, hselects, rfl⟩, hsize, hfilter, hattempt, htrial,
    heq ▸ hvariant, heq ▸ hskip, hinitial, heq ▸ hstream, heq ▸ hjob⟩

end Planned

end Process

end Bench

end Valseg
