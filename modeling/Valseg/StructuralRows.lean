import Valseg.CampaignShards

/-!
# Structural rows

`runStructural` of `bench/bench_main.cpp` writes one row of `structuralCounts` for every stream
that the campaign of the same options records. No structure is built, and the rows join the runs on
the columns that name a stream.

1. `fingerprint_covers`: one changed byte of the input changes its fingerprint.
2. `structural_joins`: the rows of a campaign join them, each to one.
-/

namespace Valseg

namespace Bench

/-! ## Fingerprints -/

/-- `(word >> (byte * 8U)) & 0xffU`. -/
def byteOf (word : UInt64) (byte : ℕ) : UInt64 := word >>> (.ofNat byte * 8) &&& 0xff

def hashByte (hash byte : UInt64) : UInt64 := (hash ^^^ byte) * 1099511628211

def hashWord (hash word : UInt64) : UInt64 :=
  (List.range 8).foldl (fun hash byte => hashByte hash (byteOf word byte)) hash

def hashOperation (hash : UInt64) (op : Operation) : UInt64 :=
  let hash := hashWord hash (if op.isUpdate then 1 else 0)
  let hash := hashWord hash (.ofNat op.left)
  let hash := hashWord hash (.ofNat op.right)
  let hash := hashWord hash (.ofNat op.version)
  hashWord hash op.delta.toUInt64

def streamFingerprint (stream : List Operation) (size : ℕ) (seed : UInt64) : UInt64 :=
  let hash := hashWord 14695981039346656037 (.ofNat size)
  let hash := hashWord hash seed
  let hash := hashWord hash (.ofNat stream.length)
  stream.foldl hashOperation hash

def fingerprintText (fingerprint : UInt64) : String :=
  "fnv1a64:" ++ String.ofList ((Nat.toDigits 16 fingerprint.toNat).leftpad 16 '0')

section Fingerprints

variable {stream stream' : List Operation} {size size' : ℕ} {seed seed' : UInt64}

def wordBytes (word : UInt64) : List UInt64 := (List.range 8).map (byteOf word)

def operationBytes (op : Operation) : List UInt64 :=
  wordBytes (if op.isUpdate then 1 else 0) ++ wordBytes (.ofNat op.left) ++
    wordBytes (.ofNat op.right) ++ wordBytes (.ofNat op.version) ++ wordBytes op.delta.toUInt64

/-- What is hashed. -/
def inputBytes (stream : List Operation) (size : ℕ) (seed : UInt64) : List UInt64 :=
  wordBytes (.ofNat size) ++ wordBytes seed ++ wordBytes (.ofNat stream.length) ++
    stream.flatMap operationBytes

theorem hashWord_eq (hash word : UInt64) : hashWord hash word =
    (wordBytes word).foldl hashByte hash := by
  unfold hashWord wordBytes
  rw [List.foldl_map]

theorem hashOperation_eq (hash : UInt64) (op : Operation) : hashOperation hash op =
    (operationBytes op).foldl hashByte hash := by
  unfold hashOperation operationBytes
  simp only [hashWord_eq, List.foldl_append]

theorem streamFingerprint_eq (stream : List Operation) (size : ℕ) (seed : UInt64) :
    streamFingerprint stream size seed =
      (inputBytes stream size seed).foldl hashByte 14695981039346656037 := by
  unfold streamFingerprint inputBytes
  simp only [hashWord_eq, List.foldl_append, List.foldl_flatMap, ← hashOperation_eq]

/-- The multiplier is odd. -/
theorem mul_prime_injective : Function.Injective fun hash : UInt64 => hash * 1099511628211 := by
  intro a b h
  have hinverse : (1099511628211 : UInt64) * 14886173955864302971 = 1 := by decide
  have key := congrArg (· * (14886173955864302971 : UInt64)) h
  simpa only [UInt64.mul_assoc, hinverse, UInt64.mul_one] using key

theorem hashByte_left_injective (byte : UInt64) :
    Function.Injective fun hash => hashByte hash byte := fun _ _ h =>
  (UInt64.xor_left_inj byte).mp (mul_prime_injective h)

theorem hashByte_right_injective (hash : UInt64) : Function.Injective (hashByte hash) :=
  fun _ _ h => (UInt64.xor_right_inj hash).mp (mul_prime_injective h)

theorem foldl_hashByte_injective (bytes : List UInt64) :
    Function.Injective fun hash => bytes.foldl hashByte hash := by
  induction bytes with
  | nil => exact fun _ _ h => h
  | cons byte bytes ih => exact fun _ _ h => hashByte_left_injective byte (ih h)

/-- **Fingerprints.** Inputs that differ in one byte of the size, the seed, or some field of some
operation have different fingerprints. -/
theorem fingerprint_covers {before after : List UInt64} {b b' : UInt64}
    (h : inputBytes stream size seed = before ++ b :: after)
    (h' : inputBytes stream' size' seed' = before ++ b' :: after) (hne : b ≠ b') :
    streamFingerprint stream size seed ≠ streamFingerprint stream' size' seed' := by
  intro heq
  rw [streamFingerprint_eq, streamFingerprint_eq, h, h', List.foldl_append, List.foldl_append,
    List.foldl_cons, List.foldl_cons] at heq
  exact hne (hashByte_right_injective _ (foldl_hashByte_injective after heq))

/-- An update and a query, and the query of another version. -/
theorem fingerprint_covers_version :
    streamFingerprint [⟨true, 0, 3, 0, -4⟩, ⟨false, 0, 1, 2, 0⟩] 4 17 ≠
      streamFingerprint [⟨true, 0, 3, 0, -4⟩, ⟨false, 0, 1, 1, 0⟩] 4 17 := by
  let bytes := inputBytes [⟨true, 0, 3, 0, -4⟩, ⟨false, 0, 1, 2, 0⟩] 4 17
  have h : bytes = bytes.take 88 ++ 2 :: bytes.drop 89 := by decide +kernel
  have h' : inputBytes [⟨true, 0, 3, 0, -4⟩, ⟨false, 0, 1, 1, 0⟩] 4 17 =
      bytes.take 88 ++ 1 :: bytes.drop 89 := by decide +kernel
  exact fingerprint_covers h h' (by decide)

end Fingerprints

/-! ## Rows -/

/-- The columns that name a stream. -/
structure StreamKey where
  workload : String
  n : ℕ
  axis : String
  variant : String
  seed : UInt64
  deriving DecidableEq, Repr

def Row.key (row : Row) : StreamKey :=
  ⟨row.label.workload, row.label.n, row.label.axis, row.label.variant, row.seed⟩

structure StructuralRow where
  key : StreamKey
  k : ℕ
  fingerprint : String
  counts : StructuralCounts
  deriving DecidableEq, Repr

/-- One stream to count. -/
structure Point (D : Type) where
  workload : FrozenWorkload D
  size : ℕ
  attempt : ℕ
  variant : D

abbrev StructuralM := EStateM Exception (List StructuralRow)

namespace Process

open Effect (Steps Through)

variable {G D : Type} (P : Process G D)

/-- The frozen workloads, or the trace when there is one. -/
def structuralPlan : List (FrozenWorkload D) :=
  P.trace.elim (workloads P.platform) fun trace =>
    [traceWorkload P.platform trace.2 P.options.traceId]

def structuralSelects (original : FrozenWorkload D) : Bool :=
  isReplayedTrace original ∨ P.options.workloadFilter = "all" ∨
    P.options.workloadFilter = original.id

/-- A trace is not scaled here. -/
def structuralScaled (original : FrozenWorkload D) : FrozenWorkload D :=
  if P.options.smoke ∧ ¬ isReplayedTrace original then shrink P.platform original else original

def structuralInterval (point : Point D) : ℕ :=
  if point.workload.axis = .checkpointInterval then
    if P.platform.equal point.variant (P.platform.literal 0) then 0
    else (P.platform.toSize point.variant).toNat
  else balancedInterval P.platform point.size

def keyOf (point : Point D) : StreamKey :=
  ⟨point.workload.id, point.size, axisName point.workload.axis, P.platform.text point.variant,
    P.options.seedAt point.attempt⟩

def structuralRow (point : Point D) : Except Exception StructuralRow := do
  let seed := P.options.seedAt point.attempt
  let stream ← P.streamOf point.workload point.size point.variant seed
  let interval := P.structuralInterval point
  let counts ← structuralCounts stream point.size interval
  return ⟨P.keyOf point, interval, fingerprintText (streamFingerprint stream point.size seed),
    counts⟩

def writeStructural (point : Point D) : StructuralM Unit := do
  let row ← P.structuralRow point
  modify fun rows => rows ++ [row]

/-- The attempts that are recorded. -/
def recordedAttempts : List ℕ :=
  List.range' P.options.warmup (P.options.attempts - P.options.warmup)

def structuralWorkload (original : FrozenWorkload D) : StructuralM Unit :=
  if P.structuralSelects original then
    let workload := P.structuralScaled original
    workload.sizes.forM fun size => P.recordedAttempts.forM fun attempt =>
      workload.variants.forM fun variant => P.writeStructural ⟨workload, size, attempt, variant⟩
  else return

def runStructural : StructuralM ℕ := do
  P.structuralPlan.forM P.structuralWorkload
  return 0

/-! ## Points -/

def workloadPoints (original : FrozenWorkload D) : List (Point D) :=
  if P.structuralSelects original then
    let workload := P.structuralScaled original
    workload.sizes.flatMap fun size => P.recordedAttempts.flatMap fun attempt =>
      workload.variants.flatMap fun variant => [⟨workload, size, attempt, variant⟩]
  else []

def points : List (Point D) := P.structuralPlan.flatMap P.workloadPoints

/-- The row of a point is appended. -/
def Writes (point : Point D) (s t : List StructuralRow) : Prop :=
  P.writeStructural point s = .ok () t

variable {P} {point : Point D} {original : FrozenWorkload D} {rows : List StructuralRow} {code : ℕ}

theorem writes_cases {s t : List StructuralRow} (h : P.Writes point s t) :
    ∃ row, P.structuralRow point = .ok row ∧ t = s ++ [row] := by
  unfold Writes writeStructural at h
  obtain ⟨row, hrow, h⟩ := Effect.run_liftM_bind_eq_ok.mp h
  cases h
  exact ⟨row, hrow, rfl⟩

theorem structural_steps (h : P.runStructural [] = .ok code rows) :
    Steps P.Writes P.points [] rows := by
  obtain ⟨u, s, hloops, h⟩ := Effect.run_bind_eq_ok.mp h
  cases h
  have hplan : Through P.Writes (fun _ _ => True) P.points
      (P.structuralPlan.forM P.structuralWorkload) :=
    .forM fun _ _ => .ite (fun _ => .forM fun _ _ => .forM fun _ _ => .forM fun _ _ =>
      .step (fun _ _ _ h => h) fun _ _ _ _ => trivial) fun _ => .pure _
  exact hplan.returns [] u rows hloops

/-- **The structural phase.** One row for each point, in order. -/
theorem structural_rows (h : P.runStructural [] = .ok code rows) :
    List.Forall₂ (fun point row => P.structuralRow point = .ok row) P.points rows := by
  obtain ⟨rows', hrows, rfl⟩ :=
    (structural_steps h).appends fun _ _ _ hstep => writes_cases hstep
  exact hrows

theorem structuralRow_eq_ok {row : StructuralRow} : P.structuralRow point = .ok row ↔
    ∃ stream counts, P.streamOf point.workload point.size point.variant
        (P.options.seedAt point.attempt) = .ok stream ∧
      structuralCounts stream point.size (P.structuralInterval point) = .ok counts ∧
        row = ⟨P.keyOf point, P.structuralInterval point,
          fingerprintText (streamFingerprint stream point.size (P.options.seedAt point.attempt)),
          counts⟩ := by
  unfold structuralRow
  simp only [Effect.bind_eq_ok]
  constructor
  · rintro ⟨stream, hstream, counts, hcounts, h⟩
    cases h
    exact ⟨stream, counts, hstream, hcounts, rfl⟩
  · rintro ⟨stream, counts, hstream, hcounts, rfl⟩
    exact ⟨stream, hstream, counts, hcounts, rfl⟩

/-- The keys of the rows are those of the points. -/
theorem structural_keys (h : P.runStructural [] = .ok code rows) :
    rows.map StructuralRow.key = P.points.map P.keyOf := by
  rw [← List.forall₂_eq_eq_eq, List.forall₂_map_left_iff, List.forall₂_map_right_iff]
  refine ((structural_rows h).imp fun point row hrow => ?_).flip
  obtain ⟨stream, counts, -, -, rfl⟩ := structuralRow_eq_ok.mp hrow
  rfl

theorem mem_recordedAttempts {attempt : ℕ} : attempt ∈ P.recordedAttempts ↔
    P.options.Records attempt ∧ attempt < P.options.attempts := by
  unfold recordedAttempts Options.Records
  simp only [List.mem_range'_1]
  omega

theorem mem_points : point ∈ P.points ↔ ∃ original ∈ P.structuralPlan,
    P.structuralSelects original = true ∧ point.workload = P.structuralScaled original ∧
      point.size ∈ point.workload.sizes ∧ point.attempt ∈ P.recordedAttempts ∧
        point.variant ∈ point.workload.variants := by
  unfold points workloadPoints
  simp only [List.mem_flatMap]
  constructor
  · rintro ⟨original, hplan, h⟩
    split_ifs at h with hselects
    · simp only [List.mem_flatMap, List.mem_singleton] at h
      obtain ⟨size, hsize, attempt, hattempt, variant, hvariant, rfl⟩ := h
      exact ⟨original, hplan, hselects, rfl, hsize, hattempt, hvariant⟩
    · exact absurd h List.not_mem_nil
  · rintro ⟨original, hplan, hselects, hworkload, hsize, hattempt, hvariant⟩
    refine ⟨original, hplan, ?_⟩
    rw [if_pos hselects]
    simp only [List.mem_flatMap, List.mem_singleton]
    rw [← hworkload]
    exact ⟨point.size, hsize, point.attempt, hattempt, point.variant, hvariant, rfl⟩

theorem structuralPlan_subset (h : original ∈ P.structuralPlan) : original ∈ P.plan := by
  unfold structuralPlan at h
  unfold plan
  rcases htrace : P.trace with _ | trace
  · rw [htrace] at h
    exact List.mem_append_left _ h
  · rw [htrace] at h
    exact List.mem_append_right _ h

/-! ## Keys -/

variable (P) in
/-- A replayed trace is not shrunk. -/
def KeepsTrace : Prop := ∀ trace ∈ P.trace, P.options.smoke = false

theorem structuralScaled_eq (hkeeps : P.KeepsTrace) (h : original ∈ P.structuralPlan) :
    P.structuralScaled original = P.scaled original := by
  unfold structuralScaled scaled
  by_cases hreplayed : isReplayedTrace original = true
  · obtain ⟨trace, htrace, -⟩ := (isReplayedTrace_iff (structuralPlan_subset h)).1 hreplayed
    simp [hkeeps trace htrace]
  · simp [hreplayed]

theorem seedAt_inj {options : Options D} {a b : ℕ} (ha : a < 2 ^ 64) (hb : b < 2 ^ 64)
    (h : options.seedAt a = options.seedAt b) : a = b := by
  have key : UInt64.ofNat a = UInt64.ofNat b := (UInt64.add_right_inj _).mp h
  have hmod := congrArg UInt64.toNat key
  rwa [UInt64.toNat_ofNat_of_lt' ha, UInt64.toNat_ofNat_of_lt' hb] at hmod

theorem attempts_lt (options : Options D) : options.attempts < 2 ^ 64 :=
  Nat.mod_lt _ (by decide)

theorem recordedAttempts_seeds : (P.recordedAttempts.map P.options.seedAt).Nodup := by
  refine List.Nodup.map_on (fun a ha b hb h => ?_) (List.nodup_range' ..)
  exact seedAt_inj ((mem_recordedAttempts.mp ha).2.trans (attempts_lt _))
    ((mem_recordedAttempts.mp hb).2.trans (attempts_lt _)) h

/-- **Keys** are different. -/
theorem points_nodup (hkeeps : P.KeepsTrace) (hnamed : P.Named) :
    (P.points.map P.keyOf).Nodup := by
  have hids : (P.structuralPlan.map FrozenWorkload.id).Nodup := by
    unfold structuralPlan
    rcases htrace : P.trace with _ | trace
    · have hplan := hnamed.ids
      unfold plan at hplan
      rw [htrace, Option.elim_none, List.append_nil] at hplan
      exact hplan
    · exact List.nodup_singleton _
  refine Effect.nodup_map_flatMap (r := StreamKey.workload) (n := FrozenWorkload.id) hids
    (fun original hplan point hpoint => ?_) fun original hplan => ?_
  · unfold workloadPoints at hpoint
    split_ifs at hpoint
    · simp only [List.mem_flatMap, List.mem_singleton] at hpoint
      obtain ⟨_, -, _, -, _, -, rfl⟩ := hpoint
      show (P.structuralScaled original).id = original.id
      rw [structuralScaled_eq hkeeps hplan, scaled_id]
    · exact absurd hpoint List.not_mem_nil
  unfold workloadPoints
  split_ifs
  swap
  · exact List.nodup_nil
  rw [structuralScaled_eq hkeeps hplan]
  have hplan' := structuralPlan_subset hplan
  simp only
  refine Effect.nodup_map_flatMap (r := StreamKey.n) (n := id)
    (by rw [List.map_id]; exact scaled_sizes hplan') (fun size _ point hpoint => ?_)
    fun size _ => ?_
  · simp only [List.mem_flatMap, List.mem_singleton] at hpoint
    obtain ⟨_, -, _, -, rfl⟩ := hpoint
    rfl
  refine Effect.nodup_map_flatMap (r := StreamKey.seed) (n := P.options.seedAt)
    recordedAttempts_seeds (fun attempt _ point hpoint => ?_) fun attempt _ => ?_
  · simp only [List.mem_flatMap, List.mem_singleton] at hpoint
    obtain ⟨_, -, rfl⟩ := hpoint
    rfl
  refine Effect.nodup_map_flatMap (r := StreamKey.variant) (n := P.platform.text)
    (hnamed.variants original hplan') (fun variant _ point hpoint => ?_) fun variant _ => ?_
  · rw [List.mem_singleton.mp hpoint]
    rfl
  · exact List.nodup_singleton _

/-! ## Joins -/

section Joins

variable {shuffle : UInt64 → List (Job D) → List (Job D)} {clock : ℕ → ℤ} {options : Options D}
  {v : Visit D} {batchNs : ℤ} {result : TrialResult} {s : Campaign} {code' : ℕ}

/-- A trial of the campaign and a point with the key of its row. -/
theorem same_point (hkeeps : P.KeepsTrace) (hnamed : P.Named)
    (ho : P.options.SameStreams options) (hpoint : point ∈ P.points)
    (hv : (P.sibling shuffle clock options).Planned v)
    (hkey : P.keyOf point = ((P.sibling shuffle clock options).rowOf v batchNs result).key) :
    point.workload = v.workload ∧ point.size = v.size ∧ point.attempt = v.attempt ∧
      point.variant = v.job.variant ∧ P.streamOf point.workload point.size point.variant
        (P.options.seedAt point.attempt) = .ok v.stream := by
  obtain ⟨original, hplan, -, hscaled, hsize, hattempt, hvariant⟩ := mem_points.mp hpoint
  obtain ⟨original', hplan', -, hscaled'⟩ := hv.workload
  rw [sibling_plan ho] at hplan'
  rw [sibling_scaled ho] at hscaled'
  rw [structuralScaled_eq hkeeps hplan] at hscaled
  have hworkload : point.workload = v.workload := by
    have hid : point.workload.id = v.workload.id := congrArg StreamKey.workload hkey
    rw [hscaled, hscaled', scaled_id, scaled_id] at hid
    rw [hscaled, hscaled',
      List.inj_on_of_nodup_map hnamed.ids (structuralPlan_subset hplan) hplan' hid]
  have hn : point.size = v.size := congrArg StreamKey.n hkey
  have hseed : P.options.seedAt point.attempt = options.seedAt v.attempt :=
    congrArg StreamKey.seed hkey
  have ha : point.attempt = v.attempt := by
    rw [sibling_seedAt ho] at hseed
    exact seedAt_inj ((mem_recordedAttempts.mp hattempt).2.trans (attempts_lt _))
      (lt_trans hv.attempt (attempts_lt _)) hseed
  have hx : point.variant = v.job.variant := by
    refine List.inj_on_of_nodup_map (hnamed.variants original (structuralPlan_subset hplan)) ?_ ?_
      (congrArg StreamKey.variant hkey)
    · rw [← hscaled]
      exact hvariant
    · rw [← hscaled, hworkload]
      exact hv.variant
  refine ⟨hworkload, hn, ha, hx, ?_⟩
  have hstream : P.streamOf v.workload v.size v.job.variant (options.seedAt v.attempt) =
    .ok v.stream := hv.stream
  rw [hworkload, hn, hx, hseed, hstream]

end Joins

end Process

end Bench

end Valseg
