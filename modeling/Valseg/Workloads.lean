import Valseg.FrontierClosedForm
import Valseg.Lib.Throwing
import Valseg.Traces

/-!
# Workloads

`generate` of `bench/workloads.cpp`: the stream of operations of one cell of the run matrix. The
random engine is any source of 64-bit words, and the arithmetic of `double` is any set of
operations, with conversions to any sizes. `generate_valid` says that what is drawn is a valid
stream whatever they do, as long as a vector of so many operations is possible.
-/

namespace Valseg

namespace Bench

/-! ## What is drawn from -/

/-- `std::mt19937_64`. -/
structure RandomEngine (G : Type) where
  seeded : UInt64 → G
  next : G → UInt64 × G

/-- The operations on `double`. The last two compare with `<` and `>=`, which are not each other's
negation. -/
structure FloatingPoint (D : Type) where
  literal : ℚ → D
  ofWord : ℕ → D
  toSize : D → UInt64
  add : D → D → D
  mul : D → D → D
  pow : D → D → D
  neg : D → D
  less : D → D → Bool
  atLeast : D → D → Bool

inductive RangeShape
  | uniform
  | point
  | full
  | fixedWidth
  | hot
  deriving DecidableEq, Repr

inductive VersionPick
  | latest
  | uniform
  | oldAndRecent
  | zipf
  | ancient
  deriving DecidableEq, Repr

inductive VariantAxis
  | none
  | checkpointInterval
  | updateBudget
  | rangeWidth
  | zipf
  | hotShare
  | zeroDeltaShare
  | ageShare
  deriving DecidableEq, Repr

/-- What `generate` reads of a workload. -/
structure Workload (D : Type) where
  operations : ℕ
  updateFraction : D
  zeroDeltaFraction : D
  shape : RangeShape
  versions : VersionPick
  skew : D
  axis : VariantAxis
  queryTail : ℕ

/-- Computations that draw from the engine. -/
abbrev RandomM (G : Type) := EStateM Exception G

variable {G D : Type}

section Drawing

variable (rng : RandomEngine G) (fp : FloatingPoint D)

/-- A draw below the bound. The remainder of a division by zero is undefined. -/
def below (bound : ℕ) : RandomM G ℕ := do
  let word ← modifyGet rng.next
  if bound = 0 then throw .undefined else pure (word.toNat % bound)

def unitDouble : RandomM G D := do
  let word ← modifyGet rng.next
  return fp.mul (fp.ofWord (word >>> 11).toNat) (fp.literal (1 / 9007199254740992))

/-! ## Versions -/

/-- `std::upper_bound` over `length` elements from `first` on: the half of them that is looked at
next is decided by the one in the middle, whether or not they are in order. -/
def upperBound (values : List D) (first length : ℕ) (value : D) : Except Exception ℕ :=
  if length = 0 then .ok first
  else do
    let half := length / 2
    let middle := first + half
    if fp.less value (← vectorAt values middle) then upperBound values first half value
    else upperBound values (middle + 1) (length - half - 1) value
termination_by length
decreasing_by all_goals omega

def pickVersion (workload : Workload D) (harmonic : List D) (ageShare : D)
    (published queryIndex : ℕ) : RandomM G ℕ := do
  let latest ← uncheckedSubtract published 1
  match workload.versions with
  | .latest => pure latest
  | .uniform => below rng published
  | .oldAndRecent =>
    if queryIndex % 2 = 0 then below rng published
    else do
      let age ← below rng (max 1 (published / 20))
      uncheckedSubtract latest age
  | .zipf => do
    let unit ← unitDouble rng fp
    let sum ← vectorAt harmonic published
    let rank ← upperBound fp harmonic 1 published (fp.mul unit sum)
    let age ← uncheckedSubtract rank 1
    uncheckedSubtract latest (min latest age)
  | .ancient =>
    let window := max 1 (fp.toSize (fp.mul (fp.ofWord published) ageShare)).toNat
    below rng (min window published)

/-! ## Ranges -/

/-- Two draws from `base` on, in order. -/
def pickEndpoints (base span : ℕ) : RandomM G (ℕ × ℕ) := do
  let first ← uncheckedAdd base (← below rng span)
  let second ← uncheckedAdd base (← below rng span)
  return (min first second, max first second)

def pickRange (workload : Workload D) (size width hotStart hotWidth : ℕ) : RandomM G (ℕ × ℕ) :=
  match workload.shape with
  | .point => do
    let index ← below rng size
    return (index, index)
  | .full => do
    let last ← uncheckedSubtract size 1
    return (0, last)
  | .fixedWidth => do
    let span := min (max 1 width) size
    let rest ← uncheckedSubtract size span
    let start ← below rng (← uncheckedAdd rest 1)
    let stop ← uncheckedAdd start span
    return (start, ← uncheckedSubtract stop 1)
  | .hot => do
    let hot ← (if hotWidth < size then do
      return fp.less (← unitDouble rng fp) (fp.literal (4 / 5)) else pure false)
    pickEndpoints rng (if hot then hotStart else 0) (if hot then hotWidth else size)
  | .uniform => pickEndpoints rng 0 size

/-! ## Streams -/

/-- The change of an update, which is never zero by the draw. -/
def pickDelta (zeroDelta : D) : RandomM G ValueType := do
  let unit ← unitDouble rng fp
  if fp.atLeast unit zeroDelta then do
    let draw ← below rng 199
    let delta : ValueType := .ofInt ((draw : ℤ) - 99)
    return (if delta = 0 then 1 else delta)
  else pure 0

/-- `vector[index] = x`, which is undefined past the end. -/
def assignAt (vector : List D) (index : ℕ) (x : D) : Except Exception (List D) :=
  if index < vector.length then .ok (vector.set index x) else .error .undefined

/-- The loop body of the prefix sums. -/
def addRank (theta : D) (harmonic : List D) (rank : ℕ) : Except Exception (List D) := do
  let previous ← vectorAt harmonic (← uncheckedSubtract rank 1)
  assignAt harmonic rank (fp.add previous (fp.pow (fp.ofWord rank) (fp.neg theta)))

/-- The prefix sums, which only Zipfian draws need. -/
def harmonicSums (workload : Workload D) (total : ℕ) (theta : D) :
    Except Exception (List D) :=
  if workload.versions = .zipf then do
    let length ← uncheckedAdd total 2
    checkVectorLength "cannot create std::vector larger than max_size()" 8 length
    let harmonic := List.replicate length (fp.literal 0)
    let harmonic ← (List.range' 1 (harmonic.length - 2)).foldlM (addRank fp theta) harmonic
    let last ← vectorAt harmonic (← uncheckedSubtract harmonic.length 2)
    assignAt harmonic (harmonic.length - 1) last
  else .ok []

/-- The constants of a call of `generate`. -/
structure Cell (D : Type) where
  workload : Workload D
  size : ℕ
  updateBudget : ℕ
  zeroDelta : D
  width : ℕ
  ageShare : D
  hotStart : ℕ
  hotWidth : ℕ
  harmonic : List D

/-- The variables of its loop. -/
structure Generating where
  published : ℕ
  queryIndex : ℕ
  stream : List Operation

def generateStep (cell : Cell D) (step : ℕ) (this : Generating) : RandomM G Generating := do
  let isUpdate ← (if cell.workload.axis = .updateBudget then
    pure (decide (step < cell.updateBudget)) else do
    return fp.less (← unitDouble rng fp) cell.workload.updateFraction)
  let range ← pickRange rng fp cell.workload cell.size cell.width cell.hotStart cell.hotWidth
  if isUpdate then do
    let delta ← pickDelta rng fp cell.zeroDelta
    let published ← uncheckedAdd this.published 1
    return ⟨published, this.queryIndex, this.stream ++ [⟨true, range.1, range.2, 0, delta⟩]⟩
  else do
    let version ← pickVersion rng fp cell.workload cell.harmonic cell.ageShare this.published
      this.queryIndex
    let queryIndex ← uncheckedAdd this.queryIndex 1
    return ⟨this.published, queryIndex, this.stream ++ [⟨false, range.1, range.2, version, 0⟩]⟩

/-- The loop, from a step on. -/
def generateSteps (cell : Cell D) : (remaining step : ℕ) → Generating → RandomM G Generating
  | 0, _, this => pure this
  | remaining + 1, step, this => do
    generateSteps cell remaining (step + 1) (← generateStep rng fp cell step this)

/-- `static_cast<std::size_t>(variant)` on the budget axis, and zero on the others. -/
def updateBudget (workload : Workload D) (variant : D) : ℕ :=
  if workload.axis = .updateBudget then (fp.toSize variant).toNat else 0

/-- The number of operations. The sum is one of `std::size_t`. -/
def totalOperations (workload : Workload D) (variant : D) : ℕ :=
  if workload.axis = .updateBudget then
    (updateBudget fp workload variant + workload.queryTail) % 2 ^ 64 else workload.operations

def drawStream (workload : Workload D) (size : ℕ) (variant : D) : RandomM G (List Operation) := do
  let total := totalOperations fp workload variant
  let zeroDelta := if workload.axis = .zeroDeltaShare then variant else workload.zeroDeltaFraction
  let theta := if workload.axis = .zipf then variant else workload.skew
  let width := if workload.axis = .rangeWidth then (fp.toSize variant).toNat else size
  let ageShare := if workload.axis = .ageShare then variant else fp.literal 1
  let hotShare := if workload.axis = .hotShare then variant else fp.literal (1 / 5)
  let hotWidth := min size (max 1 (fp.toSize (fp.mul (fp.ofWord size) hotShare)).toNat)
  let rest ← uncheckedSubtract size hotWidth
  let hotStart ← below rng (← uncheckedAdd rest 1)
  let harmonic ← harmonicSums fp workload total theta
  checkVectorLength "vector::reserve" 40 total
  let this ← generateSteps rng fp ⟨workload, size, updateBudget fp workload variant, zeroDelta,
    width, ageShare, hotStart, hotWidth, harmonic⟩ total 0 ⟨1, 0, []⟩
  return this.stream

def generate (workload : Workload D) (size : ℕ) (variant : D) (seed : UInt64) :
    Except Exception (List Operation) :=
  Effect.outcome (drawStream rng fp workload size variant (rng.seeded seed))

end Drawing

/-! ## Draws are in bounds -/

open Effect

variable {rng : RandomEngine G} {fp : FloatingPoint D} {workload : Workload D} {size : ℕ}

variable (rng) in
theorem below_yields {bound : ℕ} (h : 0 < bound) : Yields (· < bound) (below rng bound) := by
  intro g
  refine ⟨(rng.next g).1.toNat % bound, (rng.next g).2, ?_, Nat.mod_lt _ h⟩
  show (if bound = 0 then throw .undefined else pure _ : RandomM G ℕ) _ = _
  rw [if_neg h.ne']
  rfl

theorem unitDouble_yields : Yields (fun _ => True) (unitDouble rng fp) := fun g =>
  ⟨_, (rng.next g).2, rfl, trivial⟩

/-- The search ends inside the elements or one past the last of them, in whatever order they are. -/
theorem upperBound_eq (fp : FloatingPoint D) {values : List D} (value : D) {first length : ℕ}
    (h : first + length ≤ values.length) :
    ∃ rank, upperBound fp values first length value = .ok rank ∧ first ≤ rank ∧
      rank ≤ first + length := by
  induction length using Nat.strong_induction_on generalizing first with
  | _ length ih =>
    rw [upperBound]
    split_ifs with h0
    · exact ⟨first, rfl, le_rfl, by omega⟩
    obtain ⟨value, hread⟩ := exists_vectorAt (show first + length / 2 < values.length by omega)
    simp only [hread, ok_bind]
    split_ifs
    · obtain ⟨rank, hrank, hlo, hhi⟩ := ih (length / 2) (by omega)
        (show first + length / 2 ≤ _ by omega)
      exact ⟨rank, hrank, hlo, by omega⟩
    · obtain ⟨rank, hrank, hlo, hhi⟩ := ih (length - length / 2 - 1) (by omega)
        (show first + length / 2 + 1 + (length - length / 2 - 1) ≤ _ by omega)
      exact ⟨rank, hrank, by omega, by omega⟩

/-- **Versions.** The version that is picked is published. -/
theorem pickVersion_yields {harmonic : List D} {ageShare : D} {published queryIndex : ℕ}
    (hpublished : 1 ≤ published)
    (hharmonic : workload.versions = .zipf → published < harmonic.length) :
    Yields (· < published)
      (pickVersion rng fp workload harmonic ageShare published queryIndex) := by
  unfold pickVersion
  refine Yields.lift_bind (uncheckedSubtract_eq hpublished) ?_
  cases hpick : workload.versions with
  | latest => exact Yields.pure (by omega)
  | uniform => exact below_yields rng (by omega)
  | oldAndRecent =>
    refine Yields.ite (fun _ => below_yields rng (by omega)) fun _ => ?_
    refine Yields.bind (below_yields rng (show 0 < max 1 (published / 20) by omega)) fun age hage => ?_
    exact Yields.lift (uncheckedSubtract_eq (by omega)) (by omega)
  | zipf =>
    have hlength := hharmonic hpick
    refine Yields.bind unitDouble_yields fun unit _ => ?_
    have hread : vectorAt harmonic published = .ok harmonic[published] := by
      rw [vectorAt_eq_ok, List.getElem?_eq_getElem]
    refine Yields.lift_bind hread ?_
    obtain ⟨rank, hrank, hlo, -⟩ := upperBound_eq fp (fp.mul unit harmonic[published])
      (show 1 + published ≤ harmonic.length by omega)
    refine Yields.lift_bind hrank (Yields.lift_bind (uncheckedSubtract_eq hlo) ?_)
    exact Yields.lift (uncheckedSubtract_eq (by omega)) (by omega)
  | ancient => exact (below_yields rng (by omega)).mono fun _ h => by omega

/-- The range is one of an array of the size. -/
def InArray (size : ℕ) (range : ℕ × ℕ) : Prop := range.1 ≤ range.2 ∧ range.2 < size

theorem pickEndpoints_yields {base span : ℕ} (hspan : 0 < span) (hsize : base + span ≤ size)
    (hmax : size ≤ sizeMax) : Yields (InArray size) (pickEndpoints rng base span) := by
  unfold pickEndpoints
  refine Yields.bind (below_yields rng hspan) fun first hfirst => ?_
  refine Yields.lift_bind (uncheckedAdd_eq (by omega)) ?_
  refine Yields.bind (below_yields rng hspan) fun second hsecond => ?_
  refine Yields.lift_bind (uncheckedAdd_eq (by omega)) (Yields.pure ?_)
  unfold InArray
  omega

/-- **Ranges.** They are inside the array, in every shape. -/
theorem pickRange_yields {width hotStart hotWidth : ℕ} (hpos : 1 ≤ size) (hmax : size ≤ sizeMax)
    (hhot : 1 ≤ hotWidth) (hwindow : hotStart + hotWidth ≤ size) :
    Yields (InArray size) (pickRange rng fp workload size width hotStart hotWidth) := by
  unfold pickRange
  cases workload.shape with
  | point => exact Yields.bind (below_yields rng hpos) fun index h => Yields.pure ⟨le_rfl, h⟩
  | full =>
    refine Yields.lift_bind (uncheckedSubtract_eq hpos) (Yields.pure ?_)
    unfold InArray
    omega
  | fixedWidth =>
    refine Yields.lift_bind (uncheckedSubtract_eq (min_le_right _ _)) ?_
    refine Yields.lift_bind (uncheckedAdd_eq (by omega)) ?_
    refine Yields.bind (below_yields rng (by omega)) fun start hstart => ?_
    refine Yields.lift_bind (uncheckedAdd_eq (by omega)) ?_
    refine Yields.lift_bind (uncheckedSubtract_eq (by omega)) (Yields.pure ?_)
    unfold InArray
    omega
  | hot =>
    refine Yields.bind (P := fun hot => hot = true → hotWidth < size) ?_ fun hot _ => ?_
    · exact Yields.ite (fun h => Yields.bind unitDouble_yields fun _ _ => Yields.pure fun _ => h)
        fun _ => Yields.pure nofun
    · cases hot
      · exact pickEndpoints_yields hpos (by simp) hmax
      · exact pickEndpoints_yields hhot hwindow hmax
  | uniform => exact pickEndpoints_yields hpos (by omega) hmax

theorem pickDelta_yields {zeroDelta : D} : Yields (fun _ => True) (pickDelta rng fp zeroDelta) := by
  unfold pickDelta
  refine Yields.bind unitDouble_yields fun unit _ => ?_
  refine Yields.ite (fun _ => ?_) fun _ => Yields.pure trivial
  exact Yields.bind (below_yields rng (by omega)) fun draw _ => Yields.pure trivial

/-! ## The prefix sums -/

theorem assignAt_eq {vector : List D} {index : ℕ} (h : index < vector.length) (x : D) :
    assignAt vector index x = .ok (vector.set index x) := if_pos h

theorem addRank_eq (fp : FloatingPoint D) (theta : D) {harmonic : List D} {rank : ℕ}
    (hpos : 1 ≤ rank) (h : rank < harmonic.length) :
    ∃ next, addRank fp theta harmonic rank = .ok next ∧ next.length = harmonic.length := by
  obtain ⟨sum, hread⟩ := exists_vectorAt (show rank - 1 < harmonic.length by omega)
  unfold addRank
  rw [uncheckedSubtract_eq hpos, ok_bind, hread, ok_bind, assignAt_eq h]
  exact ⟨_, rfl, List.length_set⟩

theorem foldlM_addRank (fp : FloatingPoint D) (theta : D) {ranks : List ℕ} {harmonic : List D}
    (h : ∀ rank ∈ ranks, 1 ≤ rank ∧ rank < harmonic.length) :
    ∃ sums, ranks.foldlM (addRank fp theta) harmonic = .ok sums ∧
      sums.length = harmonic.length := by
  induction ranks generalizing harmonic with
  | nil => exact ⟨harmonic, rfl, rfl⟩
  | cons rank ranks ih =>
    obtain ⟨hpos, hlt⟩ := h rank List.mem_cons_self
    obtain ⟨next, hnext, hlength⟩ := addRank_eq fp theta hpos hlt
    have hranks : ∀ r ∈ ranks, 1 ≤ r ∧ r < next.length := by
      intro r hr
      rw [hlength]
      exact h r (List.mem_cons_of_mem _ hr)
    obtain ⟨sums, hsums, hsame⟩ := ih hranks
    rw [List.foldlM_cons, hnext]
    exact ⟨sums, hsums, hsame.trans hlength⟩

variable (workload) in
/-- There is a sum for every version the stream can publish, and one after it. -/
theorem harmonicSums_eq {total : ℕ} {theta : D} (h : total + 2 ≤ vectorMaxSize 8) :
    ∃ harmonic, harmonicSums fp workload total theta = .ok harmonic ∧
      (workload.versions = .zipf → harmonic.length = total + 2) := by
  unfold harmonicSums
  split_ifs with hpick
  swap
  · exact ⟨[], rfl, fun h => absurd h hpick⟩
  have hsum : uncheckedAdd total 2 = .ok (total + 2) :=
    uncheckedAdd_eq (by unfold vectorMaxSize at h; unfold sizeMax; omega)
  have hranks : ∀ rank ∈ List.range' 1 (total + 2 - 2), 1 ≤ rank ∧
      rank < (List.replicate (total + 2) (fp.literal 0)).length := by
    intro rank hrank
    simp only [List.mem_range'_1, List.length_replicate] at hrank ⊢
    omega
  obtain ⟨sums, hsums, hlength⟩ := foldlM_addRank fp theta hranks
  rw [List.length_replicate] at hlength
  obtain ⟨sum, hread⟩ := exists_vectorAt (show sums.length - 2 < sums.length by omega)
  simp only [hsum, checkVectorLength_eq_ok.mpr h, ok_bind, List.length_replicate, hsums,
    uncheckedSubtract_eq (show 2 ≤ sums.length by omega), hread,
    assignAt_eq (show sums.length - 1 < sums.length by omega)]
  exact ⟨_, rfl, fun _ => by rw [List.length_set, hlength]⟩

/-! ## Streams are valid -/

/-- A call whose window is inside the array, with the prefix sums of so many operations. -/
structure Cell.Valid (cell : Cell D) (total : ℕ) : Prop where
  pos : 1 ≤ cell.size
  size : cell.size ≤ sizeMax
  hotWidth : 1 ≤ cell.hotWidth
  window : cell.hotStart + cell.hotWidth ≤ cell.size
  representable : total < 2 ^ 63
  harmonic : cell.workload.versions = .zipf → cell.harmonic.length = total + 2

/-- The variables after so many steps. -/
structure Generated (size step : ℕ) (this : Generating) : Prop where
  loaded : Loaded ⟨size, this.published, this.stream⟩
  count : this.published + this.queryIndex = step + 1
  length : this.stream.length = step

variable {cell : Cell D} {total step : ℕ} {this : Generating}

/-- **One step.** -/
theorem generateStep_yields (hcell : cell.Valid total) (hstep : step < total)
    (h : Generated cell.size step this) :
    Yields (Generated cell.size (step + 1)) (generateStep rng fp cell step this) := by
  have htotal := hcell.representable
  have hpublished : this.published = updateCount this.stream + 1 := h.loaded.published
  have hcount := h.count
  have hsize : cell.size ≠ 0 := by
    have := hcell.pos
    omega
  unfold generateStep
  refine Yields.bind (P := fun _ => True) ?_ fun isUpdate _ => ?_
  · exact Yields.ite (fun _ => Yields.pure trivial) fun _ =>
      Yields.bind unitDouble_yields fun _ _ => Yields.pure trivial
  refine Yields.bind (pickRange_yields hcell.pos hcell.size hcell.hotWidth hcell.window)
    fun range hrange => ?_
  cases isUpdate
  · refine Yields.bind (pickVersion_yields (by omega) fun hpick => ?_) fun version hversion => ?_
    · rw [hcell.harmonic hpick]
      omega
    refine Yields.lift_bind (uncheckedAdd_eq (by unfold sizeMax; omega)) (Yields.pure ?_)
    refine ⟨h.loaded.push hsize hrange.1 hrange.2 ⟨rfl, hversion⟩, ?_, ?_⟩
    · show this.published + (this.queryIndex + 1) = _
      omega
    · simp [h.length]
  · refine Yields.bind pickDelta_yields fun delta _ => ?_
    refine Yields.lift_bind (uncheckedAdd_eq (by unfold sizeMax; omega)) (Yields.pure ?_)
    refine ⟨h.loaded.push hsize hrange.1 hrange.2 rfl, ?_, ?_⟩
    · show this.published + 1 + this.queryIndex = _
      omega
    · simp [h.length]

theorem generateSteps_yields (hcell : cell.Valid total) {remaining : ℕ}
    (hremaining : step + remaining = total) (h : Generated cell.size step this) :
    Yields (Generated cell.size total) (generateSteps rng fp cell remaining step this) := by
  induction remaining generalizing step this with
  | zero =>
    rw [Nat.add_zero] at hremaining
    subst hremaining
    exact Yields.pure h
  | succ remaining ih =>
    exact Yields.bind (generateStep_yields hcell (by omega) h) fun next hnext =>
      ih (by omega) hnext

variable {variant : D} {seed : UInt64}

variable (rng) in
/-- What is drawn when a vector of the operations is possible. -/
theorem drawStream_yields (hpos : 1 ≤ size) (hmax : size ≤ sizeMax)
    (htotal : totalOperations fp workload variant ≤ vectorMaxSize 40) :
    Yields (fun stream => stream.length = totalOperations fp workload variant ∧
      ValidFrom size 0 stream) (drawStream rng fp workload size variant) := by
  have hroom : totalOperations fp workload variant + 2 ≤ vectorMaxSize 8 := by
    unfold vectorMaxSize at *
    omega
  unfold drawStream
  refine Yields.lift_bind (uncheckedSubtract_eq (min_le_left _ _)) ?_
  refine Yields.lift_bind (uncheckedAdd_eq (by omega)) ?_
  refine Yields.bind (below_yields rng (by omega)) fun hotStart hstart => ?_
  obtain ⟨harmonic, hsums, hlength⟩ := harmonicSums_eq workload hroom
  refine Yields.lift_bind hsums (Yields.lift_bind (checkVectorLength_eq_ok.mpr htotal) ?_)
  refine Yields.bind (generateSteps_yields
    ⟨hpos, hmax, ?_, ?_, ?_, hlength⟩ (Nat.zero_add _) ?_) fun this hthis => ?_
  · show 1 ≤ min size _
    omega
  · show hotStart + min size _ ≤ size
    omega
  · unfold vectorMaxSize at htotal
    omega
  · exact ⟨⟨rfl, fun _ => rfl, trivial⟩, rfl, rfl⟩
  · exact Yields.pure ⟨hthis.length, hthis.loaded.valid⟩

theorem checkVectorLength_throws (what : String) {bytes count : ℕ}
    (h : vectorMaxSize bytes < count) :
    checkVectorLength what bytes count = .error (.lengthError what) := if_pos h

/-- Without that room the prefix sums or the stream throw. -/
theorem drawStream_throws (hpos : 1 ≤ size) (hmax : size ≤ sizeMax)
    (htotal : totalOperations fp workload variant < 2 ^ 63)
    (hroom : vectorMaxSize 40 < totalOperations fp workload variant) (g : G) :
    ∃ what, outcome (drawStream rng fp workload size variant g) = .error (.lengthError what) := by
  have hsum : uncheckedAdd (totalOperations fp workload variant) 2 =
      .ok (totalOperations fp workload variant + 2) :=
    uncheckedAdd_eq (by unfold sizeMax; omega)
  have hsums : ∀ theta, (∃ what, harmonicSums fp workload
      (totalOperations fp workload variant) theta = .error (.lengthError what)) ∨
      ∃ sums, harmonicSums fp workload (totalOperations fp workload variant) theta = .ok sums := by
    intro theta
    by_cases hle : totalOperations fp workload variant + 2 ≤ vectorMaxSize 8
    · obtain ⟨sums, hsums, -⟩ := harmonicSums_eq workload hle
      exact .inr ⟨sums, hsums⟩
    unfold harmonicSums
    split_ifs
    · rw [hsum, ok_bind, checkVectorLength_throws _ (not_le.mp hle)]
      exact .inl ⟨_, rfl⟩
    · exact .inr ⟨[], rfl⟩
  unfold drawStream
  rw [uncheckedSubtract_eq (min_le_left _ _), liftM_ok_bind, uncheckedAdd_eq (by omega),
    liftM_ok_bind]
  obtain ⟨start, g', hstart, -⟩ := below_yields rng
    (show 0 < size - min size (max 1 (fp.toSize (fp.mul (fp.ofWord size)
      (if workload.axis = .hotShare then variant else fp.literal (1 / 5)))).toNat) + 1 by omega) g
  rw [run_bind_ok hstart]
  rcases hsums (if workload.axis = .zipf then variant else workload.skew) with
    ⟨what, hthrow⟩ | ⟨sums, hok⟩
  · rw [hthrow]
    exact ⟨what, rfl⟩
  · rw [hok, liftM_ok_bind, checkVectorLength_throws _ hroom]
    exact ⟨_, rfl⟩

/-- **Generated streams are valid**, whatever is drawn and whatever `double` computes. More
operations than a vector can hold are no stream. -/
theorem generate_valid (hpos : 1 ≤ size) (hmax : size ≤ sizeMax)
    (htotal : totalOperations fp workload variant < 2 ^ 63) :
    (totalOperations fp workload variant ≤ vectorMaxSize 40 →
      ∃ stream, generate rng fp workload size variant seed = .ok stream ∧
        stream.length = totalOperations fp workload variant ∧ ValidFrom size 0 stream) ∧
    (vectorMaxSize 40 < totalOperations fp workload variant →
      ∃ what, generate rng fp workload size variant seed = .error (.lengthError what)) := by
  constructor
  · intro hroom
    obtain ⟨stream, g, hdraw, hlength, hvalid⟩ :=
      drawStream_yields rng hpos hmax hroom (rng.seeded seed)
    refine ⟨stream, ?_, hlength, hvalid⟩
    rw [generate, hdraw, outcome_ok]
  · intro hroom
    exact drawStream_throws hpos hmax htotal hroom _

/-! A balanced workload with a hot window, over exact numbers and an engine that counts. -/

def countingEngine : RandomEngine UInt64 := ⟨id, fun g => (g, g + 1)⟩

def rationals : FloatingPoint ℚ where
  literal := id
  ofWord n := n
  toSize x := .ofNat (x.num / x.den).toNat
  add := (· + ·)
  mul := (· * ·)
  pow x y := x ^ y.num
  neg := (- ·)
  less x y := x < y
  atLeast x y := y ≤ x

def balanced (operations : ℕ) : Workload ℚ :=
  ⟨operations, 1 / 2, 0, .hot, .uniform, 0, .none, 0⟩

theorem generate_valid_balanced :
    ∃ stream, generate countingEngine rationals (balanced 4) 8 0 42 = .ok stream ∧
      stream.length = 4 ∧ ValidFrom 8 0 stream :=
  (generate_valid (by decide) (by decide) (by decide)).1 (by decide)

/-- No vector holds `2 ^ 62` operations. -/
theorem generate_throws :
    (1 ≤ 8 ∧ totalOperations rationals (balanced (2 ^ 62)) 0 < 2 ^ 63) ∧
      generate countingEngine rationals (balanced (2 ^ 62)) 8 0 42 =
        .error (.lengthError "vector::reserve") ∧
      ¬ ∃ stream, generate countingEngine rationals (balanced (2 ^ 62)) 8 0 42 = .ok stream := by
  have hthrows : generate countingEngine rationals (balanced (2 ^ 62)) 8 0 42 =
      .error (.lengthError "vector::reserve") := by decide +kernel
  refine ⟨by decide, hthrows, ?_⟩
  rintro ⟨stream, h⟩
  rw [hthrows] at h
  cases h

end Bench

end Valseg
