import Valseg.FrontierClosedForm
import Valseg.Lib.FrontierSums

/-!
# Sums of frontiers

`frontierSum` adds the frontiers of a family of ranges up segment by segment, with a counter that
says how many ranges of the family meet and contain a segment (`frontierSum_run`). The two
counters of `frontier.hpp` count all ranges of an array and the windows of one width.
-/

namespace Valseg

structure RangeFamilyCounts where
  intersecting : ℕ
  containing : ℕ
  deriving DecidableEq, Repr

/-- A segment that is left to visit. -/
structure Frame where
  segmentLeft : ℕ
  segmentRight : ℕ
  parentContaining : ℕ
  deriving DecidableEq, Repr

/-- A counting function. -/
abbrev Counter := (segmentLeft segmentRight : ℕ) → Except Exception RangeFamilyCounts

/-- A round of the loop; the back of the stack is the head of the list. -/
def frontierRound (counter : Counter) :
    List Frame × ℕ → Except Exception ((List Frame × ℕ) ⊕ ℕ)
  | ([], sum) => return .inr sum
  | (frame :: stack, sum) => do
    let counts ← counter frame.segmentLeft frame.segmentRight
    if counts.containing > counts.intersecting ∨ frame.parentContaining > counts.containing then
      throw (.invalidArgument "range-family counts violate containment")
    else do
      let partialCount ← uncheckedSubtract counts.intersecting counts.containing
      let decomposition ← uncheckedSubtract counts.containing frame.parentContaining
      let contribution ← checkedSizeAdd partialCount decomposition
      let sum ← checkedSizeAdd sum contribution
      if frame.segmentLeft ≠ frame.segmentRight then do
        let middle := Segment.midpoint frame.segmentLeft frame.segmentRight
        let right ← uncheckedAdd middle 1
        return .inl (⟨right, frame.segmentRight, counts.containing⟩ ::
          ⟨frame.segmentLeft, middle, counts.containing⟩ :: stack, sum)
      else return .inl (stack, sum)

def frontierSum (fuel n : ℕ) (counter : Counter) : Except Exception ℕ :=
  if n = 0 then .error (.invalidArgument "frontier size must be positive")
  else Loop.run .undefined (frontierRound counter) fuel ([⟨0, n - 1, 0⟩], 0)

def allRangesCounter (n : ℕ) : Except Exception Counter :=
  if n = 0 then .error (.invalidArgument "range-family size must be positive")
  else do
    let total ← triangularNumber n
    return fun segmentLeft segmentRight =>
      if segmentLeft > segmentRight ∨ segmentRight ≥ n then
        .error (.outOfRange "canonical interval exceeds the range-family domain")
      else do
        let entirelyLeft ← triangularNumber segmentLeft
        let tail ← uncheckedSubtract (n - 1) segmentRight
        let entirelyRight ← triangularNumber tail
        let intersecting ← uncheckedSubtract (← uncheckedSubtract total entirelyLeft) entirelyRight
        let containing ← checkedSizeMultiply (← uncheckedAdd segmentLeft 1)
          (← uncheckedSubtract n segmentRight)
        return ⟨intersecting, containing⟩

/-- Windows starting in `[low, high]`, clipped to the valid starts. -/
def windowsIn (lastStart low high : ℕ) : Except Exception ℕ := do
  let clippedHigh := if high < lastStart then high else lastStart
  if low ≤ clippedHigh then do
    uncheckedAdd (← uncheckedSubtract clippedHigh low) 1
  else return 0

/-- `index + 1 > width ? index + 1 - width : 0`. -/
def firstStart (index width : ℕ) : Except Exception ℕ := do
  let next ← uncheckedAdd index 1
  if next > width then uncheckedSubtract next width else return 0

def fixedWidthCounter (n width : ℕ) : Except Exception Counter :=
  if n = 0 then .error (.invalidArgument "range-family size must be positive")
  else if width = 0 ∨ width > n then
    .error (.invalidArgument "fixed width must be between one and n")
  else return fun segmentLeft segmentRight =>
    if segmentLeft > segmentRight ∨ segmentRight ≥ n then
      .error (.outOfRange "canonical interval exceeds the range-family domain")
    else do
      let lastStart ← uncheckedSubtract n width
      let firstMeeting ← firstStart segmentLeft width
      let intersecting ← windowsIn lastStart firstMeeting segmentRight
      let length ← uncheckedAdd (← uncheckedSubtract segmentRight segmentLeft) 1
      let containing ← (if length ≤ width then do
          let firstContaining ← firstStart segmentRight width
          windowsIn lastStart firstContaining segmentLeft
        else pure 0)
      return ⟨intersecting, containing⟩

/-! ## The loop -/

section Loop

variable {R : Finset (ℕ × ℕ)} {n acc : ℕ} {counter : Counter} {frame : Frame} {stack : List Frame}

/-- The counter counts the ranges of a family. -/
structure Counts (R : Finset (ℕ × ℕ)) (n : ℕ) (counter : Counter) : Prop where
  ordered : ∀ range ∈ R, range.1 ≤ range.2 ∧ range.2 < n
  card_le : R.card ≤ sizeMax
  size_le : n ≤ sizeMax
  counts : ∀ lo hi, lo ≤ hi → hi < n →
    counter lo hi = .ok ⟨Segment.meeting R lo hi, Segment.around R lo hi⟩

/-- The segment is one of the array, and its parent is inside no more ranges. -/
def Frame.Valid (R : Finset (ℕ × ℕ)) (n : ℕ) (frame : Frame) : Prop :=
  frame.segmentLeft ≤ frame.segmentRight ∧ frame.segmentRight < n ∧
    frame.parentContaining ≤ Segment.around R frame.segmentLeft frame.segmentRight

/-- The rounds a segment takes. -/
def Frame.rounds (frame : Frame) : ℕ := 2 * (frame.segmentRight - frame.segmentLeft) + 1

/-- What the rounds add. -/
def Frame.sum (R : Finset (ℕ × ℕ)) (frame : Frame) : ℕ :=
  Segment.familySum R frame.segmentLeft frame.segmentRight frame.parentContaining

/-- What one round adds. -/
def Frame.contribution (R : Finset (ℕ × ℕ)) (frame : Frame) : ℕ :=
  (Segment.meeting R frame.segmentLeft frame.segmentRight -
      Segment.around R frame.segmentLeft frame.segmentRight) +
    (Segment.around R frame.segmentLeft frame.segmentRight - frame.parentContaining)

/-- The halves, as they are pushed. -/
def Frame.halves (R : Finset (ℕ × ℕ)) (frame : Frame) : List Frame :=
  if frame.segmentLeft < frame.segmentRight then
    [⟨Segment.midpoint frame.segmentLeft frame.segmentRight + 1, frame.segmentRight,
        Segment.around R frame.segmentLeft frame.segmentRight⟩,
      ⟨frame.segmentLeft, Segment.midpoint frame.segmentLeft frame.segmentRight,
        Segment.around R frame.segmentLeft frame.segmentRight⟩]
  else []

theorem Frame.Valid.halves (h : frame.Valid R n) : ∀ half ∈ frame.halves R, half.Valid R n := by
  obtain ⟨h1, h2, -⟩ := h
  unfold Frame.halves
  split_ifs with hlt
  swap
  · exact fun half hmem => absurd hmem List.not_mem_nil
  have hm := Segment.le_midpoint frame.segmentLeft frame.segmentRight
  have hm' := Segment.midpoint_lt hlt
  intro half hmem
  rcases List.mem_cons.mp hmem with rfl | hmem
  · exact ⟨hm', h2, Segment.around_mono (hm.trans (Nat.le_succ _)) le_rfl⟩
  · rw [List.mem_singleton.mp hmem]
    exact ⟨hm, hm'.trans h2, Segment.around_mono le_rfl hm'.le⟩

/-- The rounds and the sum of a segment are its own and those of its halves. -/
theorem Frame.Valid.split (h : frame.Valid R n) :
    frame.rounds = ((frame.halves R).map Frame.rounds).sum + 1 ∧
      frame.sum R = frame.contribution R + ((frame.halves R).map (Frame.sum R)).sum := by
  obtain ⟨lo, hi, parent⟩ := frame
  obtain ⟨h1, -, -⟩ := h
  dsimp only at h1
  unfold Frame.halves Frame.rounds Frame.contribution Frame.sum
  rcases h1.eq_or_lt with rfl | hlt
  · dsimp only
    rw [if_neg (lt_irrefl lo), Segment.familySum_single]
    simp
  · have hm := Segment.le_midpoint lo hi
    have hm' := Segment.midpoint_lt hlt
    dsimp only
    rw [if_pos hlt, Segment.familySum_split hlt]
    simp only [List.map_cons, List.map_nil, List.sum_cons, List.sum_nil]
    omega

/-- **One round.** It overflows with the sum, or adds what the segment contributes and leaves the
halves. -/
theorem frontierRound_cases (stack : List Frame) (hc : Counts R n counter) (h : frame.Valid R n)
    (hacc : acc ≤ sizeMax) :
    (∃ w, frontierRound counter (frame :: stack, acc) = .error (.overflowError w) ∧
        sizeMax < acc + frame.contribution R) ∨
      (frontierRound counter (frame :: stack, acc) =
          .ok (.inl (frame.halves R ++ stack, acc + frame.contribution R)) ∧
        acc + frame.contribution R ≤ sizeMax) := by
  obtain ⟨lo, hi, parent⟩ := frame
  obtain ⟨h1, h2, h3⟩ := h
  dsimp only at h1 h2 h3
  have hle := Segment.around_le_meeting (R := R) h1
  have hcard : Segment.meeting R lo hi ≤ sizeMax := Segment.meeting_le_card.trans hc.card_le
  unfold frontierRound Frame.contribution Frame.halves
  dsimp only
  rw [hc.counts lo hi h1 h2, Effect.ok_bind, if_neg (by dsimp only; omega),
    uncheckedSubtract_eq hle, Effect.ok_bind, uncheckedSubtract_eq h3, Effect.ok_bind]
  rcases checkedSizeAdd_cases (Segment.around R lo hi - parent)
    (show Segment.meeting R lo hi - Segment.around R lo hi ≤ sizeMax by omega) with
    ⟨hadd, hfit⟩ | ⟨⟨w, hadd⟩, hgt⟩
  swap
  · rw [hadd]
    exact .inl ⟨w, rfl, by omega⟩
  rw [hadd, Effect.ok_bind]
  rcases checkedSizeAdd_cases (Segment.meeting R lo hi - Segment.around R lo hi +
    (Segment.around R lo hi - parent)) hacc with ⟨hadd', hfit'⟩ | ⟨⟨w, hadd'⟩, hgt'⟩
  swap
  · rw [hadd']
    exact .inl ⟨w, rfl, by omega⟩
  rw [hadd', Effect.ok_bind]
  refine .inr ⟨?_, hfit'⟩
  rcases h1.eq_or_lt with rfl | hlt
  · rw [if_neg (not_not.mpr rfl), if_neg (lt_irrefl lo)]
    rfl
  · have hm' := Segment.midpoint_lt hlt
    have hsize := hc.size_le
    rw [if_pos hlt.ne, if_pos hlt, uncheckedAdd_eq (by omega)]
    rfl

/-- **The loop.** It ends with the sum of all frames, or overflows because that is not
representable. -/
theorem frontierRounds_end (hc : Counts R n counter) :
    ∀ k (stack : List Frame) (acc : ℕ), (stack.map Frame.rounds).sum = k →
      (∀ frame ∈ stack, frame.Valid R n) → acc ≤ sizeMax →
      (acc + (stack.map (Frame.sum R)).sum ≤ sizeMax →
        Loop.EndsIn .undefined (frontierRound counter) (k + 1) (stack, acc)
          (.ok (acc + (stack.map (Frame.sum R)).sum))) ∧
      (sizeMax < acc + (stack.map (Frame.sum R)).sum → ∃ w,
        Loop.EndsIn .undefined (frontierRound counter) (k + 1) (stack, acc)
          (.error (.overflowError w))) := by
  intro k
  induction k using Nat.strong_induction_on with
  | _ k ih =>
    intro stack acc hk hvalid hacc
    cases stack with
    | nil =>
      exact ⟨fun _ => .mono (.ret rfl) (Nat.le_add_left _ _), fun h => absurd hacc (not_le.mpr h)⟩
    | cons frame stack =>
      have hframe := hvalid frame List.mem_cons_self
      obtain ⟨hrounds, hsum⟩ := hframe.split
      rw [List.map_cons, List.sum_cons, hrounds] at hk
      have htotal : acc + ((frame :: stack).map (Frame.sum R)).sum = acc + frame.contribution R +
          ((frame.halves R ++ stack).map (Frame.sum R)).sum := by
        rw [List.map_cons, List.sum_cons, hsum, List.map_append, List.sum_append]
        omega
      rw [htotal]
      rcases frontierRound_cases stack hc hframe hacc with
        ⟨w, hround, hgt⟩ | ⟨hround, hfit⟩
      · exact ⟨fun h => absurd h (by omega), fun _ =>
          ⟨w, .mono (.throw hround) (Nat.le_add_left _ _)⟩⟩
      · obtain ⟨hok, herror⟩ := ih ((frame.halves R ++ stack).map Frame.rounds).sum (by
            rw [List.map_append, List.sum_append]
            omega) _ _ rfl (fun f hf => (List.mem_append.mp hf).elim (hframe.halves f)
              fun hf => hvalid f (List.mem_cons_of_mem _ hf)) hfit
        have hle : ((frame.halves R ++ stack).map Frame.rounds).sum + 1 + 1 ≤ k + 1 := by
          rw [List.map_append, List.sum_append]
          omega
        exact ⟨fun h => .mono (.next hround (hok h)) hle, fun h => (herror h).imp fun w hw =>
          .mono (.next hround hw) hle⟩

/-- **Frontier sums.** With fuel for `2 n` rounds, the result is the sum of the frontiers of the
family. -/
theorem frontierSum_run (hc : Counts R n counter) (hpos : 0 < n) {fuel : ℕ} (hfuel : 2 * n ≤ fuel) :
    (∑ range ∈ R, Segment.visits 0 (n - 1) range.1 range.2 ≤ sizeMax →
        frontierSum fuel n counter =
          .ok (∑ range ∈ R, Segment.visits 0 (n - 1) range.1 range.2)) ∧
      (sizeMax < ∑ range ∈ R, Segment.visits 0 (n - 1) range.1 range.2 →
        Overflows (frontierSum fuel n counter)) := by
  have hroot : Segment.familySum R 0 (n - 1) 0 = _ :=
    Segment.familySum_root (fun range h => by have := hc.ordered range h; omega) (Nat.zero_le _)
  obtain ⟨hok, herror⟩ := frontierRounds_end hc _ [⟨0, n - 1, 0⟩] 0 rfl (fun frame h => by
    rw [List.mem_singleton.mp h]
    exact ⟨Nat.zero_le _, Nat.sub_lt hpos one_pos, Nat.zero_le _⟩) (Nat.zero_le _)
  simp only [List.map_cons, List.map_nil, List.sum_cons, List.sum_nil, Nat.add_zero, Nat.zero_add,
    Frame.sum, hroot, Frame.rounds] at hok herror
  unfold frontierSum
  rw [if_neg hpos.ne']
  refine ⟨fun h => hok h fuel (by omega), fun h => ?_⟩
  obtain ⟨w, hw⟩ := herror h
  exact ⟨w, hw fuel (by omega)⟩

end Loop

/-! ## All ranges -/

section AllRanges

variable {n a b : ℕ}

/-- The valid ranges of an array. -/
def allRanges (n : ℕ) : Finset (ℕ × ℕ) :=
  (Finset.range n ×ˢ Finset.range n).filter fun range => range.1 ≤ range.2

theorem mem_allRanges {range : ℕ × ℕ} :
    range ∈ allRanges n ↔ range.1 ≤ range.2 ∧ range.2 < n := by
  unfold allRanges
  rw [Finset.mem_filter, Finset.mem_product, Finset.mem_range, Finset.mem_range]
  omega

theorem card_allRanges (n : ℕ) : (allRanges n).card = n * (n + 1) / 2 := by
  have hsum : (allRanges n).card = ∑ r ∈ Finset.range n, (r + 1) := by
    unfold allRanges
    rw [Finset.card_filter, Finset.sum_product_right]
    refine Finset.sum_congr rfl fun r hr => ?_
    rw [← Finset.card_filter]
    have hfilter : (Finset.range n).filter (fun l => l ≤ r) = Finset.range (r + 1) := by
      ext l
      rw [Finset.mem_range] at hr
      rw [Finset.mem_filter, Finset.mem_range, Finset.mem_range]
      omega
    rw [hfilter, Finset.card_range]
  have hgauss := Finset.sum_range_id (n + 1)
  rw [Finset.sum_range_succ', Nat.add_zero, Nat.add_sub_cancel, Nat.mul_comm] at hgauss
  exact hsum.trans hgauss

/-- The ranges that end before a segment. -/
theorem card_before (h : a ≤ n) :
    ((allRanges n).filter fun range => range.2 < a).card = a * (a + 1) / 2 := by
  rw [← card_allRanges]
  congr 1
  ext range
  rw [Finset.mem_filter, mem_allRanges, mem_allRanges]
  omega

/-- The ranges that start after a segment. -/
theorem card_after (h : b < n) : ((allRanges n).filter fun range => b < range.1).card =
    (n - 1 - b) * (n - 1 - b + 1) / 2 := by
  rw [← card_allRanges]
  refine Finset.card_nbij' (fun range => (range.1 - (b + 1), range.2 - (b + 1)))
    (fun range => (range.1 + (b + 1), range.2 + (b + 1))) ?_ ?_ ?_ ?_
  · intro range hr
    have hr := Finset.mem_filter.mp hr
    have hr' := mem_allRanges.mp hr.1
    exact mem_allRanges.mpr (by dsimp only; omega)
  · intro range hr
    have hr := mem_allRanges.mp hr
    exact Finset.mem_filter.mpr ⟨mem_allRanges.mpr (by dsimp only; omega), by dsimp only; omega⟩
  · intro range hr
    have hr := Finset.mem_filter.mp hr
    have hr' := mem_allRanges.mp hr.1
    refine Prod.ext ?_ ?_ <;> dsimp only <;> omega
  · intro range _
    refine Prod.ext ?_ ?_ <;> dsimp only <;> omega

/-- Every range ends before the segment, starts after it or meets it. -/
theorem meeting_allRanges (hab : a ≤ b) (hb : b < n) :
    a * (a + 1) / 2 + (n - 1 - b) * (n - 1 - b + 1) / 2 + Segment.meeting (allRanges n) a b =
      n * (n + 1) / 2 := by
  rw [← card_before (n := n) (a := a) (by omega), ← card_after hb, ← card_allRanges n]
  unfold Segment.meeting
  rw [← Finset.card_union_of_disjoint, ← Finset.card_union_of_disjoint]
  · congr 1
    ext range
    simp only [Finset.mem_union, Finset.mem_filter, mem_allRanges]
    omega
  · rw [Finset.disjoint_left]
    intro range h h'
    simp only [Finset.mem_union, Finset.mem_filter] at h h'
    omega
  · rw [Finset.disjoint_left]
    intro range h h'
    have h1 := Finset.mem_filter.mp h
    have h2 := Finset.mem_filter.mp h'
    have h3 := mem_allRanges.mp h1.1
    omega

/-- The ranges around a segment start at or before it and end at or after it. -/
theorem around_allRanges (hab : a ≤ b) :
    Segment.around (allRanges n) a b = (a + 1) * (n - b) := by
  have hproduct : (allRanges n).filter (fun range => range.1 ≤ a ∧ b ≤ range.2) =
      Finset.range (a + 1) ×ˢ Finset.Ico b n := by
    ext range
    rw [Finset.mem_filter, mem_allRanges, Finset.mem_product, Finset.mem_range, Finset.mem_Ico]
    omega
  unfold Segment.around
  rw [hproduct, Finset.card_product, Finset.card_range, Nat.card_Ico]

/-- The counter of all ranges counts them, when there are not too many. -/
theorem allRangesCounter_cases (hpos : 0 < n) (hn : n ≤ sizeMax) :
    (∃ counter, allRangesCounter n = .ok counter ∧ Counts (allRanges n) n counter) ∨
      (Overflows (allRangesCounter n) ∧ sizeMax < (allRanges n).card) := by
  unfold allRangesCounter
  rw [if_neg hpos.ne']
  rcases triangularNumber_cases hn with ⟨htotal, hfit⟩ | ⟨⟨w, htotal⟩, hgt⟩
  swap
  · rw [htotal, card_allRanges]
    exact .inr ⟨⟨w, rfl⟩, hgt⟩
  rw [htotal, Effect.ok_bind]
  refine .inl ⟨_, rfl, fun range h => mem_allRanges.mp h, (card_allRanges n).trans_le hfit, hn,
    fun lo hi hle hhi => ?_⟩
  have hmeeting := meeting_allRanges hle hhi
  have haround := around_allRanges (n := n) hle
  have hcontained := Segment.around_le_meeting (R := allRanges n) hle
  have hleft : triangularNumber lo = .ok (lo * (lo + 1) / 2) := by
    rcases triangularNumber_cases (show lo ≤ sizeMax by omega) with h | h
    · exact h.1
    · omega
  have hright : triangularNumber (n - 1 - hi) = .ok ((n - 1 - hi) * (n - 1 - hi + 1) / 2) := by
    rcases triangularNumber_cases (show n - 1 - hi ≤ sizeMax by omega) with h | h
    · exact h.1
    · omega
  have hproduct : checkedSizeMultiply (lo + 1) (n - hi) =
      .ok (Segment.around (allRanges n) lo hi) :=
    checkedSizeMultiply_eq_ok.mpr ⟨haround, by omega⟩
  rw [if_neg (by omega), hleft, Effect.ok_bind, uncheckedSubtract_eq (by omega), Effect.ok_bind,
    hright, Effect.ok_bind, uncheckedSubtract_eq (by omega), Effect.ok_bind,
    uncheckedSubtract_eq (by omega), Effect.ok_bind, uncheckedAdd_eq (by omega), Effect.ok_bind,
    uncheckedSubtract_eq (by omega), Effect.ok_bind, hproduct, Effect.ok_bind]
  show Except.ok _ = _
  congr 2
  omega

end AllRanges

/-! ## Windows of one width -/

section Windows

variable {n w a b low high : ℕ}

/-- The windows of a width. -/
def windows (n width : ℕ) : Finset (ℕ × ℕ) :=
  (Finset.range (n - width + 1)).image fun start => (start, start + width - 1)

theorem mem_windows (hw : 0 < w) (hwn : w ≤ n) {range : ℕ × ℕ} (h : range ∈ windows n w) :
    range.1 ≤ range.2 ∧ range.2 < n := by
  obtain ⟨start, hstart, rfl⟩ := Finset.mem_image.mp h
  rw [Finset.mem_range] at hstart
  dsimp only
  omega

/-- Windows are told apart by their starts. -/
theorem card_filter_windows (p : ℕ × ℕ → Prop) [DecidablePred p] :
    ((windows n w).filter p).card =
      ((Finset.range (n - w + 1)).filter fun start => p (start, start + w - 1)).card := by
  unfold windows
  rw [Finset.filter_image, Finset.card_image_of_injective]
  exact fun start start' h => congrArg Prod.fst h

theorem card_windows : (windows n w).card = n - w + 1 := by
  unfold windows
  rw [Finset.card_image_of_injective, Finset.card_range]
  exact fun start start' h => congrArg Prod.fst h

theorem sum_windows (f : ℕ × ℕ → ℕ) :
    ∑ range ∈ windows n w, f range =
      ∑ start ∈ Finset.range (n - w + 1), f (start, start + w - 1) :=
  Finset.sum_image fun _ _ _ _ h => congrArg Prod.fst h

theorem windowsIn_eq (hn : n ≤ sizeMax) (hw : 0 < w) (hwn : w ≤ n) : windowsIn (n - w) low high =
    .ok ((Finset.range (n - w + 1)).filter fun start => low ≤ start ∧ start ≤ high).card := by
  have hstarts : (Finset.range (n - w + 1)).filter (fun start => low ≤ start ∧ start ≤ high) =
      Finset.Icc low (if high < n - w then high else n - w) := by
    ext start
    rw [Finset.mem_filter, Finset.mem_range, Finset.mem_Icc]
    split_ifs <;> omega
  unfold windowsIn
  rw [hstarts, Nat.card_Icc]
  dsimp only
  have hclipped : (if high < n - w then high else n - w) ≤ n - w := by split_ifs <;> omega
  by_cases hle : low ≤ if high < n - w then high else n - w
  · rw [if_pos hle, uncheckedSubtract_eq hle, Effect.ok_bind, uncheckedAdd_eq (by omega)]
    congr 1
    omega
  · rw [if_neg hle]
    show Except.ok 0 = _
    congr 1
    omega

theorem firstStart_eq (hn : n ≤ sizeMax) (ha : a < n) : firstStart a w = .ok (a + 1 - w) := by
  unfold firstStart
  rw [uncheckedAdd_eq (by omega), Effect.ok_bind]
  split_ifs with h
  · exact uncheckedSubtract_eq h.le
  · show Except.ok 0 = _
    congr 1
    omega

/-- The counter of the windows of a width counts them. -/
theorem fixedWidthCounter_counts (hn : n ≤ sizeMax) (hw : 0 < w) (hwn : w ≤ n) :
    ∃ counter, fixedWidthCounter n w = .ok counter ∧ Counts (windows n w) n counter := by
  unfold fixedWidthCounter
  rw [if_neg (by omega), if_neg (by omega)]
  refine ⟨_, rfl, fun range h => mem_windows hw hwn h, by rw [card_windows]; omega, hn,
    fun lo hi hle hhi => ?_⟩
  have hmeeting : Segment.meeting (windows n w) lo hi = ((Finset.range (n - w + 1)).filter
      fun start => lo + 1 - w ≤ start ∧ start ≤ hi).card := by
    unfold Segment.meeting
    rw [card_filter_windows]
    congr 1
    refine Finset.filter_congr fun start _ => ?_
    dsimp only
    omega
  have haround : Segment.around (windows n w) lo hi = ((Finset.range (n - w + 1)).filter
      fun start => hi + 1 - w ≤ start ∧ start ≤ lo).card := by
    unfold Segment.around
    rw [card_filter_windows]
    congr 1
    refine Finset.filter_congr fun start _ => ?_
    dsimp only
    omega
  rw [if_neg (by omega), uncheckedSubtract_eq hwn, Effect.ok_bind, firstStart_eq hn (by omega),
    Effect.ok_bind, windowsIn_eq hn hw hwn, Effect.ok_bind, uncheckedSubtract_eq hle,
    Effect.ok_bind, uncheckedAdd_eq (by omega), Effect.ok_bind, hmeeting, haround]
  by_cases hlen : hi - lo + 1 ≤ w
  · rw [if_pos hlen, firstStart_eq hn hhi, Effect.ok_bind, windowsIn_eq hn hw hwn]
    rfl
  · -- a longer segment has no window around it
    have hnone : (Finset.range (n - w + 1)).filter
        (fun start => hi + 1 - w ≤ start ∧ start ≤ lo) = ∅ := by
      rw [Finset.filter_eq_empty_iff]
      intro start _
      omega
    rw [if_neg hlen, hnone]
    rfl

end Windows

/-! ## The sums -/

section Sums

variable {n fuel : ℕ}

/-- `frontierSum(n, allRangesCounter(n))`. -/
def sumOverAllRanges (fuel n : ℕ) : Except Exception ℕ := do
  frontierSum fuel n (← allRangesCounter n)

/-- `frontierSum(n, fixedWidthCounter(n, width))`. -/
def sumOverWindows (fuel n width : ℕ) : Except Exception ℕ := do
  frontierSum fuel n (← fixedWidthCounter n width)

/-- Every range visits a segment. -/
theorem card_le_sum_visits {R : Finset (ℕ × ℕ)}
    (hR : ∀ range ∈ R, range.1 ≤ range.2 ∧ range.2 < n) :
    R.card ≤ ∑ range ∈ R, Segment.visits 0 (n - 1) range.1 range.2 := by
  rw [Finset.card_eq_sum_ones]
  exact Finset.sum_le_sum fun range h => (visits_eq_one_iff (hR range h).1 (hR range h).2).1

/-- **Sums of frontiers.** Both sums are exact when they are representable, and overflow
otherwise; with enough fuel, no calculation in them wraps around. -/
theorem frontier_sums (hpos : 1 ≤ n) (hn : n ≤ sizeMax) :
    ∃ F : ℕ → ℕ → ℕ, (∀ l r, l ≤ r → r < n → frontier n l r = .ok (F l r)) ∧
      (∀ fuel, 2 * n ≤ fuel →
        (∑ range ∈ allRanges n, F range.1 range.2 ≤ sizeMax →
          sumOverAllRanges fuel n = .ok (∑ range ∈ allRanges n, F range.1 range.2)) ∧
        (sizeMax < ∑ range ∈ allRanges n, F range.1 range.2 →
          Overflows (sumOverAllRanges fuel n))) ∧
      ∀ w, 1 ≤ w → w ≤ n → ∀ fuel, 2 * n ≤ fuel →
        (∑ start ∈ Finset.range (n - w + 1), F start (start + w - 1) ≤ sizeMax →
          sumOverWindows fuel n w =
            .ok (∑ start ∈ Finset.range (n - w + 1), F start (start + w - 1))) ∧
        (sizeMax < ∑ start ∈ Finset.range (n - w + 1), F start (start + w - 1) →
          Overflows (sumOverWindows fuel n w)) := by
  refine ⟨Segment.visits 0 (n - 1), fun l r hlr hr => frontier_run hlr hr hn, fun fuel hfuel => ?_,
    fun w hw hwn fuel hfuel => ?_⟩
  · unfold sumOverAllRanges
    rcases allRangesCounter_cases hpos hn with ⟨counter, hcounter, hcounts⟩ | ⟨⟨e, he⟩, hgt⟩
    · rw [hcounter, Effect.ok_bind]
      exact frontierSum_run hcounts hpos hfuel
    · have hle := card_le_sum_visits (R := allRanges n) fun range h => mem_allRanges.mp h
      rw [he]
      exact ⟨fun h => absurd h (by omega), fun _ => ⟨e, rfl⟩⟩
  · obtain ⟨counter, hcounter, hcounts⟩ := fixedWidthCounter_counts hn hw hwn
    unfold sumOverWindows
    rw [hcounter, Effect.ok_bind,
      ← sum_windows fun range => Segment.visits 0 (n - 1) range.1 range.2]
    exact frontierSum_run hcounts hpos hfuel

/-- The six ranges of three elements, and the two of width 2. -/
theorem frontier_sums_three :
    sumOverAllRanges 6 3 = .ok 15 ∧ sumOverWindows 6 3 2 = .ok (2 + 4) := by
  obtain ⟨F, hF, hall, hwindows⟩ := frontier_sums (n := 3) (by decide) (by decide)
  have hvalue : ∀ {l r x : ℕ}, l ≤ r → r < 3 → frontier 3 l r = .ok x → F l r = x :=
    fun hlr hr hx => Except.ok.inj ((hF _ _ hlr hr).symm.trans hx)
  have h00 : F 0 0 = 3 := hvalue (by decide) (by decide) (by decide +kernel)
  have h01 : F 0 1 = 2 := hvalue (by decide) (by decide) (by decide +kernel)
  have h02 : F 0 2 = 1 := hvalue (by decide) (by decide) (by decide +kernel)
  have h11 : F 1 1 = 3 := hvalue (by decide) (by decide) (by decide +kernel)
  have h12 : F 1 2 = 4 := hvalue (by decide) (by decide) (by decide +kernel)
  have h22 : F 2 2 = 2 := hvalue (by decide) (by decide) (by decide +kernel)
  have hranges : allRanges 3 = {(0, 0), (0, 1), (0, 2), (1, 1), (1, 2), (2, 2)} := by decide
  have hsum : ∑ range ∈ allRanges 3, F range.1 range.2 = 15 := by
    rw [hranges]
    simp [h00, h01, h02, h11, h12, h22]
  have hsum' : ∑ start ∈ Finset.range 2, F start (start + 1) = 2 + 4 := by
    simp [Finset.sum_range_succ, h01, h12]
  refine ⟨?_, ?_⟩
  · rw [(hall 6 (by decide)).1 (by rw [hsum]; decide), hsum]
  · have hwindow := (hwindows 2 (by decide) (by decide) 6 (by decide)).1
    exact (hwindow (hsum'.trans_le (by decide))).trans (congrArg Except.ok hsum')

end Sums

end Valseg
