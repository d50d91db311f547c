import Valseg.FrontierExtrema
import Valseg.Lib.CanonicalSegments
import Valseg.Lib.Loop

/-!
# The closed form of the frontier

`closedFormFrontier` does not recurse. It follows the two boundaries of the range down the tree,
one index outside of the range and its neighbour inside: the segments that contain both indices of
a boundary are those a descent goes on from, and what hangs off the two paths is what it covers.
-/

namespace Valseg

/-! ## Calculations the source does not check -/

/-- `left + right`. Where it would wrap around, the model ends. -/
def uncheckedAdd (left right : ℕ) : Except Exception ℕ :=
  if left + right ≤ sizeMax then .ok (left + right) else .error .undefined

/-- `left - right`. Where it would wrap around, the model ends. -/
def uncheckedSubtract (left right : ℕ) : Except Exception ℕ :=
  if right ≤ left then .ok (left - right) else .error .undefined

theorem uncheckedAdd_eq {a b : ℕ} (h : a + b ≤ sizeMax) : uncheckedAdd a b = .ok (a + b) := if_pos h

theorem uncheckedSubtract_eq {a b : ℕ} (h : b ≤ a) : uncheckedSubtract a b = .ok (a - b) := if_pos h

/-- The state of a walk down the tree. -/
structure Walk where
  segmentLeft : ℕ
  segmentRight : ℕ
  count : ℕ
  deriving DecidableEq, Repr

/-- A round of the loop of `nodesContainingBoth`. -/
def containingRound (first second : ℕ) (walk : Walk) : Except Exception (Walk ⊕ ℕ) :=
  if walk.segmentLeft = walk.segmentRight then return .inr walk.count
  else do
    let middle := Segment.midpoint walk.segmentLeft walk.segmentRight
    if first ≤ middle ∧ second ≤ middle then do
      let count ← checkedSizeAdd walk.count 1
      return .inl ⟨walk.segmentLeft, middle, count⟩
    else if first > middle ∧ second > middle then do
      let count ← checkedSizeAdd walk.count 1
      return .inl ⟨middle + 1, walk.segmentRight, count⟩
    else return .inr walk.count

def nodesContainingBoth (fuel n first second : ℕ) : Except Exception ℕ :=
  Loop.run .undefined (containingRound first second) fuel ⟨0, n - 1, 1⟩

/-- A round of the loop of `decompositionAlongBoundary`. -/
def alongRound (outer inner : ℕ) (otherBoundaryExists : Bool) (otherOuter : ℕ) (walk : Walk) :
    Except Exception (Walk ⊕ ℕ) := do
  let middle := Segment.midpoint walk.segmentLeft walk.segmentRight
  let containsOther := otherBoundaryExists = true ∧ walk.segmentLeft ≤ otherOuter ∧
    otherOuter ≤ walk.segmentRight
  if (inner ≤ middle) ≠ (outer ≤ middle) then do
    let count ← uncheckedAdd walk.count (if containsOther then 0 else 1)
    return .inr count
  else do
    let count ← (if ¬ containsOther ∧
        ((inner < outer ∧ ¬ inner ≤ middle) ∨ (¬ inner < outer ∧ inner ≤ middle)) then
      checkedSizeAdd walk.count 1
      else pure walk.count)
    if inner ≤ middle then return .inl ⟨walk.segmentLeft, middle, count⟩
    else return .inl ⟨middle + 1, walk.segmentRight, count⟩

def decompositionAlongBoundary (fuel n outer inner : ℕ) (otherBoundaryExists : Bool)
    (otherOuter : ℕ) : Except Exception ℕ :=
  Loop.run .undefined (alongRound outer inner otherBoundaryExists otherOuter) fuel ⟨0, n - 1, 0⟩

/-- The two counts of the closed form, for a range that is not the whole array. -/
def closedFormCounts (fuel n left right : ℕ) : Except Exception FrontierCounts := do
  let leftBoundary := decide (left > 0)
  let rightBoundary := decide (right + 1 < n)
  let counts ← (if leftBoundary then do
      let containing ← nodesContainingBoth fuel n (left - 1) left
      let partialCount ← checkedSizeAdd 0 containing
      let along ← decompositionAlongBoundary fuel n (left - 1) left rightBoundary (right + 1)
      let decomposition ← checkedSizeAdd 0 along
      return (⟨partialCount, decomposition⟩ : FrontierCounts)
    else pure ⟨0, 0⟩)
  let counts ← (if rightBoundary then do
      let containing ← nodesContainingBoth fuel n right (right + 1)
      let partialCount ← checkedSizeAdd counts.partialCount containing
      let along ← decompositionAlongBoundary fuel n (right + 1) right leftBoundary
        (if leftBoundary then left - 1 else 0)
      let decomposition ← checkedSizeAdd counts.decomposition along
      return (⟨partialCount, decomposition⟩ : FrontierCounts)
    else pure counts)
  if leftBoundary && rightBoundary then do
    let containing ← nodesContainingBoth fuel n (left - 1) (right + 1)
    let partialCount ← uncheckedSubtract counts.partialCount containing
    return ⟨partialCount, counts.decomposition⟩
  else return counts

def closedFormFrontier (fuel n left right : ℕ) : Except Exception ℕ := do
  validateFrontierRange n left right
  if ¬ left > 0 ∧ ¬ right + 1 < n then return 1
  else do
    let counts ← closedFormCounts fuel n left right
    checkedSizeAdd counts.partialCount counts.decomposition

/-! ## Segments that contain both indices -/

section Containing

variable {lo hi i j n l r c : ℕ}

/-- The number of canonical segments that contain both indices. -/
abbrev containing (lo hi i j : ℕ) : ℕ := Segment.count lo hi fun a b => a ≤ i ∧ j ≤ b

/-- They lie on one path. -/
theorem containing_split (hlt : lo < hi) (h1 : lo ≤ i) (h2 : i ≤ j) (h3 : j ≤ hi) :
    containing lo hi i j = 1 +
      (if j ≤ Segment.midpoint lo hi then containing lo (Segment.midpoint lo hi) i j
        else if i > Segment.midpoint lo hi then containing (Segment.midpoint lo hi + 1) hi i j
          else 0) := by
  have hm := Segment.le_midpoint lo hi
  have hm' := Segment.midpoint_lt hlt
  have hleft : ¬ j ≤ Segment.midpoint lo hi → containing lo (Segment.midpoint lo hi) i j = 0 :=
    fun hj => Segment.count_eq_zero hm fun a b hc => by
      have := hc.bounds
      omega
  have hright : ¬ i > Segment.midpoint lo hi →
      containing (Segment.midpoint lo hi + 1) hi i j = 0 :=
    fun hi' => Segment.count_eq_zero hm' fun a b hc => by
      have := hc.bounds
      omega
  unfold containing at *
  rw [Segment.count_split hlt, if_pos (show lo ≤ i ∧ j ≤ hi from ⟨h1, h3⟩)]
  split_ifs with hj hi'
  · rw [hright (by omega), Nat.add_zero]
  · rw [hleft hj, Nat.add_zero]
  · rw [hleft hj, hright hi']

theorem containing_le_height : ∀ lo hi, lo ≤ hi → lo ≤ i → i ≤ j → j ≤ hi →
    1 ≤ containing lo hi i j ∧ containing lo hi i j ≤ Segment.height lo hi + 1 := by
  refine Segment.halving_induction (fun k h1 h2 h3 => ?_) fun lo hi hlt ihl ihr h1 h2 h3 => ?_
  · unfold containing
    rw [Segment.count_single, if_pos ⟨h1, h3⟩]
    omega
  · have hright := Segment.height_right_le hlt
    rw [containing_split hlt h1 h2 h3, Segment.height_split hlt]
    split_ifs with hj hi'
    · have := ihl h1 h2 hj
      omega
    · have := ihr hi' h2 h3
      omega
    · omega

/-- The loop counts them. -/
theorem containing_ends : ∀ lo hi, lo ≤ hi → ∀ c total, lo ≤ i → i ≤ j → j ≤ hi →
    c + containing lo hi i j = total + 1 → total ≤ sizeMax →
    Loop.EndsIn .undefined (containingRound i j) (hi - lo + 1) ⟨lo, hi, c⟩ (.ok total) := by
  refine Segment.halving_induction (fun k c total h1 h2 h3 hc hmax => ?_)
    fun lo hi hlt ihl ihr c total h1 h2 h3 hc hmax => ?_
  · unfold containing at hc
    rw [Segment.count_single, if_pos ⟨h1, h3⟩] at hc
    obtain rfl : c = total := by omega
    exact .mono (.ret (by rw [containingRound, if_pos rfl]; rfl)) (Nat.le_add_left _ _)
  · have hm := Segment.le_midpoint lo hi
    have hm' := Segment.midpoint_lt hlt
    rw [containing_split hlt h1 h2 h3] at hc
    split_ifs at hc with hj hi'
    · have hone := (containing_le_height _ _ hm h1 h2 hj).1
      refine .mono (.next ?_ (ihl (c + 1) total h1 h2 hj (by omega) hmax)) (by omega)
      rw [containingRound, if_neg (by exact hlt.ne), if_pos (by exact ⟨h2.trans hj, hj⟩),
        (checkedSizeAdd_eq_ok (by dsimp; omega)).mpr ⟨rfl, by dsimp; omega⟩]
      rfl
    · have hone := (containing_le_height (Segment.midpoint lo hi + 1) hi hm' hi' h2 h3).1
      refine .mono (.next ?_ (ihr (c + 1) total hi' h2 h3 (by omega) hmax)) (by omega)
      rw [containingRound, if_neg (by exact hlt.ne), if_neg (by dsimp; omega),
        if_pos (by dsimp; omega),
        (checkedSizeAdd_eq_ok (by dsimp; omega)).mpr ⟨rfl, by dsimp; omega⟩]
      rfl
    · obtain rfl : c = total := by omega
      refine .mono (.ret ?_) (Nat.le_add_left _ _)
      rw [containingRound, if_neg (by exact hlt.ne), if_neg (by dsimp; omega),
        if_neg (by dsimp; omega)]
      rfl

/-- The loop ends for all indices. -/
theorem containing_terminates (first second : ℕ) : ∀ lo hi, lo ≤ hi → ∀ c, c + (hi - lo) ≤ sizeMax →
    ∃ total, Loop.EndsIn .undefined (containingRound first second) (hi - lo + 1) ⟨lo, hi, c⟩
      (.ok total) := by
  refine Segment.halving_induction (fun k c _ => ⟨c, ?_⟩) fun lo hi hlt ihl ihr c hc => ?_
  · exact .mono (.ret (by rw [containingRound, if_pos rfl]; rfl)) (Nat.le_add_left _ _)
  · have hm := Segment.le_midpoint lo hi
    have hm' := Segment.midpoint_lt hlt
    have hadd : checkedSizeAdd c 1 = .ok (c + 1) :=
      (checkedSizeAdd_eq_ok (by omega)).mpr ⟨rfl, by omega⟩
    by_cases hl : first ≤ Segment.midpoint lo hi ∧ second ≤ Segment.midpoint lo hi
    · obtain ⟨total, h⟩ := ihl (c + 1) (by omega)
      refine ⟨total, .mono (.next ?_ h) (by omega)⟩
      rw [containingRound, if_neg (by exact hlt.ne), if_pos (by exact hl)]
      simp only [hadd]
      rfl
    by_cases hr : first > Segment.midpoint lo hi ∧ second > Segment.midpoint lo hi
    · obtain ⟨total, h⟩ := ihr (c + 1) (by omega)
      refine ⟨total, .mono (.next ?_ h) (by omega)⟩
      rw [containingRound, if_neg (by exact hlt.ne), if_neg (by exact hl), if_pos (by exact hr)]
      simp only [hadd]
      rfl
    · refine ⟨c, .mono (.ret ?_) (Nat.le_add_left _ _)⟩
      rw [containingRound, if_neg (by exact hlt.ne), if_neg (by exact hl), if_neg (by exact hr)]
      rfl

end Containing

/-! ## What hangs off a boundary -/

section Along

variable {lo hi l r c outer inner otherOuter : ℕ} {other : Bool}

/-- The segment contains the other boundary. -/
def ContainsOther (other : Bool) (otherOuter lo hi : ℕ) : Prop :=
  other = true ∧ lo ≤ otherOuter ∧ otherOuter ≤ hi

instance (other : Bool) (otherOuter lo hi : ℕ) : Decidable (ContainsOther other otherOuter lo hi) :=
  inferInstanceAs (Decidable (_ ∧ _ ∧ _))

/-- The boundary is at the split. -/
theorem alongRound_split (hsplit : (inner ≤ Segment.midpoint lo hi) ≠ (outer ≤ Segment.midpoint lo hi))
    (hc : c + 1 ≤ sizeMax) : alongRound outer inner other otherOuter ⟨lo, hi, c⟩ =
      .ok (.inr (c + if ContainsOther other otherOuter lo hi then 0 else 1)) := by
  unfold alongRound ContainsOther
  rw [if_pos hsplit]
  dsimp only
  rw [uncheckedAdd_eq (by split_ifs <;> omega)]
  rfl

/-- Both indices are in the left half. -/
theorem alongRound_left (hi' : inner ≤ Segment.midpoint lo hi) (ho : outer ≤ Segment.midpoint lo hi)
    (hc : c + 1 ≤ sizeMax) : alongRound outer inner other otherOuter ⟨lo, hi, c⟩ =
      .ok (.inl ⟨lo, Segment.midpoint lo hi,
        c + if ¬ ContainsOther other otherOuter lo hi ∧ ¬ inner < outer then 1 else 0⟩) := by
  unfold alongRound ContainsOther
  rw [if_neg (by simp only [hi', ho, ne_eq, not_true_eq_false, not_false_eq_true])]
  simp only [hi', not_true_eq_false, and_false, and_true, false_or, if_true]
  split_ifs
  · rw [(checkedSizeAdd_eq_ok (by omega)).mpr ⟨rfl, hc⟩]
    rfl
  · rfl

/-- Both are in the right half. -/
theorem alongRound_right (hi' : inner > Segment.midpoint lo hi)
    (ho : outer > Segment.midpoint lo hi) (hc : c + 1 ≤ sizeMax) :
    alongRound outer inner other otherOuter ⟨lo, hi, c⟩ =
      .ok (.inl ⟨Segment.midpoint lo hi + 1, hi,
        c + if ¬ ContainsOther other otherOuter lo hi ∧ inner < outer then 1 else 0⟩) := by
  unfold alongRound ContainsOther
  have h1 : ¬ inner ≤ Segment.midpoint lo hi := not_le.mpr hi'
  have h2 : ¬ outer ≤ Segment.midpoint lo hi := not_le.mpr ho
  rw [if_neg (by simp only [h1, h2, ne_eq, not_true_eq_false, not_false_eq_true])]
  simp only [h1, not_false_eq_true, and_true, and_false, or_false, if_false]
  split_ifs
  · rw [(checkedSizeAdd_eq_ok (by omega)).mpr ⟨rfl, hc⟩]
    rfl
  · rfl

/-- Below the right boundary, all that is covered hangs off the left one. -/
theorem along_left_boundary : ∀ lo hi, lo ≤ hi → ∀ c, lo < l → l ≤ hi → hi ≤ r →
    (other = true → hi < otherOuter) → c + Segment.covers lo hi l r ≤ sizeMax →
    Loop.EndsIn .undefined (alongRound (l - 1) l other otherOuter) (hi - lo + 1) ⟨lo, hi, c⟩
      (.ok (c + Segment.covers lo hi l r)) := by
  refine Segment.halving_induction (fun i c h1 h2 _ _ _ => absurd (h1.trans_le h2) (lt_irrefl i))
    fun lo hi hlt ihl ihr c h1 h2 h3 hno hc => ?_
  have hm := Segment.le_midpoint lo hi
  have hm' := Segment.midpoint_lt hlt
  have hapart : ¬ ContainsOther other otherOuter lo hi := fun h => by
    have := hno h.1
    have := h.2.2
    omega
  rw [Segment.covers_split (by omega) hlt, if_pos (show r > Segment.midpoint lo hi by omega)] at hc ⊢
  by_cases hl : l ≤ Segment.midpoint lo hi
  · have hleft := (Segment.bounds_of_right_end lo _ hm h1 hl (show _ ≤ r by omega)).2.2
    have hin : l ≤ Segment.midpoint lo hi + 1 ∧ hi ≤ r := by omega
    rw [if_pos hl, Segment.covers_of_inside hin] at hc ⊢
    have hend := ihl (c + 1) h1 hl (by omega) (fun h => by have := hno h; omega) (by omega)
    have hround : alongRound (l - 1) l other otherOuter ⟨lo, hi, c⟩ = _ :=
      alongRound_left hl (by omega) (by omega)
    rw [if_pos ⟨hapart, by omega⟩] at hround
    rw [← Nat.add_assoc, Nat.add_right_comm]
    exact .mono (.next hround hend) (by omega)
  rw [if_neg hl, Nat.zero_add] at hc ⊢
  by_cases heq : l = Segment.midpoint lo hi + 1
  · rw [Segment.covers_of_inside (by omega)] at hc ⊢
    refine .mono (.ret ?_) (Nat.le_add_left _ _)
    rw [alongRound_split (by rw [ne_eq, eq_iff_iff]; omega) hc, if_neg hapart]
  · have hright := (Segment.bounds_of_right_end (Segment.midpoint lo hi + 1) hi hm'
      (show _ < l by omega) h2 h3).2.2
    have hend := ihr c (by omega) h2 h3 hno hc
    have hround : alongRound (l - 1) l other otherOuter ⟨lo, hi, c⟩ = _ :=
      alongRound_right (by omega) (by omega) (by omega)
    rw [if_neg (by omega)] at hround
    exact .mono (.next hround hend) (by omega)

/-- Below the left boundary, all that is covered hangs off the right one. -/
theorem along_right_boundary : ∀ lo hi, lo ≤ hi → ∀ c, l ≤ lo → lo ≤ r → r < hi →
    (other = true → otherOuter < lo) → c + Segment.covers lo hi l r ≤ sizeMax →
    Loop.EndsIn .undefined (alongRound (r + 1) r other otherOuter) (hi - lo + 1) ⟨lo, hi, c⟩
      (.ok (c + Segment.covers lo hi l r)) := by
  refine Segment.halving_induction (fun i c _ h2 h3 _ _ => absurd (h2.trans_lt h3) (lt_irrefl i))
    fun lo hi hlt ihl ihr c h1 h2 h3 hno hc => ?_
  have hm := Segment.le_midpoint lo hi
  have hm' := Segment.midpoint_lt hlt
  have hapart : ¬ ContainsOther other otherOuter lo hi := fun h => by
    have := hno h.1
    have := h.2.1
    omega
  rw [Segment.covers_split (by omega) hlt, if_pos (show l ≤ Segment.midpoint lo hi by omega)] at hc ⊢
  by_cases hr : r > Segment.midpoint lo hi
  · have hright := (Segment.bounds_of_left_end (Segment.midpoint lo hi + 1) hi hm'
      (show l ≤ _ by omega) hr h3).2.2
    have hin : l ≤ lo ∧ Segment.midpoint lo hi ≤ r := by omega
    rw [if_pos hr, Segment.covers_of_inside hin] at hc ⊢
    have hend := ihr (c + 1) (by omega) hr h3 (fun h => by have := hno h; omega) (by omega)
    have hround : alongRound (r + 1) r other otherOuter ⟨lo, hi, c⟩ = _ :=
      alongRound_right hr (by omega) (by omega)
    rw [if_pos ⟨hapart, by omega⟩] at hround
    rw [← Nat.add_assoc]
    exact .mono (.next hround hend) (by omega)
  rw [if_neg hr, Nat.add_zero] at hc ⊢
  by_cases heq : r = Segment.midpoint lo hi
  · rw [Segment.covers_of_inside (by omega)] at hc ⊢
    refine .mono (.ret ?_) (Nat.le_add_left _ _)
    rw [alongRound_split (by rw [ne_eq, eq_iff_iff]; omega) hc, if_neg hapart]
  · have hleft := (Segment.bounds_of_left_end lo _ hm h1 h2
      (show r < Segment.midpoint lo hi by omega)).2.2
    have hend := ihl c h1 h2 (by omega) hno hc
    have hround : alongRound (r + 1) r other otherOuter ⟨lo, hi, c⟩ = _ :=
      alongRound_left (by omega) (by omega) (by omega)
    rw [if_neg (by omega)] at hround
    exact .mono (.next hround hend) (by omega)

/-- **Two boundaries.** What is covered is shared out between them. -/
theorem along_both_boundaries : ∀ lo hi, lo ≤ hi → lo < l → l ≤ r → r < hi →
    ∃ x y, Segment.covers lo hi l r = x + y ∧ ∀ c, c + Segment.covers lo hi l r ≤ sizeMax →
      Loop.EndsIn .undefined (alongRound (l - 1) l true (r + 1)) (hi - lo + 1) ⟨lo, hi, c⟩
        (.ok (c + x)) ∧
      Loop.EndsIn .undefined (alongRound (r + 1) r true (l - 1)) (hi - lo + 1) ⟨lo, hi, c⟩
        (.ok (c + y)) := by
  refine Segment.halving_induction
    (fun i h1 h2 h3 => absurd ((h1.trans_le h2).trans h3) (lt_irrefl i))
    fun lo hi hlt ihl ihr h1 h2 h3 => ?_
  have hm := Segment.le_midpoint lo hi
  have hm' := Segment.midpoint_lt hlt
  have hleft : ContainsOther true (r + 1) lo hi := ⟨rfl, by omega, by omega⟩
  have hright : ContainsOther true (l - 1) lo hi := ⟨rfl, by omega, by omega⟩
  obtain ⟨-, -, -, hpos⟩ := Segment.bounds_of_inner lo hi hlt.le h1 h2 h3
  rw [Segment.covers_split (by omega) hlt] at hpos ⊢
  -- a walk towards a boundary, past or at the split
  have walkLeft : ∀ {outer inner otherOuter c x}, ContainsOther true otherOuter lo hi →
      inner ≤ Segment.midpoint lo hi → outer ≤ Segment.midpoint lo hi → c + 1 ≤ sizeMax →
      Loop.EndsIn .undefined (alongRound outer inner true otherOuter)
        (Segment.midpoint lo hi - lo + 1) ⟨lo, Segment.midpoint lo hi, c⟩ (.ok x) →
      Loop.EndsIn .undefined (alongRound outer inner true otherOuter) (hi - lo + 1) ⟨lo, hi, c⟩
        (.ok x) := by
    intro outer inner otherOuter c x hother hinner houter hc hend
    have hround : alongRound outer inner true otherOuter ⟨lo, hi, c⟩ = _ :=
      alongRound_left hinner houter hc
    rw [if_neg fun h => h.1 hother] at hround
    exact .mono (.next hround hend) (by omega)
  have walkRight : ∀ {outer inner otherOuter c x}, ContainsOther true otherOuter lo hi →
      inner > Segment.midpoint lo hi → outer > Segment.midpoint lo hi → c + 1 ≤ sizeMax →
      Loop.EndsIn .undefined (alongRound outer inner true otherOuter)
        (hi - (Segment.midpoint lo hi + 1) + 1) ⟨Segment.midpoint lo hi + 1, hi, c⟩ (.ok x) →
      Loop.EndsIn .undefined (alongRound outer inner true otherOuter) (hi - lo + 1) ⟨lo, hi, c⟩
        (.ok x) := by
    intro outer inner otherOuter c x hother hinner houter hc hend
    have hround : alongRound outer inner true otherOuter ⟨lo, hi, c⟩ = _ :=
      alongRound_right hinner houter hc
    rw [if_neg fun h => h.1 hother] at hround
    exact .mono (.next hround hend) (by omega)
  have atSplit : ∀ {outer inner otherOuter c}, ContainsOther true otherOuter lo hi →
      ¬ (inner ≤ Segment.midpoint lo hi ↔ outer ≤ Segment.midpoint lo hi) → c + 1 ≤ sizeMax →
      Loop.EndsIn .undefined (alongRound outer inner true otherOuter) (hi - lo + 1) ⟨lo, hi, c⟩
        (.ok (c + 0)) := by
    intro outer inner otherOuter c hother hsplit hc
    refine .mono (.ret ?_) (Nat.le_add_left _ _)
    rw [alongRound_split (by rwa [ne_eq, eq_iff_iff]) hc, if_pos hother]
  by_cases hl : l ≤ Segment.midpoint lo hi <;> by_cases hr : r > Segment.midpoint lo hi
  · -- each boundary is in a half of its own
    rw [if_pos hl, if_pos hr] at hpos ⊢
    refine ⟨_, _, rfl, fun c hc => ⟨?_, ?_⟩⟩
    · exact walkLeft hleft hl (by omega) (by omega) (along_left_boundary lo _ hm c h1 hl (by omega)
        (fun _ => by omega) (by omega))
    · exact walkRight hright hr (by omega) (by omega) (along_right_boundary
        (Segment.midpoint lo hi + 1) hi hm' c (by omega) hr h3 (fun _ => by omega) (by omega))
  · rw [if_pos hl, if_neg hr] at hpos ⊢
    by_cases heq : r = Segment.midpoint lo hi
    · refine ⟨_, 0, rfl, fun c hc => ⟨?_, ?_⟩⟩
      · exact walkLeft hleft hl (by omega) (by omega) (along_left_boundary lo _ hm c h1 hl (by omega)
          (fun _ => by omega) (by omega))
      · exact atSplit hright (by omega) (by omega)
    · obtain ⟨x, y, hxy, hends⟩ := ihl h1 h2 (by omega)
      refine ⟨x, y, hxy, fun c hc => ⟨?_, ?_⟩⟩
      · exact walkLeft hleft hl (by omega) (by omega) (hends c hc).1
      · exact walkLeft hright (by omega) (by omega) (by omega) (hends c hc).2
  · rw [if_neg hl, if_pos hr, Nat.zero_add] at hpos ⊢
    by_cases heq : l = Segment.midpoint lo hi + 1
    · refine ⟨0, _, (Nat.zero_add _).symm, fun c hc => ⟨?_, ?_⟩⟩
      · exact atSplit hleft (by omega) (by omega)
      · exact walkRight hright hr (by omega) (by omega) (along_right_boundary
          (Segment.midpoint lo hi + 1) hi hm' c (by omega) hr h3 (fun _ => by omega) (by omega))
    · obtain ⟨x, y, hxy, hends⟩ := ihr (by omega) h2 h3
      refine ⟨x, y, hxy, fun c hc => ⟨?_, ?_⟩⟩
      · exact walkRight hleft (by omega) (by omega) (by omega) (hends c hc).1
      · exact walkRight hright hr (by omega) (by omega) (hends c hc).2
  · omega

/-- The loop ends for all pairs of indices of the segment. -/
theorem along_terminates (other : Bool) (otherOuter : ℕ) (hne : outer ≠ inner) : ∀ lo hi, lo ≤ hi →
    ∀ c, lo ≤ outer → outer ≤ hi →
    lo ≤ inner → inner ≤ hi → c + (hi - lo) ≤ sizeMax →
    ∃ total, Loop.EndsIn .undefined (alongRound outer inner other otherOuter) (hi - lo + 1)
      ⟨lo, hi, c⟩ (.ok total) := by
  refine Segment.halving_induction (fun i c h1 h2 h3 h4 _ => absurd (by omega) hne)
    fun lo hi hlt ihl ihr c h1 h2 h3 h4 hc => ?_
  have hm := Segment.le_midpoint lo hi
  have hm' := Segment.midpoint_lt hlt
  by_cases hinner : inner ≤ Segment.midpoint lo hi <;>
    by_cases houter : outer ≤ Segment.midpoint lo hi
  · obtain ⟨total, hend⟩ := ihl _ h1 houter h3 hinner (show
      c + (if ¬ ContainsOther other otherOuter lo hi ∧ ¬ inner < outer then 1 else 0) +
        (Segment.midpoint lo hi - lo) ≤ sizeMax by split_ifs <;> omega)
    exact ⟨total, .mono (.next (alongRound_left hinner houter (by omega)) hend) (by omega)⟩
  · exact ⟨_, .mono (.ret (alongRound_split (by rw [ne_eq, eq_iff_iff]; omega) (by omega)))
      (Nat.le_add_left _ _)⟩
  · exact ⟨_, .mono (.ret (alongRound_split (by rw [ne_eq, eq_iff_iff]; omega) (by omega)))
      (Nat.le_add_left _ _)⟩
  · obtain ⟨total, hend⟩ := ihr _ (not_le.mp houter) h2 (not_le.mp hinner) h4 (show
      c + (if ¬ ContainsOther other otherOuter lo hi ∧ inner < outer then 1 else 0) +
        (hi - (Segment.midpoint lo hi + 1)) ≤ sizeMax by split_ifs <;> omega)
    exact ⟨total, .mono (.next (alongRound_right (not_le.mp hinner) (not_le.mp houter) (by omega))
      hend) (by omega)⟩

end Along

/-! ## The closed form -/

section ClosedForm

variable {n l r fuel : ℕ}

/-- The canonical segments that contain both indices of a boundary of the range. -/
def boundarySegments (n left right : ℕ) : ℕ :=
  Segment.count 0 (n - 1) fun a b =>
    (0 < left ∧ a ≤ left - 1 ∧ left ≤ b) ∨ (a ≤ right ∧ right + 1 ≤ b)

/-- They are those a descent goes on from. -/
theorem boundarySegments_eq (hlr : l ≤ r) (hr : r < n) :
    boundarySegments n l r = Segment.partials 0 (n - 1) l r := by
  rw [Segment.partials_eq_count hlr 0 (n - 1) (Nat.zero_le _) (by omega) (Nat.zero_le r)]
  refine Segment.count_congr (Nat.zero_le _) fun a b hc => ?_
  have := hc.bounds
  omega

theorem nodesContainingBoth_run {i j : ℕ} (hij : i ≤ j) (hj : j < n) (hn : n ≤ sizeMax)
    (hfuel : n ≤ fuel) : nodesContainingBoth fuel n i j = .ok (containing 0 (n - 1) i j) := by
  have hle := (containing_le_height 0 (n - 1) (Nat.zero_le _) (Nat.zero_le i) hij
    (show j ≤ n - 1 by omega)).2
  have hheight := clog_le hn
  have hlarge : 257 ≤ sizeMax := by decide
  rw [height_eq (Nat.zero_lt_of_lt hj)] at hle
  exact containing_ends 0 (n - 1) (Nat.zero_le _) 1 _ (Nat.zero_le i) hij (by omega)
    (Nat.add_comm _ _) (by omega) fuel (by omega)

/-- **The two counts** of the closed form. -/
theorem closedFormCounts_run (hlr : l ≤ r) (hr : r < n) (hn : n ≤ sizeMax)
    (hb : 0 < l ∨ r + 1 < n) (hfuel : n ≤ fuel) : closedFormCounts fuel n l r =
      .ok ⟨boundarySegments n l r, Segment.covers 0 (n - 1) l r⟩ := by
  have hvisits := visits_le_height hlr hr
  have hheight := clog_le hn
  have hlarge : 1024 ≤ sizeMax := by decide
  unfold Segment.visits at hvisits
  have hadd : ∀ a b, a ≤ 512 → b ≤ 512 → checkedSizeAdd a b = .ok (a + b) := fun a b ha hb =>
    (checkedSizeAdd_eq_ok (by omega)).mpr ⟨rfl, by omega⟩
  have hcontaining : ∀ i j, i ≤ j → j < n → nodesContainingBoth fuel n i j =
      .ok (containing 0 (n - 1) i j) ∧ containing 0 (n - 1) i j ≤ 65 := by
    intro i j hij hj
    refine ⟨nodesContainingBoth_run hij hj hn hfuel, ?_⟩
    have hle := (containing_le_height 0 (n - 1) (Nat.zero_le _) (Nat.zero_le i) hij
      (show j ≤ n - 1 by omega)).2
    rw [height_eq (Nat.zero_lt_of_lt hj)] at hle
    omega
  obtain ⟨hleft, hleft'⟩ := hcontaining (l - 1) l (by omega) (by omega)
  unfold closedFormCounts
  by_cases hl : 0 < l <;> by_cases hr' : r + 1 < n
  · obtain ⟨hright, hright'⟩ := hcontaining r (r + 1) (by omega) hr'
    obtain ⟨hboth, -⟩ := hcontaining (l - 1) (r + 1) (by omega) hr'
    obtain ⟨x, y, hxy, hends⟩ := along_both_boundaries 0 (n - 1) (Nat.zero_le _) hl hlr
      (show r < n - 1 by omega)
    obtain ⟨hx, hy⟩ := hends 0 (by omega)
    have hx' : decompositionAlongBoundary fuel n (l - 1) l true (r + 1) = .ok (0 + x) :=
      hx fuel (by omega)
    have hy' : decompositionAlongBoundary fuel n (r + 1) r true (l - 1) = .ok (0 + y) :=
      hy fuel (by omega)
    have hor : boundarySegments n l r + containing 0 (n - 1) (l - 1) (r + 1) =
        containing 0 (n - 1) (l - 1) l + containing 0 (n - 1) r (r + 1) := by
      rw [← Segment.count_or_add_count_and]
      congr 1
      · exact Segment.count_congr (Nat.zero_le _) fun a b _ => by omega
      · exact Segment.count_congr (Nat.zero_le _) fun a b _ => by omega
    have hsubtract : uncheckedSubtract (containing 0 (n - 1) (l - 1) l +
        containing 0 (n - 1) r (r + 1)) (containing 0 (n - 1) (l - 1) (r + 1)) =
          .ok (boundarySegments n l r) := by
      rw [uncheckedSubtract_eq (by omega)]
      congr 1
      omega
    simp only [gt_iff_lt, hl, hr', decide_true, if_true, Bool.and_self]
    rw [hleft, Effect.ok_bind, hadd _ _ (by omega) (by omega), Effect.ok_bind, hx', Effect.ok_bind,
      hadd _ _ (by omega) (by omega), Effect.ok_bind]
    simp only [pure, Except.pure, Effect.ok_bind]
    rw [hright, Effect.ok_bind, hadd _ _ (by omega) (by omega), Effect.ok_bind, hy', Effect.ok_bind,
      hadd _ _ (by omega) (by omega), Effect.ok_bind, hboth]
    simp only [Effect.ok_bind, hsubtract, hxy, Nat.zero_add]
  · have hend : Loop.EndsIn .undefined (alongRound (l - 1) l false (r + 1)) (n - 1 - 0 + 1)
        ⟨0, n - 1, 0⟩ (.ok (0 + Segment.covers 0 (n - 1) l r)) :=
      along_left_boundary 0 (n - 1) (Nat.zero_le _) 0 hl (by omega) (by omega)
        (fun h => nomatch h) (by omega)
    have hx : decompositionAlongBoundary fuel n (l - 1) l false (r + 1) =
        .ok (0 + Segment.covers 0 (n - 1) l r) := hend fuel (by omega)
    have hboundary : boundarySegments n l r = containing 0 (n - 1) (l - 1) l :=
      Segment.count_congr (Nat.zero_le _) fun a b hc => by
        have := hc.bounds
        omega
    simp only [gt_iff_lt, hl, hr', decide_true, decide_false, if_true, Bool.and_false,
      Bool.false_eq_true, if_false]
    rw [hleft, Effect.ok_bind, hadd _ _ (by omega) (by omega), Effect.ok_bind, hx, Effect.ok_bind,
      hadd _ _ (by omega) (by omega), hboundary]
    simp only [Effect.ok_bind, pure, Except.pure, Nat.zero_add]
  · obtain ⟨hright, hright'⟩ := hcontaining r (r + 1) (by omega) hr'
    have hend : Loop.EndsIn .undefined (alongRound (r + 1) r false 0) (n - 1 - 0 + 1)
        ⟨0, n - 1, 0⟩ (.ok (0 + Segment.covers 0 (n - 1) l r)) :=
      along_right_boundary 0 (n - 1) (Nat.zero_le _) 0 (by omega) (Nat.zero_le r) (by omega)
        (fun h => nomatch h) (by omega)
    have hy : decompositionAlongBoundary fuel n (r + 1) r false 0 =
        .ok (0 + Segment.covers 0 (n - 1) l r) := hend fuel (by omega)
    have hboundary : boundarySegments n l r = containing 0 (n - 1) r (r + 1) :=
      Segment.count_congr (Nat.zero_le _) fun a b hc => by omega
    simp only [gt_iff_lt, hl, hr', decide_true, decide_false, if_true, Bool.false_and,
      Bool.false_eq_true, if_false]
    simp only [pure, Except.pure, Effect.ok_bind]
    rw [hright, Effect.ok_bind, hadd _ _ (by omega) (by omega), Effect.ok_bind, hy, Effect.ok_bind,
      hadd _ _ (by omega) (by omega), hboundary]
    simp only [Effect.ok_bind, Nat.zero_add]
  · omega

/-- **The closed form.** It is the frontier; the partial count it forms is the number of canonical
segments that contain both indices of a boundary, so the subtraction in it does not underflow; and
its loops end. Fuel for `n` rounds is enough. -/
theorem closed_form (hlr : l ≤ r) (hr : r < n) (hn : n ≤ sizeMax) (hfuel : n ≤ fuel) :
    (∃ F, frontier n l r = .ok F ∧ closedFormFrontier fuel n l r = .ok F) ∧
      (0 < l ∨ r + 1 < n → ∃ decomposition,
        closedFormCounts fuel n l r = .ok ⟨boundarySegments n l r, decomposition⟩) ∧
      (∀ first second, ∃ total, ∀ fuel, n ≤ fuel →
        nodesContainingBoth fuel n first second = .ok total) ∧
      ∀ outer inner other otherOuter, outer < n → inner < n → outer ≠ inner → ∃ total,
        ∀ fuel, n ≤ fuel →
          decompositionAlongBoundary fuel n outer inner other otherOuter = .ok total := by
  refine ⟨⟨_, frontier_run hlr hr hn, ?_⟩, fun hb => ⟨_, closedFormCounts_run hlr hr hn hb hfuel⟩,
    fun first second => ?_, fun outer inner other otherOuter ho hi hne => ?_⟩
  · unfold closedFormFrontier
    rw [validateFrontierRange_eq_ok.mpr ⟨hlr, hr⟩, Effect.ok_bind]
    by_cases hwhole : ¬ l > 0 ∧ ¬ r + 1 < n
    · rw [if_pos hwhole, Segment.visits_of_inside (by omega)]
      rfl
    · have hvisits := visits_le_height hlr hr
      have hheight := clog_le hn
      have hlarge : 1024 ≤ sizeMax := by decide
      unfold Segment.visits at hvisits ⊢
      rw [if_neg hwhole, closedFormCounts_run hlr hr hn (by omega) hfuel, Effect.ok_bind,
        boundarySegments_eq hlr hr]
      exact (checkedSizeAdd_eq_ok (by dsimp; omega)).mpr ⟨rfl, by dsimp; omega⟩
  · obtain ⟨total, h⟩ := containing_terminates first second 0 (n - 1) (Nat.zero_le _) 1 (by omega)
    exact ⟨total, fun fuel hf => h fuel (by omega)⟩
  · obtain ⟨total, h⟩ := along_terminates other otherOuter hne 0 (n - 1) (Nat.zero_le _) 0
      (Nat.zero_le _) (by omega) (Nat.zero_le _) (by omega) (by omega)
    exact ⟨total, fun fuel hf => h fuel (by omega)⟩

theorem closed_form_six : (∃ F, frontier 6 1 4 = .ok F ∧ closedFormFrontier 6 6 1 4 = .ok F) ∧
    ∃ decomposition, closedFormCounts 6 6 1 4 = .ok ⟨boundarySegments 6 1 4, decomposition⟩ := by
  have h := closed_form (show 1 ≤ 4 by decide) (show 4 < 6 by decide) (by decide) (le_refl 6)
  exact ⟨h.1, h.2.1 (by decide)⟩

end ClosedForm

end Valseg
