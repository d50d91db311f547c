import Valseg.Lib.Segment
import Mathlib.Tactic.SplitIfs

/-!
# The frontier of a range

A descent over the canonical segments of `[lo, hi]` that stops at the segments inside a range
`[l, r]` and leaves out the halves that do not meet it visits two kinds of segments: those it
stops at (`covers`) and those it goes on from (`partials`). One that does not stop visits every
segment that meets the range (`meets`), and `meets_eq` computes that from the other two.
-/

namespace Segment

/-- The visited segments that are not inside the range. -/
def partials (lo hi l r : ℕ) : ℕ :=
  if l ≤ lo ∧ hi ≤ r then 0
  else if lo < hi then
    1 + (if l ≤ midpoint lo hi then partials lo (midpoint lo hi) l r else 0) +
      (if r > midpoint lo hi then partials (midpoint lo hi + 1) hi l r else 0)
  else 0
termination_by hi - lo
decreasing_by all_goals (simp only [midpoint] at *; omega)

/-- The visited segments that are inside the range. -/
def covers (lo hi l r : ℕ) : ℕ :=
  if l ≤ lo ∧ hi ≤ r then 1
  else if lo < hi then
    (if l ≤ midpoint lo hi then covers lo (midpoint lo hi) l r else 0) +
      (if r > midpoint lo hi then covers (midpoint lo hi + 1) hi l r else 0)
  else 0
termination_by hi - lo
decreasing_by all_goals (simp only [midpoint] at *; omega)

/-- The segments that meet the range. -/
def meets (lo hi l r : ℕ) : ℕ :=
  if lo < hi then
    1 + (if l ≤ midpoint lo hi then meets lo (midpoint lo hi) l r else 0) +
      (if r > midpoint lo hi then meets (midpoint lo hi + 1) hi l r else 0)
  else 1
termination_by hi - lo
decreasing_by all_goals (simp only [midpoint] at *; omega)

/-- The visited segments. -/
def visits (lo hi l r : ℕ) : ℕ := partials lo hi l r + covers lo hi l r

/-- The number of indices the segment and the range have in common. -/
def overlap (lo hi l r : ℕ) : ℕ := min hi r + 1 - max lo l

variable {lo hi l r : ℕ}

theorem partials_of_inside (h : l ≤ lo ∧ hi ≤ r) : partials lo hi l r = 0 := by
  rw [partials, if_pos h]

theorem covers_of_inside (h : l ≤ lo ∧ hi ≤ r) : covers lo hi l r = 1 := by
  rw [covers, if_pos h]

theorem partials_split (hin : ¬ (l ≤ lo ∧ hi ≤ r)) (hlt : lo < hi) : partials lo hi l r =
    1 + (if l ≤ midpoint lo hi then partials lo (midpoint lo hi) l r else 0) +
      (if r > midpoint lo hi then partials (midpoint lo hi + 1) hi l r else 0) := by
  rw [partials, if_neg hin, if_pos hlt]

theorem covers_split (hin : ¬ (l ≤ lo ∧ hi ≤ r)) (hlt : lo < hi) : covers lo hi l r =
    (if l ≤ midpoint lo hi then covers lo (midpoint lo hi) l r else 0) +
      (if r > midpoint lo hi then covers (midpoint lo hi + 1) hi l r else 0) := by
  rw [covers, if_neg hin, if_pos hlt]

theorem visits_of_inside (h : l ≤ lo ∧ hi ≤ r) : visits lo hi l r = 1 := by
  unfold visits
  rw [partials, covers, if_pos h, if_pos h]

/-- Past a segment that is not inside the range, the halves that meet the range are visited. -/
theorem visits_split (hin : ¬ (l ≤ lo ∧ hi ≤ r)) (hlt : lo < hi) : visits lo hi l r =
    1 + (if l ≤ midpoint lo hi then visits lo (midpoint lo hi) l r else 0) +
      (if r > midpoint lo hi then visits (midpoint lo hi + 1) hi l r else 0) := by
  unfold visits
  rw [partials, covers, if_neg hin, if_neg hin, if_pos hlt, if_pos hlt]
  split_ifs <;> omega

theorem meets_of_single (i l r : ℕ) : meets i i l r = 1 := by
  rw [meets, if_neg (lt_irrefl i)]

theorem meets_split (hlt : lo < hi) : meets lo hi l r =
    1 + (if l ≤ midpoint lo hi then meets lo (midpoint lo hi) l r else 0) +
      (if r > midpoint lo hi then meets (midpoint lo hi + 1) hi l r else 0) := by
  rw [meets, if_pos hlt]

/-- All canonical segments meet a range around them. -/
theorem meets_of_inside : ∀ lo hi, lo ≤ hi → l ≤ lo → hi ≤ r →
    meets lo hi l r = 2 * (hi - lo) + 1 := by
  refine halving_induction (fun i _ _ => ?_) fun lo hi hlt ihl ihr h1 h2 => ?_
  · rw [meets_of_single, Nat.sub_self]
  · have hm := le_midpoint lo hi
    have hm' := midpoint_lt hlt
    rw [meets_split hlt, if_pos (by omega), if_pos (by omega), ihl h1 (by omega),
      ihr (by omega) h2]
    omega

/-- Every segment inside the range has an index of its own. -/
theorem covers_le : ∀ lo hi, lo ≤ hi → l ≤ hi → lo ≤ r → l ≤ r →
    covers lo hi l r ≤ overlap lo hi l r := by
  unfold overlap
  refine halving_induction (fun i h1 h2 _ => ?_) fun lo hi hlt ihl ihr h1 h2 h3 => ?_
  · rw [covers, if_pos ⟨h1, h2⟩]
    omega
  · have hm := le_midpoint lo hi
    have hm' := midpoint_lt hlt
    rw [covers]
    by_cases hin : l ≤ lo ∧ hi ≤ r
    · rw [if_pos hin]
      omega
    rw [if_neg hin, if_pos hlt]
    by_cases hl : l ≤ midpoint lo hi <;> by_cases hr : r > midpoint lo hi
    · have hleft := ihl hl h2 h3
      have hright := ihr h1 hr h3
      rw [if_pos hl, if_pos hr]
      omega
    · have hleft := ihl hl h2 h3
      rw [if_pos hl, if_neg hr]
      omega
    · have hright := ihr h1 hr h3
      rw [if_neg hl, if_pos hr]
      omega
    · omega

/-- **Meeting.** A segment of `k` indices where a descent would have stopped has `2 k - 1`
segments below it. -/
theorem meets_eq : ∀ lo hi, lo ≤ hi → l ≤ hi → lo ≤ r → l ≤ r →
    meets lo hi l r + covers lo hi l r = partials lo hi l r + 2 * overlap lo hi l r := by
  refine halving_induction (fun i h1 h2 _ => ?_) fun lo hi hlt ihl ihr h1 h2 h3 => ?_
  · rw [meets_of_single, covers, partials, if_pos ⟨h1, h2⟩, if_pos ⟨h1, h2⟩, overlap]
    omega
  · have hm := le_midpoint lo hi
    have hm' := midpoint_lt hlt
    unfold overlap at ihl ihr ⊢
    by_cases hin : l ≤ lo ∧ hi ≤ r
    · rw [meets_of_inside lo hi hlt.le hin.1 hin.2, covers, partials, if_pos hin, if_pos hin]
      omega
    rw [meets_split hlt, covers, partials, if_neg hin, if_neg hin, if_pos hlt, if_pos hlt]
    by_cases hl : l ≤ midpoint lo hi <;> by_cases hr : r > midpoint lo hi
    · have hleft := ihl hl h2 h3
      have hright := ihr h1 hr h3
      simp only [if_pos hl, if_pos hr]
      omega
    · have hleft := ihl hl h2 h3
      simp only [if_pos hl, if_neg hr]
      omega
    · have hright := ihr h1 hr h3
      simp only [if_neg hl, if_pos hr]
      omega
    · omega

end Segment
