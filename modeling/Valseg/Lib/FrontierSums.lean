import Mathlib.Tactic.Tauto
import Valseg.Lib.Frontier

/-!
# Frontiers of a family of ranges

The frontiers of all ranges of a family add up to a sum over segments: a segment is visited by the
ranges that meet it without containing it, and by those that contain it but not the segment it is
a half of. `familySum` is that sum over segments, and `familySum_eq` exchanges the two.
-/

namespace Segment

/-- The segments a descent visits, none where the segment and the range are apart. -/
def visitsOf (lo hi : ℕ) (range : ℕ × ℕ) : ℕ :=
  if range.1 ≤ hi ∧ lo ≤ range.2 then visits lo hi range.1 range.2 else 0

/-- The ranges of a family that meet a segment. -/
def meeting (R : Finset (ℕ × ℕ)) (lo hi : ℕ) : ℕ :=
  (R.filter fun range => range.1 ≤ hi ∧ lo ≤ range.2).card

/-- The ranges of a family that contain a segment. -/
def around (R : Finset (ℕ × ℕ)) (lo hi : ℕ) : ℕ :=
  (R.filter fun range => range.1 ≤ lo ∧ hi ≤ range.2).card

/-- The visits of a family in a segment that so many of its ranges do not descend to. -/
def familySum (R : Finset (ℕ × ℕ)) (lo hi parentAround : ℕ) : ℕ :=
  (meeting R lo hi - around R lo hi) + (around R lo hi - parentAround) +
    if lo < hi then
      familySum R lo (midpoint lo hi) (around R lo hi) +
        familySum R (midpoint lo hi + 1) hi (around R lo hi)
    else 0
termination_by hi - lo
decreasing_by all_goals (simp only [midpoint] at *; omega)

section Family

variable {R P : Finset (ℕ × ℕ)} {lo hi : ℕ}

theorem familySum_single (i parentAround : ℕ) : familySum R i i parentAround =
    (meeting R i i - around R i i) + (around R i i - parentAround) := by
  rw [familySum, if_neg (lt_irrefl i), Nat.add_zero]

theorem familySum_split (h : lo < hi) (parentAround : ℕ) : familySum R lo hi parentAround =
    (meeting R lo hi - around R lo hi) + (around R lo hi - parentAround) +
      (familySum R lo (midpoint lo hi) (around R lo hi) +
        familySum R (midpoint lo hi + 1) hi (around R lo hi)) := by
  rw [familySum, if_pos h]

theorem around_le_meeting (hle : lo ≤ hi) : around R lo hi ≤ meeting R lo hi := by
  refine Finset.card_le_card fun range h => ?_
  rw [Finset.mem_filter] at h ⊢
  exact ⟨h.1, h.2.1.trans hle, hle.trans h.2.2⟩

theorem meeting_le_card : meeting R lo hi ≤ R.card := Finset.card_filter_le _ _

/-- A segment has all ranges around it that a larger one has. -/
theorem around_mono {a b : ℕ} (ha : lo ≤ a) (hb : b ≤ hi) : around R lo hi ≤ around R a b := by
  refine Finset.card_le_card fun range h => ?_
  rw [Finset.mem_filter] at h ⊢
  exact ⟨h.1, h.2.1.trans ha, hb.trans h.2.2⟩

/-- One range. -/
theorem visitsOf_split (hlt : lo < hi) {range : ℕ × ℕ} (hrange : range.1 ≤ range.2) :
    visitsOf lo hi range =
      (if range.1 ≤ lo ∧ hi ≤ range.2 then 1 else 0) +
        (if (range.1 ≤ hi ∧ lo ≤ range.2) ∧ ¬ (range.1 ≤ lo ∧ hi ≤ range.2) then 1 else 0) +
        if range.1 ≤ lo ∧ hi ≤ range.2 then 0
        else visitsOf lo (midpoint lo hi) range + visitsOf (midpoint lo hi + 1) hi range := by
  obtain ⟨l, r⟩ := range
  have hm := le_midpoint lo hi
  have hm' := midpoint_lt hlt
  unfold visitsOf
  dsimp only at hrange ⊢
  by_cases hin : l ≤ lo ∧ hi ≤ r
  · rw [if_pos (by omega), visits_of_inside hin, if_pos hin, if_neg fun h => h.2 hin, if_pos hin]
  by_cases hmeet : l ≤ hi ∧ lo ≤ r
  · have hpartial : (l ≤ hi ∧ lo ≤ r) ∧ ¬ (l ≤ lo ∧ hi ≤ r) := ⟨hmeet, hin⟩
    rw [if_pos hmeet, visits_split hin hlt, if_neg hin, if_pos hpartial, if_neg hin]
    by_cases hl : l ≤ midpoint lo hi <;> by_cases hr : r > midpoint lo hi
    · rw [if_pos hl, if_pos hr, if_pos (by omega), if_pos (by omega)]
      omega
    · rw [if_pos hl, if_neg hr, if_pos (by omega), if_neg (by omega)]
      omega
    · rw [if_neg hl, if_pos hr, if_neg (by omega), if_pos (by omega)]
      omega
    · omega
  · rw [if_neg hmeet, if_neg hin, if_neg fun h => hmeet h.1, if_neg hin, if_neg (by omega),
      if_neg (by omega)]

/-- The ranges that meet the segment and are not around it. -/
theorem sum_partial (hle : lo ≤ hi) (hP : ∀ range ∈ P, range.1 ≤ lo ∧ hi ≤ range.2) :
    (∑ range ∈ R \ P, if (range.1 ≤ hi ∧ lo ≤ range.2) ∧ ¬ (range.1 ≤ lo ∧ hi ≤ range.2) then 1
      else 0) = meeting R lo hi - around R lo hi := by
  have hsub : (R.filter fun range => range.1 ≤ lo ∧ hi ≤ range.2) ⊆
      R.filter fun range => range.1 ≤ hi ∧ lo ≤ range.2 := by
    intro range h
    rw [Finset.mem_filter] at h ⊢
    exact ⟨h.1, h.2.1.trans hle, hle.trans h.2.2⟩
  unfold meeting around
  rw [← Finset.card_filter, ← Finset.card_sdiff_of_subset hsub]
  congr 1
  ext range
  simp only [Finset.mem_filter, Finset.mem_sdiff]
  constructor
  · rintro ⟨⟨hR, -⟩, hmeet, hin⟩
    exact ⟨⟨hR, hmeet⟩, fun h => hin h.2⟩
  · rintro ⟨⟨hR, hmeet⟩, hin⟩
    exact ⟨⟨hR, fun h => hin ⟨hR, hP range h⟩⟩, hmeet, fun h => hin ⟨hR, h⟩⟩

/-- The ranges around the segment that descend to it. -/
theorem sum_around (hsub : P ⊆ R) (hP : ∀ range ∈ P, range.1 ≤ lo ∧ hi ≤ range.2) :
    (∑ range ∈ R \ P, if range.1 ≤ lo ∧ hi ≤ range.2 then 1 else 0) = around R lo hi - P.card := by
  have hsub' : P ⊆ R.filter fun range => range.1 ≤ lo ∧ hi ≤ range.2 :=
    fun range h => Finset.mem_filter.mpr ⟨hsub h, hP range h⟩
  unfold around
  rw [← Finset.card_filter, ← Finset.card_sdiff_of_subset hsub']
  congr 1
  ext range
  simp only [Finset.mem_filter, Finset.mem_sdiff]
  tauto

/-- **Exchange.** The visits of the ranges that descend to a segment, added up segment by
segment. -/
theorem familySum_eq (hR : ∀ range ∈ R, range.1 ≤ range.2) : ∀ lo hi, lo ≤ hi →
    ∀ P : Finset (ℕ × ℕ), P ⊆ R → (∀ range ∈ P, range.1 ≤ lo ∧ hi ≤ range.2) →
      familySum R lo hi P.card = ∑ range ∈ R \ P, visitsOf lo hi range := by
  refine halving_induction (fun i P hsub hP => ?_) fun lo hi hlt ihl ihr P hsub hP => ?_
  · rw [familySum_single, ← sum_around hsub hP, ← sum_partial le_rfl hP, ← Finset.sum_add_distrib]
    refine Finset.sum_congr rfl fun range _ => ?_
    unfold visitsOf
    by_cases h : range.1 ≤ i ∧ i ≤ range.2
    · rw [if_neg fun h' => h'.2 h, if_pos h, if_pos h, visits_of_inside h]
    · rw [if_neg fun h' => h h'.1, if_neg h, if_neg h]
  · have hm := le_midpoint lo hi
    have hm' := midpoint_lt hlt
    -- the ranges around the segment do not descend to its halves
    have hchildren : ∀ f : ℕ × ℕ → ℕ,
        (∑ range ∈ R \ P, if range.1 ≤ lo ∧ hi ≤ range.2 then 0 else f range) =
          ∑ range ∈ R \ R.filter (fun range => range.1 ≤ lo ∧ hi ≤ range.2), f range := by
      intro f
      rw [Finset.sum_ite, Finset.sum_const_zero, Nat.zero_add]
      refine Finset.sum_congr ?_ fun _ _ => rfl
      ext range
      simp only [Finset.mem_filter, Finset.mem_sdiff]
      constructor
      · rintro ⟨⟨h, -⟩, hin⟩
        exact ⟨h, fun h' => hin h'.2⟩
      · rintro ⟨h, hin⟩
        exact ⟨⟨h, fun h' => hin ⟨h, hP range h'⟩⟩, fun h' => hin ⟨h, h'⟩⟩
    have hleft := ihl (R.filter fun range => range.1 ≤ lo ∧ hi ≤ range.2)
      (Finset.filter_subset _ _) fun range h => by
        have := (Finset.mem_filter.mp h).2
        omega
    have hright := ihr (R.filter fun range => range.1 ≤ lo ∧ hi ≤ range.2)
      (Finset.filter_subset _ _) fun range h => by
        have := (Finset.mem_filter.mp h).2
        omega
    rw [Finset.sum_congr rfl fun range h =>
        visitsOf_split hlt (hR range (Finset.mem_sdiff.mp h).1), Finset.sum_add_distrib,
      Finset.sum_add_distrib, sum_around hsub hP, sum_partial hlt.le hP, hchildren,
      Finset.sum_add_distrib, ← hleft, ← hright, familySum_split hlt]
    unfold around
    omega

/-- The sum over the whole tree is the sum of the frontiers. -/
theorem familySum_root (hR : ∀ range ∈ R, range.1 ≤ range.2 ∧ lo ≤ range.2 ∧ range.1 ≤ hi)
    (hle : lo ≤ hi) : familySum R lo hi 0 = ∑ range ∈ R, visits lo hi range.1 range.2 := by
  have h := familySum_eq (fun range h => (hR range h).1) lo hi hle ∅ (Finset.empty_subset R)
    fun range h => absurd h (Finset.notMem_empty range)
  rw [Finset.card_empty, Finset.sdiff_empty] at h
  rw [h]
  refine Finset.sum_congr rfl fun range h => ?_
  obtain ⟨-, h1, h2⟩ := hR range h
  exact if_pos ⟨h2, h1⟩

end Family

end Segment
