import Valseg.Lib.Segment

/-!
# Numbering segments on the way down

A number for each canonical segment of `[lo, hi]`: the segment itself has a given one, and the
numbers of two halves are computed from that of their segment and from where it is halved
(`descend`). What is known of the numbers is known from one step down (`descend_halves`).
-/

namespace Segment

/-- The number of `[a, b]` when that of `[lo, hi]` is `number`. -/
def descend (halves : (number lo middle : ℕ) → ℕ × ℕ) (number lo hi a b : ℕ) : ℕ :=
  if a = lo ∧ b = hi then number
  else if lo < hi then
    let middle := midpoint lo hi
    if b ≤ middle then descend halves (halves number lo middle).1 lo middle a b
    else descend halves (halves number lo middle).2 (middle + 1) hi a b
  else number
termination_by hi - lo
decreasing_by all_goals (simp only [midpoint] at *; omega)

variable {halves : (number lo middle : ℕ) → ℕ × ℕ} {number lo hi a b c d : ℕ}

@[simp] theorem descend_self : descend halves number lo hi lo hi = number := by
  rw [descend, if_pos ⟨rfl, rfl⟩]

theorem descend_left (hlt : lo < hi) (h : Canonical lo (midpoint lo hi) a b) :
    descend halves number lo hi a b =
      descend halves (halves number lo (midpoint lo hi)).1 lo (midpoint lo hi) a b := by
  have hb := h.bounds
  have hm := midpoint_lt hlt
  rw [descend, if_neg (by omega), if_pos hlt]
  exact if_pos hb.2.2

theorem descend_right (hlt : lo < hi) (h : Canonical (midpoint lo hi + 1) hi a b) :
    descend halves number lo hi a b =
      descend halves (halves number lo (midpoint lo hi)).2 (midpoint lo hi + 1) hi a b := by
  have hb := h.bounds
  have hm := le_midpoint lo hi
  rw [descend, if_neg (by omega), if_pos hlt]
  exact if_neg (by omega)

/-- The descent to a segment goes through the segments around it. -/
theorem descend_trans (h : Canonical lo hi a b) (hcd : Canonical a b c d) :
    descend halves number lo hi c d =
      descend halves (descend halves number lo hi a b) a b c d := by
  induction h generalizing number with
  | self _ => rw [descend_self]
  | left hlt h ih => rw [descend_left hlt h, descend_left hlt (h.trans hcd), ih hcd]
  | right hlt h ih => rw [descend_right hlt h, descend_right hlt (h.trans hcd), ih hcd]

/-- One step down. -/
theorem descend_halves (h : Canonical lo hi a b) (hab : a < b) :
    descend halves number lo hi a (midpoint a b) =
        (halves (descend halves number lo hi a b) a (midpoint a b)).1 ∧
      descend halves number lo hi (midpoint a b + 1) b =
        (halves (descend halves number lo hi a b) a (midpoint a b)).2 := by
  have hl : Canonical a (midpoint a b) a (midpoint a b) := .self (le_midpoint a b)
  have hr : Canonical (midpoint a b + 1) b (midpoint a b + 1) b := .self (midpoint_lt hab)
  constructor
  · rw [descend_trans h (.left hab hl), descend_left hab hl, descend_self]
  · rw [descend_trans h (.right hab hr), descend_right hab hr, descend_self]

end Segment
