import Valseg.Lib.Frontier
import Mathlib.Data.Nat.Log

/-!
# How large a frontier gets

A halved segment has a left half that is as long as the right one or longer by one, so its depth
is between `⌊log₂ n⌋` and `height`, which is `⌈log₂ n⌉`. A range that reaches one end of the
segment is left along one path (`bounds_of_right_end`, `bounds_of_left_end`), any other along two
(`bounds_of_inner`). The rightmost path is the shorter one, which is what keeps the bound from being
reached unless the length is a power of two (`visits_lt`); a range that leaves out just
the two ends comes closest (`visits_of_ends`).
-/

namespace Segment

/-- The number of times a segment is halved down to its first index. -/
def height (lo hi : ℕ) : ℕ := Nat.clog 2 (length lo hi)

variable {lo hi l r : ℕ}

theorem length_left (h : lo ≤ hi) : length lo (midpoint lo hi) = (length lo hi + 1) / 2 := by
  unfold length midpoint
  omega

theorem length_right (h : lo < hi) : length (midpoint lo hi + 1) hi = length lo hi / 2 := by
  unfold length midpoint
  omega

theorem height_single (i : ℕ) : height i i = 0 := by
  unfold height length
  rw [Nat.sub_self]
  exact Nat.clog_one_right 2

/-- The left half is one level lower. -/
theorem height_split (h : lo < hi) : height lo hi = height lo (midpoint lo hi) + 1 := by
  unfold height
  rw [length_left h.le, Nat.clog_of_two_le one_lt_two (show 2 ≤ length lo hi by unfold length; omega)]
  rfl

/-- The right half is not higher than the left one. -/
theorem height_right_le (h : lo < hi) :
    height (midpoint lo hi + 1) hi ≤ height lo (midpoint lo hi) := by
  unfold height
  rw [length_left h.le, length_right h]
  exact Nat.clog_mono_right 2 (by omega)

/-- The right half is one level less deep. -/
theorem log_split (h : lo < hi) :
    Nat.log 2 (length lo hi) = Nat.log 2 (length (midpoint lo hi + 1) hi) + 1 := by
  rw [length_right h]
  exact Nat.log_of_one_lt_of_le one_lt_two (by unfold length; omega)

theorem log_right_le (h : lo < hi) :
    Nat.log 2 (length (midpoint lo hi + 1) hi) ≤ Nat.log 2 (length lo (midpoint lo hi)) := by
  rw [length_left h.le, length_right h]
  exact Nat.log_mono_right (by omega)

theorem height_pos (h : lo < hi) : 0 < height lo hi := by
  rw [height_split h]
  exact Nat.succ_pos _

theorem two_le_height (h : lo + 1 < hi) : 2 ≤ height lo hi := by
  have hm : lo < midpoint lo hi := by unfold midpoint; omega
  rw [height_split (by omega), height_split hm]
  omega

/-! ## Ranges that reach an end -/

/-- A range that reaches the right end. -/
theorem bounds_of_right_end : ∀ lo hi, lo ≤ hi → lo < l → l ≤ hi → hi ≤ r →
    partials lo hi l r ≤ height lo hi ∧ covers lo hi l r ≤ height lo hi ∧
      0 < covers lo hi l r := by
  refine halving_induction (fun i h1 h2 _ => absurd (h1.trans_le h2) (lt_irrefl i))
    fun lo hi hlt ihl ihr h1 h2 h3 => ?_
  have hm := le_midpoint lo hi
  have hm' := midpoint_lt hlt
  have hright := height_right_le hlt
  rw [partials_split (by omega) hlt, covers_split (by omega) hlt, height_split hlt,
    if_pos (show r > midpoint lo hi by omega), if_pos (show r > midpoint lo hi by omega)]
  by_cases hl : l ≤ midpoint lo hi
  · obtain ⟨a, b, c⟩ := ihl h1 hl (by omega)
    have hin : l ≤ midpoint lo hi + 1 ∧ hi ≤ r := by omega
    rw [if_pos hl, if_pos hl, partials_of_inside hin, covers_of_inside hin]
    omega
  rw [if_neg hl, if_neg hl]
  by_cases heq : l = midpoint lo hi + 1
  · rw [partials_of_inside (by omega), covers_of_inside (by omega)]
    omega
  · obtain ⟨a, b, c⟩ := ihr (by omega) h2 h3
    omega

/-- A range that reaches the left end. -/
theorem bounds_of_left_end : ∀ lo hi, lo ≤ hi → l ≤ lo → lo ≤ r → r < hi →
    partials lo hi l r ≤ height lo hi ∧ covers lo hi l r ≤ height lo hi ∧
      0 < covers lo hi l r := by
  refine halving_induction (fun i _ h2 h3 => absurd (h2.trans_lt h3) (lt_irrefl i))
    fun lo hi hlt ihl ihr h1 h2 h3 => ?_
  have hm := le_midpoint lo hi
  have hm' := midpoint_lt hlt
  have hright := height_right_le hlt
  rw [partials_split (by omega) hlt, covers_split (by omega) hlt, height_split hlt,
    if_pos (show l ≤ midpoint lo hi by omega), if_pos (show l ≤ midpoint lo hi by omega)]
  by_cases hr : r > midpoint lo hi
  · obtain ⟨a, b, c⟩ := ihr (by omega) hr h3
    have hin : l ≤ lo ∧ midpoint lo hi ≤ r := by omega
    rw [if_pos hr, if_pos hr, partials_of_inside hin, covers_of_inside hin]
    omega
  rw [if_neg hr, if_neg hr]
  by_cases heq : r = midpoint lo hi
  · rw [partials_of_inside (by omega), covers_of_inside (by omega)]
    omega
  · obtain ⟨a, b, c⟩ := ihl h1 h2 (by omega)
    omega

/-- A range that reaches no end. -/
theorem bounds_of_inner : ∀ lo hi, lo ≤ hi → lo < l → l ≤ r → r < hi →
    partials lo hi l r + 1 ≤ 2 * height lo hi ∧ covers lo hi l r + 2 ≤ 2 * height lo hi ∧
      partials lo hi l r + 3 ≤ covers lo hi l r + 2 * height lo hi ∧ 0 < covers lo hi l r := by
  refine halving_induction (fun i h1 h2 h3 => absurd ((h1.trans_le h2).trans h3) (lt_irrefl i))
    fun lo hi hlt ihl ihr h1 h2 h3 => ?_
  have hm := le_midpoint lo hi
  have hm' := midpoint_lt hlt
  have hright := height_right_le hlt
  have hheight := two_le_height (show lo + 1 < hi by omega)
  have hsplit := height_split hlt
  rw [partials_split (by omega) hlt, covers_split (by omega) hlt]
  by_cases hl : l ≤ midpoint lo hi <;> by_cases hr : r > midpoint lo hi
  · -- the paths to the two ends part here
    obtain ⟨a, b, c⟩ := bounds_of_right_end lo _ hm h1 hl hr.le
    obtain ⟨d, e, f⟩ := bounds_of_left_end (midpoint lo hi + 1) hi hm' (l := l) (by omega) hr h3
    rw [if_pos hl, if_pos hl, if_pos hr, if_pos hr]
    omega
  · rw [if_pos hl, if_pos hl, if_neg hr, if_neg hr]
    by_cases heq : r = midpoint lo hi
    · obtain ⟨a, b, c⟩ := bounds_of_right_end lo _ hm h1 hl heq.ge
      omega
    · obtain ⟨a, b, c, d⟩ := ihl h1 h2 (by omega)
      omega
  · rw [if_neg hl, if_neg hl, if_pos hr, if_pos hr]
    by_cases heq : l = midpoint lo hi + 1
    · obtain ⟨a, b, c⟩ := bounds_of_left_end (midpoint lo hi + 1) hi hm' heq.le hr h3
      omega
    · obtain ⟨a, b, c, d⟩ := ihr (by omega) h2 h3
      omega
  · omega

/-! ## All ranges -/

/-- The bounds of a range inside a segment of at least two indices, wherever it lies. -/
theorem partials_bounds (hlt : lo < hi) (h1 : lo ≤ l) (h2 : l ≤ r) (h3 : r ≤ hi) :
    partials lo hi l r + 1 ≤ 2 * height lo hi ∧
      partials lo hi l r + 2 ≤ covers lo hi l r + 2 * height lo hi ∧ 0 < covers lo hi l r := by
  have hpos := height_pos hlt
  by_cases hl : l = lo <;> by_cases hr : r = hi
  · rw [partials_of_inside (by omega), covers_of_inside (by omega)]
    omega
  · obtain ⟨a, b, c⟩ := bounds_of_left_end lo hi hlt.le hl.le (hl ▸ h2) (by omega)
    omega
  · obtain ⟨a, b, c⟩ := bounds_of_right_end lo hi hlt.le (by omega) (hr ▸ h2) hr.ge
    omega
  · obtain ⟨a, b, c, d⟩ := bounds_of_inner lo hi hlt.le (by omega) h2 (by omega)
    omega

theorem visits_le_of_end (hlt : lo < hi) (h1 : lo ≤ l) (h2 : l ≤ r) (h3 : r ≤ hi)
    (hend : l = lo ∨ r = hi) : visits lo hi l r ≤ 2 * height lo hi := by
  have hpos := height_pos hlt
  by_cases hl : l = lo <;> by_cases hr : r = hi
  · rw [visits_of_inside (by omega)]
    omega
  · obtain ⟨a, b, c⟩ := bounds_of_left_end lo hi hlt.le hl.le (hl ▸ h2) (by omega)
    unfold visits
    omega
  · obtain ⟨a, b, c⟩ := bounds_of_right_end lo hi hlt.le (by omega) (hr ▸ h2) hr.ge
    unfold visits
    omega
  · omega

theorem visits_le_of_inner (h1 : lo < l) (h2 : l ≤ r) (h3 : r < hi) :
    visits lo hi l r + 3 ≤ 4 * height lo hi := by
  obtain ⟨a, b, c, d⟩ := bounds_of_inner lo hi (by omega) h1 h2 h3
  unfold visits
  omega

/-- A descent visits at most four segments a level, less three. -/
theorem visits_le (h : 2 ≤ height lo hi) (hlt : lo < hi) (h1 : lo ≤ l) (h2 : l ≤ r) (h3 : r ≤ hi) :
    visits lo hi l r + 3 ≤ 4 * height lo hi := by
  by_cases hend : l = lo ∨ r = hi
  · have := visits_le_of_end hlt h1 h2 h3 hend
    omega
  · exact visits_le_of_inner (by omega) h2 (by omega)

/-! ## Lengths that are not powers of two -/

/-- In a segment whose length is not a power of two, a right half of such a length is two levels
lower. -/
theorem height_right_of_power (hlt : lo < hi) (hn : length lo hi ≠ 2 ^ height lo hi)
    (hright : length (midpoint lo hi + 1) hi = 2 ^ height (midpoint lo hi + 1) hi) :
    height lo hi = height (midpoint lo hi + 1) hi + 2 := by
  obtain ⟨m, hm⟩ : ∃ m, height (midpoint lo hi + 1) hi = m := ⟨_, rfl⟩
  rw [hm] at hright ⊢
  have hhalf := (length_right hlt).symm.trans hright
  rcases Nat.mod_two_eq_zero_or_one (length lo hi) with heven | hodd
  · have hlen : length lo hi = 2 ^ (m + 1) := by rw [pow_succ]; omega
    refine absurd ?_ hn
    rw [height, hlen, Nat.clog_pow 2 _ one_lt_two]
  · have hleft : length lo (midpoint lo hi) = 2 ^ m + 1 := by rw [length_left hlt.le]; omega
    have hone := Nat.one_le_two_pow (n := m)
    have hle : height lo (midpoint lo hi) ≤ m + 1 :=
      Nat.clog_le_of_le_pow (by rw [hleft, pow_succ]; omega)
    have hlt' : m < height lo (midpoint lo hi) :=
      (Nat.lt_clog_iff_pow_lt one_lt_two).mpr (by rw [hleft]; omega)
    rw [height_split hlt]
    omega

/-- The rightmost path is the only one with a covered segment at each step. -/
theorem visits_of_left_end_lt : ∀ lo hi, lo ≤ hi → l ≤ lo → lo ≤ r → r < hi →
    length lo hi ≠ 2 ^ height lo hi → visits lo hi l r + 1 ≤ 2 * height lo hi := by
  refine halving_induction (fun i _ h2 h3 => absurd (h2.trans_lt h3) (lt_irrefl i))
    fun lo hi hlt _ ihr h1 h2 h3 hn => ?_
  have hm := le_midpoint lo hi
  have hm' := midpoint_lt hlt
  have hright := height_right_le hlt
  have hsplit := height_split hlt
  have hlonger : 2 ≤ height lo hi := two_le_height (by
    by_contra hle
    refine hn ?_
    rw [height, show length lo hi = 2 ^ 1 by unfold length; omega, Nat.clog_pow 2 _ one_lt_two])
  rw [visits_split (by omega) hlt, if_pos (show l ≤ midpoint lo hi by omega)]
  rcases lt_trichotomy r (midpoint lo hi) with hr | hr | hr
  · obtain ⟨a, b, c⟩ := bounds_of_left_end lo _ hm h1 h2 hr
    rw [if_neg (by omega), visits]
    omega
  · rw [if_neg (by omega), visits_of_inside (by omega)]
    omega
  · rw [if_pos hr, visits_of_inside (by omega)]
    by_cases hpow : length (midpoint lo hi + 1) hi = 2 ^ height (midpoint lo hi + 1) hi
    · have htwo := height_right_of_power hlt hn hpow
      obtain ⟨a, b, c⟩ := bounds_of_left_end (midpoint lo hi + 1) hi hm' (l := l) (by omega) hr h3
      unfold visits
      omega
    · have := ihr (by omega) hr h3 hpow
      omega

/-- The bound is not reached. -/
theorem visits_lt (h : 2 ≤ height lo hi) (hlt : lo < hi) (h1 : lo ≤ l) (h2 : l ≤ r) (h3 : r ≤ hi)
    (hn : length lo hi ≠ 2 ^ height lo hi) : visits lo hi l r + 4 ≤ 4 * height lo hi := by
  by_cases hend : l = lo ∨ r = hi
  · have := visits_le_of_end hlt h1 h2 h3 hend
    omega
  have hm := le_midpoint lo hi
  have hm' := midpoint_lt hlt
  have hright := height_right_le hlt
  have hsplit := height_split hlt
  rw [visits_split (by omega) hlt]
  by_cases hl : l ≤ midpoint lo hi <;> by_cases hr : r > midpoint lo hi
  · rw [if_pos hl, if_pos hr]
    obtain ⟨a, b, c⟩ := bounds_of_right_end lo _ hm (by omega) hl hr.le
    by_cases hpow : length (midpoint lo hi + 1) hi = 2 ^ height (midpoint lo hi + 1) hi
    · have htwo := height_right_of_power hlt hn hpow
      obtain ⟨d, e, f⟩ := bounds_of_left_end (midpoint lo hi + 1) hi hm' (l := l) (by omega) hr
        (by omega)
      unfold visits
      omega
    · have := visits_of_left_end_lt (midpoint lo hi + 1) hi hm' (l := l) (by omega) hr (by omega)
        hpow
      unfold visits at *
      omega
  · rw [if_pos hl, if_neg hr]
    by_cases hend' : l = lo ∨ r = midpoint lo hi
    · have := visits_le_of_end (by omega) h1 h2 (by omega) hend'
      omega
    · have := visits_le_of_inner (show lo < l by omega) h2 (show r < midpoint lo hi by omega)
      omega
  · rw [if_neg hl, if_pos hr]
    by_cases hend' : l = midpoint lo hi + 1 ∨ r = hi
    · have := visits_le_of_end (show midpoint lo hi + 1 < hi by omega) (by omega) h2 h3 hend'
      omega
    · have := visits_le_of_inner (show midpoint lo hi + 1 < l by omega) h2 (show r < hi by omega)
      omega
  · omega

/-! ## Ranges that leave out the ends -/

/-- All but the first index. -/
theorem visits_of_first_left_out : ∀ lo hi, lo ≤ hi → lo < hi → hi ≤ r →
    visits lo hi (lo + 1) r = 2 * height lo hi := by
  refine halving_induction (fun i h _ => absurd h (lt_irrefl i))
    fun lo hi hlt ihl _ _ h2 => ?_
  have hm := le_midpoint lo hi
  have hm' := midpoint_lt hlt
  rw [visits_split (by omega) hlt, height_split hlt, if_pos (show r > midpoint lo hi by omega)]
  by_cases hone : lo + 1 ≤ midpoint lo hi
  · rw [if_pos hone, ihl (by omega) (by omega), visits_of_inside (by omega)]
    omega
  · obtain heq : midpoint lo hi = lo := by omega
    rw [if_neg hone, visits_of_inside (by omega), heq, height_single]

/-- All but the last index. -/
theorem visits_of_last_left_out : ∀ lo hi, lo ≤ hi → lo < hi → l ≤ lo →
    visits lo hi l (hi - 1) = 2 * Nat.log 2 (length lo hi) := by
  refine halving_induction (fun i h _ => absurd h (lt_irrefl i))
    fun lo hi hlt _ ihr _ h2 => ?_
  have hm := le_midpoint lo hi
  have hm' := midpoint_lt hlt
  rw [visits_split (by omega) hlt, log_split hlt, if_pos (show l ≤ midpoint lo hi by omega),
    visits_of_inside (show l ≤ lo ∧ midpoint lo hi ≤ hi - 1 by omega)]
  by_cases hone : midpoint lo hi + 1 < hi
  · rw [if_pos (by omega), ihr hone (by omega)]
    omega
  · obtain heq : midpoint lo hi + 1 = hi := by omega
    rw [if_neg (by omega), length, heq, Nat.sub_self, Nat.log_one_right]

/-- All but the first and the last index. -/
theorem visits_of_ends_left_out (h : lo + 1 < hi) :
    visits lo hi (lo + 1) (hi - 1) + 3 = 2 * height lo hi + 2 * Nat.log 2 (length lo hi) := by
  have hlt : lo < hi := by omega
  have hm : lo + 1 ≤ midpoint lo hi := by unfold midpoint; omega
  have hm' := midpoint_lt hlt
  rw [visits_split (by omega) hlt, height_split hlt, log_split hlt, if_pos hm]
  by_cases hone : midpoint lo hi + 1 < hi
  · rw [if_pos (by omega), visits_of_first_left_out lo _ (by omega) hm (by omega),
      visits_of_last_left_out (midpoint lo hi + 1) hi hm' hone (by omega)]
    omega
  · -- three indices: the right half is left out
    obtain heq : midpoint lo hi + 1 = hi := by omega
    rw [if_neg (by omega), visits_of_first_left_out lo _ (by omega) hm (by omega), length, heq,
      Nat.sub_self, Nat.log_one_right]
    have htwo : height lo (midpoint lo hi) = 1 := by
      unfold midpoint at heq
      rw [height, show length lo (midpoint lo hi) = 2 ^ 1 by unfold length midpoint; omega,
        Nat.clog_pow 2 _ one_lt_two]
    omega

/-! ## Met segments -/

theorem log_add_overlap_le_meets : ∀ lo hi, lo ≤ hi → l ≤ hi → lo ≤ r → l ≤ r →
    Nat.log 2 (length lo hi) + overlap lo hi l r ≤ meets lo hi l r := by
  unfold overlap
  refine halving_induction (fun i _ _ _ => ?_) fun lo hi hlt ihl ihr h1 h2 h3 => ?_
  · rw [meets_of_single, length, Nat.sub_self, Nat.log_one_right]
    omega
  · have hm := le_midpoint lo hi
    have hm' := midpoint_lt hlt
    have hlog := log_right_le hlt
    rw [meets_split hlt, log_split hlt]
    by_cases hl : l ≤ midpoint lo hi <;> by_cases hr : r > midpoint lo hi
    · have hleft := ihl hl h2 h3
      have hright := ihr h1 hr h3
      rw [if_pos hl, if_pos hr]
      omega
    · have hleft := ihl hl h2 h3
      rw [if_pos hl, if_neg hr]
      omega
    · have hright := ihr h1 hr h3
      rw [if_neg hl, if_pos hr]
      omega
    · omega

theorem meets_le (h : 2 ≤ height lo hi) (hlt : lo < hi) (h1 : lo ≤ l) (h2 : l ≤ r) (h3 : r ≤ hi) :
    meets lo hi l r + 3 ≤ 2 * length l r + 2 * height lo hi := by
  have hmeets := meets_eq lo hi hlt.le (h2.trans h3) (h1.trans h2) h2
  unfold overlap at hmeets
  unfold length
  by_cases hl : l = lo <;> by_cases hr : r = hi
  · rw [partials_of_inside (by omega), covers_of_inside (by omega)] at hmeets
    omega
  · obtain ⟨a, b, c⟩ := bounds_of_left_end lo hi hlt.le hl.le (hl ▸ h2) (by omega)
    omega
  · obtain ⟨a, b, c⟩ := bounds_of_right_end lo hi hlt.le (by omega) (hr ▸ h2) hr.ge
    omega
  · obtain ⟨a, b, c, d⟩ := bounds_of_inner lo hi hlt.le (by omega) h2 (by omega)
    omega

end Segment
