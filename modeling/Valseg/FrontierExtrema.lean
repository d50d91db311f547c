import Valseg.Frontier
import Valseg.Lib.FrontierBounds

/-!
# The extrema of the frontier

On a size that is representable the counts of `frontier.hpp` never overflow, since they are of the
order of the height (`frontierCounts_run`). So they are the counts of the descent, and their
bounds are those of a halved segment.
-/

namespace Valseg

variable {n l r : ℕ}

/-! ## Heights of representable sizes -/

theorem height_eq (hn : 0 < n) : Segment.height 0 (n - 1) = Nat.clog 2 n := by
  rw [Segment.height, Segment.length, Nat.sub_zero, Nat.sub_add_cancel hn]

theorem clog_le (hn : n ≤ sizeMax) : Nat.clog 2 n ≤ 64 :=
  Nat.clog_le_of_le_pow (hn.trans (Nat.sub_le _ _))

/-- A rough bound, for all heights. -/
theorem visits_le_height (hlr : l ≤ r) (hr : r < n) :
    Segment.visits 0 (n - 1) l r ≤ 4 * Nat.clog 2 n + 1 := by
  have hheight := height_eq (Nat.zero_lt_of_lt hr)
  rcases Nat.eq_zero_or_pos (n - 1) with h0 | hpos
  · rw [Segment.visits_of_inside (by omega)]
    omega
  by_cases hend : l = 0 ∨ r = n - 1
  · have := Segment.visits_le_of_end hpos (Nat.zero_le l) hlr (by omega) hend
    omega
  · have := Segment.visits_le_of_inner (show 0 < l by omega) hlr (show r < n - 1 by omega)
    omega

/-! ## The counts are those of the descent -/

/-- One recursion returns when the counts it ends with are representable. -/
theorem countFrontier_run (hlr : l ≤ r) : ∀ lo hi, lo ≤ hi → ∀ counts : FrontierCounts, l ≤ hi →
    lo ≤ r →
    counts.partialCount + Segment.partials lo hi l r ≤ sizeMax →
    counts.decomposition + Segment.covers lo hi l r ≤ sizeMax →
    countFrontier lo hi l r counts = .ok ⟨counts.partialCount + Segment.partials lo hi l r,
      counts.decomposition + Segment.covers lo hi l r⟩ := by
  refine Segment.halving_induction (fun i counts h1 h2 hp hc => ?_)
    fun lo hi hlt ihl ihr counts h1 h2 hp hc => ?_
  · rw [Segment.covers_of_inside ⟨h1, h2⟩] at hc ⊢
    rw [Segment.partials_of_inside ⟨h1, h2⟩, countFrontier, if_pos ⟨h1, h2⟩,
      (checkedSizeAdd_eq_ok (by omega)).mpr ⟨rfl, hc⟩]
    rfl
  rw [countFrontier]
  by_cases hin : l ≤ lo ∧ hi ≤ r
  · rw [Segment.covers_of_inside hin] at hc ⊢
    rw [Segment.partials_of_inside hin, if_pos hin,
      (checkedSizeAdd_eq_ok (by omega)).mpr ⟨rfl, hc⟩]
    rfl
  rw [Segment.partials_split hin hlt] at hp ⊢
  rw [Segment.covers_split hin hlt] at hc ⊢
  rw [if_neg hin, if_pos hlt, (checkedSizeAdd_eq_ok (by omega)).mpr ⟨rfl, by omega⟩]
  have hm := Segment.le_midpoint lo hi
  have hm' := Segment.midpoint_lt hlt
  by_cases hl : l ≤ Segment.midpoint lo hi <;> by_cases hr : r > Segment.midpoint lo hi
  · simp only [if_pos hl, if_pos hr] at hp hc ⊢
    rw [Effect.ok_bind, ihl ⟨counts.partialCount + 1, counts.decomposition⟩ hl h2 (by dsimp; omega)
      (by dsimp; omega), Effect.ok_bind, ihr _ h1 hr (by dsimp; omega) (by dsimp; omega)]
    simp only [Except.ok.injEq, FrontierCounts.mk.injEq]
    omega
  · simp only [if_pos hl, if_neg hr] at hp hc ⊢
    rw [Effect.ok_bind, ihl ⟨counts.partialCount + 1, counts.decomposition⟩ hl h2 (by dsimp; omega)
      (by dsimp; omega)]
    simp only [Effect.ok_bind, pure, Except.pure, Except.ok.injEq, FrontierCounts.mk.injEq]
    omega
  · simp only [if_neg hl, if_pos hr] at hp hc ⊢
    rw [Effect.ok_bind]
    show countFrontier _ _ l r ⟨counts.partialCount + 1, counts.decomposition⟩ = _
    rw [ihr _ h1 hr (by dsimp; omega) (by dsimp; omega)]
    simp only [Except.ok.injEq, FrontierCounts.mk.injEq]
    omega
  · omega

/-- **The counts** of every range of a representable size. -/
theorem frontierCounts_run (hlr : l ≤ r) (hr : r < n) (hn : n ≤ sizeMax) :
    frontierCounts n l r = .ok ⟨Segment.partials 0 (n - 1) l r, Segment.covers 0 (n - 1) l r⟩ := by
  have hvisits := visits_le_height hlr hr
  have hheight := clog_le hn
  have hlarge : 257 ≤ sizeMax := by decide
  unfold Segment.visits at hvisits
  unfold frontierCounts
  rw [validateFrontierRange_eq_ok.mpr ⟨hlr, hr⟩, Effect.ok_bind,
    countFrontier_run hlr 0 (n - 1) (Nat.zero_le _) _ (by omega) (Nat.zero_le r) (by dsimp; omega)
      (by dsimp; omega), Nat.zero_add, Nat.zero_add]

theorem frontier_run (hlr : l ≤ r) (hr : r < n) (hn : n ≤ sizeMax) :
    frontier n l r = .ok (Segment.visits 0 (n - 1) l r) := by
  have hvisits := visits_le_height hlr hr
  have hheight := clog_le hn
  have hlarge : 257 ≤ sizeMax := by decide
  unfold Segment.visits at hvisits
  unfold frontier FrontierCounts.visited
  rw [frontierCounts_run hlr hr hn, Effect.ok_bind]
  exact (checkedSizeAdd_eq_ok (by dsimp; omega)).mpr ⟨rfl, by dsimp; omega⟩

theorem intersectingNodes_run (hlr : l ≤ r) (hr : r < n) (hn : n ≤ sizeMax) :
    intersectingNodes n l r = (do
      checkedSizeAdd (Segment.partials 0 (n - 1) l r) (← checkedSizeAdd (r - l + 1)
        (r - l + 1 - Segment.covers 0 (n - 1) l r))) := by
  unfold intersectingNodes
  rw [frontierCounts_run hlr hr hn, inclusiveLength_eq hlr (by omega)]
  rfl

/-- The number of segments that are not a power of two is between two. -/
theorem clog_eq_log (hn : 0 < n) (hpow : ¬ ∃ k, n = 2 ^ k) : Nat.clog 2 n = Nat.log 2 n + 1 := by
  have hle : 2 ^ Nat.log 2 n ≤ n := Nat.pow_log_le_self 2 hn.ne'
  have hlt : n < 2 ^ (Nat.log 2 n + 1) := Nat.lt_pow_succ_log_self one_lt_two n
  refine le_antisymm (Nat.clog_le_of_le_pow hlt.le) ?_
  exact (Nat.lt_clog_iff_pow_lt one_lt_two).mpr (lt_of_le_of_ne hle fun h => hpow ⟨_, h.symm⟩)

/-! ## The largest frontier -/

theorem maximumFrontier_run {height : ℕ} (h : 2 ≤ height) (hle : height ≤ 64) :
    maximumFrontier height = .ok (4 * height - 3) := by
  have hlarge : 257 ≤ sizeMax := by decide
  unfold maximumFrontier
  rw [if_neg (by omega), if_neg (by omega),
    checkedSizeMultiply_eq_ok.mpr ⟨rfl, by omega⟩, Effect.ok_bind,
    checkedSizeAdd_eq_ok (by omega)]
  omega

/-- A range visits one segment when it is the whole, and more otherwise. -/
theorem visits_eq_one_iff (hlr : l ≤ r) (hr : r < n) :
    0 < Segment.visits 0 (n - 1) l r ∧
      (Segment.visits 0 (n - 1) l r = 1 ↔ l = 0 ∧ r = n - 1) := by
  by_cases hin : l ≤ 0 ∧ n - 1 ≤ r
  · rw [Segment.visits_of_inside hin]
    omega
  have hlt : 0 < n - 1 := by omega
  obtain ⟨-, -, hpos⟩ := Segment.partials_bounds hlt (Nat.zero_le l) hlr (show r ≤ n - 1 by omega)
  have hpartial := Segment.partials_split hin hlt
  unfold Segment.visits
  omega

/-- The frontier of every range is at most the maximal one of the height. -/
theorem visits_le_maximumFrontier (hlr : l ≤ r) (hr : r < n) (hn : n ≤ sizeMax) :
    ∃ largest, maximumFrontier (Nat.clog 2 n) = .ok largest ∧
      Segment.visits 0 (n - 1) l r ≤ largest := by
  have hheight := height_eq (Nat.zero_lt_of_lt hr)
  rcases Nat.eq_zero_or_pos (n - 1) with h0 | hpos
  · obtain rfl : n = 1 := by omega
    rw [Segment.visits_of_inside (by omega), Nat.clog_one_right]
    exact ⟨1, rfl, le_rfl⟩
  have hone := Segment.height_pos hpos
  by_cases h1 : Nat.clog 2 n = 1
  · have hle : n ≤ 2 ^ 1 := (Nat.clog_le_iff_le_pow one_lt_two).mp h1.le
    have := Segment.visits_le_of_end hpos (Nat.zero_le l) hlr (show r ≤ n - 1 by omega) (by omega)
    rw [h1]
    exact ⟨2, rfl, by omega⟩
  · have h2 : 2 ≤ Nat.clog 2 n := by omega
    have := Segment.visits_le (by omega) hpos (Nat.zero_le l) hlr (show r ≤ n - 1 by omega)
    exact ⟨_, maximumFrontier_run h2 (clog_le hn), by omega⟩

/-- The frontiers of the ranges of an array. -/
def frontiers (n : ℕ) : Set ℕ := {F | ∃ l r, l ≤ r ∧ r < n ∧ frontier n l r = .ok F}

theorem mem_frontiers (hlr : l ≤ r) (hr : r < n) (hn : n ≤ sizeMax) :
    Segment.visits 0 (n - 1) l r ∈ frontiers n := ⟨l, r, hlr, hr, frontier_run hlr hr hn⟩

theorem exists_of_mem_frontiers {F : ℕ} (h : F ∈ frontiers n) (hn : n ≤ sizeMax) :
    ∃ l r, l ≤ r ∧ r < n ∧ F = Segment.visits 0 (n - 1) l r := by
  obtain ⟨l, r, hlr, hr, hF⟩ := h
  rw [frontier_run hlr hr hn] at hF
  exact ⟨l, r, hlr, hr, by cases hF; rfl⟩

/-- Without its first and its last index an array is left along its two longest paths. -/
theorem ends_left_out (h3 : 3 ≤ n) :
    Segment.visits 0 (n - 1) 1 (n - 2) + 3 = 2 * Nat.clog 2 n + 2 * Nat.log 2 n := by
  have h := Segment.visits_of_ends_left_out (show 0 + 1 < n - 1 by omega)
  rwa [Nat.zero_add, height_eq (by omega), Segment.length, Nat.sub_zero,
    Nat.sub_add_cancel (by omega), Nat.sub_sub] at h

/-- The maximal frontier of the height is attained in a tree without gaps only. -/
theorem largest_mem_iff (h3 : 3 ≤ n) (hn : n ≤ sizeMax) :
    4 * Nat.clog 2 n - 3 ∈ frontiers n ↔ ∃ k, n = 2 ^ k := by
  have hheight := height_eq (show 0 < n by omega)
  have h2 : 2 ≤ Nat.clog 2 n := (Nat.lt_clog_iff_pow_lt one_lt_two).mpr (by omega)
  constructor
  · intro hmem
    obtain ⟨l, r, hlr, hr, hF⟩ := exists_of_mem_frontiers hmem hn
    by_contra hpow
    have := Segment.visits_lt (by omega) (show 0 < n - 1 by omega) (Nat.zero_le l) hlr
      (show r ≤ n - 1 by omega) (fun h => hpow ⟨_, by
        rwa [Segment.length, Nat.sub_zero, Nat.sub_add_cancel (by omega)] at h⟩)
    omega
  · rintro ⟨k, rfl⟩
    have hends := ends_left_out h3
    rw [Nat.log_pow one_lt_two, Nat.clog_pow 2 k one_lt_two] at hends
    rw [Nat.clog_pow 2 k one_lt_two] at h2 ⊢
    have hmem := mem_frontiers (l := 1) (r := 2 ^ k - 2) (by omega) (by omega) hn
    rwa [show Segment.visits 0 (2 ^ k - 1) 1 (2 ^ k - 2) = 4 * k - 3 by omega] at hmem

/-- In any other tree the largest frontier is less by one or by two. -/
theorem largest_of_gaps (h3 : 3 ≤ n) (hn : n ≤ sizeMax) (hpow : ¬ ∃ k, n = 2 ^ k) :
    IsGreatest (frontiers n) (4 * Nat.log 2 n - 1) ∨ IsGreatest (frontiers n) (4 * Nat.log 2 n) := by
  have hheight := height_eq (show 0 < n by omega)
  have hlog := clog_eq_log (show 0 < n by omega) hpow
  have h1 : 1 ≤ Nat.log 2 n := Nat.log_pos one_lt_two (by omega)
  have hbound : ∀ F ∈ frontiers n, F ≤ 4 * Nat.log 2 n := by
    intro F hmem
    obtain ⟨l, r, hlr, hr, rfl⟩ := exists_of_mem_frontiers hmem hn
    have := Segment.visits_lt (by omega) (show 0 < n - 1 by omega) (Nat.zero_le l) hlr
      (show r ≤ n - 1 by omega) (fun h => hpow ⟨_, by
        rwa [Segment.length, Nat.sub_zero, Nat.sub_add_cancel (by omega)] at h⟩)
    omega
  by_cases hmem : 4 * Nat.log 2 n ∈ frontiers n
  · exact .inr ⟨hmem, hbound⟩
  refine .inl ⟨?_, fun F hF => ?_⟩
  · have hends := ends_left_out h3
    have hmem := mem_frontiers (l := 1) (r := n - 2) (by omega) (by omega) hn
    rwa [show Segment.visits 0 (n - 1) 1 (n - 2) = 4 * Nat.log 2 n - 1 by omega] at hmem
  · have := hbound F hF
    have : F ≠ 4 * Nat.log 2 n := fun h => hmem (h ▸ hF)
    omega

/-- **Extrema.** A frontier is at least 1, for the whole array only, and at most the maximal one
of the height; from three elements on that is attained by powers of two only, and for the others
the largest frontier is `4 k - 1` or `4 k`. -/
theorem frontier_extrema (hpos : 1 ≤ n) (hn : n ≤ sizeMax) :
    treeHeight n = .ok (Nat.clog 2 n) ∧
      ∃ largest, maximumFrontier (Nat.clog 2 n) = .ok largest ∧
        (∀ l r, l ≤ r → r < n → ∃ F, frontier n l r = .ok F ∧ 1 ≤ F ∧ F ≤ largest ∧
          (F = 1 ↔ l = 0 ∧ r = n - 1)) ∧
        (3 ≤ n → (largest ∈ frontiers n ↔ ∃ k, n = 2 ^ k)) ∧
        (3 ≤ n → (¬ ∃ k, n = 2 ^ k) → IsGreatest (frontiers n) (4 * Nat.log 2 n - 1) ∨
          IsGreatest (frontiers n) (4 * Nat.log 2 n)) := by
  refine ⟨treeHeight_eq hpos, ?_⟩
  obtain ⟨largest, hlargest, -⟩ :=
    visits_le_maximumFrontier (l := 0) (r := 0) le_rfl hpos hn
  refine ⟨largest, hlargest, fun l r hlr hr => ?_, fun h3 => ?_, fun h3 => largest_of_gaps h3 hn⟩
  · obtain ⟨largest', hlargest', hle⟩ := visits_le_maximumFrontier hlr hr hn
    obtain rfl : largest' = largest := Except.ok.inj (hlargest'.symm.trans hlargest)
    obtain ⟨hpositive, hone⟩ := visits_eq_one_iff hlr hr
    exact ⟨_, frontier_run hlr hr hn, hpositive, hle, hone⟩
  · have h2 : 2 ≤ Nat.clog 2 n := (Nat.lt_clog_iff_pow_lt one_lt_two).mpr (by omega)
    rw [maximumFrontier_run h2 (clog_le hn)] at hlargest
    cases hlargest
    exact largest_mem_iff h3 hn

theorem frontier_extrema_six : (∃ F, frontier 6 1 4 = .ok F ∧ F ≤ 9) ∧
    (9 ∈ frontiers 6 ↔ ∃ k, 6 = 2 ^ k) ∧
      (IsGreatest (frontiers 6) 7 ∨ IsGreatest (frontiers 6) 8) := by
  have hpow : ¬ ∃ k, 6 = 2 ^ k := by
    rintro ⟨k, hk⟩
    have hlt : k < 3 := (Nat.pow_lt_pow_iff_right one_lt_two).mp (by omega)
    obtain rfl | rfl | rfl : k = 0 ∨ k = 1 ∨ k = 2 := by omega
    all_goals exact absurd hk (by decide)
  obtain ⟨-, largest, hlargest, hall, hmem, hgaps⟩ :=
    frontier_extrema (n := 6) (by decide) (by decide)
  have hclog : Nat.clog 2 6 = 3 := by decide +kernel
  rw [hclog] at hlargest
  obtain rfl : 9 = largest := Except.ok.inj hlargest
  obtain ⟨F, hF, -, hle, -⟩ := hall 1 4 (by decide) (by decide)
  have hlog : Nat.log 2 6 = 2 := by decide +kernel
  have hgreatest := hgaps (by decide) hpow
  rw [hlog] at hgreatest
  exact ⟨⟨F, hF, hle⟩, hmem (by decide), hgreatest⟩

end Valseg
