import Valseg.ArenaGrowth
import Valseg.FrontierExtrema
import Valseg.Lib.CanonicalSegments

/-!
# The segments that meet a range

`intersectingNodes` adds the lengths of the covered segments up instead of walking below them. The
covered segments are no more than the elements of the range, so what it subtracts is there, and
the sum is the number of canonical segments that meet the range, if that is representable.
-/

namespace Valseg

variable {n l r : ℕ}

/-- The number of canonical segments that meet the range. -/
def meetingSegments (n left right : ℕ) : ℕ :=
  Segment.count 0 (n - 1) fun a b => a ≤ right ∧ left ≤ b

theorem meets_eq_meetingSegments (hlr : l ≤ r) (hr : r < n) :
    Segment.meets 0 (n - 1) l r = meetingSegments n l r :=
  Segment.meets_eq_count hlr 0 (n - 1) (Nat.zero_le _) (by omega) (Nat.zero_le r)

theorem covers_le_elements (hlr : l ≤ r) (hr : r < n) :
    Segment.covers 0 (n - 1) l r ≤ r - l + 1 := by
  have h := Segment.covers_le 0 (n - 1) (Nat.zero_le _) (l := l) (r := r) (by omega)
    (Nat.zero_le r) hlr
  unfold Segment.overlap at h
  omega

/-- The sum that `intersectingNodes` computes. -/
theorem meetingSegments_eq (hlr : l ≤ r) (hr : r < n) :
    meetingSegments n l r = Segment.partials 0 (n - 1) l r + ((r - l + 1) +
      (r - l + 1 - Segment.covers 0 (n - 1) l r)) := by
  have hmeets := Segment.meets_eq 0 (n - 1) (Nat.zero_le _) (l := l) (r := r) (by omega)
    (Nat.zero_le r) hlr
  have hcovers := covers_le_elements hlr hr
  rw [meets_eq_meetingSegments hlr hr] at hmeets
  unfold Segment.overlap at hmeets
  omega

/-- It returns the number when that is representable, and overflows otherwise. -/
theorem intersectingNodes_decides (hlr : l ≤ r) (hr : r < n) (hn : n ≤ sizeMax) :
    (intersectingNodes n l r = .ok (meetingSegments n l r) ∧ meetingSegments n l r ≤ sizeMax) ∨
      (Overflows (intersectingNodes n l r) ∧ sizeMax < meetingSegments n l r) := by
  have hvisits := visits_le_height hlr hr
  have hheight := clog_le hn
  have hlarge : 257 ≤ sizeMax := by decide
  unfold Segment.visits at hvisits
  rw [intersectingNodes_run hlr hr hn, meetingSegments_eq hlr hr]
  rcases checkedSizeAdd_cases (a := r - l + 1) (r - l + 1 - Segment.covers 0 (n - 1) l r)
    (by omega) with ⟨h1, hle⟩ | ⟨⟨w, h1⟩, hgt⟩
  swap
  · rw [h1]
    exact .inr ⟨⟨w, rfl⟩, by omega⟩
  rw [h1, Effect.ok_bind]
  exact checkedSizeAdd_cases _ (by omega)

/-- A successful update without tags appends one node for each of them. -/
theorem pointOnly_rangeAdd_grows {s s' : PointOnlyPersistentSegmentTree.State} {x : ℕ}
    {value : ValueType} (hlr : l ≤ r) (hr : r < s.arraySize) (hne : value ≠ 0)
    (h : PointOnlyPersistentSegmentTree.parts.rangeAdd l r value s = .ok x s') :
    s'.nodes.length = s.nodes.length + meetingSegments s.arraySize l r := by
  obtain ⟨root, -, ⟨h0, -⟩ | ⟨-, newRoot, nodes, domain, hu, rfl⟩⟩ := PathCopying.rangeAdd_eq_ok h
  · exact absurd h0 hne
  · rw [← meets_eq_meetingSegments hlr hr]
    exact PointOnlyPersistentSegmentTree.pointOnlyUpdate_grows l r value 0 _ (Nat.zero_le _) root hu

/-- **Intersecting nodes.** The count is the number of canonical segments that meet the range,
unless that is not representable; an update without tags appends as many nodes; and a range of `k`
elements meets at least `k + ⌊log₂ n⌋` and at most `2 k + 2 ⌈log₂ n⌉ - 3`. -/
theorem intersecting_nodes (hlr : l ≤ r) (hr : r < n) (hn : n ≤ sizeMax) :
    (∃ counts, frontierCounts n l r = .ok counts ∧ counts.decomposition ≤ r - l + 1) ∧
      (meetingSegments n l r ≤ sizeMax → intersectingNodes n l r = .ok (meetingSegments n l r)) ∧
      (sizeMax < meetingSegments n l r → Overflows (intersectingNodes n l r)) ∧
      (∀ s x s' value, s.arraySize = n → value ≠ 0 →
        PointOnlyPersistentSegmentTree.rangeAdd l r value s = .ok x s' →
        s'.nodes.length = s.nodes.length + meetingSegments n l r) ∧
      r - l + 1 + Nat.log 2 n ≤ meetingSegments n l r ∧
      (2 ≤ Nat.clog 2 n →
        meetingSegments n l r ≤ 2 * (r - l + 1) + 2 * Nat.clog 2 n - 3) := by
  have hpos : 0 < n := Nat.zero_lt_of_lt hr
  refine ⟨⟨_, frontierCounts_run hlr hr hn, covers_le_elements hlr hr⟩, fun hle => ?_,
    fun hgt => ?_, ?_, ?_, fun h2 => ?_⟩
  · rcases intersectingNodes_decides hlr hr hn with ⟨h, -⟩ | ⟨-, hgt⟩
    · exact h
    · omega
  · rcases intersectingNodes_decides hlr hr hn with ⟨-, hle⟩ | ⟨h, -⟩
    · omega
    · exact h
  · rintro s x s' value rfl hne h
    exact pointOnly_rangeAdd_grows hlr hr hne h
  · have h := Segment.log_add_overlap_le_meets 0 (n - 1) (Nat.zero_le _) (l := l) (r := r) (by omega)
      (Nat.zero_le r) hlr
    rw [meets_eq_meetingSegments hlr hr, Segment.length, Nat.sub_zero, Nat.sub_add_cancel hpos] at h
    unfold Segment.overlap at h
    omega
  · have hheight := height_eq hpos
    have hlt : 0 < n - 1 := by
      by_contra h0
      obtain rfl : n = 1 := by omega
      rw [Nat.clog_one_right] at h2
      omega
    have h := Segment.meets_le (by omega) hlt (Nat.zero_le l) hlr (show r ≤ n - 1 by omega)
    rw [meets_eq_meetingSegments hlr hr, Segment.length] at h
    omega

/-- Six elements; and all elements of the largest array, which meet too many segments. -/
theorem intersecting_nodes_six : intersectingNodes 6 1 4 = .ok (meetingSegments 6 1 4) ∧
    meetingSegments 6 1 4 = 9 ∧ Overflows (intersectingNodes sizeMax 0 (sizeMax - 1)) := by
  have hsix : meetingSegments 6 1 4 = 9 := by decide +kernel
  refine ⟨(intersecting_nodes (n := 6) (l := 1) (r := 4) (by decide) (by decide) (by decide)).2.1
    (by rw [hsix]; decide), hsix, ?_⟩
  have hmax : 0 < sizeMax := by decide
  refine (intersecting_nodes (l := 0) (Nat.zero_le _) (Nat.sub_lt hmax one_pos) le_rfl).2.2.1 ?_
  rw [← meets_eq_meetingSegments (Nat.zero_le _) (Nat.sub_lt hmax one_pos),
    Segment.meets_of_inside _ _ (Nat.zero_le _) le_rfl le_rfl]
  decide

end Valseg
