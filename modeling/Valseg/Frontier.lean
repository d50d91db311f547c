import Valseg.Lib.Frontier
import Valseg.PolicyTrees
import Valseg.Slots

/-!
# Frontier counts

`frontier.hpp`: the counts that predict what an update appends, computed from the range alone
(`frontierCounts`, `intersectingNodes`), and a model of the tags of a tree that pushes them, which
counts the pushes (`PushCountingModel`).
-/

namespace Valseg

/-- `partialCount` is the field `partial` of the source. -/
structure FrontierCounts where
  partialCount : ℕ
  decomposition : ℕ
  deriving DecidableEq, Repr

def FrontierCounts.visited (counts : FrontierCounts) : Except Exception ℕ :=
  checkedSizeAdd counts.partialCount counts.decomposition

def countFrontier (segmentLeft segmentRight left right : ℕ) (counts : FrontierCounts) :
    Except Exception FrontierCounts :=
  if left ≤ segmentLeft ∧ segmentRight ≤ right then do
    let decomposition ← checkedSizeAdd counts.decomposition 1
    return ⟨counts.partialCount, decomposition⟩
  else if segmentLeft < segmentRight then do
    let partialCount ← checkedSizeAdd counts.partialCount 1
    let middle := Segment.midpoint segmentLeft segmentRight
    let counts ← (if left ≤ middle then
      countFrontier segmentLeft middle left right ⟨partialCount, counts.decomposition⟩
      else pure ⟨partialCount, counts.decomposition⟩)
    if right > middle then countFrontier (middle + 1) segmentRight left right counts
    else pure counts
  else .error .undefined
termination_by segmentRight - segmentLeft
decreasing_by all_goals (simp only [Segment.midpoint] at *; omega)

def validateFrontierRange (n left right : ℕ) : Except Exception Unit :=
  if n = 0 then .error (.invalidArgument "frontier size must be positive")
  else if left > right then .error (.invalidArgument "frontier range is reversed")
  else if right ≥ n then .error (.outOfRange "frontier range exceeds the element count")
  else .ok ()

def frontierCounts (n left right : ℕ) : Except Exception FrontierCounts := do
  validateFrontierRange n left right
  countFrontier 0 (n - 1) left right ⟨0, 0⟩

def intersectingNodes (n left right : ℕ) : Except Exception ℕ := do
  let frontier ← frontierCounts n left right
  let leaves ← inclusiveLength left right
  let decompositionSubtrees ← checkedSizeAdd leaves (leaves - frontier.decomposition)
  checkedSizeAdd frontier.partialCount decompositionSubtrees

/-- `F(n, left, right)`: `frontierCounts(n, left, right).visited()`. -/
def frontier (n left right : ℕ) : Except Exception ℕ := do
  (← frontierCounts n left right).visited

def maximumFrontier (height : ℕ) : Except Exception ℕ :=
  if height = 0 then .ok 1
  else if height = 1 then .ok 2
  else do checkedSizeAdd (← checkedSizeMultiply 4 (height - 1)) 1

namespace PushCountingModel

variable {Aggregate Action : Type} (P : Policy Aggregate Action)

/-- The state of the model. -/
structure State (Action : Type) where
  arraySize : ℕ
  tags : List Action
  deriving DecidableEq, Repr

/-- The constructor. -/
def ofSize (n : ℕ) : Except Exception (State Action) := do
  (if n = 0 then .error (.invalidArgument "push-counting size must be positive") else .ok ())
  let storageCount ← lazyStorageCount n
  checkVectorLength "cannot create std::vector larger than max_size()" P.actionBytes storageCount
  return ⟨n, List.replicate storageCount P.actionIdentity⟩

/-- `tags[child] = compose(tag, tags[child])`. -/
def composeInto (tag : Action) (child : ℕ) : ArenaM Action Unit := do
  writeSlot child (← P.compose tag (← readNode child))

variable [DecidableEq Action]

/-- What an update does at a partially covered node; it returns the number of its pushes. -/
def pushTag (node : ℕ) : ArenaM Action ℕ := do
  let tag ← readNode node
  if tag ≠ P.actionIdentity then do
    composeInto P tag (2 * node + 1)
    composeInto P tag (2 * node + 2)
    writeSlot node P.actionIdentity
    return 1
  else return 0

def update (node segmentLeft segmentRight left right : ℕ) (action : Action) : ArenaM Action ℕ :=
  if left ≤ segmentLeft ∧ segmentRight ≤ right then do
    composeInto P action node
    return 0
  else if segmentLeft < segmentRight then do
    let pushes ← pushTag P node
    let middle := Segment.midpoint segmentLeft segmentRight
    let pushes ← (if left ≤ middle then do
      checkedSizeAdd pushes (← update (2 * node + 1) segmentLeft middle left right action)
      else pure pushes)
    if right > middle then do
      checkedSizeAdd pushes (← update (2 * node + 2) (middle + 1) segmentRight left right action)
    else pure pushes
  else throw .undefined
termination_by segmentRight - segmentLeft
decreasing_by all_goals (simp only [Segment.midpoint] at *; omega)

def apply (left right : ℕ) (action : Action) : EStateM Exception (State Action) ℕ := do
  let this ← get
  validateFrontierRange this.arraySize left right
  if action = P.actionIdentity then return 0
  else do
    Effect.zoom State.tags (fun tags s => { s with tags := tags })
      (update P 0 0 (this.arraySize - 1) left right action)

end PushCountingModel

/-! ## What the counts are -/

variable {n lo hi l r : ℕ} {counts counts' : FrontierCounts}

theorem validateFrontierRange_eq_ok : validateFrontierRange n l r = .ok () ↔ l ≤ r ∧ r < n := by
  unfold validateFrontierRange
  split_ifs with h1 h2 h3
  · exact iff_of_false nofun (by omega)
  · exact iff_of_false nofun (by omega)
  · exact iff_of_false nofun (by omega)
  · exact iff_of_true rfl (by omega)

/-- One recursion adds the segments it visits. -/
theorem countFrontier_eq_ok (h : countFrontier lo hi l r counts = .ok counts') :
    counts' = ⟨counts.partialCount + Segment.partials lo hi l r,
      counts.decomposition + Segment.covers lo hi l r⟩ := by
  induction hk : hi - lo using Nat.strong_induction_on generalizing lo hi counts counts' with
  | _ k ih =>
    subst hk
    rw [countFrontier] at h
    rw [Segment.partials, Segment.covers]
    by_cases hin : l ≤ lo ∧ hi ≤ r
    · rw [if_pos hin] at h ⊢
      obtain ⟨d, hd, h⟩ := Effect.bind_eq_ok.mp h
      cases h
      rw [eq_of_checkedSizeAdd hd, if_pos hin]
      rfl
    rw [if_neg hin] at h ⊢
    by_cases hlt : lo < hi
    swap
    · rw [if_neg hlt] at h
      cases h
    have hm := Segment.le_midpoint lo hi
    have hm' := Segment.midpoint_lt hlt
    rw [if_pos hlt] at h ⊢
    obtain ⟨p, hp, h⟩ := Effect.bind_eq_ok.mp h
    obtain ⟨c, hc, h⟩ := Effect.bind_eq_ok.mp h
    have hleft : c = ⟨p + (if l ≤ Segment.midpoint lo hi then
          Segment.partials lo (Segment.midpoint lo hi) l r else 0),
        counts.decomposition + (if l ≤ Segment.midpoint lo hi then
          Segment.covers lo (Segment.midpoint lo hi) l r else 0)⟩ := by
      split_ifs at hc ⊢ with hl
      · exact ih _ (by omega) hc rfl
      · cases hc
        rfl
    have hright : counts' = ⟨c.partialCount + (if r > Segment.midpoint lo hi then
          Segment.partials (Segment.midpoint lo hi + 1) hi l r else 0),
        c.decomposition + (if r > Segment.midpoint lo hi then
          Segment.covers (Segment.midpoint lo hi + 1) hi l r else 0)⟩ := by
      split_ifs at h ⊢ with hr
      · exact ih _ (by omega) h rfl
      · cases h
        rfl
    rw [hright, hleft, eq_of_checkedSizeAdd hp, if_neg hin, if_pos hlt]
    simp only [FrontierCounts.mk.injEq]
    omega

theorem frontierCounts_eq_ok (h : frontierCounts n l r = .ok counts) :
    l ≤ r ∧ r < n ∧ counts = ⟨Segment.partials 0 (n - 1) l r, Segment.covers 0 (n - 1) l r⟩ := by
  obtain ⟨⟨⟩, h1, h2⟩ := Effect.bind_eq_ok.mp h
  obtain ⟨hlr, hr⟩ := validateFrontierRange_eq_ok.mp h1
  refine ⟨hlr, hr, (countFrontier_eq_ok h2).trans ?_⟩
  rw [zero_add, zero_add]

theorem visited_eq_ok {m : ℕ} (h : frontierCounts n l r = .ok counts) (hv : counts.visited = .ok m) :
    m = Segment.visits 0 (n - 1) l r := by
  obtain ⟨-, -, rfl⟩ := frontierCounts_eq_ok h
  exact eq_of_checkedSizeAdd hv

/-- The closed form is the number of segments that meet the range. -/
theorem intersectingNodes_eq_ok {m : ℕ} (h : intersectingNodes n l r = .ok m) :
    m = Segment.meets 0 (n - 1) l r := by
  obtain ⟨frontier, h1, h⟩ := Effect.bind_eq_ok.mp h
  obtain ⟨leaves, h2, h⟩ := Effect.bind_eq_ok.mp h
  obtain ⟨subtrees, h3, h⟩ := Effect.bind_eq_ok.mp h
  obtain ⟨hlr, hr, rfl⟩ := frontierCounts_eq_ok h1
  have hleaves : leaves = r - l + 1 := by
    unfold inclusiveLength at h2
    rw [if_neg (by omega)] at h2
    exact eq_of_checkedSizeAdd h2
  have hsubtrees := eq_of_checkedSizeAdd h3
  have hm := eq_of_checkedSizeAdd h
  have hle := Segment.covers_le 0 (n - 1) (Nat.zero_le _) (l := l) (r := r) (by omega)
    (Nat.zero_le r) hlr
  have heq := Segment.meets_eq 0 (n - 1) (Nat.zero_le _) (l := l) (r := r) (by omega)
    (Nat.zero_le r) hlr
  unfold Segment.overlap at hle heq
  dsimp only at hsubtrees hm
  omega

end Valseg
