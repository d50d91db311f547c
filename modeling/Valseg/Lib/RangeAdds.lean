import Mathlib.Algebra.Order.BigOperators.Group.List
import Valseg.Lib.TagTree

/-!
# The versioned array

What a partially persistent structure with range additions is for: an array, the additions made
to it one after another, and for each number `v` of them the array after the first `v`
(`array`). `covering` is the amount those `v` additions gave to a whole segment at once; the tags
on the path to a segment are compared with it.
-/

universe u

/-- One addition of `amount` to every index of `[left, right]`. -/
structure RangeAdd (R : Type u) where
  left : ℕ
  right : ℕ
  amount : R
  deriving DecidableEq, Repr

/-- An array with the range additions made to it, oldest first. -/
structure RangeAdds (R : Type u) where
  initial : ℕ → R
  updates : List (RangeAdd R)

namespace RangeAdds

open Segment (addOn)
open TagTree (coverOn)

variable {R : Type u} {h : RangeAdds R} {u : RangeAdd R} {v a b : ℕ}

/-- The number of versions: one for the initial array and one for each addition. -/
def versionCount (h : RangeAdds R) : ℕ := h.updates.length + 1

/-- One more addition. -/
def add (h : RangeAdds R) (u : RangeAdd R) : RangeAdds R := ⟨h.initial, h.updates ++ [u]⟩

@[simp] theorem add_initial : (h.add u).initial = h.initial := rfl

@[simp] theorem add_updates : (h.add u).updates = h.updates ++ [u] := rfl

@[simp] theorem add_versionCount : (h.add u).versionCount = h.versionCount + 1 := by
  simp [versionCount]

theorem versionCount_pos : 0 < h.versionCount := Nat.succ_pos _

variable [CommRing R]

/-- The array after the first `v` additions. -/
def array (h : RangeAdds R) (v : ℕ) : ℕ → R :=
  (h.updates.take v).foldl (fun A u => addOn A u.left u.right u.amount) h.initial

/-- What the first `v` additions gave to all of `[a, b]`. -/
def covering (h : RangeAdds R) (v a b : ℕ) : R :=
  ((h.updates.take v).map fun u => if u.left ≤ a ∧ b ≤ u.right then u.amount else 0).sum

/-- The latest array. -/
def latest (h : RangeAdds R) : ℕ → R := h.array h.updates.length

/-- An addition makes the next array out of the one before. -/
theorem array_succ (hv : h.updates[v]? = some u) :
    h.array (v + 1) = addOn (h.array v) u.left u.right u.amount := by
  unfold array
  rw [List.take_add_one, hv, List.foldl_append]
  rfl

theorem covering_succ (hv : h.updates[v]? = some u) :
    h.covering (v + 1) = coverOn (h.covering v) u.left u.right u.amount := by
  funext a b
  unfold covering coverOn
  rw [List.take_add_one, hv, Option.toList_some, List.map_append, List.sum_append,
    List.map_singleton, List.sum_singleton]
  split_ifs
  · rfl
  · rw [add_zero]

/-- **Old versions stay.** A later addition changes no version made before it. -/
theorem add_array (hv : v < h.versionCount) : (h.add u).array v = h.array v := by
  unfold versionCount at hv
  unfold array
  rw [add_updates, add_initial, List.take_append_of_le_length (by omega)]

theorem add_covering (hv : v < h.versionCount) : (h.add u).covering v = h.covering v := by
  unfold versionCount at hv
  unfold covering
  rw [add_updates, List.take_append_of_le_length (by omega)]

theorem add_array_new :
    (h.add u).array h.versionCount = addOn h.latest u.left u.right u.amount := by
  have hu : (h.add u).updates[h.updates.length]? = some u := List.getElem?_concat_length
  have := array_succ hu
  rwa [add_array (Nat.lt_succ_self _)] at this

theorem add_covering_new :
    (h.add u).covering h.versionCount =
      coverOn (h.covering h.updates.length) u.left u.right u.amount := by
  have hu : (h.add u).updates[h.updates.length]? = some u := List.getElem?_concat_length
  have := covering_succ hu
  rwa [add_covering (Nat.lt_succ_self _)] at this

theorem add_latest : (h.add u).latest = addOn h.latest u.left u.right u.amount := by
  have := add_array_new (h := h) (u := u)
  unfold latest
  rwa [add_updates, List.length_append]

/-- No element leaves its initial value by more than the magnitudes of the amounts. -/
theorem natAbs_array_le (h : RangeAdds ℤ) (v i : ℕ) : (h.array v i).natAbs ≤
    (h.initial i).natAbs + ((h.updates.take v).map fun u => u.amount.natAbs).sum := by
  have key : ∀ (us : List (RangeAdd ℤ)) (A : ℕ → ℤ),
      (us.foldl (fun A u => addOn A u.left u.right u.amount) A i).natAbs ≤
        (A i).natAbs + (us.map fun u => u.amount.natAbs).sum := by
    intro us
    induction us with
    | nil => exact fun A => Nat.le_add_right _ _
    | cons u us ih =>
      intro A
      have hstep : (addOn A u.left u.right u.amount i).natAbs ≤
          (A i).natAbs + u.amount.natAbs := by
        unfold Segment.addOn
        split_ifs <;> omega
      have hrest := ih (addOn A u.left u.right u.amount)
      rw [List.foldl_cons, List.map_cons, List.sum_cons]
      omega
  exact key _ _

/-- No element changes between two versions by more than the magnitudes of the amounts. -/
theorem natAbs_array_sub_le (h : RangeAdds ℤ) (u v i : ℕ) :
    (h.array v i - h.array u i).natAbs ≤ (h.updates.map fun u => u.amount.natAbs).sum := by
  have key : ∀ (us : List (RangeAdd ℤ)) (A : ℕ → ℤ),
      (us.foldl (fun A u => addOn A u.left u.right u.amount) A i - A i).natAbs ≤
        (us.map fun u => u.amount.natAbs).sum := by
    intro us
    induction us with
    | nil => exact fun A => by simp
    | cons u us ih =>
      intro A
      have hstep : (addOn A u.left u.right u.amount i - A i).natAbs ≤ u.amount.natAbs := by
        unfold Segment.addOn
        split_ifs <;> omega
      have hrest := ih (addOn A u.left u.right u.amount)
      rw [List.foldl_cons, List.map_cons, List.sum_cons]
      omega
  -- the later version goes on from the earlier one
  have later : ∀ u v, u ≤ v → (h.array v i - h.array u i).natAbs ≤
      (h.updates.map fun u => u.amount.natAbs).sum := by
    intro u v huv
    have hsplit : h.updates.take v = h.updates.take u ++ (h.updates.take v).drop u := by
      have := (List.take_append_drop u (h.updates.take v)).symm
      rwa [List.take_take, min_eq_left huv] at this
    have hsub : ((h.updates.take v).drop u).Sublist h.updates :=
      (List.drop_sublist u _).trans (List.take_sublist v _)
    have hle := key ((h.updates.take v).drop u) (h.array u)
    unfold array at hle ⊢
    rw [hsplit, List.foldl_append]
    exact hle.trans ((hsub.map _).sum_le_sum fun _ _ => Nat.zero_le _)
  rcases Nat.le_total u v with huv | huv
  · exact later u v huv
  · rw [← Int.natAbs_neg, neg_sub]
    exact later v u huv

end RangeAdds
