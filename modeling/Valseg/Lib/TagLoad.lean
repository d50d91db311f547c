import Valseg.Lib.TagTree

/-!
# The load of a tag tree

How far the numbers met on one path can add up. The load of a path is the magnitudes of the tags
above its leaf, and the larger one of the two numbers in the leaf; the load of a tree is that of
its heaviest path. The elements of the array are at most the load (`Represents.natAbs_le_load`),
and an amount added to a whole segment adds at most its own magnitude to it
(`Represents.load_cover_le`), wherever it is kept: a tag may stay at the root or move down to both
children.
-/

universe u

namespace TagTree

open Segment (length)

variable {α : Type u} (ι : α → ℤ)

/-- The magnitudes on the heaviest path. -/
def load : TagTree α → ℕ
  | .leaf s z => max (ι s).natAbs (ι z).natAbs
  | .node _ z l r => (ι z).natAbs + max l.load r.load

variable {ι} {t l r : TagTree α} {s z : α} {lo hi b : ℕ} {A : ℕ → ℤ} {d : ℤ}

theorem load_node (s z : α) (l r : TagTree α) :
    (node s z l r).load ι = (ι z).natAbs + max (l.load ι) (r.load ι) := rfl

theorem natAbs_tag_le_load : (ι t.tag).natAbs ≤ t.load ι := by
  cases t with
  | leaf s z => exact le_max_right _ _
  | node s z l r => exact Nat.le_add_right _ _

/-- **Elements.** The array is at most the load. -/
theorem Represents.natAbs_le_load {i : ℕ} (h : t.Represents ι lo hi A) (h1 : lo ≤ i)
    (h2 : i ≤ hi) : (A i).natAbs ≤ t.load ι := by
  induction t generalizing lo hi A with
  | leaf s z =>
    obtain ⟨rfl, hs⟩ := h
    obtain rfl : i = lo := le_antisymm h2 h1
    rw [← hs]
    exact le_max_left _ _
  | node s z l r ihl ihr =>
    obtain ⟨-, -, hl, hr⟩ := h
    have key : (A i - ι z).natAbs ≤ max (l.load ι) (r.load ι) := by
      by_cases hm : i ≤ Segment.midpoint lo hi
      · exact (ihl hl h1 hm).trans (le_max_left _ _)
      · exact (ihr hr (by omega) h2).trans (le_max_right _ _)
    rw [load_node]
    omega

/-- **Covering** adds at most the magnitude of the amount. -/
theorem Represents.load_cover_le (h : t.Represents ι lo hi A)
    (hs : ι s = ι t.sum + d * length lo hi) (hz : ι z = ι t.tag + d) :
    (t.setRoot s z).load ι ≤ t.load ι + d.natAbs := by
  cases t with
  | leaf s₀ z₀ =>
    obtain ⟨rfl, -⟩ := h
    have hlen : length lo lo = 1 := by unfold Segment.length; omega
    rw [hlen, Nat.cast_one, mul_one, sum_leaf] at hs
    rw [tag_leaf] at hz
    have h1 : (ι s).natAbs ≤ max (ι s₀).natAbs (ι z₀).natAbs + d.natAbs := by omega
    have h2 : (ι z).natAbs ≤ max (ι s₀).natAbs (ι z₀).natAbs + d.natAbs := by omega
    exact max_le h1 h2
  | node s₀ z₀ l r =>
    rw [tag_node] at hz
    rw [setRoot_node, load_node, load_node]
    omega

/-- Without tags the load is at most any bound on the elements. -/
theorem Represents.load_le_of_untagged (h : t.Represents ι lo hi A)
    (ht : t.Tagged ι (fun _ _ => 0) lo hi 0) (hA : ∀ i, lo ≤ i → i ≤ hi → (A i).natAbs ≤ b) :
    t.load ι ≤ b := by
  induction t generalizing lo hi A with
  | leaf s z =>
    obtain ⟨rfl, hs⟩ := h
    have hz : 0 + ι z = 0 := ht
    have hb := hA lo le_rfl le_rfl
    rw [← hs] at hb
    exact max_le hb (by omega)
  | node s z l r ihl ihr =>
    obtain ⟨hlt, -, hl, hr⟩ := h
    obtain ⟨h0, htl, htr⟩ := ht
    have hz : ι z = 0 := (zero_add _).symm.trans h0
    have h1 := Segment.le_midpoint lo hi
    have h2 := Segment.midpoint_lt hlt
    rw [hz, add_zero] at htl htr
    have hA' : ∀ i, lo ≤ i → i ≤ hi → (A i - ι z).natAbs ≤ b := fun i h3 h4 => by
      rw [hz, sub_zero]
      exact hA i h3 h4
    rw [load_node, hz, Int.natAbs_zero, Nat.zero_add]
    exact max_le (ihl hl htl fun i h3 h4 => hA' i h3 (by omega))
      (ihr hr htr fun i h3 h4 => hA' i (by omega) h4)

end TagTree
