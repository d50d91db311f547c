import Mathlib.Algebra.BigOperators.Intervals
import Mathlib.Order.Interval.Finset.Nat
import Mathlib.Tactic.Ring

/-!
# Segments and their canonical partition

A segment `[lo, hi]` of indices is halved at `midpoint lo hi` until one index is left; the
segments met on the way are its *canonical* segments (`Canonical`). This file has the induction
along the halving (`halving_induction`), and the sums over segments it is used with: the sum over
a segment (`sum`), the sum over the part of a segment inside a range (`partSum`), and how both
split at the midpoint.
-/

namespace Segment

/-- The index a segment is halved after. -/
def midpoint (left right : ℕ) : ℕ := left + (right - left) / 2

theorem le_midpoint (lo hi : ℕ) : lo ≤ midpoint lo hi := by unfold midpoint; omega

theorem midpoint_lt {lo hi : ℕ} (h : lo < hi) : midpoint lo hi < hi := by unfold midpoint; omega

/-- Induction along the halving of a segment. -/
theorem halving_induction {P : ℕ → ℕ → Prop} (single : ∀ i, P i i)
    (split : ∀ lo hi, lo < hi → P lo (midpoint lo hi) → P (midpoint lo hi + 1) hi → P lo hi) :
    ∀ lo hi, lo ≤ hi → P lo hi := by
  intro lo hi
  induction h : hi - lo using Nat.strong_induction_on generalizing lo hi with
  | _ k ih =>
    intro hle
    rcases Nat.eq_or_lt_of_le hle with rfl | hlt
    · exact single lo
    · have h1 := le_midpoint lo hi
      have h2 := midpoint_lt hlt
      exact split lo hi hlt (ih _ (by omega) lo _ rfl h1) (ih _ (by omega) _ hi rfl (by omega))

/-! ## Canonical segments -/

/-- `[a, b]` is met when `[lo, hi]` is halved down to single indices. -/
inductive Canonical : ℕ → ℕ → ℕ → ℕ → Prop
  | self {lo hi : ℕ} (h : lo ≤ hi) : Canonical lo hi lo hi
  | left {lo hi a b : ℕ} (h : lo < hi) (hc : Canonical lo (midpoint lo hi) a b) :
      Canonical lo hi a b
  | right {lo hi a b : ℕ} (h : lo < hi) (hc : Canonical (midpoint lo hi + 1) hi a b) :
      Canonical lo hi a b

/-- `[a, b]` is one of the two halves of `[lo, hi]`. -/
def Half (lo hi a b : ℕ) : Prop :=
  (a = lo ∧ b = midpoint lo hi) ∨ (a = midpoint lo hi + 1 ∧ b = hi)

theorem Canonical.bounds {lo hi a b : ℕ} (h : Canonical lo hi a b) : lo ≤ a ∧ a ≤ b ∧ b ≤ hi := by
  induction h with
  | self h => exact ⟨le_rfl, h, le_rfl⟩
  | left h _ ih => have := midpoint_lt h; omega
  | @right lo hi _ _ h _ ih => have := le_midpoint lo hi; omega

/-- The halves of a canonical segment are canonical. -/
theorem Canonical.halves {lo hi a b : ℕ} (h : Canonical lo hi a b) (hab : a < b) :
    Canonical lo hi a (midpoint a b) ∧ Canonical lo hi (midpoint a b + 1) b := by
  induction h with
  | self _ => exact ⟨.left hab (.self (le_midpoint _ _)), .right hab (.self (midpoint_lt hab))⟩
  | left h _ ih => exact ⟨.left h (ih hab).1, .left h (ih hab).2⟩
  | right h _ ih => exact ⟨.right h (ih hab).1, .right h (ih hab).2⟩

/-- What is canonical in a canonical segment is canonical. -/
theorem Canonical.trans {lo hi a b c d : ℕ} (h : Canonical lo hi a b) (hcd : Canonical a b c d) :
    Canonical lo hi c d := by
  induction h with
  | self _ => exact hcd
  | left h _ ih => exact .left h (ih hcd)
  | right h _ ih => exact .right h (ih hcd)

/-- A property of all canonical segments holds of the segment and of all of both halves. -/
theorem forall_canonical_split {P : ℕ → ℕ → Prop} {lo hi : ℕ} (h : lo < hi) :
    (∀ a b, Canonical lo hi a b → P a b) ↔ P lo hi ∧
      (∀ a b, Canonical lo (midpoint lo hi) a b → P a b) ∧
      (∀ a b, Canonical (midpoint lo hi + 1) hi a b → P a b) := by
  constructor
  · intro hP
    exact ⟨hP _ _ (.self h.le), fun a b hc => hP _ _ (.left h hc),
      fun a b hc => hP _ _ (.right h hc)⟩
  · rintro ⟨h0, hl, hr⟩ a b hc
    cases hc with
    | self _ => exact h0
    | left _ hc => exact hl _ _ hc
    | right _ hc => exact hr _ _ hc

theorem forall_canonical_single {P : ℕ → ℕ → Prop} {i : ℕ} :
    (∀ a b, Canonical i i a b → P a b) ↔ P i i := by
  constructor
  · exact fun hP => hP _ _ (.self le_rfl)
  · intro h a b hc
    cases hc with
    | self _ => exact h
    | left h' _ => exact absurd h' (lt_irrefl i)
    | right h' _ => exact absurd h' (lt_irrefl i)

/-- Every index is a canonical segment by itself. -/
theorem Canonical.single {lo hi : ℕ} : ∀ i, lo ≤ i → i ≤ hi → Canonical lo hi i i := by
  intro i h1 h2
  refine halving_induction (P := fun lo hi => lo ≤ i → i ≤ hi → Canonical lo hi i i) ?_ ?_ lo hi
    (h1.trans h2) h1 h2
  · intro j h1 h2
    obtain rfl : i = j := by omega
    exact .self le_rfl
  · intro lo hi h ihl ihr h1 h2
    by_cases hm : i ≤ midpoint lo hi
    · exact .left h (ihl h1 hm)
    · exact .right h (ihr (by omega) h2)

/-- Of two canonical segments with an index in common one is canonical in the other. -/
theorem Canonical.nested {lo hi a b c d i : ℕ} (h1 : Canonical lo hi a b)
    (h2 : Canonical lo hi c d) (hab : a ≤ i ∧ i ≤ b) (hcd : c ≤ i ∧ i ≤ d) :
    Canonical a b c d ∨ Canonical c d a b := by
  induction h1 with
  | self _ => exact .inl h2
  | left h hc ih =>
    cases h2 with
    | self _ => exact .inr (.left h hc)
    | left _ h2 => exact ih h2 hab
    | right _ h2 => have := hc.bounds; have := h2.bounds; omega
  | right h hc ih =>
    cases h2 with
    | self _ => exact .inr (.right h hc)
    | left _ h2 => have := hc.bounds; have := h2.bounds; omega
    | right _ h2 => exact ih h2 hab

/-- A half belongs to one canonical segment. -/
theorem Canonical.half_unique {lo hi a b c d e f : ℕ} (h1 : Canonical lo hi a b)
    (h2 : Canonical lo hi c d) (hab : a < b) (hcd : c < d) (he : Half a b e f)
    (hf : Half c d e f) : a = c ∧ b = d := by
  have key : ∀ {a b c d : ℕ}, a < b → c < d → Half a b e f → Half c d e f → Canonical a b c d →
      a = c ∧ b = d := by
    intro a b c d hab hcd he hf h
    have h3 := le_midpoint a b
    have h4 := midpoint_lt hab
    have h5 := le_midpoint c d
    have h6 := midpoint_lt hcd
    unfold Half at he hf
    cases h with
    | self _ => exact ⟨rfl, rfl⟩
    | left _ h => have := h.bounds; omega
    | right _ h => have := h.bounds; omega
  have h3 := le_midpoint a b
  have h4 := midpoint_lt hab
  have h5 := le_midpoint c d
  have h6 := midpoint_lt hcd
  have hin : (a ≤ e ∧ e ≤ b) ∧ (c ≤ e ∧ e ≤ d) := by
    unfold Half at he hf
    omega
  rcases h1.nested h2 hin.1 hin.2 with h | h
  · exact key hab hcd he hf h
  · obtain ⟨h7, h8⟩ := key hcd hab hf he h
    exact ⟨h7.symm, h8.symm⟩

/-! ## Sums over segments -/

section Sums

variable {R : Type*} [CommRing R] (A B : ℕ → R) (lo hi l r : ℕ) (d : R)

/-- The number of indices of a segment. -/
def length : ℕ := hi - lo + 1

/-- The sum over a segment. -/
def sum : R := ∑ i ∈ Finset.Icc lo hi, A i

/-- The sum over the part of a segment inside `[l, r]`. -/
def partSum : R := ∑ i ∈ Finset.Icc lo hi, if l ≤ i ∧ i ≤ r then A i else 0

/-- The array with `d` added inside `[l, r]`. -/
def addOn (i : ℕ) : R := if l ≤ i ∧ i ≤ r then A i + d else A i

variable {A B lo hi l r d}

@[simp] theorem sum_single (i : ℕ) : sum A i i = A i := by simp [sum]

theorem sum_congr (h : ∀ i, lo ≤ i → i ≤ hi → A i = B i) : sum A lo hi = sum B lo hi :=
  Finset.sum_congr rfl fun i hi => by rw [Finset.mem_Icc] at hi; exact h i hi.1 hi.2

theorem Icc_split {m : ℕ} (h1 : lo ≤ m) (h2 : m < hi) :
    Finset.Icc lo hi = Finset.Icc lo m ∪ Finset.Icc (m + 1) hi := by
  ext i; simp only [Finset.mem_union, Finset.mem_Icc]; omega

theorem Icc_disjoint (m : ℕ) : Disjoint (Finset.Icc lo m) (Finset.Icc (m + 1) hi) := by
  rw [Finset.disjoint_left]
  intro i hi hj
  rw [Finset.mem_Icc] at hi hj
  omega

theorem sum_split (h : lo < hi) :
    sum A lo hi = sum A lo (midpoint lo hi) + sum A (midpoint lo hi + 1) hi := by
  unfold sum
  rw [Icc_split (le_midpoint lo hi) (midpoint_lt h), Finset.sum_union (Icc_disjoint _)]

theorem partSum_split (h : lo < hi) : partSum A lo hi l r =
    partSum A lo (midpoint lo hi) l r + partSum A (midpoint lo hi + 1) hi l r :=
  sum_split (A := fun i => if l ≤ i ∧ i ≤ r then A i else 0) h

/-- Inside the range the part is the whole. -/
theorem partSum_of_inside (h1 : l ≤ lo) (h2 : hi ≤ r) : partSum A lo hi l r = sum A lo hi :=
  sum_congr (A := fun i => if l ≤ i ∧ i ≤ r then A i else 0) fun _ h3 h4 =>
    if_pos ⟨h1.trans h3, h4.trans h2⟩

/-- A segment apart from the range contributes nothing. -/
theorem partSum_of_apart (h : hi < l ∨ r < lo) : partSum A lo hi l r = 0 :=
  Finset.sum_eq_zero fun _ hi => by rw [Finset.mem_Icc] at hi; exact if_neg (by omega)

/-- A range inside the segment is all of its own part. -/
theorem partSum_of_contains (h1 : lo ≤ l) (h2 : r ≤ hi) : partSum A lo hi l r = sum A l r := by
  unfold partSum sum
  rw [← Finset.sum_filter]
  congr 1
  ext i; simp only [Finset.mem_filter, Finset.mem_Icc]; omega

theorem sum_add_const (h : lo ≤ hi) :
    sum (fun i => A i + d) lo hi = sum A lo hi + d * length lo hi := by
  unfold sum length
  rw [Finset.sum_add_distrib, Finset.sum_const, Nat.card_Icc, nsmul_eq_mul, mul_comm,
    show hi + 1 - lo = hi - lo + 1 by omega]

theorem sum_sub_const (h : lo ≤ hi) :
    sum (fun i => A i - d) lo hi = sum A lo hi - d * length lo hi := by
  have := sum_add_const (A := A) (d := -d) h
  simpa [sub_eq_add_neg] using this

/-- Adding on a range adds `d` for each index of the overlap. -/
theorem sum_addOn : sum (addOn A l r d) lo hi = sum A lo hi + partSum (fun _ => d) lo hi l r := by
  unfold sum partSum
  rw [← Finset.sum_add_distrib]
  refine Finset.sum_congr rfl fun i _ => ?_
  unfold addOn
  split_ifs
  · rfl
  · rw [add_zero]

/-- The overlap of a segment and a range, counted. -/
theorem partSum_const (h : max lo l ≤ min hi r) :
    partSum (fun _ => d) lo hi l r = d * length (max lo l) (min hi r) := by
  unfold partSum length
  rw [← Finset.sum_filter, Finset.sum_const, nsmul_eq_mul, mul_comm]
  congr 2
  rw [show (Finset.Icc lo hi).filter (fun i => l ≤ i ∧ i ≤ r) = Finset.Icc (max lo l) (min hi r) by
    ext i; simp only [Finset.mem_filter, Finset.mem_Icc]; omega, Nat.card_Icc]
  omega

/-- No overlap. -/
theorem partSum_of_disjoint (h : min hi r < max lo l) : partSum A lo hi l r = 0 :=
  Finset.sum_eq_zero fun i hi => by
    rw [Finset.mem_Icc] at hi
    exact if_neg (by omega)

theorem addOn_of_apart (h : hi < l ∨ r < lo) {i : ℕ} (h1 : lo ≤ i) (h2 : i ≤ hi) :
    addOn A l r d i = A i := if_neg (by omega)

theorem addOn_of_inside (h : l ≤ lo ∧ hi ≤ r) {i : ℕ} (h1 : lo ≤ i) (h2 : i ≤ hi) :
    addOn A l r d i = A i + d := if_pos (by omega)

theorem addOn_sub_const (c : R) (i : ℕ) :
    addOn (fun i => A i - c) l r d i = addOn A l r d i - c := by
  unfold addOn; split_ifs <;> ring

end Sums

end Segment
