import Valseg.Lib.Segment

/-!
# Trees of segment sums with retained tags

A `TagTree` over a segment keeps at every canonical segment a sum and a tag. A tag is an amount
owed to every index of its segment; it is already part of the sum next to it and of no sum below
it, and it is never pushed down. The words stored are of any type `α`, read into a commutative
ring by `ι`.

1. `Represents ι t lo hi A`: the tree `t` over `[lo, hi]` stands for the array `A`. The rules
   `Represents.cover` (an amount is added at the root) and `Represents.node` (the root is rebuilt
   over new children) are all that an update needs.
2. `Tagged ι cov t lo hi T`: below ancestors that owe `T`, the tags on the path to each canonical
   segment add up to the amount `cov` gives it.
3. `HalfSums ι P t`: at every inner node, the sum of the two stored sums of its children has the
   property `P`; with `Represents.tag_mul_length` this bounds the tags on every path.
-/

universe u v

/-- A tree of sums and tags. -/
inductive TagTree (α : Type u) where
  | leaf (sum tag : α)
  | node (sum tag : α) (left right : TagTree α)
  deriving DecidableEq, Repr

namespace TagTree

open Segment (addOn length)

variable {α : Type u} {R : Type v}

/-- The sum at the root. -/
def sum : TagTree α → α
  | .leaf s _ => s
  | .node s _ _ _ => s

/-- The tag at the root. -/
def tag : TagTree α → α
  | .leaf _ z => z
  | .node _ z _ _ => z

/-- The tree with another sum and tag at the root. -/
def setRoot (s z : α) : TagTree α → TagTree α
  | .leaf _ _ => .leaf s z
  | .node _ _ l r => .node s z l r

@[simp] theorem sum_leaf (s z : α) : (leaf s z).sum = s := rfl
@[simp] theorem sum_node (s z : α) (l r : TagTree α) : (node s z l r).sum = s := rfl
@[simp] theorem tag_leaf (s z : α) : (leaf s z).tag = z := rfl
@[simp] theorem tag_node (s z : α) (l r : TagTree α) : (node s z l r).tag = z := rfl
@[simp] theorem setRoot_leaf (s z s' z' : α) : (leaf s z).setRoot s' z' = leaf s' z' := rfl
@[simp] theorem setRoot_node (s z s' z' : α) (l r : TagTree α) :
    (node s z l r).setRoot s' z' = node s' z' l r := rfl
@[simp] theorem sum_setRoot (s z : α) (t : TagTree α) : (t.setRoot s z).sum = s := by
  cases t <;> rfl

/-- The tree has one node for each canonical segment of `[lo, hi]`. -/
def Spans : TagTree α → ℕ → ℕ → Prop
  | .leaf _ _, lo, hi => lo = hi
  | .node _ _ l r, lo, hi => lo < hi ∧ l.Spans lo (Segment.midpoint lo hi) ∧
      r.Spans (Segment.midpoint lo hi + 1) hi

theorem Spans.le {t : TagTree α} {lo hi : ℕ} (h : t.Spans lo hi) : lo ≤ hi := by
  cases t with
  | leaf s z => exact Nat.le_of_eq h
  | node s z l r => exact h.1.le

theorem Spans.setRoot {t : TagTree α} {lo hi : ℕ} (h : t.Spans lo hi) {s z : α} :
    (t.setRoot s z).Spans lo hi := by
  cases t with
  | leaf s₀ z₀ => exact h
  | node s₀ z₀ l r => exact h

/-! ## The array a tree stands for -/

section Represents

variable [CommRing R] (ι : α → R)

/-- The tree over `[lo, hi]` stands for the array `A`: every sum is the sum of its segment, once
the tags above it are taken off. -/
def Represents : TagTree α → ℕ → ℕ → (ℕ → R) → Prop
  | .leaf s _, lo, hi, A => lo = hi ∧ ι s = A lo
  | .node s z l r, lo, hi, A => lo < hi ∧ ι s = Segment.sum A lo hi ∧
      l.Represents lo (Segment.midpoint lo hi) (fun i => A i - ι z) ∧
      r.Represents (Segment.midpoint lo hi + 1) hi (fun i => A i - ι z)

variable {ι} {t l r : TagTree α} {s z : α} {lo hi : ℕ} {A B : ℕ → R} {d : R}

theorem Represents.le (h : t.Represents ι lo hi A) : lo ≤ hi := by
  cases t with
  | leaf s z => exact h.1.le
  | node s z l r => exact h.1.le

/-- The sum at the root is the sum of the array. -/
theorem Represents.sum_eq (h : t.Represents ι lo hi A) : ι t.sum = Segment.sum A lo hi := by
  cases t with
  | leaf s z => obtain ⟨rfl, hs⟩ := h; rw [Segment.sum_single]; exact hs
  | node s z l r => exact h.2.1

theorem Represents.spans (h : t.Represents ι lo hi A) : t.Spans lo hi := by
  induction t generalizing lo hi A with
  | leaf s z => exact h.1
  | node s z l r ihl ihr => exact ⟨h.1, ihl h.2.2.1, ihr h.2.2.2⟩

/-- Only the array's values on the segment matter. -/
theorem Represents.congr (h : t.Represents ι lo hi A) (hA : ∀ i, lo ≤ i → i ≤ hi → A i = B i) :
    t.Represents ι lo hi B := by
  induction t generalizing lo hi A B with
  | leaf s z => exact ⟨h.1, h.2.trans (hA lo le_rfl h.1.le)⟩
  | node s z l r ihl ihr =>
    obtain ⟨hlt, hs, hl, hr⟩ := h
    have h1 := Segment.le_midpoint lo hi
    have h2 := Segment.midpoint_lt hlt
    exact ⟨hlt, hs.trans (Segment.sum_congr hA),
      ihl hl fun i h3 h4 => by rw [hA i h3 (by omega)],
      ihr hr fun i h3 h4 => by rw [hA i (by omega) h4]⟩

/-- **Covering.** An amount added to the tag, and once per index to the sum, is added to every
index. -/
theorem Represents.cover (h : t.Represents ι lo hi A)
    (hs : ι s = ι t.sum + d * length lo hi) (hz : ι z = ι t.tag + d) :
    (t.setRoot s z).Represents ι lo hi (fun i => A i + d) := by
  have hle := h.le
  cases t with
  | leaf s₀ z₀ =>
    obtain ⟨rfl, hs₀⟩ := h
    refine ⟨rfl, ?_⟩
    rw [hs, sum_leaf, hs₀, length, Nat.sub_self]
    push_cast; ring
  | node s₀ z₀ l r =>
    obtain ⟨hlt, hs₀, hl, hr⟩ := h
    refine ⟨hlt, ?_, hl.congr fun i _ _ => ?_, hr.congr fun i _ _ => ?_⟩
    · rw [hs, sum_node, hs₀, Segment.sum_add_const hle]
    · rw [hz, tag_node]; ring
    · rw [hz, tag_node]; ring

/-- **Rebuilding.** A root over children that stand for `A` less the tag, with the sum
`left + right + tag * length`, stands for `A`. -/
theorem Represents.node (hlt : lo < hi)
    (hl : l.Represents ι lo (Segment.midpoint lo hi) (fun i => A i - ι z))
    (hr : r.Represents ι (Segment.midpoint lo hi + 1) hi (fun i => A i - ι z))
    (hs : ι s = ι l.sum + ι r.sum + ι z * length lo hi) :
    (TagTree.node s z l r).Represents ι lo hi A := by
  refine ⟨hlt, ?_, hl, hr⟩
  rw [hs, hl.sum_eq, hr.sum_eq, ← Segment.sum_split hlt, Segment.sum_sub_const hlt.le]
  ring

/-- What the tags on the path to an inner node amount to over its segment: the segment's sum less
the two stored sums below. -/
theorem Represents.tag_mul_length (h : (TagTree.node s z l r).Represents ι lo hi A) (T : R) :
    (T + ι z) * length lo hi =
      Segment.sum (fun i => A i + T) lo hi - (ι l.sum + ι r.sum) := by
  obtain ⟨hlt, -, hl, hr⟩ := h
  rw [hl.sum_eq, hr.sum_eq, ← Segment.sum_split hlt, Segment.sum_sub_const hlt.le,
    Segment.sum_add_const hlt.le]
  ring

end Represents

/-! ## The tags on a path -/

section Tagged

/-- `cov` with `d` added for every segment inside `[l, r]`. -/
def coverOn [Add R] (cov : ℕ → ℕ → R) (l r : ℕ) (d : R) (a b : ℕ) : R :=
  if l ≤ a ∧ b ≤ r then cov a b + d else cov a b

variable [CommRing R] (ι : α → R) (cov : ℕ → ℕ → R)

/-- Below ancestors that owe `T`, the tags down to each segment add up to what `cov` gives it. -/
def Tagged : TagTree α → ℕ → ℕ → R → Prop
  | .leaf _ z, lo, hi, T => T + ι z = cov lo hi
  | .node _ z l r, lo, hi, T => T + ι z = cov lo hi ∧
      l.Tagged lo (Segment.midpoint lo hi) (T + ι z) ∧
        r.Tagged (Segment.midpoint lo hi + 1) hi (T + ι z)

variable {ι cov} {cov' : ℕ → ℕ → R} {t : TagTree α} {s z : α} {lo hi : ℕ} {T d : R}

theorem Tagged.root (h : t.Tagged ι cov lo hi T) : T + ι t.tag = cov lo hi := by
  cases t with
  | leaf s z => exact h
  | node s z l r => exact h.1

/-- Only the amounts of segments inside the tree's own matter. -/
theorem Tagged.congr (h : t.Tagged ι cov lo hi T) (hs : t.Spans lo hi)
    (hc : ∀ a b, lo ≤ a → a ≤ b → b ≤ hi → cov a b = cov' a b) :
    t.Tagged ι cov' lo hi T := by
  induction t generalizing lo hi T with
  | leaf s z => exact (h : T + ι z = cov lo hi).trans (hc lo hi le_rfl hs.le le_rfl)
  | node s z l r ihl ihr =>
    obtain ⟨h0, hl, hr⟩ := h
    obtain ⟨hlt, hsl, hsr⟩ := hs
    have h1 := Segment.le_midpoint lo hi
    have h2 := Segment.midpoint_lt hlt
    exact ⟨h0.trans (hc lo hi le_rfl hlt.le le_rfl),
      ihl hl hsl fun a b h3 h4 h5 => hc a b h3 h4 (by omega),
      ihr hr hsr fun a b h3 h4 h5 => hc a b (by omega) h4 h5⟩

/-- What the ancestors owe can be moved into every amount. -/
theorem Tagged.shift (h : t.Tagged ι cov lo hi T) (d : R) :
    t.Tagged ι (fun a b => cov a b + d) lo hi (T + d) := by
  induction t generalizing lo hi T with
  | leaf s z =>
    have h0 : T + ι z = cov lo hi := h
    show T + d + ι z = cov lo hi + d
    rw [← h0]; ring
  | node s z l r ihl ihr =>
    obtain ⟨h0, hl, hr⟩ := h
    have e : T + d + ι z = T + ι z + d := by ring
    refine ⟨by rw [e, h0], ?_, ?_⟩
    · rw [e]; exact ihl hl
    · rw [e]; exact ihr hr

/-- An amount added to the root's tag is added to every path. -/
theorem Tagged.cover (h : t.Tagged ι cov lo hi T) (hz : ι z = ι t.tag + d) :
    (t.setRoot s z).Tagged ι (fun a b => cov a b + d) lo hi T := by
  cases t with
  | leaf s₀ z₀ =>
    have h0 : T + ι z₀ = cov lo hi := h
    show T + ι z = cov lo hi + d
    rw [hz, tag_leaf, ← h0]; ring
  | node s₀ z₀ l r =>
    obtain ⟨h0, hl, hr⟩ := h
    have e : T + ι z = T + ι z₀ + d := by rw [hz, tag_node]; ring
    refine ⟨by rw [e, h0], ?_, ?_⟩
    · rw [e]; exact hl.shift d
    · rw [e]; exact hr.shift d

/-! ## The tags of the inner nodes -/

variable (ι) in
/-- At every inner node the tags down to it add up to a number with the property `P`. -/
def InnerTags (P : R → Prop) : TagTree α → R → Prop
  | .leaf _ _, _ => True
  | .node _ z l r, T => P (T + ι z) ∧ l.InnerTags P (T + ι z) ∧ r.InnerTags P (T + ι z)

/-- The inner nodes are the canonical segments of two or more indices. -/
theorem Tagged.innerTags_iff {P : R → Prop} (h : t.Tagged ι cov lo hi T) (hs : t.Spans lo hi) :
    t.InnerTags ι P T ↔ ∀ a b, Segment.Canonical lo hi a b → a < b → P (cov a b) := by
  induction t generalizing lo hi T with
  | leaf s z =>
    obtain rfl : lo = hi := hs
    rw [Segment.forall_canonical_single (P := fun a b => a < b → P (cov a b))]
    exact ⟨fun _ h => absurd h (lt_irrefl lo), fun _ => trivial⟩
  | node s z l r ihl ihr =>
    obtain ⟨h0, hl, hr⟩ := h
    obtain ⟨hlt, hsl, hsr⟩ := hs
    rw [Segment.forall_canonical_split hlt, ← ihl hl hsl, ← ihr hr hsr]
    show P _ ∧ _ ↔ _
    rw [h0]
    exact and_congr_left fun _ => ⟨fun h _ => h, fun h => h hlt⟩

end Tagged

/-! ## The stored sums of the halves -/

section HalfSums

variable [CommRing R] (ι : α → R) (P : R → Prop)

/-- At every inner node the two stored sums below add up to a number with the property `P`. -/
def HalfSums : TagTree α → Prop
  | .leaf _ _ => True
  | .node _ _ l r => P (ι l.sum + ι r.sum) ∧ l.HalfSums ∧ r.HalfSums

variable {ι P} {t : TagTree α}

/-- What is stored at the root is in no half of its own tree. -/
theorem HalfSums.setRoot (h : t.HalfSums ι P) (s z : α) : (t.setRoot s z).HalfSums ι P := by
  cases t with
  | leaf s₀ z₀ => trivial
  | node s₀ z₀ l r => exact h

end HalfSums

end TagTree
