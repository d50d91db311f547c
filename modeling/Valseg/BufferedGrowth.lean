import Valseg.BufferedPathCopyingSegmentTree
import Valseg.Lib.CanonicalSegments

/-!
# The growth of the buffered tree

`CopyModel` of `buffered_path_copying_segment_tree_test.cpp` says what an update copies without
nodes, sums or versions: it has one level for each canonical segment.

1. `visit_eq`: the segments it copies are those it visits with a full one below them.
2. `update_advances`: an update of the tree copies the nodes that stand for these segments, and the
   buffers of the latest tree stay as full as the levels say.
3. `buffered_growth` says so of every reachable state.
-/

namespace Valseg

namespace BufferedPathCopyingSegmentTree

def nodeCount (this : State) : ℕ := this.nodes.length

/-! ## The counter model -/

/-- How full the buffers are, and what the last update copied. The model addresses a node by its
segment. -/
structure CopyModel where
  fill : ℕ × ℕ → ℕ
  copies : ℕ

namespace CopyModel

/-- A visited segment is copied, or takes one entry. -/
def record (this : CopyModel) (segment : ℕ × ℕ) (childCopied : Bool) : CopyModel × Bool :=
  if childCopied ∨ this.fill segment = 2 then
    (⟨Function.update this.fill segment 0, this.copies + 1⟩, true)
  else (⟨Function.update this.fill segment (this.fill segment + 1), this.copies⟩, false)

def visit (this : CopyModel) (segmentLeft segmentRight queryLeft queryRight : ℕ) :
    CopyModel × Bool :=
  if ¬ (queryLeft ≤ segmentLeft ∧ segmentRight ≤ queryRight) ∧ segmentLeft < segmentRight then
    let middle := Segment.midpoint segmentLeft segmentRight
    let left := if queryLeft ≤ middle then this.visit segmentLeft middle queryLeft queryRight
      else (this, false)
    let right := if queryRight > middle then
        left.1.visit (middle + 1) segmentRight queryLeft queryRight
      else (left.1, false)
    right.1.record (segmentLeft, segmentRight) (right.2 || left.2)
  else this.record (segmentLeft, segmentRight) false
termination_by segmentRight - segmentLeft
decreasing_by all_goals (simp only [Segment.midpoint] at *; omega)

/-- An update of an array of `n` elements. -/
def update (this : CopyModel) (n left right : ℕ) : CopyModel :=
  (visit { this with copies := 0 } 0 (n - 1) left right).1

end CopyModel

/-- The model after the non-zero updates of the history. -/
def copyModel (h : History (List ValueType)) : CopyModel :=
  h.adds.updates.foldl
    (fun this u => if u.amount = 0 then this else this.update h.size u.left u.right) ⟨fun _ => 0, 0⟩

/-! ## What is copied -/

/-- The segments of the set with a full one of the set below them. -/
def copied (fill : ℕ × ℕ → ℕ) (V : Finset (ℕ × ℕ)) : Finset (ℕ × ℕ) :=
  V.filter fun c => ∃ d ∈ V, fill d = 2 ∧ c.1 ≤ d.1 ∧ d.2 ≤ c.2

/-- The levels after the segments of the set were visited. -/
def raised (fill : ℕ × ℕ → ℕ) (V : Finset (ℕ × ℕ)) (c : ℕ × ℕ) : ℕ :=
  if c ∈ copied fill V then 0 else if c ∈ V then fill c + 1 else fill c

section Copied

variable {fill fill' : ℕ × ℕ → ℕ} {V : Finset (ℕ × ℕ)} {c : ℕ × ℕ} {lo hi l r : ℕ}

theorem mem_copied :
    c ∈ copied fill V ↔ c ∈ V ∧ ∃ d ∈ V, fill d = 2 ∧ c.1 ≤ d.1 ∧ d.2 ≤ c.2 := Finset.mem_filter

theorem copied_empty : copied fill ∅ = ∅ := rfl

theorem raised_empty : raised fill ∅ = fill := by
  funext c
  simp [raised, copied_empty]

theorem raised_of_notMem (h : c ∉ V) : raised fill V c = fill c := by
  unfold raised
  rw [if_neg fun hc => h (mem_copied.mp hc).1, if_neg h]

/-- No level is above 2. -/
theorem raised_le (h : ∀ c, fill c ≤ 2) (c : ℕ × ℕ) : raised fill V c ≤ 2 := by
  have hc := h c
  unfold raised
  split_ifs with h1 h2
  · exact Nat.zero_le 2
  · have hne : fill c ≠ 2 := fun h0 => h1 (mem_copied.mpr ⟨h2, c, h2, h0, le_rfl, le_rfl⟩)
    omega
  · exact hc

theorem copied_congr (h : ∀ c ∈ V, fill' c = fill c) : copied fill' V = copied fill V := by
  ext c
  simp only [mem_copied]
  refine and_congr_right fun _ => exists_congr fun d => and_congr_right fun hd => ?_
  rw [h d hd]

theorem copied_singleton (c : ℕ × ℕ) : copied fill {c} = if fill c = 2 then {c} else ∅ := by
  ext d
  rw [mem_copied, Finset.mem_singleton]
  split_ifs with h
  · rw [Finset.mem_singleton]
    exact ⟨fun hd => hd.1, fun hd => ⟨hd, c, Finset.mem_singleton_self c, h, hd ▸ ⟨le_rfl, le_rfl⟩⟩⟩
  · refine iff_of_false ?_ (Finset.notMem_empty d)
    rintro ⟨-, e, he, h2, -⟩
    rw [Finset.mem_singleton] at he
    exact h (he ▸ h2)

/-- Where the descent goes on into a segment, the segment is copied as soon as one it enters is
full. -/
theorem self_mem_copied {p : Prop} [Decidable p] (hle : lo ≤ hi) (h : p → l ≤ hi ∧ lo ≤ r) :
    (lo, hi) ∈ copied fill (if p then Segment.visited lo hi l r else ∅) ↔
      ∃ d ∈ if p then Segment.visited lo hi l r else ∅, fill d = 2 := by
  rw [mem_copied]
  constructor
  · rintro ⟨-, d, hd, h2, -⟩
    exact ⟨d, hd, h2⟩
  · rintro ⟨d, hd, h2⟩
    have hb := (Segment.canonical_of_mem_half hle hd).bounds
    refine ⟨?_, d, hd, h2, hb.1, hb.2.2⟩
    split_ifs at hd ⊢ with hp
    · exact Segment.self_mem_visited lo hi hle (h hp).1 (h hp).2
    · exact absurd hd (Finset.notMem_empty d)

section Split

/-! A segment is visited that the range leaves out in part; `A` and `B` are what is visited below
its halves. -/

variable {A B : Finset (ℕ × ℕ)} (hin : ¬ (l ≤ lo ∧ hi ≤ r)) (hlt : lo < hi) (h1 : l ≤ hi)
  (h2 : lo ≤ r)
  (hA : A = if l ≤ Segment.midpoint lo hi then Segment.visited lo (Segment.midpoint lo hi) l r
    else ∅)
  (hB : B = if r > Segment.midpoint lo hi then
    Segment.visited (Segment.midpoint lo hi + 1) hi l r else ∅)

include hin hlt hA in
theorem mem_copied_left (hc : Segment.Canonical lo (Segment.midpoint lo hi) c.1 c.2) :
    c ∈ copied fill (Segment.visited lo hi l r) ↔ c ∈ copied fill A := by
  have hb := hc.bounds
  have hm := Segment.midpoint_lt hlt
  rw [mem_copied, mem_copied, Segment.mem_visited_left hin hlt hc, ← hA]
  refine and_congr_right fun _ => exists_congr fun d => ?_
  constructor
  · rintro ⟨hd, hfull, hsub⟩
    have hd' : Segment.Canonical lo (Segment.midpoint lo hi) d.1 d.2 := by
      cases Segment.canonical_of_visited hlt.le hd with
      | self _ => omega
      | left _ hd => exact hd
      | right _ hd =>
        have := hd.bounds
        omega
    exact ⟨hA ▸ (Segment.mem_visited_left hin hlt hd').mp hd, hfull, hsub⟩
  · rintro ⟨hd, hfull, hsub⟩
    have hd' := Segment.canonical_of_mem_half (Segment.le_midpoint lo hi) (hA ▸ hd)
    exact ⟨(Segment.mem_visited_left hin hlt hd').mpr (hA ▸ hd), hfull, hsub⟩

include hin hlt hB in
theorem mem_copied_right (hc : Segment.Canonical (Segment.midpoint lo hi + 1) hi c.1 c.2) :
    c ∈ copied fill (Segment.visited lo hi l r) ↔ c ∈ copied fill B := by
  have hb := hc.bounds
  have hm := Segment.le_midpoint lo hi
  rw [mem_copied, mem_copied, Segment.mem_visited_right hin hlt hc, ← hB]
  refine and_congr_right fun _ => exists_congr fun d => ?_
  constructor
  · rintro ⟨hd, hfull, hsub⟩
    have hd' : Segment.Canonical (Segment.midpoint lo hi + 1) hi d.1 d.2 := by
      cases Segment.canonical_of_visited hlt.le hd with
      | self _ => omega
      | left _ hd =>
        have := hd.bounds
        omega
      | right _ hd => exact hd
    exact ⟨hB ▸ (Segment.mem_visited_right hin hlt hd').mp hd, hfull, hsub⟩
  · rintro ⟨hd, hfull, hsub⟩
    have hd' := Segment.canonical_of_mem_half (Segment.midpoint_lt hlt) (hB ▸ hd)
    exact ⟨(Segment.mem_visited_right hin hlt hd').mpr (hB ▸ hd), hfull, hsub⟩

include hin hlt h1 h2 hA hB in
/-- The segment itself is copied when it is full or a half is copied. -/
theorem self_mem_copied_iff : (lo, hi) ∈ copied fill (Segment.visited lo hi l r) ↔
    ((Segment.midpoint lo hi + 1, hi) ∈ copied fill B ∨
      (lo, Segment.midpoint lo hi) ∈ copied fill A) ∨ fill (lo, hi) = 2 := by
  have hm := Segment.le_midpoint lo hi
  have hm' := Segment.midpoint_lt hlt
  have hself : (lo, hi) ∈ copied fill (Segment.visited lo hi l r) ↔
      ∃ d ∈ Segment.visited lo hi l r, fill d = 2 :=
    self_mem_copied (p := True) hlt.le fun _ => ⟨h1, h2⟩
  have hleft : (lo, Segment.midpoint lo hi) ∈ copied fill A ↔ ∃ d ∈ A, fill d = 2 := by
    rw [hA]
    exact self_mem_copied hm fun hl => ⟨hl, h2⟩
  have hright : (Segment.midpoint lo hi + 1, hi) ∈ copied fill B ↔ ∃ d ∈ B, fill d = 2 := by
    rw [hB]
    exact self_mem_copied hm' fun hr => ⟨h1, hr⟩
  rw [hself, hleft, hright, Segment.visited_split hin hlt, ← hA, ← hB]
  simp only [Finset.mem_insert, Finset.mem_union, or_and_right, exists_or, exists_eq_left]
  rw [or_comm, or_comm (a := ∃ d, d ∈ A ∧ fill d = 2)]

include hlt hA hB in
theorem half_disjoint : Disjoint A B := by
  rw [Finset.disjoint_left]
  intro c ha hb
  have ha' := (Segment.canonical_of_mem_half (Segment.le_midpoint lo hi) (hA ▸ ha)).bounds
  have hb' := (Segment.canonical_of_mem_half (Segment.midpoint_lt hlt) (hB ▸ hb)).bounds
  omega

include hlt hA hB in
theorem self_notMem_halves : (lo, hi) ∉ A ∧ (lo, hi) ∉ B := by
  have hm := Segment.midpoint_lt hlt
  have hm' := Segment.le_midpoint lo hi
  constructor
  · intro h
    have := (Segment.canonical_of_mem_half hm' (hA ▸ h)).bounds
    omega
  · intro h
    have := (Segment.canonical_of_mem_half hm (hB ▸ h)).bounds
    omega

include hlt hA hB in
/-- The visits of the left half leave the levels of the right half. -/
theorem copied_raised : copied (raised fill A) B = copied fill B :=
  copied_congr fun _ hc =>
    raised_of_notMem (Finset.disjoint_right.mp (half_disjoint hlt hA hB) hc)

include hin hlt hA hB in
/-- The levels after a visit, half by half. -/
theorem raised_split : raised fill (Segment.visited lo hi l r) =
    Function.update (raised (raised fill A) B) (lo, hi)
      (if (lo, hi) ∈ copied fill (Segment.visited lo hi l r) then 0 else fill (lo, hi) + 1) := by
  funext c
  have hsplit := Segment.visited_split hin hlt
  rw [← hA, ← hB] at hsplit
  by_cases hself : c = (lo, hi)
  · rw [hself, Function.update_self, raised,
      if_pos (show (lo, hi) ∈ Segment.visited lo hi l r by
        rw [hsplit]; exact Finset.mem_insert_self _ _)]
  rw [Function.update_of_ne hself]
  have happart := Finset.disjoint_left.mp (half_disjoint hlt hA hB)
  by_cases ha : c ∈ A
  · have hc := Segment.canonical_of_mem_half (Segment.le_midpoint lo hi) (hA ▸ ha)
    have hV : c ∈ Segment.visited lo hi l r := by
      rw [hsplit]
      exact Finset.mem_insert_of_mem (Finset.mem_union_left B ha)
    rw [raised_of_notMem (happart ha)]
    unfold raised
    rw [if_congr (mem_copied_left hin hlt hA hc) rfl rfl, if_pos ha, if_pos hV]
  · by_cases hb : c ∈ B
    · have hc := Segment.canonical_of_mem_half (Segment.midpoint_lt hlt) (hB ▸ hb)
      have hV : c ∈ Segment.visited lo hi l r := by
        rw [hsplit]
        exact Finset.mem_insert_of_mem (Finset.mem_union_right A hb)
      have hcopied : copied (raised fill A) B = copied fill B := copied_raised hlt hA hB
      unfold raised
      rw [if_congr (mem_copied_right hin hlt hB hc) rfl rfl, if_pos hV, if_pos hb, ← hcopied]
      simp only [raised, ha, mem_copied, false_and, if_false]
    · have hV : c ∉ Segment.visited lo hi l r := by
        rw [hsplit, Finset.mem_insert, Finset.mem_union]
        rintro (h | h | h)
        · exact hself h
        · exact ha h
        · exact hb h
      rw [raised_of_notMem hV, raised_of_notMem hb, raised_of_notMem ha]

include hin hlt hA hB in
/-- What is copied, half by half. -/
theorem copied_split : copied fill (Segment.visited lo hi l r) =
    (copied fill A ∪ copied fill B) ∪
      if (lo, hi) ∈ copied fill (Segment.visited lo hi l r) then {(lo, hi)} else ∅ := by
  have hsplit := Segment.visited_split hin hlt
  rw [← hA, ← hB] at hsplit
  ext c
  rw [Finset.mem_union, Finset.mem_union]
  constructor
  · intro h
    have hV := (mem_copied.mp h).1
    rw [hsplit, Finset.mem_insert, Finset.mem_union] at hV
    rcases hV with rfl | ha | hb
    · rw [if_pos h]
      exact .inr (Finset.mem_singleton_self _)
    · have hc := Segment.canonical_of_mem_half (Segment.le_midpoint lo hi) (hA ▸ ha)
      exact .inl (.inl ((mem_copied_left hin hlt hA hc).mp h))
    · have hc := Segment.canonical_of_mem_half (Segment.midpoint_lt hlt) (hB ▸ hb)
      exact .inl (.inr ((mem_copied_right hin hlt hB hc).mp h))
  · rintro ((h | h) | h)
    · have hc := Segment.canonical_of_mem_half (Segment.le_midpoint lo hi)
        (hA ▸ (mem_copied.mp h).1)
      exact (mem_copied_left hin hlt hA hc).mpr h
    · have hc := Segment.canonical_of_mem_half (Segment.midpoint_lt hlt)
        (hB ▸ (mem_copied.mp h).1)
      exact (mem_copied_right hin hlt hB hc).mpr h
    · split_ifs at h with h0
      · rwa [Finset.mem_singleton.mp h]
      · exact absurd h (Finset.notMem_empty c)

include hin hlt hA hB in
/-- The copies, half by half. -/
theorem card_copied_split : (copied fill (Segment.visited lo hi l r)).card =
    (copied fill A).card + (copied fill B).card +
      if (lo, hi) ∈ copied fill (Segment.visited lo hi l r) then 1 else 0 := by
  obtain ⟨hself, hself'⟩ := self_notMem_halves hlt hA hB
  have happart : Disjoint (copied fill A) (copied fill B) :=
    (half_disjoint hlt hA hB).mono (Finset.filter_subset _ _) (Finset.filter_subset _ _)
  rw [← Finset.card_union_of_disjoint happart]
  conv_lhs => rw [copied_split hin hlt hA hB]
  split_ifs with h0
  · rw [Finset.card_union_of_disjoint, Finset.card_singleton]
    rw [Finset.disjoint_singleton_right, Finset.mem_union, mem_copied, mem_copied]
    rintro (h | h)
    · exact hself h.1
    · exact hself' h.1
  · rw [Finset.union_empty, Nat.add_zero]

end Split

theorem raised_singleton (c : ℕ × ℕ) :
    raised fill {c} = Function.update fill c (if fill c = 2 then 0 else fill c + 1) := by
  funext d
  unfold raised
  rw [copied_singleton]
  by_cases hd : d = c
  · subst hd
    simp only [Function.update_self, Finset.mem_singleton_self, if_true]
    by_cases h : fill d = 2
    · rw [if_pos h, if_pos h, if_pos (Finset.mem_singleton_self d)]
    · rw [if_neg h, if_neg h, if_neg (Finset.notMem_empty d)]
  · have hnot : d ∉ if fill c = 2 then ({c} : Finset (ℕ × ℕ)) else ∅ := by
      split_ifs <;> simp [hd]
    rw [Function.update_of_ne hd, if_neg hnot, if_neg (by simpa using hd)]

end Copied

/-! ## The model in closed form -/

namespace CopyModel

variable {lo hi l r : ℕ}

theorem record_eq (this : CopyModel) (c : ℕ × ℕ) (childCopied : Bool) :
    this.record c childCopied =
      (⟨Function.update this.fill c
          (if childCopied ∨ this.fill c = 2 then 0 else this.fill c + 1),
        this.copies + if childCopied ∨ this.fill c = 2 then 1 else 0⟩,
        decide (childCopied ∨ this.fill c = 2)) := by
  unfold record
  by_cases h : childCopied ∨ this.fill c = 2
  · simp only [if_pos h, decide_eq_true h]
  · simp only [if_neg h, decide_eq_false h, Nat.add_zero]

/-- What a visit does: it copies the segments it enters with a full one below them. -/
def Copies (this : CopyModel) (V : Finset (ℕ × ℕ)) (c : ℕ × ℕ) : CopyModel × Bool :=
  (⟨raised this.fill V, this.copies + (copied this.fill V).card⟩, decide (c ∈ copied this.fill V))

theorem record_single (this : CopyModel) (c : ℕ × ℕ) :
    this.record c false = this.Copies {c} c := by
  rw [record_eq, Copies, raised_singleton, copied_singleton]
  simp only [Bool.false_eq_true, false_or]
  by_cases h : this.fill c = 2 <;> simp [h]

/-- The visit of one half, or the half left alone. -/
theorem half_eq {p : Prop} [Decidable p] {this : CopyModel} {visited : CopyModel × Bool}
    {V : Finset (ℕ × ℕ)} {c : ℕ × ℕ} (h : p → visited = this.Copies V c) :
    (if p then visited else (this, false)) = this.Copies (if p then V else ∅) c := by
  by_cases hp : p
  · rw [if_pos hp, if_pos hp, h hp]
  · rw [if_neg hp, if_neg hp, Copies, raised_empty, copied_empty]
    simp

/-- **One update of the model.** -/
theorem visit_eq : ∀ lo hi, lo ≤ hi → l ≤ hi → lo ≤ r → ∀ this : CopyModel,
    this.visit lo hi l r = this.Copies (Segment.visited lo hi l r) (lo, hi) := by
  refine Segment.halving_induction (fun i h1 h2 this => ?_) fun lo hi hlt ihl ihr h1 h2 this => ?_
  · rw [visit, if_neg (fun h => h.1 ⟨h1, h2⟩), Segment.visited_of_inside ⟨h1, h2⟩, record_single]
  by_cases hin : l ≤ lo ∧ hi ≤ r
  · rw [visit, if_neg (fun h => h.1 hin), Segment.visited_of_inside hin, record_single]
  rw [visit, if_pos ⟨hin, hlt⟩]
  have hright : ∀ this : CopyModel, (if r > Segment.midpoint lo hi then
      this.visit (Segment.midpoint lo hi + 1) hi l r else (this, false)) = _ := fun this =>
    half_eq fun hr => ihr h1 hr this
  simp only [half_eq fun hl => ihl hl h2 this, hright]
  generalize hA : (if l ≤ Segment.midpoint lo hi then
    Segment.visited lo (Segment.midpoint lo hi) l r else ∅) = A
  generalize hB : (if r > Segment.midpoint lo hi then
    Segment.visited (Segment.midpoint lo hi + 1) hi l r else ∅) = B
  obtain ⟨hself, hself'⟩ := self_notMem_halves hlt hA.symm hB.symm
  have hiff : (lo, hi) ∈ copied this.fill (Segment.visited lo hi l r) ↔ _ :=
    self_mem_copied_iff hin hlt h1 h2 hA.symm hB.symm
  rw [record_eq]
  simp only [Copies, copied_raised hlt hA.symm hB.symm, raised_of_notMem hself,
    raised_of_notMem hself', Bool.or_eq_true, decide_eq_true_eq, ← hiff,
    raised_split hin hlt hA.symm hB.symm, card_copied_split hin hlt hA.symm hB.symm, Nat.add_assoc]

end CopyModel

/-! ## The nodes that stand for the segments -/

section Placed

variable {S V : Finset (ℕ × ℕ)} {fill place place' : ℕ × ℕ → ℕ} {nodes nodes' : List Node}
  {copy : Prop} {c : ℕ × ℕ} {i j k lo hi : ℕ}

/-- Every segment of the set has a node of its own, which is as full as the levels say. -/
structure Placed (S : Finset (ℕ × ℕ)) (fill place : ℕ × ℕ → ℕ) (nodes : List Node) : Prop where
  injective : Set.InjOn place S
  full : ∀ c ∈ S, ∃ node, nodes[place c]? = some node ∧ node.bufferSize = fill c

/-- From the segment on, the children of a node are those of the halves. -/
def Links (place : ℕ × ℕ → ℕ) (nodes : List Node) (lo hi : ℕ) : Prop :=
  ∀ a b node, Segment.Canonical lo hi a b → a < b → nodes[place (a, b)]? = some node →
    node.leftChild = place (a, Segment.midpoint a b) ∧
      node.rightChild = place (Segment.midpoint a b + 1, b)

/-- A node gets one entry more, or a copy of it is pushed with an empty buffer. -/
def Written (copy : Prop) (nodes nodes' : List Node) (i j leftChild rightChild : ℕ) : Prop :=
  ∃ node', (node'.leftChild = leftChild ∧ node'.rightChild = rightChild) ∧
    ((¬ copy ∧ j = i ∧ nodes' = nodes.set i node' ∧
        ∃ node, nodes[i]? = some node ∧ node'.bufferSize = node.bufferSize + 1) ∨
      (copy ∧ j = nodes.length ∧ nodes' = nodes ++ [node'] ∧ node'.bufferSize = 0))

theorem Placed.lt_length (h : Placed S fill place nodes) (hc : c ∈ S) :
    place c < nodes.length := by
  obtain ⟨node, hn, -⟩ := h.full c hc
  exact (List.getElem?_eq_some_iff.mp hn).1

/-- All else is kept. -/
theorem Written.kept (hw : Written copy nodes nodes' i j lo hi) (hk : k < nodes.length)
    (hne : k ≠ i) : nodes'[k]? = nodes[k]? := by
  obtain ⟨node', -, ⟨-, -, rfl, -⟩ | ⟨-, -, rfl, -⟩⟩ := hw
  · exact List.getElem?_set_ne hne.symm
  · exact List.getElem?_append_left hk

theorem Written.copied (hw : Written copy nodes nodes' i j lo hi) (hi' : i < nodes.length) :
    j ≠ i ↔ copy := by
  obtain ⟨node', -, ⟨hn, rfl, -⟩ | ⟨hc, rfl, -⟩⟩ := hw
  · exact iff_of_false (fun h => h rfl) hn
  · exact iff_of_true (by omega) hc

theorem Written.length [Decidable copy] (hw : Written copy nodes nodes' i j lo hi) :
    nodes'.length = nodes.length + if copy then 1 else 0 := by
  obtain ⟨node', -, ⟨hn, -, rfl, -⟩ | ⟨hc, -, rfl, -⟩⟩ := hw
  · rw [if_neg hn, List.length_set, Nat.add_zero]
  · rw [if_pos hc, List.length_append, List.length_singleton]

/-- What is read of the node that is written. -/
theorem Written.node [Decidable copy] (hw : Written copy nodes nodes' i j lo hi) {node : Node}
    (hn : nodes[i]? = some node) : ∃ node', nodes'[j]? = some node' ∧
      (node'.leftChild = lo ∧ node'.rightChild = hi) ∧
        node'.bufferSize = if copy then 0 else node.bufferSize + 1 := by
  obtain ⟨node', hch, ⟨hnot, rfl, rfl, old, hold, hsize⟩ | ⟨hc, rfl, rfl, hsize⟩⟩ := hw
  · rw [hn, Option.some.injEq] at hold
    subst hold
    exact ⟨node', List.getElem?_set_self (List.getElem?_eq_some_iff.mp hn).1, hch,
      by rw [if_neg hnot, hsize]⟩
  · exact ⟨node', List.getElem?_concat_length, hch, by rw [if_pos hc, hsize]⟩

/-- **Writing.** The node that is written stands for the segment from now on. -/
theorem Placed.write [Decidable copy] (h : Placed S fill place nodes) (hc : c ∈ S)
    (hw : Written copy nodes nodes' (place c) j lo hi) :
    Placed S (Function.update fill c (if copy then 0 else fill c + 1))
      (Function.update place c j) nodes' := by
  have happart : ∀ d ∈ S, d ≠ c → place d ≠ j := by
    intro d hd hne heq
    obtain ⟨node', -, ⟨-, rfl, -⟩ | ⟨-, rfl, -⟩⟩ := hw
    · exact hne (h.injective hd hc heq)
    · exact absurd (h.lt_length hd) (by omega)
  refine ⟨fun d hd e he heq => ?_, fun d hd => ?_⟩
  · by_cases h1 : d = c <;> by_cases h2 : e = c
    · rw [h1, h2]
    · rw [h1, Function.update_self, Function.update_of_ne h2] at heq
      exact absurd heq.symm (happart e he h2)
    · rw [h2, Function.update_self, Function.update_of_ne h1] at heq
      exact absurd heq (happart d hd h1)
    · rw [Function.update_of_ne h1, Function.update_of_ne h2] at heq
      exact h.injective hd he heq
  · by_cases h1 : d = c
    · obtain ⟨node, hn, hsize⟩ := h.full c hc
      obtain ⟨node', hn', -, hsize'⟩ := hw.node hn
      rw [h1, Function.update_self, Function.update_self]
      exact ⟨node', hn', by rw [hsize', hsize]⟩
    · obtain ⟨node, hn, hsize⟩ := h.full d hd
      rw [Function.update_of_ne h1, Function.update_of_ne h1]
      refine ⟨node, ?_, hsize⟩
      rw [hw.kept (h.lt_length hd) fun heq => h1 (h.injective hd hc heq), hn]

/-- **Framing.** -/
theorem Links.frame (h : Links place nodes lo hi) (hk : ∀ c, Segment.Canonical lo hi c.1 c.2 →
    place' c = place c ∧ nodes'[place c]? = nodes[place c]?) : Links place' nodes' lo hi := by
  intro a b node hc hab hn
  obtain ⟨hl, hr⟩ := hc.halves hab
  rw [(hk (a, b) hc).1, (hk (a, b) hc).2] at hn
  rw [(hk _ hl).1, (hk _ hr).1]
  exact h a b node hc hab hn

/-- **Linking.** Above two linked halves, a written node links them. -/
theorem Placed.links_write [Decidable copy] {leftChild rightChild : ℕ}
    (h : Placed S fill place nodes) (hle : lo ≤ hi)
    (hS : ∀ a b, Segment.Canonical lo hi a b → (a, b) ∈ S)
    (hw : Written copy nodes nodes' (place (lo, hi)) j leftChild rightChild)
    (hch : lo < hi → (leftChild = place (lo, Segment.midpoint lo hi) ∧
        rightChild = place (Segment.midpoint lo hi + 1, hi)) ∧
      Links place nodes lo (Segment.midpoint lo hi) ∧
      Links place nodes (Segment.midpoint lo hi + 1) hi) :
    Links (Function.update place (lo, hi) j) nodes' lo hi := by
  have hself := hS lo hi (.self hle)
  have hbelow : ∀ a b, Segment.Canonical lo hi a b → (a, b) ≠ (lo, hi) →
      Function.update place (lo, hi) j (a, b) = place (a, b) ∧
        nodes'[place (a, b)]? = nodes[place (a, b)]? := by
    intro a b hc hne
    refine ⟨Function.update_of_ne hne .., hw.kept (h.lt_length (hS a b hc)) fun heq => ?_⟩
    exact hne (h.injective (hS a b hc) hself heq)
  intro a b node₁ hc hab hn₁
  obtain ⟨hl, hr⟩ := hc.halves hab
  have hb := hc.bounds
  have hm := Segment.midpoint_lt hab
  have hm' := Segment.le_midpoint a b
  rw [(hbelow _ _ hl (by rw [ne_eq, Prod.mk.injEq]; omega)).1,
    (hbelow _ _ hr (by rw [ne_eq, Prod.mk.injEq]; omega)).1]
  obtain ⟨hroot, hleft, hright⟩ := hch (by omega)
  by_cases hne : (a, b) = (lo, hi)
  · obtain ⟨rfl, rfl⟩ := Prod.mk.inj hne
    obtain ⟨node, hn, -⟩ := h.full _ hself
    obtain ⟨node', hn', hnode, -⟩ := hw.node hn
    rw [Function.update_self, hn', Option.some.injEq] at hn₁
    rw [← hn₁, hnode.1, hnode.2]
    exact hroot
  · rw [(hbelow a b hc hne).1, (hbelow a b hc hne).2] at hn₁
    cases hc with
    | self _ => exact absurd rfl hne
    | left _ hc => exact hleft a b node₁ hc hab hn₁
    | right _ hc => exact hright a b node₁ hc hab hn₁

end Placed

/-! ## One update -/

section Advances

variable {S V : Finset (ℕ × ℕ)} {fill place place' : ℕ × ℕ → ℕ} {nodes nodes' : List Node}
  {s s' : State} {node : Node} {v i j lo hi l r : ℕ} {value deltaSum deltaLazy : ValueType}

/-- What an update of the segment does where it visits the segments `V`: it copies the nodes of
those with a full one below them, and the others that it visits take one entry. -/
structure Advances (S V : Finset (ℕ × ℕ)) (lo hi : ℕ) (fill place : ℕ × ℕ → ℕ) (nodes : List Node)
    (place' : ℕ × ℕ → ℕ) (nodes' : List Node) : Prop where
  placed : Placed S (raised fill V) place' nodes'
  links : Links place' nodes' lo hi
  replaced : ∀ c ∈ S, place' c ≠ place c ↔ c ∈ copied fill V
  kept : ∀ c ∈ S, c ∉ V → nodes'[place c]? = nodes[place c]?
  length : nodes'.length = nodes.length + (copied fill V).card

/-- Segments apart from those visited keep their nodes. -/
theorem Advances.apart (h : Advances S V lo hi fill place nodes place' nodes') {c : ℕ × ℕ}
    (hc : c ∈ S) (hV : c ∉ V) : place' c = place c ∧ nodes'[place c]? = nodes[place c]? := by
  refine ⟨?_, h.kept c hc hV⟩
  by_contra hne
  exact hV (mem_copied.mp ((h.replaced c hc).mp hne)).1

/-- **What an update does.** One that returns has modified the node it starts at where the range
covers the segment, and has otherwise updated the halves and written the node over them. -/
theorem update_eq_ok (hn : s.nodes[i]? = some node)
    (hx : update i v lo hi l r value s = .ok j s') :
    (l ≤ lo ∧ hi ≤ r) ∧ (∃ deltaSum, modify i v deltaSum value s = .ok j s') ∨
      ¬ (l ≤ lo ∧ hi ≤ r) ∧ lo < hi ∧ ∃ newLeft s₁ newRight s₂ deltaSum,
        (if l ≤ Segment.midpoint lo hi then
          update node.leftChild v lo (Segment.midpoint lo hi) l r value
          else pure node.leftChild) s = .ok newLeft s₁ ∧
        (if r > Segment.midpoint lo hi then
          update node.rightChild v (Segment.midpoint lo hi + 1) hi l r value
          else pure node.rightChild) s₁ = .ok newRight s₂ ∧
        (if newLeft = node.leftChild ∧ newRight = node.rightChild then modify i v deltaSum 0
          else do
            let latest ← snapshotAt node v
            let sum ← checkedAdd latest.sum deltaSum
            pushNode ⟨newLeft, newRight, sum, latest.lazy, 0, emptyBuffer⟩) s₂ = .ok j s' := by
  rw [update] at hx
  obtain ⟨length, -, hx⟩ := Effect.run_liftM_bind_eq_ok.mp hx
  by_cases hin : l ≤ lo ∧ hi ≤ r
  · rw [if_pos hin] at hx
    obtain ⟨k, -, hx⟩ := Effect.run_liftM_bind_eq_ok.mp hx
    obtain ⟨deltaSum, -, hx⟩ := Effect.run_liftM_bind_eq_ok.mp hx
    exact .inl ⟨hin, deltaSum, hx⟩
  rw [if_neg hin] at hx
  by_cases hlt : lo < hi
  swap
  · rw [if_neg hlt] at hx
    cases hx
  rw [if_pos hlt, Effect.run_bind_ok (Effect.run_get s), vectorAt_eq_ok.mpr hn,
    Effect.run_bind_ok (Effect.liftM_ok _ s)] at hx
  obtain ⟨newLeft, s₁, h1, hx⟩ := Effect.run_bind_eq_ok.mp hx
  obtain ⟨newRight, s₂, h2, hx⟩ := Effect.run_bind_eq_ok.mp hx
  obtain ⟨overlap, -, hx⟩ := Effect.run_liftM_bind_eq_ok.mp hx
  obtain ⟨length', -, hx⟩ := Effect.run_liftM_bind_eq_ok.mp hx
  obtain ⟨deltaSum, -, hx⟩ := Effect.run_liftM_bind_eq_ok.mp hx
  exact .inr ⟨hin, hlt, newLeft, s₁, newRight, s₂, deltaSum, h1, h2, hx⟩

/-- A modified node is copied when its buffer is full. -/
theorem modify_written (hn : s.nodes[i]? = some node) (hle : node.bufferSize ≤ 2)
    (hx : modify i v deltaSum deltaLazy s = .ok j s') :
    Written (node.bufferSize = 2) s.nodes s'.nodes i j node.leftChild node.rightChild := by
  unfold modify at hx
  rw [Effect.run_bind_ok (Effect.run_get s), vectorAt_eq_ok.mpr hn,
    Effect.run_bind_ok (Effect.liftM_ok _ s)] at hx
  obtain ⟨latest, -, hx⟩ := Effect.run_liftM_bind_eq_ok.mp hx
  obtain ⟨nextSum, -, hx⟩ := Effect.run_liftM_bind_eq_ok.mp hx
  obtain ⟨nextLazy, -, hx⟩ := Effect.run_liftM_bind_eq_ok.mp hx
  by_cases hlt : node.bufferSize < bufferCapacity
  · rw [dif_pos hlt, Effect.run_bind_ok (Effect.run_modifyThe _ s)] at hx
    cases hx
    exact ⟨node.pushEntry ⟨v, deltaSum, deltaLazy⟩ hlt, ⟨rfl, rfl⟩,
      .inl ⟨hlt.ne, rfl, rfl, node, hn, rfl⟩⟩
  · rw [dif_neg hlt, pushNode_run] at hx
    cases hx
    exact ⟨⟨node.leftChild, node.rightChild, nextSum, nextLazy, 0, emptyBuffer⟩, ⟨rfl, rfl⟩,
      .inr ⟨le_antisymm hle (not_lt.mp hlt), rfl, rfl, rfl⟩⟩

/-- The node of a segment that the range leaves out in part is copied when a child was, or its
buffer is full. -/
theorem root_written {newLeft newRight : ℕ} (hn : s.nodes[i]? = some node)
    (hle : node.bufferSize ≤ 2)
    (hx : (if newLeft = node.leftChild ∧ newRight = node.rightChild then modify i v deltaSum 0
      else do
        let latest ← snapshotAt node v
        let sum ← checkedAdd latest.sum deltaSum
        pushNode ⟨newLeft, newRight, sum, latest.lazy, 0, emptyBuffer⟩) s = .ok j s') :
    Written ((newRight ≠ node.rightChild ∨ newLeft ≠ node.leftChild) ∨ node.bufferSize = 2)
      s.nodes s'.nodes i j newLeft newRight := by
  by_cases hsame : newLeft = node.leftChild ∧ newRight = node.rightChild
  · rw [if_pos hsame] at hx
    obtain ⟨rfl, rfl⟩ := hsame
    simp only [ne_eq, not_true, or_self, false_or]
    exact modify_written hn hle hx
  · rw [if_neg hsame] at hx
    obtain ⟨latest, -, hx⟩ := Effect.run_liftM_bind_eq_ok.mp hx
    obtain ⟨sum, -, hx⟩ := Effect.run_liftM_bind_eq_ok.mp hx
    rw [pushNode_run] at hx
    cases hx
    exact ⟨⟨newLeft, newRight, sum, latest.lazy, 0, emptyBuffer⟩, ⟨rfl, rfl⟩,
      .inr ⟨.inl (or_comm.mp (not_and_or.mp hsame)), rfl, rfl, rfl⟩⟩

/-- A covered segment. -/
theorem cover_advances (hle : lo ≤ hi) (hS : ∀ a b, Segment.Canonical lo hi a b → (a, b) ∈ S)
    (hfill : ∀ c, fill c ≤ 2) (hp : Placed S fill place s.nodes) (hL : Links place s.nodes lo hi)
    (hx : modify (place (lo, hi)) v deltaSum deltaLazy s = .ok j s') :
    ∃ place', Advances S {(lo, hi)} lo hi fill place s.nodes place' s'.nodes ∧
      j = place' (lo, hi) := by
  have hself := hS lo hi (.self hle)
  obtain ⟨node, hn, hsize⟩ := hp.full _ hself
  have hw := modify_written hn (hsize ▸ hfill _) hx
  rw [hsize] at hw
  have hkept : ∀ c ∈ S, c ≠ (lo, hi) → s'.nodes[place c]? = s.nodes[place c]? :=
    fun c hc hne => hw.kept (hp.lt_length hc) fun heq => hne (hp.injective hc hself heq)
  refine ⟨Function.update place (lo, hi) j, ⟨?_, ?_, fun c hc => ?_, fun c hc hV => ?_, ?_⟩,
    by rw [Function.update_self]⟩
  · rw [raised_singleton]
    exact hp.write hself hw
  · exact hp.links_write hle hS hw fun hlt => ⟨hL lo hi node (.self hle) hlt hn,
      fun a b node₁ hc => hL a b node₁ (.left hlt hc), fun a b node₁ hc => hL a b node₁ (.right hlt hc)⟩
  · rw [copied_singleton]
    by_cases hne : c = (lo, hi)
    · rw [hne, Function.update_self, hw.copied (hp.lt_length hself)]
      split_ifs with h2
      · exact iff_of_true h2 (Finset.mem_singleton_self _)
      · exact iff_of_false h2 (Finset.notMem_empty _)
    · rw [Function.update_of_ne hne]
      refine iff_of_false (fun h => h rfl) ?_
      split_ifs
      · rwa [Finset.mem_singleton]
      · exact Finset.notMem_empty c
  · exact hkept c hc fun heq => hV (heq ▸ Finset.mem_singleton_self _)
  · rw [hw.length, copied_singleton]
    split_ifs <;> rfl

/-- A half that is descended into, or left alone. -/
theorem half_advances {p : Prop} [Decidable p] {x : EStateM Exception State ℕ}
    (hp : Placed S fill place s.nodes) (hL : Links place s.nodes lo hi)
    (h : p → ∀ {j s'}, x s = .ok j s' →
      ∃ place', Advances S V lo hi fill place s.nodes place' s'.nodes ∧ j = place' (lo, hi))
    (hx : (if p then x else pure (place (lo, hi))) s = .ok j s') :
    ∃ place', Advances S (if p then V else ∅) lo hi fill place s.nodes place' s'.nodes ∧
      j = place' (lo, hi) := by
  by_cases h0 : p
  · rw [if_pos h0] at hx ⊢
    exact h h0 hx
  · rw [if_neg h0] at hx ⊢
    cases hx
    refine ⟨place, ⟨?_, hL, fun c _ => ?_, fun _ _ _ => rfl, rfl⟩, rfl⟩
    · rw [raised_empty]
      exact hp
    · exact iff_of_false (fun h => h rfl) (Finset.notMem_empty c)

/-- The root of two halves is written: the nodes that the halves left are those that stood for
them before. -/
theorem Advances.root {A B : Finset (ℕ × ℕ)} {place₁ place₂ : ℕ × ℕ → ℕ} {nodes₁ nodes₂ : List Node}
    (hin : ¬ (l ≤ lo ∧ hi ≤ r)) (hlt : lo < hi)
    (hA : A = if l ≤ Segment.midpoint lo hi then Segment.visited lo (Segment.midpoint lo hi) l r
      else ∅)
    (hB : B = if r > Segment.midpoint lo hi then
      Segment.visited (Segment.midpoint lo hi + 1) hi l r else ∅)
    (hS : ∀ a b, Segment.Canonical lo hi a b → (a, b) ∈ S)
    (h₁ : Advances S A lo (Segment.midpoint lo hi) fill place nodes place₁ nodes₁)
    (h₂ : Advances S B (Segment.midpoint lo hi + 1) hi (raised fill A) place₁ nodes₁ place₂ nodes₂)
    (hw : Written ((lo, hi) ∈ copied fill (Segment.visited lo hi l r)) nodes₂ nodes'
      (place (lo, hi)) j (place₂ (lo, Segment.midpoint lo hi))
      (place₂ (Segment.midpoint lo hi + 1, hi))) :
    Advances S (Segment.visited lo hi l r) lo hi fill place nodes
      (Function.update place₂ (lo, hi) j) nodes' := by
  have hself := hS lo hi (.self hlt.le)
  obtain ⟨hrootA, hrootB⟩ := self_notMem_halves hlt hA hB
  have hroot : place₂ (lo, hi) = place (lo, hi) :=
    (h₂.apart hself hrootB).1.trans (h₁.apart hself hrootA).1
  rw [← hroot] at hw
  have happart := Finset.disjoint_left.mp (half_disjoint hlt hA hB)
  have hsplit := Segment.visited_split hin hlt
  rw [← hA, ← hB] at hsplit
  refine ⟨?_, ?_, fun c hc => ?_, fun c hc hV => ?_, ?_⟩
  · have hp := h₂.placed.write hself hw
    rwa [raised_of_notMem hrootB, raised_of_notMem hrootA, ← raised_split hin hlt hA hB] at hp
  · refine h₂.placed.links_write hlt.le hS hw fun _ => ⟨⟨rfl, rfl⟩, h₁.links.frame fun c hc => ?_,
      h₂.links⟩
    refine h₂.apart (hS c.1 c.2 (.left hlt hc)) fun hb => ?_
    have hb' := (Segment.canonical_of_mem_half (Segment.midpoint_lt hlt) (hB ▸ hb)).bounds
    have hc' := hc.bounds
    omega
  · by_cases hne : c = (lo, hi)
    · rw [hne, Function.update_self, ← hroot]
      exact hw.copied (h₂.placed.lt_length hself)
    have hnot : c ∉ if (lo, hi) ∈ copied fill (Segment.visited lo hi l r) then
        ({(lo, hi)} : Finset (ℕ × ℕ)) else ∅ := by
      split_ifs <;> simp [hne]
    rw [Function.update_of_ne hne, copied_split hin hlt hA hB, Finset.mem_union, Finset.mem_union,
      or_iff_left hnot]
    by_cases hb : c ∈ B
    · have ha : c ∉ A := fun ha => happart ha hb
      rw [← (h₁.apart hc ha).1, h₂.replaced c hc, copied_raised hlt hA hB,
        or_iff_right fun h => ha (mem_copied.mp h).1]
    · rw [(h₂.apart hc hb).1, h₁.replaced c hc, or_iff_left fun h => hb (mem_copied.mp h).1]
  · rw [hsplit, Finset.mem_insert, Finset.mem_union, not_or, not_or] at hV
    obtain ⟨hne, ha, hb⟩ := hV
    have hplace : place₂ c = place c := (h₂.apart hc hb).1.trans (h₁.apart hc ha).1
    have hkept := hw.kept (h₂.placed.lt_length hc) fun heq =>
      hne (h₂.placed.injective hc hself heq)
    rw [hplace] at hkept
    rw [hkept, ← (h₁.apart hc ha).1, (h₂.apart hc hb).2, (h₁.apart hc ha).1, (h₁.apart hc ha).2]
  · rw [hw.length, h₂.length, h₁.length, card_copied_split hin hlt hA hB, copied_raised hlt hA hB,
      Nat.add_assoc, Nat.add_assoc, Nat.add_assoc]

/-- **One update.** -/
theorem update_advances : ∀ lo hi, lo ≤ hi → l ≤ hi → lo ≤ r →
    (∀ a b, Segment.Canonical lo hi a b → (a, b) ∈ S) → ∀ {fill place s j s'}, (∀ c, fill c ≤ 2) →
    Placed S fill place s.nodes → Links place s.nodes lo hi →
    update (place (lo, hi)) v lo hi l r value s = .ok j s' → ∃ place',
      Advances S (Segment.visited lo hi l r) lo hi fill place s.nodes place' s'.nodes ∧
        j = place' (lo, hi) := by
  refine Segment.halving_induction (fun k h1 h2 hS fill place s j s' hfill hp hL hx => ?_)
    fun lo hi hlt ihl ihr h1 h2 hS fill place s j s' hfill hp hL hx => ?_
  · obtain ⟨node, hn, -⟩ := hp.full _ (hS k k (.self le_rfl))
    obtain ⟨hin, deltaSum, hx⟩ | ⟨-, hlt, -⟩ := update_eq_ok hn hx
    · rw [Segment.visited_of_inside hin]
      exact cover_advances le_rfl hS hfill hp hL hx
    · exact absurd hlt (lt_irrefl k)
  · have hm := Segment.le_midpoint lo hi
    have hm' := Segment.midpoint_lt hlt
    obtain ⟨node, hn, hsize⟩ := hp.full _ (hS lo hi (.self hlt.le))
    obtain ⟨hin, deltaSum, hx⟩ | ⟨hin, -, j₁, s₁, j₂, s₂, deltaSum, hx₁, hx₂, hx⟩ :=
      update_eq_ok hn hx
    · rw [Segment.visited_of_inside hin]
      exact cover_advances hlt.le hS hfill hp hL hx
    obtain ⟨hleft, hright⟩ := hL lo hi node (.self hlt.le) hlt hn
    rw [hleft] at hx₁
    rw [hright] at hx₂
    have hSl : ∀ a b, Segment.Canonical lo (Segment.midpoint lo hi) a b → (a, b) ∈ S :=
      fun a b hc => hS a b (.left hlt hc)
    have hSr : ∀ a b, Segment.Canonical (Segment.midpoint lo hi + 1) hi a b → (a, b) ∈ S :=
      fun a b hc => hS a b (.right hlt hc)
    have hLl : Links place s.nodes lo (Segment.midpoint lo hi) :=
      fun a b node hc => hL a b node (.left hlt hc)
    have hLr : Links place s.nodes (Segment.midpoint lo hi + 1) hi :=
      fun a b node hc => hL a b node (.right hlt hc)
    generalize hA : (if l ≤ Segment.midpoint lo hi then
      Segment.visited lo (Segment.midpoint lo hi) l r else ∅) = A
    generalize hB : (if r > Segment.midpoint lo hi then
      Segment.visited (Segment.midpoint lo hi + 1) hi l r else ∅) = B
    obtain ⟨place₁, hadv₁, rfl⟩ := half_advances hp hLl
      (fun hl => ihl hl h2 hSl hfill hp hLl) hx₁
    rw [hA] at hadv₁
    have hp₁ := hadv₁.placed
    have happart : ∀ c, Segment.Canonical (Segment.midpoint lo hi + 1) hi c.1 c.2 → c ∉ A := by
      intro c hc ha
      have hc' := hc.bounds
      have ha' := (Segment.canonical_of_mem_half hm (hA ▸ ha)).bounds
      omega
    have hkeep : ∀ c, Segment.Canonical (Segment.midpoint lo hi + 1) hi c.1 c.2 →
        place₁ c = place c ∧ s₁.nodes[place c]? = s.nodes[place c]? :=
      fun c hc => hadv₁.apart (hSr c.1 c.2 hc) (happart c hc)
    have hLr₁ : Links place₁ s₁.nodes (Segment.midpoint lo hi + 1) hi := hLr.frame hkeep
    have hr₁ := (hkeep (Segment.midpoint lo hi + 1, hi) (.self hm')).1
    rw [← hr₁] at hx₂
    obtain ⟨place₂, hadv₂, rfl⟩ := half_advances (p := r > Segment.midpoint lo hi) hp₁ hLr₁
      (fun hr => ihr h1 hr hSr (raised_le hfill) hp₁ hLr₁) hx₂
    rw [hB] at hadv₂
    refine ⟨Function.update place₂ (lo, hi) j,
      hadv₁.root hin hlt hA.symm hB.symm hS hadv₂ ?_, by rw [Function.update_self]⟩
    -- The node itself is as it was before the halves.
    have hself := hS lo hi (.self hlt.le)
    obtain ⟨hrootA, hrootB⟩ := self_notMem_halves hlt hA.symm hB.symm
    have hn₂ : s₂.nodes[place (lo, hi)]? = some node := by
      rw [← (hadv₁.apart hself hrootA).1, (hadv₂.apart hself hrootB).2,
        (hadv₁.apart hself hrootA).1, (hadv₁.apart hself hrootA).2, hn]
    have hleft₂ : place₂ (lo, Segment.midpoint lo hi) = place₁ (lo, Segment.midpoint lo hi) := by
      refine (hadv₂.apart (hSl _ _ (.self hm)) fun hb => ?_).1
      have hb' := (Segment.canonical_of_mem_half hm' (hB ▸ hb)).bounds
      omega
    have hcopyA := hadv₁.replaced (lo, Segment.midpoint lo hi) (hSl _ _ (.self hm))
    have hcopyB := hadv₂.replaced (Segment.midpoint lo hi + 1, hi) (hSr _ _ (.self hm'))
    rw [copied_raised hlt hA.symm hB.symm] at hcopyB
    rw [self_mem_copied_iff hin hlt h1 h2 hA.symm hB.symm, ← hcopyA, ← hcopyB, hleft₂, ← hsize, hr₁,
      ← hleft, ← hright]
    exact root_written hn₂ (hsize ▸ hfill _) hx

end Advances

/-! ## Whole runs -/

namespace CopyModel

/-- An update in closed form. -/
theorem update_eq (this : CopyModel) {n l r : ℕ} (hlr : l ≤ r) (hr : r < n) :
    this.update n l r = ⟨raised this.fill (Segment.visited 0 (n - 1) l r),
      (copied this.fill (Segment.visited 0 (n - 1) l r)).card⟩ := by
  unfold update
  rw [visit_eq 0 (n - 1) (Nat.zero_le _) (by omega) (Nat.zero_le r), Copies, Nat.zero_add]

end CopyModel

section Runs

variable {s s' : State} {h : History (List ValueType)} {l r x n : ℕ} {value : ValueType}
  {fill : ℕ × ℕ → ℕ} {nodes : List Node}

/-- A zero update leaves the model. -/
theorem copyModel_zero : copyModel (h.add ⟨l, r, 0⟩) = copyModel h := by
  unfold copyModel History.add
  rw [RangeAdds.add_updates, List.foldl_concat, if_pos rfl]

/-- Any other updates it. -/
theorem copyModel_add {amount : ℤ} (h0 : amount ≠ 0) :
    copyModel (h.add ⟨l, r, amount⟩) = (copyModel h).update h.size l r := by
  unfold copyModel History.add
  rw [RangeAdds.add_updates, List.foldl_concat, if_neg h0]

/-- The latest tree: its nodes stand for the segments from the latest root on. -/
structure Latest (s : State) (n : ℕ) (fill place : ℕ × ℕ → ℕ) : Prop where
  root : s.roots[s.roots.length - 1]? = some (place (0, n - 1))
  placed : Placed (Segment.canonicals 0 (n - 1)) fill place s.nodes
  links : Links place s.nodes 0 (n - 1)

/-- The latest tree is as full as the model of the history. -/
structure Standing (s : State) (h : History (List ValueType)) : Prop where
  size : s.arraySize = h.size
  levels : ∀ c, (copyModel h).fill c ≤ 2
  latest : 0 < h.size → ∃ place, Latest s h.size (copyModel h).fill place

/-- An addition that returns has published the latest root again, or the root of its update. -/
theorem rangeAdd_eq_ok (hx : rangeAdd l r value s = .ok x s') : (l ≤ r ∧ r < s.arraySize) ∧
    ∃ root, s.roots[s.roots.length - 1]? = some root ∧
      ((value = 0 ∧ s' = { s with roots := s.roots ++ [root] }) ∨
        (value ≠ 0 ∧ ∃ newRoot s₁ domain,
          update root s.roots.length 0 (s.arraySize - 1) l r value
            { s with bufferedThisUpdate := [] } = .ok newRoot s₁ ∧
          s' = { s₁ with roots := s₁.roots ++ [newRoot], numericDomain := domain })) := by
  unfold rangeAdd at hx
  rw [Effect.run_bind_ok (Effect.run_get s)] at hx
  obtain ⟨-, -, hx⟩ := Effect.run_liftM_bind_eq_ok.mp hx
  obtain ⟨-, -, hx⟩ := Effect.run_liftM_bind_eq_ok.mp hx
  obtain ⟨⟨⟩, hrange, hx⟩ := Effect.run_liftM_bind_eq_ok.mp hx
  obtain ⟨root, hroot, hx⟩ := Effect.run_liftM_bind_eq_ok.mp hx
  refine ⟨validateRange_eq_ok.mp hrange, root, vectorAt_eq_ok.mp hroot, ?_⟩
  by_cases h0 : value = 0
  · rw [if_pos h0, Effect.run_bind_ok (Effect.run_modifyThe _ s),
      Effect.run_bind_ok (Effect.run_get _)] at hx
    cases hx
    exact .inl ⟨h0, rfl⟩
  rw [if_neg h0] at hx
  obtain ⟨domain, -, hx⟩ := Effect.run_liftM_bind_eq_ok.mp hx
  rw [Effect.run_bind_ok (Effect.run_modifyThe _ s)] at hx
  rcases hu : update root s.roots.length 0 (s.arraySize - 1) l r value
    { s with bufferedThisUpdate := [] } with ⟨newRoot, s₁⟩ | ⟨e, s₁⟩
  · have hrun : publishUpdate root s.roots.length s.arraySize l r value
        { s with bufferedThisUpdate := [] } = .ok ⟨⟩ { s₁ with roots := s₁.roots ++ [newRoot] } := by
      unfold publishUpdate
      rw [Effect.run_bind_ok hu]
      rfl
    rw [Effect.run_bind_ok (Effect.onThrow_ok hrun),
      Effect.run_bind_ok (Effect.run_modifyThe _ _)] at hx
    cases hx
    exact .inr ⟨h0, newRoot, s₁, domain, rfl, rfl⟩
  · have hrun : publishUpdate root s.roots.length s.arraySize l r value
        { s with bufferedThisUpdate := [] } = .error e s₁ := Effect.run_bind_error hu
    rw [Effect.run_bind_error (Effect.onThrow_error hrun)] at hx
    cases hx

/-- The nodes of two halves, with the node over them. -/
def joined (lo hi root : ℕ) (left right : ℕ × ℕ → ℕ) (c : ℕ × ℕ) : ℕ :=
  if c = (lo, hi) then root else if c.2 ≤ Segment.midpoint lo hi then left c else right c

section Joined

variable {lo hi root : ℕ} {left right : ℕ × ℕ → ℕ} {c : ℕ × ℕ}

theorem joined_self : joined lo hi root left right (lo, hi) = root := if_pos rfl

theorem joined_left (hlt : lo < hi) (hc : Segment.Canonical lo (Segment.midpoint lo hi) c.1 c.2) :
    joined lo hi root left right c = left c := by
  have hb := hc.bounds
  have hm := Segment.midpoint_lt hlt
  unfold joined
  rw [if_neg (by rintro rfl; omega), if_pos hb.2.2]

theorem joined_right (hc : Segment.Canonical (Segment.midpoint lo hi + 1) hi c.1 c.2) :
    joined lo hi root left right c = right c := by
  have hb := hc.bounds
  have hm := Segment.le_midpoint lo hi
  unfold joined
  rw [if_neg (by rintro rfl; omega), if_neg (by omega)]

/-- The nodes are linked if those of the halves are, and the node over them has theirs as its
children. -/
theorem Links.joined {node : Node} (hlt : lo < hi) (hn : nodes[root]? = some node)
    (hroots : left (lo, Segment.midpoint lo hi) = node.leftChild ∧
      right (Segment.midpoint lo hi + 1, hi) = node.rightChild)
    (hl : Links left nodes lo (Segment.midpoint lo hi))
    (hr : Links right nodes (Segment.midpoint lo hi + 1) hi) :
    Links (joined lo hi root left right) nodes lo hi := by
  intro a b node' hc hab hn'
  cases hc with
  | self _ =>
    rw [joined_self, hn, Option.some.injEq] at hn'
    subst hn'
    rw [joined_left hlt (.self (Segment.le_midpoint lo hi)),
      joined_right (.self (Segment.midpoint_lt hlt))]
    exact ⟨hroots.1.symm, hroots.2.symm⟩
  | left _ hc =>
    obtain ⟨hc1, hc2⟩ := hc.halves hab
    rw [joined_left hlt hc] at hn'
    rw [joined_left hlt hc1, joined_left hlt hc2]
    exact hl a b node' hc hab hn'
  | right _ hc =>
    obtain ⟨hc1, hc2⟩ := hc.halves hab
    rw [joined_right hc] at hn'
    rw [joined_right hc1, joined_right hc2]
    exact hr a b node' hc hab hn'

end Joined

/-- A stored tree has a node for each segment. -/
theorem exists_place {types : List (ℕ × ℕ)} {t : SumTree} {i lo hi v : ℕ}
    (hst : ((readingAt v).on nodes).Stores (typed types) t i lo hi) :
    ∃ place, place (lo, hi) = i ∧ Links place nodes lo hi ∧ ∀ a b, Segment.Canonical lo hi a b →
      typed types (place (a, b)) a b ∧ ∃ node, nodes[place (a, b)]? = some node := by
  induction t generalizing i lo hi with
  | leaf s z =>
    obtain ⟨node, hn, -⟩ := NodeReading.exists_of_stores hst
    obtain ⟨rfl, ho, -⟩ := hst
    refine ⟨fun _ => i, rfl, fun a b _ hc hab => ?_, fun a b hc => ?_⟩
    · have := hc.bounds
      omega
    · obtain ⟨h1, h2, h3⟩ := hc.bounds
      obtain ⟨rfl, rfl⟩ : a = lo ∧ b = lo := by omega
      exact ⟨ho, node, hn⟩
  | node s z left right iha ihb =>
    obtain ⟨node, hn, -⟩ := NodeReading.exists_of_stores hst
    obtain ⟨hlt, ho, -, j, k, hjk, ha, hb⟩ := hst
    rw [NodeReading.children_of_getElem? hn] at hjk
    cases hjk
    obtain ⟨pa, hra, hla, hta⟩ := iha ha
    obtain ⟨pb, hrb, hlb, htb⟩ := ihb hb
    refine ⟨joined lo hi i pa pb, joined_self, .joined hlt hn ⟨hra, hrb⟩ hla hlb,
      fun a b hc => ?_⟩
    cases hc with
    | self _ =>
      rw [joined_self]
      exact ⟨ho, node, hn⟩
    | left _ hc =>
      rw [joined_left hlt hc]
      exact hta a b hc
    | right _ hc =>
      rw [joined_right hc]
      exact htb a b hc

/-- **Building.** All buffers are empty. -/
theorem Standing.initializeFrom {values : List ValueType} {u : Unit}
    (hx : initializeFrom values s = .ok u s') : Standing s' (engine.start values) := by
  unfold BufferedPathCopyingSegmentTree.initializeFrom at hx
  by_cases h0 : values = []
  · simp only [if_pos h0] at hx
    cases hx
    subst h0
    exact ⟨rfl, fun _ => Nat.zero_le 2, fun hn => absurd hn (lt_irrefl 0)⟩
  simp only [if_neg h0] at hx
  obtain ⟨-, root, nodes, hb, hx⟩ := run_reserved_build_eq_ok (List.length_pos_of_ne_nil h0) hx
  cases hx
  rcases buildArena_spec build_reads values 0 (values.length - 1) (Nat.zero_le _) [] [] rfl with
    ⟨t, i, more, segments, -, hb', built⟩ | ⟨e, nodes', -, hb'⟩ <;>
    rw [build, hb'] at hb <;> cases hb
  obtain ⟨place, hroot, hlinks, hplace⟩ := exists_place built.stores
  have hmem : ∀ c ∈ Segment.canonicals 0 (values.length - 1),
      Segment.Canonical 0 (values.length - 1) c.1 c.2 :=
    fun c hc => (Segment.mem_canonicals 0 _ (Nat.zero_le _)).mp hc
  refine ⟨rfl, fun _ => Nat.zero_le 2, fun _ => ⟨place, congrArg some hroot.symm,
    ⟨fun c hc d hd heq => ?_, fun c hc => ?_⟩, hlinks⟩⟩
  · have hd' := (hplace d.1 d.2 (hmem d hd)).1
    obtain ⟨h1, h2⟩ := typed_exclusive _ _ _ _ _ _ (hplace c.1 c.2 (hmem c hc)).1 (heq ▸ hd')
    exact Prod.ext h1 h2
  · obtain ⟨-, node, hn⟩ := hplace c.1 c.2 (hmem c hc)
    refine ⟨node, hn, ?_⟩
    rcases built.made node (List.mem_of_getElem? hn) with ⟨v, rfl⟩ | ⟨j, k, v, rfl⟩ <;> rfl

/-- A non-zero addition advances the latest tree as the model advances. -/
theorem Latest.rangeAdd {place : ℕ × ℕ → ℕ} (hL : Latest s n fill place) (hsize : s.arraySize = n)
    (hfill : ∀ c, fill c ≤ 2) (h0 : value ≠ 0)
    (hx : BufferedPathCopyingSegmentTree.rangeAdd l r value s = .ok x s') :
    s'.arraySize = n ∧ ∃ place', Latest s' n (raised fill (Segment.visited 0 (n - 1) l r)) place' ∧
      Advances (Segment.canonicals 0 (n - 1)) (Segment.visited 0 (n - 1) l r) 0 (n - 1) fill place
        s.nodes place' s'.nodes := by
  obtain ⟨⟨hlr, hr⟩, root, hroot, ⟨h0', -⟩ | ⟨-, newRoot, s₁, domain, hu, rfl⟩⟩ :=
    rangeAdd_eq_ok hx
  · exact absurd h0' h0
  have hpub := (update_undoable root s.roots.length 0 (s.arraySize - 1) l r value
    { s with bufferedThisUpdate := [] }).published
  rw [hu, Effect.finalState_ok] at hpub
  simp only [Prod.mk.injEq] at hpub
  rw [hL.root, Option.some.injEq] at hroot
  subst hroot
  subst hsize
  have hplaced : Placed (Segment.canonicals 0 (s.arraySize - 1)) fill place
      ({ s with bufferedThisUpdate := [] } : State).nodes := hL.placed
  obtain ⟨place', hadv, rfl⟩ := update_advances 0 _ (Nat.zero_le _)
    (show l ≤ s.arraySize - 1 by omega) (Nat.zero_le r)
    (fun a b hc => (Segment.mem_canonicals 0 _ (Nat.zero_le _)).mpr hc) hfill hplaced hL.links hu
  refine ⟨hpub.2.1, place', ⟨?_, hadv.placed, hadv.links⟩, hadv⟩
  rw [List.length_append, List.length_singleton, Nat.add_sub_cancel, List.getElem?_concat_length]

/-- **One addition.** -/
theorem Standing.rangeAdd (hs : Standing s h)
    (hx : BufferedPathCopyingSegmentTree.rangeAdd l r value s = .ok x s') :
    Standing s' (h.add ⟨l, r, value.toInt⟩) := by
  obtain ⟨⟨hlr, hr⟩, root, hroot, hcase⟩ := rangeAdd_eq_ok hx
  rw [hs.size] at hr
  have hn : 0 < h.size := Nat.zero_lt_of_lt hr
  obtain ⟨place, hlatest⟩ := hs.latest hn
  by_cases h0 : value = 0
  · rcases hcase with ⟨-, rfl⟩ | ⟨hne, -⟩
    swap
    · exact absurd h0 hne
    rw [hlatest.root, Option.some.injEq] at hroot
    subst hroot
    refine ⟨hs.size, ?_, fun _ => ⟨place, ?_, ?_, hlatest.links⟩⟩ <;>
      rw [h0, Int64.toInt_zero] <;> try rw [copyModel_zero]
    · exact hs.levels
    · rw [List.length_append, List.length_singleton, Nat.add_sub_cancel,
        List.getElem?_concat_length]
      rfl
    · exact hlatest.placed
  · have hne : value.toInt ≠ 0 := fun h => h0 (Int64.toInt_inj.mp (h.trans Int64.toInt_zero.symm))
    obtain ⟨hsize, place', hlatest', -⟩ := hlatest.rangeAdd hs.size hs.levels h0 hx
    refine ⟨hsize, ?_, fun _ => ⟨place', ?_⟩⟩ <;>
      rw [copyModel_add hne, CopyModel.update_eq _ hlr hr]
    · exact raised_le hs.levels
    · exact hlatest'

/-- A rejected addition leaves the tree as full as it was. -/
theorem Standing.restored (hs : Standing s h) (hr : Restored s s') : Standing s' h := by
  refine ⟨hr.arraySize.trans hs.size, hs.levels, fun hn => ?_⟩
  obtain ⟨place, hroot, hplaced, hlinks⟩ := hs.latest hn
  refine ⟨place, ?_, ⟨hplaced.injective, fun c hc => ?_⟩, fun a b node hc hab hn' => ?_⟩
  · rw [hr.roots, hroot]
  · obtain ⟨node, hn, hsize⟩ := hplaced.full c hc
    obtain ⟨node', hn', -, hsize', -⟩ := hr.nodes _ node hn
    exact ⟨node', hn', hsize'.trans hsize⟩
  · obtain ⟨old, hold, -⟩ := hplaced.full (a, b)
      ((Segment.mem_canonicals 0 _ (Nat.zero_le _)).mpr hc)
    obtain ⟨node', hn'', hbase, -⟩ := hr.nodes _ old hold
    rw [hn', Option.some.injEq] at hn''
    subst hn''
    simp only [Node.base, Prod.mk.injEq] at hbase
    rw [hbase.1, hbase.2.1]
    exact hlinks a b old hc hab hold

/-- **Runs.** -/
theorem standing_run (calls : List (Call (List ValueType))) :
    ∀ h ∈ (engine.run calls).2, Standing (engine.run calls).1 h := by
  have key : ∀ p : State × Option (History (List ValueType)),
      (simulation.Inv p ∧ ∀ h ∈ p.2, Standing p.1 h) → ∀ c,
        simulation.Inv (engine.step p c) ∧
          ∀ h ∈ (engine.step p c).2, Standing (engine.step p c).1 h := by
    rintro ⟨s, o⟩ ⟨hinv, hstanding⟩ c
    refine ⟨simulation.inv_step _ c hinv, ?_⟩
    cases c with
    | initializeFrom values =>
      rcases hi : engine.initializeFrom values s with ⟨u, s'⟩ | ⟨e, s'⟩
      · rw [Engine.step_initialize_ok hi]
        rintro h ⟨⟩
        exact .initializeFrom hi
      · rw [Engine.step_initialize_error hi, simulation.initialize_error hi]
        exact hstanding
    | rangeAdd l r value =>
      rcases hi : engine.rangeAdd l r value s with ⟨x, s'⟩ | ⟨e, s'⟩
      · rw [Engine.step_rangeAdd_ok hi]
        intro h hh
        obtain ⟨h', hh', rfl⟩ := Option.map_eq_some_iff.mp hh
        exact (hstanding h' hh').rangeAdd hi
      · rw [Engine.step_rangeAdd_error hi]
        intro h hh
        obtain rfl : o = some h := hh
        rcases hinv with ⟨hnone, -⟩ | ⟨h', m, hsome, -, hrel, hvalid⟩
        · cases hnone
        obtain rfl : h = h' := Option.some.inj hsome
        rcases rangeAdd_outcome hrel hvalid l r value with ⟨m', s'', -, hadd, -⟩ |
          ⟨e', s'', -, hadd, hback⟩ <;>
          rw [show engine.rangeAdd l r value s = _ from hadd] at hi <;> cases hi
        exact (hstanding h rfl).restored hback
  refine (Engine.runFrom_induction
    (P := fun p => simulation.Inv p ∧ ∀ h ∈ p.2, Standing p.1 h)
    (fun p c hp => key p hp c) calls _ ⟨.inl ⟨rfl, simulation.empty⟩, fun h hh => ?_⟩).2
  cases hh

/-- A non-zero update on `[l, r]`, against the model: the tree gets a node for each segment that the
model copies, and its levels stay those of the model. What is copied are the segments the update
enters with a full one below them. -/
structure GrowsLike (model : CopyModel) (n l r : ℕ) (s s' : State) (place : ℕ × ℕ → ℕ) : Prop where
  appended : nodeCount s' = nodeCount s + (model.update n l r).copies
  latest : ∃ place', Latest s' n (model.update n l r).fill place' ∧
    ∀ c ∈ Segment.canonicals 0 (n - 1),
      place' c ≠ place c ↔ c ∈ copied model.fill (Segment.visited 0 (n - 1) l r)
  entered : ∀ a b, (a, b) ∈ Segment.visited 0 (n - 1) l r ↔
    Segment.Canonical 0 (n - 1) a b ∧ Segment.Enters 0 (n - 1) l r a b
  copies : (model.update n l r).copies =
    (copied model.fill (Segment.visited 0 (n - 1) l r)).card
  levels : (model.update n l r).fill = raised model.fill (Segment.visited 0 (n - 1) l r)

/-- **The growth of the buffered tree.** It is that of the counter model. -/
theorem buffered_growth (hr : engine.Reachable s h) (hn : 0 < h.size) :
    (∀ c, (copyModel h).fill c ≤ 2) ∧ ∃ place, Latest s h.size (copyModel h).fill place ∧
      ∀ l r value x s', value ≠ 0 → rangeAdd l r value s = .ok x s' →
        GrowsLike (copyModel h) h.size l r s s' place := by
  obtain ⟨calls, hrun⟩ := hr
  have hs := standing_run calls
  rw [hrun] at hs
  obtain ⟨hsize, hlevels, hlatest⟩ := hs h rfl
  obtain ⟨place, hplace⟩ := hlatest hn
  refine ⟨hlevels, place, hplace, fun l r value x s' h0 hx => ?_⟩
  obtain ⟨⟨hlr, hr⟩, -⟩ := rangeAdd_eq_ok hx
  rw [hsize] at hr
  have hupdate := CopyModel.update_eq (copyModel h) hlr hr
  obtain ⟨-, place', hplace', hadv⟩ := hplace.rangeAdd hsize hlevels h0 hx
  refine ⟨?_, ⟨place', ?_, hadv.replaced⟩, ?_, ?_, ?_⟩
  · rw [hupdate]
    exact hadv.length
  · rw [hupdate]
    exact hplace'
  · exact Segment.mem_visited l r 0 (h.size - 1) (Nat.zero_le _) (by omega) (Nat.zero_le r)
  · rw [hupdate]
  · rw [hupdate]

/-- Three elements, and two entries in the buffers on the way to the first. -/
abbrev twoEntries : List (Call (List ValueType)) :=
  [.initializeFrom [1, 2, 3], .rangeAdd 0 0 5, .rangeAdd 0 0 7]

/-- The third update copies the way. -/
theorem buffered_growth_three : nodeCount (engine.run twoEntries).1 = 5 ∧
    nodeCount (Effect.finalState (rangeAdd 0 0 9 (engine.run twoEntries).1)) = 8 := by
  have hr : engine.Reachable (engine.run twoEntries).1
      (engine.historyOf [1, 2, 3] [⟨0, 0, 5⟩, ⟨0, 0, 7⟩]) :=
    Engine.reachable_run (by decide +kernel)
  have hcount : nodeCount (engine.run twoEntries).1 = 5 := by decide +kernel
  obtain ⟨-, place, -, hgrows⟩ := buffered_growth hr (by decide)
  refine ⟨hcount, ?_⟩
  rcases hx : rangeAdd 0 0 9 (engine.run twoEntries).1 with ⟨x, s'⟩ | ⟨e, s'⟩
  · rw [Effect.finalState_ok, (hgrows 0 0 9 x s' (by decide) hx).appended, hcount]
    decide +kernel
  · have hok : Effect.outcome (rangeAdd 0 0 9 (engine.run twoEntries).1) = .ok 3 := by
      decide +kernel
    rw [hx] at hok
    cases hok

end Runs

end BufferedPathCopyingSegmentTree

end Valseg
