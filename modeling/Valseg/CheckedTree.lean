import Valseg.SumAddDomain
import Valseg.Lib.RangeAdds

/-!
# Checked trees

The recursions of the segment trees, run on a tree of values instead of the nodes of an arena.
Every structure stores such a tree for each of its versions, and its recursions over nodes are
proved to compute what the operations here compute. This file says what they compute when they
return:

1. `query_exact`: a query returns the sum of the part of the array inside its range.
2. `materialize_exact`: a traversal returns the array.
3. `updateWith_represents`: an update makes a tree of the updated array, for every way to
   recompute the sum of a partially covered node that is exact (`RebuildExact`).
4. `updatePush_represents`: so does an update that pushes the tags on its way down.

In each of them a call that does not return ends with `std::overflow_error`.
-/

namespace Valseg

open Segment (length addOn partSum)

/-- A tree of 64-bit sums and tags. -/
abbrev SumTree := TagTree ValueType

namespace SumTree

/-! ## The operations -/

/-- A tree without tags over `values[lo..hi]`. -/
def build (values : List ValueType) (lo hi : ℕ) : Except Exception SumTree :=
  if lo = hi then do return .leaf (← vectorAt values lo) 0
  else if lo < hi then do
    let left ← build values lo (Segment.midpoint lo hi)
    let right ← build values (Segment.midpoint lo hi + 1) hi
    let sum ← checkedAdd left.sum right.sum
    return .node sum 0 left right
  else .error .undefined
termination_by hi - lo
decreasing_by all_goals (simp only [Segment.midpoint] at *; omega)

/-- The sum over the part of the segment inside `[l, r]`, below ancestors that owe `inherited`. -/
def query : SumTree → (lo hi l r : ℕ) → (inherited : ValueType) → Except Exception ValueType
  | .leaf s _, lo, hi, l, r, inherited =>
    if hi < l ∨ lo > r then .ok 0
    else if l ≤ lo ∧ hi ≤ r then SumAddPolicy.apply inherited s (length lo hi)
    else .error .undefined
  | .node s z left right, lo, hi, l, r, inherited =>
    if hi < l ∨ lo > r then .ok 0
    else if l ≤ lo ∧ hi ≤ r then SumAddPolicy.apply inherited s (length lo hi)
    else do
      let next ← checkedAdd inherited z
      let leftSum ← query left lo (Segment.midpoint lo hi) l r next
      let rightSum ← query right (Segment.midpoint lo hi + 1) hi l r next
      checkedAdd leftSum rightSum

/-- The leaves, appended to `values`. -/
def materialize : SumTree → (inherited : ValueType) → List ValueType →
    Except Exception (List ValueType)
  | .leaf s _, inherited, values => do return values ++ [← SumAddPolicy.apply inherited s 1]
  | .node _ z left right, inherited, values => do
    let next ← checkedAdd inherited z
    materialize right next (← materialize left next values)

/-- The root absorbs the delta of a fully covered segment. -/
def cover (t : SumTree) (lo hi : ℕ) (value : ValueType) : Except Exception SumTree := do
  let sum ← SumAddPolicy.apply value t.sum (length lo hi)
  let lazy ← checkedAdd t.tag value
  return t.setRoot sum lazy

/-- A way to recompute the sum of a node from its old sum and tag and its new children. -/
abbrev Rebuild := ValueType → ValueType → SumTree → SumTree → ℕ → ℕ → Except Exception ValueType

/-- An update that retains tags. -/
def updateWith (rebuild : Rebuild) (l r : ℕ) (value : ValueType) :
    SumTree → ℕ → ℕ → Except Exception SumTree
  | .leaf s z, lo, hi =>
    if l ≤ lo ∧ hi ≤ r then cover (.leaf s z) lo hi value else .error .undefined
  | .node s z left right, lo, hi =>
    if l ≤ lo ∧ hi ≤ r then cover (.node s z left right) lo hi value
    else do
      let newLeft ← (if l ≤ Segment.midpoint lo hi then
        updateWith rebuild l r value left lo (Segment.midpoint lo hi) else pure left)
      let newRight ← (if r > Segment.midpoint lo hi then
        updateWith rebuild l r value right (Segment.midpoint lo hi + 1) hi else pure right)
      let sum ← rebuild s z newLeft newRight lo hi
      return .node sum z newLeft newRight

/-- `sum = left.sum + right.sum + lazy * length`. -/
def rebuildFromChildren : Rebuild := fun _ z left right lo hi => do
  SumAddPolicy.apply z (← checkedAdd left.sum right.sum) (length lo hi)

/-- `sum + value * overlap`. -/
def rebuildByOverlap (l r : ℕ) (value : ValueType) : Rebuild := fun s _ _ _ lo hi =>
  SumAddPolicy.apply value s (length (max lo l) (min hi r))

/-- An update that pushes a tag before it descends past it. -/
def updatePush (l r : ℕ) (value : ValueType) (t : SumTree) (lo hi : ℕ) : Except Exception SumTree :=
  match t with
  | .leaf s z => if l ≤ lo ∧ hi ≤ r then cover (.leaf s z) lo hi value else .error .undefined
  | .node s z left right =>
    if l ≤ lo ∧ hi ≤ r then cover (.node s z left right) lo hi value
    else if lo < hi then do
      let pushedLeft ← (if z ≠ 0 then cover left lo (Segment.midpoint lo hi) z else pure left)
      let pushedRight ←
        (if z ≠ 0 then cover right (Segment.midpoint lo hi + 1) hi z else pure right)
      let newLeft ← (if l ≤ Segment.midpoint lo hi then
        updatePush l r value pushedLeft lo (Segment.midpoint lo hi) else pure pushedLeft)
      let newRight ← (if r > Segment.midpoint lo hi then
        updatePush l r value pushedRight (Segment.midpoint lo hi + 1) hi else pure pushedRight)
      let sum ← checkedAdd newLeft.sum newRight.sum
      return .node sum 0 newLeft newRight
    else .error .undefined
termination_by hi - lo
decreasing_by all_goals (simp only [Segment.midpoint] at *; omega)

/-- The root's sum after an update, with every check of the update and no change. -/
def validateUpdate (l r : ℕ) (value : ValueType) : SumTree → ℕ → ℕ → Except Exception ValueType
  | .leaf s z, lo, hi =>
    if l ≤ lo ∧ hi ≤ r then do
      let _ ← checkedAdd z value
      SumAddPolicy.apply value s (length lo hi)
    else .error .undefined
  | .node s z left right, lo, hi =>
    if l ≤ lo ∧ hi ≤ r then do
      let _ ← checkedAdd z value
      SumAddPolicy.apply value s (length lo hi)
    else do
      let leftSum ← (if l ≤ Segment.midpoint lo hi then
        validateUpdate l r value left lo (Segment.midpoint lo hi) else pure left.sum)
      let rightSum ← (if r > Segment.midpoint lo hi then
        validateUpdate l r value right (Segment.midpoint lo hi + 1) hi else pure right.sum)
      SumAddPolicy.apply z (← checkedAdd leftSum rightSum) (length lo hi)

/-! ## What they compute -/

theorem length_le {lo hi : ℕ} (h : hi < maxLength) : length lo hi ≤ maxLength := by
  unfold Segment.length; omega

section Specifications

variable {t t' : SumTree} {lo hi l r : ℕ} {A : ℕ → ℤ} {value inherited x : ValueType}

/-- The tree of an array has the array's sums, and an array outside the domain has none. -/
theorem build_spec (values : List ValueType) :
    ∀ lo hi, lo ≤ hi → hi < values.length →
      (∃ t, build values lo hi = .ok t ∧
          t.Represents Int64.toInt lo hi (leafArray values) ∧
          t.Tagged Int64.toInt (fun _ _ => 0) lo hi 0 ∧ t.HalfSums Int64.toInt Representable ∧
          t.tag = 0 ∧ CanonicalFit (leafArray values) lo hi) ∨
        (Overflows (build values lo hi) ∧ ¬ CanonicalFit (leafArray values) lo hi) := by
  refine Segment.halving_induction ?_ ?_
  · intro i hi
    left
    obtain ⟨x, hx⟩ : ∃ x, values[i]? = some x := ⟨_, List.getElem?_eq_getElem hi⟩
    have hs := leafArray_of_getElem? hx
    refine ⟨.leaf x 0, ?_, ⟨rfl, hs.symm⟩, ?_, trivial, rfl, ?_⟩
    · rw [build, if_pos rfl, vectorAt_eq_ok.mpr hx]
      rfl
    · show 0 + (0 : ValueType).toInt = 0
      rw [Int64.toInt_zero, add_zero]
    · unfold CanonicalFit
      rw [Segment.forall_canonical_single (P := fun a b => Representable (Segment.sum _ a b)),
        Segment.sum_single, hs]
      exact representable_toInt x
  · intro lo hi hlt ihl ihr hlen
    have h2 := Segment.midpoint_lt hlt
    rw [build, if_neg hlt.ne, if_pos hlt, canonicalFit_split hlt]
    rcases ihl (by omega) with ⟨a, ha, har, hat, hah, -, haf⟩ | ⟨⟨w, hw⟩, hf⟩
    · rcases ihr hlen with ⟨b, hb, hbr, hbt, hbh, -, hbf⟩ | ⟨⟨w, hw⟩, hf⟩
      · simp only [ha, hb, Effect.ok_bind]
        by_cases hr : Representable (a.sum.toInt + b.sum.toInt)
        · obtain ⟨c, hc, hcs⟩ := checkedAdd_of_representable hr
          have hz : (0 : ValueType).toInt = 0 := Int64.toInt_zero
          have hrep : (TagTree.node c 0 a b).Represents Int64.toInt lo hi (leafArray values) := by
            refine TagTree.Represents.node hlt (har.congr fun i _ _ => ?_)
              (hbr.congr fun i _ _ => ?_) ?_
            · rw [hz, sub_zero]
            · rw [hz, sub_zero]
            · rw [hcs, hz, zero_mul, add_zero]
          refine .inl ⟨.node c 0 a b, by rw [hc]; rfl, hrep, ⟨?_, ?_, ?_⟩, ⟨hr, hah, hbh⟩, rfl, ?_⟩
          · rw [hz, add_zero]
          · rw [hz, add_zero]; exact hat
          · rw [hz, add_zero]; exact hbt
          · refine ⟨?_, haf, hbf⟩
            rw [← hrep.sum_eq]
            exact representable_toInt _
        · refine .inr ⟨⟨_, by rw [checkedAdd_overflows hr]; rfl⟩, fun h => hr ?_⟩
          rw [har.sum_eq, hbr.sum_eq, ← Segment.sum_split hlt]
          exact h.1
      · simp only [ha, hw, Effect.ok_bind, Effect.error_bind]
        exact .inr ⟨⟨w, rfl⟩, fun h => hf h.2.2⟩
    · simp only [hw, Effect.error_bind]
      exact .inr ⟨⟨w, rfl⟩, fun h => hf h.2.1⟩

/-- **Queries are exact.** -/
theorem query_exact (hhi : hi < maxLength) (h : t.Represents Int64.toInt lo hi A)
    (hq : query t lo hi l r inherited = .ok x) :
    x.toInt = partSum (fun i => A i + inherited.toInt) lo hi l r := by
  have full : ∀ {s : ValueType} {lo hi : ℕ} {A : ℕ → ℤ} {x inherited : ValueType},
      hi < maxLength → lo ≤ hi → s.toInt = Segment.sum A lo hi → l ≤ lo ∧ hi ≤ r →
      SumAddPolicy.apply inherited s (length lo hi) = .ok x →
      x.toInt = partSum (fun i => A i + inherited.toInt) lo hi l r := by
    intro s lo hi A x inherited hhi hle hs hin hx
    rw [((SumAddPolicy.apply_eq_ok (length_le hhi)).mp hx).2, hs,
      Segment.partSum_of_inside hin.1 hin.2, Segment.sum_add_const hle]
  induction t generalizing lo hi A inherited x with
  | leaf s z =>
    obtain ⟨hle, hs⟩ := h
    unfold query at hq
    split_ifs at hq with h1 h2
    · rw [Segment.partSum_of_apart (by omega)]
      cases hq
      rfl
    · subst hle
      exact full hhi le_rfl (by rw [Segment.sum_single]; exact hs) h2 hq
  | node s z left right ihl ihr =>
    obtain ⟨hlt, hs, hl, hr⟩ := h
    unfold query at hq
    split_ifs at hq with h1 h2
    · rw [Segment.partSum_of_apart (by omega)]
      cases hq
      rfl
    · exact full hhi hlt.le hs h2 hq
    · obtain ⟨next, hn, hq⟩ := Effect.bind_eq_ok.mp hq
      obtain ⟨a, ha, hq⟩ := Effect.bind_eq_ok.mp hq
      obtain ⟨b, hb, hq⟩ := Effect.bind_eq_ok.mp hq
      have hm := Segment.midpoint_lt hlt
      rw [checkedAdd_eq_ok] at hn hq
      have hA : ∀ i, A i - z.toInt + next.toInt = A i + inherited.toInt := fun i => by
        rw [hn]; ring
      rw [hq, ihl (by omega) hl ha, ihr hhi hr hb, Segment.partSum_split hlt]
      simp only [hA]

/-- A query that does not return overflows. -/
theorem query_error {e : Exception} (hhi : hi < maxLength) (h : t.Spans lo hi)
    (hq : query t lo hi l r inherited = .error e) : ∃ w, e = .overflowError w := by
  induction t generalizing lo hi inherited e with
  | leaf s z =>
    have hle : lo = hi := h
    unfold query at hq
    split_ifs at hq with h1 h2
    · exact (SumAddPolicy.apply_error (length_le hhi) hq).1
    · omega
  | node s z left right ihl ihr =>
    obtain ⟨hlt, hl, hr⟩ := h
    have hm := Segment.midpoint_lt hlt
    unfold query at hq
    split_ifs at hq with h1 h2
    · exact (SumAddPolicy.apply_error (length_le hhi) hq).1
    · rcases Effect.bind_eq_error.mp hq with hq | ⟨next, -, hq⟩
      · exact ⟨_, (checkedAdd_error hq).1⟩
      rcases Effect.bind_eq_error.mp hq with hq | ⟨a, -, hq⟩
      · exact ihl (by omega) hl hq
      rcases Effect.bind_eq_error.mp hq with hq | ⟨b, -, hq⟩
      · exact ihr hhi hr hq
      · exact ⟨_, (checkedAdd_error hq).1⟩

theorem leafArray_append (xs ys : List ValueType) (i : ℕ) : leafArray (xs ++ ys) i =
    if i < xs.length then leafArray xs i else leafArray ys (i - xs.length) := by
  unfold leafArray
  rw [List.getD_eq_getElem?_getD, List.getElem?_append]
  split_ifs <;> rw [List.getD_eq_getElem?_getD]

/-- **Traversals are exact.** The leaves appended are the array of the segment. -/
theorem materialize_exact {values leaves : List ValueType} (h : t.Represents Int64.toInt lo hi A)
    (hm : materialize t inherited values = .ok leaves) :
    ∃ xs, leaves = values ++ xs ∧
      Holds xs (length lo hi) (fun i => A (lo + i) + inherited.toInt) := by
  induction t generalizing lo hi A inherited values leaves with
  | leaf s z =>
    obtain ⟨rfl, hs⟩ := h
    obtain ⟨x, hx, hm⟩ := Effect.bind_eq_ok.mp hm
    cases hm
    have hlen : length lo lo = 1 := by unfold Segment.length; omega
    refine ⟨[x], rfl, by rw [hlen]; rfl, fun i hi => ?_⟩
    obtain rfl : i = 0 := by omega
    rw [leafArray_of_getElem? (x := x) rfl,
      ((SumAddPolicy.apply_eq_ok (by unfold maxLength; omega)).mp hx).2, hs]
    simp
  | node s z left right ihl ihr =>
    obtain ⟨hlt, -, hl, hr⟩ := h
    obtain ⟨next, hn, hm⟩ := Effect.bind_eq_ok.mp hm
    obtain ⟨mid, hml, hm⟩ := Effect.bind_eq_ok.mp hm
    rw [checkedAdd_eq_ok] at hn
    obtain ⟨xs, rfl, hxl, hxs⟩ := ihl hl hml
    obtain ⟨ys, rfl, hyl, hys⟩ := ihr hr hm
    have h1 := Segment.le_midpoint lo hi
    have h2 := Segment.midpoint_lt hlt
    have hlen : length lo hi =
        length lo (Segment.midpoint lo hi) + length (Segment.midpoint lo hi + 1) hi := by
      unfold Segment.length; omega
    refine ⟨xs ++ ys, List.append_assoc .., by rw [List.length_append, hxl, hyl, hlen],
      fun i hilt => ?_⟩
    rw [leafArray_append, hxl]
    by_cases hleft : i < length lo (Segment.midpoint lo hi)
    · rw [if_pos hleft, hxs i hleft, hn]
      ring
    · rw [if_neg hleft, hys _ (by omega), hn]
      have : Segment.midpoint lo hi + 1 + (i - length lo (Segment.midpoint lo hi)) = lo + i := by
        unfold Segment.length at *; omega
      simp only [this]
      ring

/-- A traversal from the root returns the array. -/
theorem materialize_holds {n : ℕ} {leaves : List ValueType} (hn : 0 < n)
    (h : t.Represents Int64.toInt 0 (n - 1) A) (hm : materialize t 0 [] = .ok leaves) :
    Holds leaves n A := by
  obtain ⟨xs, rfl, hlen, hxs⟩ := materialize_exact h hm
  have hl : length 0 (n - 1) = n := by unfold Segment.length; omega
  rw [hl] at hlen hxs
  refine ⟨hlen, fun i hi => ?_⟩
  have : leafArray leaves i = A (0 + i) + (0 : ValueType).toInt := hxs i hi
  rwa [Nat.zero_add, Int64.toInt_zero, add_zero] at this

/-! ## Updates -/

theorem cover_eq_ok (hhi : hi < maxLength) : cover t lo hi value = .ok t' ↔
    ∃ s z, t' = t.setRoot s z ∧ Representable (value.toInt * length lo hi) ∧
      s.toInt = t.sum.toInt + value.toInt * length lo hi ∧
      z.toInt = t.tag.toInt + value.toInt := by
  unfold cover
  constructor
  · intro h
    obtain ⟨s, hs, h⟩ := Effect.bind_eq_ok.mp h
    obtain ⟨z, hz, h⟩ := Effect.bind_eq_ok.mp h
    cases h
    rw [SumAddPolicy.apply_eq_ok (length_le hhi)] at hs
    exact ⟨s, z, rfl, hs.1, hs.2, checkedAdd_eq_ok.mp hz⟩
  · rintro ⟨s, z, rfl, hr, hs, hz⟩
    rw [(SumAddPolicy.apply_eq_ok (length_le hhi)).mpr ⟨hr, hs⟩, checkedAdd_eq_ok.mpr hz]
    rfl

theorem cover_error {e : Exception} (hhi : hi < maxLength)
    (h : cover t lo hi value = .error e) : ∃ w, e = .overflowError w := by
  rcases Effect.bind_eq_error.mp h with h | ⟨s, -, h⟩
  · exact (SumAddPolicy.apply_error (length_le hhi) h).1
  rcases Effect.bind_eq_error.mp h with h | ⟨z, -, h⟩
  · exact ⟨_, (checkedAdd_error h).1⟩
  · cases h

/-- A fully covered tree stands for the updated array. -/
theorem cover_represents (hhi : hi < maxLength) (h : t.Represents Int64.toInt lo hi A)
    (hin : l ≤ lo ∧ hi ≤ r) (hc : cover t lo hi value = .ok t') :
    t'.Represents Int64.toInt lo hi (addOn A l r value.toInt) := by
  obtain ⟨s, z, rfl, -, hs, hz⟩ := (cover_eq_ok hhi).mp hc
  exact (h.cover hs hz).congr fun i h1 h2 => (Segment.addOn_of_inside hin h1 h2).symm

theorem cover_tagged {cov : ℕ → ℕ → ℤ} {T : ℤ} (hhi : hi < maxLength) (hsp : t.Spans lo hi)
    (h : t.Tagged Int64.toInt cov lo hi T) (hin : l ≤ lo ∧ hi ≤ r)
    (hc : cover t lo hi value = .ok t') :
    t'.Tagged Int64.toInt (TagTree.coverOn cov l r value.toInt) lo hi T := by
  obtain ⟨s, z, rfl, -, -, hz⟩ := (cover_eq_ok hhi).mp hc
  refine (h.cover hz).congr hsp.setRoot fun a b h1 h2 h3 => ?_
  exact (if_pos ⟨by omega, by omega⟩).symm

theorem cover_halfSums (hhi : hi < maxLength) (h : t.HalfSums Int64.toInt Representable)
    (hc : cover t lo hi value = .ok t') : t'.HalfSums Int64.toInt Representable := by
  obtain ⟨s, z, rfl, -, -, -⟩ := (cover_eq_ok hhi).mp hc
  exact h.setRoot s z

/-- The update of one half, or the half left alone. -/
theorem half_eq_ok {p : Prop} [Decidable p] {x : Except Exception SumTree} {a a' : SumTree} :
    (if p then x else pure a) = .ok a' ↔ (p ∧ x = .ok a') ∨ (¬ p ∧ a = a') := by
  by_cases hp : p
  · rw [if_pos hp]; simp [hp]
  · rw [if_neg hp]; simp [hp, pure, Except.pure]

theorem half_eq_error {p : Prop} [Decidable p] {x : Except Exception SumTree} {a : SumTree}
    {e : Exception} : (if p then x else pure a) = .error e ↔ p ∧ x = .error e := by
  by_cases hp : p
  · rw [if_pos hp]; simp [hp]
  · rw [if_neg hp]; simp [hp, pure, Except.pure]

variable {rebuild : Rebuild}

/-- What the update of a partially covered node returns. -/
theorem updateWith_node_eq_ok {s z : ValueType} {a b : SumTree} (hin : ¬ (l ≤ lo ∧ hi ≤ r)) :
    updateWith rebuild l r value (.node s z a b) lo hi = .ok t' ↔
      ∃ a' b' s', ((l ≤ Segment.midpoint lo hi ∧
            updateWith rebuild l r value a lo (Segment.midpoint lo hi) = .ok a') ∨
          (¬ l ≤ Segment.midpoint lo hi ∧ a = a')) ∧
        ((r > Segment.midpoint lo hi ∧
            updateWith rebuild l r value b (Segment.midpoint lo hi + 1) hi = .ok b') ∨
          (¬ r > Segment.midpoint lo hi ∧ b = b')) ∧
        rebuild s z a' b' lo hi = .ok s' ∧ t' = .node s' z a' b' := by
  rw [updateWith, if_neg hin]
  constructor
  · intro h
    obtain ⟨a', ha, h⟩ := Effect.bind_eq_ok.mp h
    obtain ⟨b', hb, h⟩ := Effect.bind_eq_ok.mp h
    obtain ⟨s', hs, h⟩ := Effect.bind_eq_ok.mp h
    cases h
    exact ⟨a', b', s', half_eq_ok.mp ha, half_eq_ok.mp hb, hs, rfl⟩
  · rintro ⟨a', b', s', ha, hb, hs, rfl⟩
    rw [half_eq_ok.mpr ha, Effect.ok_bind, half_eq_ok.mpr hb, Effect.ok_bind, hs]
    rfl

/-- The new sum of a partially covered node is the sum of the updated array. -/
def RebuildExact (rebuild : Rebuild) (l r : ℕ) (value : ValueType) : Prop :=
  ∀ {s z : ValueType} {a b : SumTree} {lo hi : ℕ} {A : ℕ → ℤ} {s' : ValueType},
    lo < hi → hi < maxLength → l ≤ hi → lo ≤ r → s.toInt = Segment.sum A lo hi →
    a.Represents Int64.toInt lo (Segment.midpoint lo hi)
      (fun i => addOn A l r value.toInt i - z.toInt) →
    b.Represents Int64.toInt (Segment.midpoint lo hi + 1) hi
      (fun i => addOn A l r value.toInt i - z.toInt) →
    rebuild s z a b lo hi = .ok s' →
    s'.toInt = Segment.sum (addOn A l r value.toInt) lo hi

theorem rebuildFromChildren_exact : RebuildExact rebuildFromChildren l r value := by
  intro s z a b lo hi A s' hlt hhi _ _ _ ha hb h
  obtain ⟨c, hc, h⟩ := Effect.bind_eq_ok.mp h
  rw [checkedAdd_eq_ok] at hc
  rw [((SumAddPolicy.apply_eq_ok (length_le hhi)).mp h).2, hc]
  have := TagTree.Represents.node (s := s') hlt ha hb
    (by rw [((SumAddPolicy.apply_eq_ok (length_le hhi)).mp h).2, hc])
  rw [← this.sum_eq, TagTree.sum_node, ((SumAddPolicy.apply_eq_ok (length_le hhi)).mp h).2, hc]

theorem rebuildByOverlap_exact (hlr : l ≤ r) :
    RebuildExact (rebuildByOverlap l r value) l r value := by
  intro s z a b lo hi A s' hlt hhi h1 h2 hs _ _ h
  have hlen : length (max lo l) (min hi r) ≤ maxLength := by
    unfold Segment.length maxLength at *; omega
  rw [((SumAddPolicy.apply_eq_ok hlen).mp h).2, hs, Segment.sum_addOn,
    Segment.partSum_const (by omega)]

/-- **Updates are exact.** The updated tree stands for the updated array. -/
theorem updateWith_represents (hr : RebuildExact rebuild l r value) (hhi : hi < maxLength)
    (h1 : l ≤ hi) (h2 : lo ≤ r) (h : t.Represents Int64.toInt lo hi A)
    (hu : updateWith rebuild l r value t lo hi = .ok t') :
    t'.Represents Int64.toInt lo hi (addOn A l r value.toInt) := by
  induction t generalizing lo hi A t' with
  | leaf s z =>
    unfold updateWith at hu
    split_ifs at hu with hin
    exact cover_represents hhi h hin hu
  | node s z a b iha ihb =>
    by_cases hin : l ≤ lo ∧ hi ≤ r
    · rw [updateWith, if_pos hin] at hu
      exact cover_represents hhi h hin hu
    · obtain ⟨a', b', s', ha', hb', hs', rfl⟩ := (updateWith_node_eq_ok hin).mp hu
      obtain ⟨hlt, hs, ha, hb⟩ := h
      have hm := Segment.midpoint_lt hlt
      have hA : ∀ i, addOn (fun i => A i - z.toInt) l r value.toInt i =
          addOn A l r value.toInt i - z.toInt := Segment.addOn_sub_const _
      have key1 : a'.Represents Int64.toInt lo (Segment.midpoint lo hi)
          (fun i => addOn A l r value.toInt i - z.toInt) := by
        rcases ha' with ⟨hl, ha'⟩ | ⟨hl, rfl⟩
        · exact (iha (by omega) hl h2 ha ha').congr fun i _ _ => hA i
        · refine ha.congr fun i h3 h4 => ?_
          rw [Segment.addOn_of_apart (.inl (by omega)) h3 h4]
      have key2 : b'.Represents Int64.toInt (Segment.midpoint lo hi + 1) hi
          (fun i => addOn A l r value.toInt i - z.toInt) := by
        rcases hb' with ⟨hl, hb'⟩ | ⟨hl, rfl⟩
        · exact (ihb hhi h1 hl hb hb').congr fun i _ _ => hA i
        · refine hb.congr fun i h3 h4 => ?_
          rw [Segment.addOn_of_apart (.inr (by omega)) h3 h4]
      exact ⟨hlt, hr hlt hhi h1 h2 hs key1 key2 hs', key1, key2⟩

/-- The tags of an updated tree count the update where it covers a whole segment. -/
theorem updateWith_tagged {cov : ℕ → ℕ → ℤ} {T : ℤ} (hhi : hi < maxLength)
    (hsp : t.Spans lo hi) (h : t.Tagged Int64.toInt cov lo hi T)
    (hu : updateWith rebuild l r value t lo hi = .ok t') :
    t'.Tagged Int64.toInt (TagTree.coverOn cov l r value.toInt) lo hi T := by
  induction t generalizing lo hi T t' with
  | leaf s z =>
    unfold updateWith at hu
    split_ifs at hu with hin
    exact cover_tagged hhi hsp h hin hu
  | node s z a b iha ihb =>
    by_cases hin : l ≤ lo ∧ hi ≤ r
    · rw [updateWith, if_pos hin] at hu
      exact cover_tagged hhi hsp h hin hu
    · obtain ⟨a', b', s', ha', hb', -, rfl⟩ := (updateWith_node_eq_ok hin).mp hu
      obtain ⟨h0, ha, hb⟩ := h
      obtain ⟨hlt, hsa, hsb⟩ := hsp
      have hm := Segment.midpoint_lt hlt
      refine ⟨h0.trans (if_neg hin).symm, ?_, ?_⟩
      · rcases ha' with ⟨-, ha'⟩ | ⟨hl, rfl⟩
        · exact iha (by omega) hsa ha ha'
        · exact ha.congr hsa fun c d h1 h2 h3 => (if_neg (by omega)).symm
      · rcases hb' with ⟨-, hb'⟩ | ⟨hl, rfl⟩
        · exact ihb hhi hsb hb hb'
        · exact hb.congr hsb fun c d h1 h2 h3 => (if_neg (by omega)).symm

/-- The checks made on the way keep the stored sums of the halves representable. -/
theorem updateWith_halfSums
    (hr : ∀ {s z : ValueType} {a b : SumTree} {lo hi : ℕ} {s' : ValueType},
      rebuild s z a b lo hi = .ok s' → Representable (a.sum.toInt + b.sum.toInt))
    (hhi : hi < maxLength) (hsp : t.Spans lo hi) (h : t.HalfSums Int64.toInt Representable)
    (hu : updateWith rebuild l r value t lo hi = .ok t') :
    t'.HalfSums Int64.toInt Representable := by
  induction t generalizing lo hi t' with
  | leaf s z =>
    unfold updateWith at hu
    split_ifs at hu with hin
    exact cover_halfSums hhi h hu
  | node s z a b iha ihb =>
    by_cases hin : l ≤ lo ∧ hi ≤ r
    · rw [updateWith, if_pos hin] at hu
      exact cover_halfSums hhi h hu
    · obtain ⟨a', b', s', ha', hb', hs', rfl⟩ := (updateWith_node_eq_ok hin).mp hu
      obtain ⟨-, ha, hb⟩ := h
      obtain ⟨hlt, hsa, hsb⟩ := hsp
      have hm := Segment.midpoint_lt hlt
      refine ⟨hr hs', ?_, ?_⟩
      · rcases ha' with ⟨-, ha'⟩ | ⟨-, rfl⟩
        · exact iha (by omega) hsa ha ha'
        · exact ha
      · rcases hb' with ⟨-, hb'⟩ | ⟨-, rfl⟩
        · exact ihb hhi hsb hb hb'
        · exact hb

/-- An update that does not return overflows. -/
theorem updateWith_error {e : Exception}
    (hr : ∀ {s z : ValueType} {a b : SumTree} {lo hi : ℕ} {e : Exception}, hi < maxLength →
      rebuild s z a b lo hi = .error e → ∃ w, e = .overflowError w)
    (hhi : hi < maxLength) (h1 : l ≤ hi) (h2 : lo ≤ r) (hsp : t.Spans lo hi)
    (hu : updateWith rebuild l r value t lo hi = .error e) : ∃ w, e = .overflowError w := by
  induction t generalizing lo hi e with
  | leaf s z =>
    have hle : lo = hi := hsp
    rw [updateWith, if_pos (by omega)] at hu
    exact cover_error hhi hu
  | node s z a b iha ihb =>
    obtain ⟨hlt, hsa, hsb⟩ := hsp
    have hm := Segment.midpoint_lt hlt
    by_cases hin : l ≤ lo ∧ hi ≤ r
    · rw [updateWith, if_pos hin] at hu
      exact cover_error hhi hu
    · rw [updateWith, if_neg hin] at hu
      rcases Effect.bind_eq_error.mp hu with hu | ⟨a', -, hu⟩
      · obtain ⟨hl, hu⟩ := half_eq_error.mp hu
        exact iha (by omega) hl h2 hsa hu
      rcases Effect.bind_eq_error.mp hu with hu | ⟨b', -, hu⟩
      · obtain ⟨hl, hu⟩ := half_eq_error.mp hu
        exact ihb hhi h1 hl hsb hu
      rcases Effect.bind_eq_error.mp hu with hu | ⟨s', -, hu⟩
      · exact hr hhi hu
      · cases hu

theorem rebuildFromChildren_halves {s z s' : ValueType} {a b : SumTree}
    (h : rebuildFromChildren s z a b lo hi = .ok s') :
    Representable (a.sum.toInt + b.sum.toInt) := by
  obtain ⟨c, hc, -⟩ := Effect.bind_eq_ok.mp h
  rw [← checkedAdd_eq_ok.mp hc]
  exact representable_toInt c

theorem rebuildFromChildren_error {s z : ValueType} {a b : SumTree} {e : Exception}
    (hhi : hi < maxLength) (h : rebuildFromChildren s z a b lo hi = .error e) :
    ∃ w, e = .overflowError w := by
  rcases Effect.bind_eq_error.mp h with h | ⟨c, -, h⟩
  · exact ⟨_, (checkedAdd_error h).1⟩
  · exact (SumAddPolicy.apply_error (length_le hhi) h).1

theorem rebuildByOverlap_error {s z : ValueType} {a b : SumTree} {e : Exception}
    (hhi : hi < maxLength) (h : rebuildByOverlap l r value s z a b lo hi = .error e) :
    ∃ w, e = .overflowError w :=
  (SumAddPolicy.apply_error (by unfold Segment.length; omega) h).1

/-! ## Pushing updates -/

/-- A child the tag is pushed into, when there is one to push. -/
theorem pushed_represents {z : ValueType} {a a' : SumTree} (hhi : hi < maxLength)
    (ha : a.Represents Int64.toInt lo hi (fun i => A i - z.toInt))
    (h : (if z ≠ 0 then cover a lo hi z else pure a) = .ok a') :
    a'.Represents Int64.toInt lo hi A := by
  rcases half_eq_ok.mp h with ⟨-, h⟩ | ⟨hz, rfl⟩
  · refine (cover_represents (l := lo) (r := hi) hhi ha ⟨le_rfl, le_rfl⟩ h).congr fun i h1 h2 => ?_
    rw [Segment.addOn_of_inside ⟨le_rfl, le_rfl⟩ h1 h2]
    ring
  · refine ha.congr fun i _ _ => ?_
    rw [not_not.mp hz, Int64.toInt_zero, sub_zero]

theorem pushed_halfSums {z : ValueType} {a a' : SumTree} (hhi : hi < maxLength)
    (ha : a.HalfSums Int64.toInt Representable)
    (h : (if z ≠ 0 then cover a lo hi z else pure a) = .ok a') :
    a'.HalfSums Int64.toInt Representable := by
  rcases half_eq_ok.mp h with ⟨-, h⟩ | ⟨-, rfl⟩
  · exact cover_halfSums hhi ha h
  · exact ha

/-- **Pushing updates are exact**, and they keep the sums of the halves representable. -/
theorem updatePush_represents (value : ValueType) : ∀ lo hi, lo ≤ hi →
    ∀ {t t' : SumTree} {A : ℕ → ℤ}, hi < maxLength → l ≤ hi → lo ≤ r →
      t.Represents Int64.toInt lo hi A → t.HalfSums Int64.toInt Representable →
      updatePush l r value t lo hi = .ok t' →
      t'.Represents Int64.toInt lo hi (addOn A l r value.toInt) ∧
        t'.HalfSums Int64.toInt Representable := by
  refine Segment.halving_induction ?_ ?_
  · intro i t t' A hhi h1 h2 h hh hu
    cases t with
    | leaf s z =>
      unfold updatePush at hu
      split_ifs at hu with hin
      exact ⟨cover_represents hhi h hin hu, cover_halfSums hhi hh hu⟩
    | node s z a b => exact absurd h.1 (lt_irrefl i)
  · intro lo hi hlt ihl ihr t t' A hhi h1 h2 h hh hu
    cases t with
    | leaf s z => exact absurd h.1 hlt.ne
    | node s z a b =>
      by_cases hin : l ≤ lo ∧ hi ≤ r
      · rw [updatePush, if_pos hin] at hu
        exact ⟨cover_represents hhi h hin hu, cover_halfSums hhi hh hu⟩
      rw [updatePush, if_neg hin, if_pos hlt] at hu
      obtain ⟨pa, hpa, hu⟩ := Effect.bind_eq_ok.mp hu
      obtain ⟨pb, hpb, hu⟩ := Effect.bind_eq_ok.mp hu
      obtain ⟨a', ha', hu⟩ := Effect.bind_eq_ok.mp hu
      obtain ⟨b', hb', hu⟩ := Effect.bind_eq_ok.mp hu
      obtain ⟨s', hs', hu⟩ := Effect.bind_eq_ok.mp hu
      cases hu
      obtain ⟨-, -, ha, hb⟩ := h
      obtain ⟨-, hha, hhb⟩ := hh
      have hm := Segment.midpoint_lt hlt
      have hmax : Segment.midpoint lo hi < maxLength := by omega
      have hpar := pushed_represents hmax ha hpa
      have hpbr := pushed_represents hhi hb hpb
      have hpah := pushed_halfSums hmax hha hpa
      have hpbh := pushed_halfSums hhi hhb hpb
      have key1 : a'.Represents Int64.toInt lo (Segment.midpoint lo hi) (addOn A l r value.toInt) ∧
          a'.HalfSums Int64.toInt Representable := by
        rcases half_eq_ok.mp ha' with ⟨hl, ha'⟩ | ⟨hl, rfl⟩
        · exact ihl hmax hl h2 hpar hpah ha'
        · exact ⟨hpar.congr fun i h3 h4 =>
            (Segment.addOn_of_apart (.inl (by omega)) h3 h4).symm, hpah⟩
      have key2 : b'.Represents Int64.toInt (Segment.midpoint lo hi + 1) hi (addOn A l r value.toInt) ∧
          b'.HalfSums Int64.toInt Representable := by
        rcases half_eq_ok.mp hb' with ⟨hl, hb'⟩ | ⟨hl, rfl⟩
        · exact ihr hhi h1 hl hpbr hpbh hb'
        · exact ⟨hpbr.congr fun i h3 h4 =>
            (Segment.addOn_of_apart (.inr (by omega)) h3 h4).symm, hpbh⟩
      rw [checkedAdd_eq_ok] at hs'
      have hz : (0 : ValueType).toInt = 0 := Int64.toInt_zero
      refine ⟨TagTree.Represents.node hlt (key1.1.congr fun i _ _ => ?_)
        (key2.1.congr fun i _ _ => ?_) ?_, ?_, key1.2, key2.2⟩
      · rw [hz, sub_zero]
      · rw [hz, sub_zero]
      · rw [hs', hz, zero_mul, add_zero]
      · rw [← hs']
        exact representable_toInt s'

theorem updatePush_error (value : ValueType) : ∀ lo hi, lo ≤ hi →
    ∀ {t : SumTree} {e : Exception}, hi < maxLength → l ≤ hi → lo ≤ r → t.Spans lo hi →
      updatePush l r value t lo hi = .error e → ∃ w, e = .overflowError w := by
  have pushed_spans : ∀ {z : ValueType} {a a' : SumTree} {lo hi : ℕ}, hi < maxLength →
      a.Spans lo hi → (if z ≠ 0 then cover a lo hi z else pure a) = .ok a' →
      a'.Spans lo hi := by
    intro z a a' lo hi hhi ha h
    rcases half_eq_ok.mp h with ⟨-, h⟩ | ⟨-, rfl⟩
    · obtain ⟨s, y, rfl, -⟩ := (cover_eq_ok hhi).mp h
      exact ha.setRoot
    · exact ha
  refine Segment.halving_induction ?_ ?_
  · intro i t e hhi h1 h2 h hu
    cases t with
    | leaf s z =>
      rw [updatePush, if_pos ⟨h1, h2⟩] at hu
      exact cover_error hhi hu
    | node s z a b => exact absurd h.1 (lt_irrefl i)
  · intro lo hi hlt ihl ihr t e hhi h1 h2 h hu
    cases t with
    | leaf s z => exact absurd h hlt.ne
    | node s z a b =>
      obtain ⟨-, ha, hb⟩ := h
      have hm := Segment.midpoint_lt hlt
      have hmax : Segment.midpoint lo hi < maxLength := by omega
      by_cases hin : l ≤ lo ∧ hi ≤ r
      · rw [updatePush, if_pos hin] at hu
        exact cover_error hhi hu
      rw [updatePush, if_neg hin, if_pos hlt] at hu
      rcases Effect.bind_eq_error.mp hu with hu | ⟨pa, hpa, hu⟩
      · exact cover_error hmax (half_eq_error.mp hu).2
      rcases Effect.bind_eq_error.mp hu with hu | ⟨pb, hpb, hu⟩
      · exact cover_error hhi (half_eq_error.mp hu).2
      rcases Effect.bind_eq_error.mp hu with hu | ⟨a', -, hu⟩
      · obtain ⟨hl, hu⟩ := half_eq_error.mp hu
        exact ihl hmax hl h2 (pushed_spans hmax ha hpa) hu
      rcases Effect.bind_eq_error.mp hu with hu | ⟨b', -, hu⟩
      · obtain ⟨hl, hu⟩ := half_eq_error.mp hu
        exact ihr hhi h1 hl (pushed_spans hhi hb hpb) hu
      rcases Effect.bind_eq_error.mp hu with hu | ⟨s', -, hu⟩
      · exact ⟨_, (checkedAdd_error hu).1⟩
      · cases hu

/-! ## Preflight -/

/-- The preflight `y` returns what the update `x` would store at its root, or overflows where
the update does not return. -/
def Decides (y : Except Exception ValueType) (x : Except Exception SumTree) : Prop :=
  (∃ t', x = .ok t' ∧ y = .ok t'.sum) ∨ ((∃ e, x = .error e) ∧ Overflows y)

theorem Decides.half {p : Prop} [Decidable p] {c : SumTree} {x : Except Exception SumTree}
    {y : Except Exception ValueType} (h : p → Decides y x) :
    Decides (if p then y else pure c.sum) (if p then x else pure c) := by
  by_cases hp : p
  · rw [if_pos hp, if_pos hp]
    exact h hp
  · rw [if_neg hp, if_neg hp]
    exact .inl ⟨c, rfl, rfl⟩

/-- The order of the two checks of a covered node does not matter. -/
theorem Decides.cover (hhi : hi < maxLength) :
    Decides (do
      let _ ← checkedAdd t.tag value
      SumAddPolicy.apply value t.sum (length lo hi)) (cover t lo hi value) := by
  unfold SumTree.cover
  rcases hs : SumAddPolicy.apply value t.sum (length lo hi) with e | s
  · obtain ⟨w, rfl⟩ := (SumAddPolicy.apply_error (length_le hhi) hs).1
    refine .inr ⟨⟨_, rfl⟩, ?_⟩
    rcases hz : checkedAdd t.tag value with e | z
    · exact ⟨_, congrArg Except.error (checkedAdd_error hz).1⟩
    · exact ⟨w, rfl⟩
  · rcases hz : checkedAdd t.tag value with e | z
    · exact .inr ⟨⟨e, rfl⟩, _, congrArg Except.error (checkedAdd_error hz).1⟩
    · exact .inl ⟨t.setRoot s z, rfl, by rw [TagTree.sum_setRoot]; rfl⟩

/-- **The preflight decides the update.** -/
theorem validateUpdate_decides (hhi : hi < maxLength) (h1 : l ≤ hi) (h2 : lo ≤ r)
    (hsp : t.Spans lo hi) :
    Decides (validateUpdate l r value t lo hi)
      (updateWith rebuildFromChildren l r value t lo hi) := by
  induction t generalizing lo hi with
  | leaf s z =>
    have hle : lo = hi := hsp
    have hin : l ≤ lo ∧ hi ≤ r := by omega
    rw [updateWith, validateUpdate, if_pos hin, if_pos hin]
    exact Decides.cover (t := .leaf s z) hhi
  | node s z a b iha ihb =>
    obtain ⟨hlt, ha, hb⟩ := hsp
    have hm := Segment.midpoint_lt hlt
    rw [updateWith, validateUpdate]
    by_cases hin : l ≤ lo ∧ hi ≤ r
    · rw [if_pos hin, if_pos hin]
      exact Decides.cover (t := .node s z a b) hhi
    rw [if_neg hin, if_neg hin]
    have keya := Decides.half (p := l ≤ Segment.midpoint lo hi) (c := a)
      fun hl => iha (by omega) hl h2 ha
    have keyb := Decides.half (p := r > Segment.midpoint lo hi) (c := b) fun hl => ihb hhi h1 hl hb
    rcases keya with ⟨a', hxa, hya⟩ | ⟨⟨e, hxa⟩, w, hya⟩
    · rw [hxa, hya, Effect.ok_bind, Effect.ok_bind]
      rcases keyb with ⟨b', hxb, hyb⟩ | ⟨⟨e, hxb⟩, w, hyb⟩
      · rw [hxb, hyb, Effect.ok_bind, Effect.ok_bind]
        rcases hs : rebuildFromChildren s z a' b' lo hi with e | s'
        · obtain ⟨w, rfl⟩ := rebuildFromChildren_error hhi hs
          exact .inr ⟨⟨_, rfl⟩, w, hs⟩
        · exact .inl ⟨_, rfl, hs⟩
      · rw [hxb, hyb]
        exact .inr ⟨⟨e, rfl⟩, w, rfl⟩
    · rw [hxa, hya]
      exact .inr ⟨⟨e, rfl⟩, w, rfl⟩

end Specifications

end SumTree

end Valseg
