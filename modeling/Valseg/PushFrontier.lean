import Valseg.CommutativityBoundary
import Valseg.PushIdentity

/-!
# The push frontier

Over the SumAdd policy every bound of the push frontier is reached in trees of a power of two. A
history makes a tag for each node that an update goes on from, the lower nodes first (`tagging`),
so no update of the history pushes. The sums of such a tree are those of its tags (`Weighed`), and
they stay representable in every tree that can be initialized. An update that descends through the tags
then pushes at every partially covered node (`update_of_tagged`).
-/

namespace Valseg

namespace PathCopyingActionTree

namespace RecordTree

/-- The trees of the SumAdd policy. -/
abbrev AddTree := RecordTree ValueType ValueType

/-! ## Trees of tags that are not negative -/

/-- The aggregates are what the tags add, and no tag is negative. -/
def Weighed : AddTree → ℕ → ℕ → Prop
  | leaf x z, lo, hi => lo = hi ∧ 0 ≤ z.toInt ∧ x.toInt = z.toInt
  | node x z left right, lo, hi => lo < hi ∧ 0 ≤ z.toInt ∧
      x.toInt = left.aggregate.toInt + right.aggregate.toInt + z.toInt * Segment.length lo hi ∧
      left.Weighed lo (Segment.midpoint lo hi) ∧ right.Weighed (Segment.midpoint lo hi + 1) hi

section Weighed

variable {t t' left right left' right' : AddTree} {lo hi l r p : ℕ} {f z z' : ValueType}

theorem Weighed.tag_nonneg (h : t.Weighed lo hi) : 0 ≤ t.tag.toInt := by
  cases t with
  | leaf x z => exact h.2.1
  | node x z left right => exact h.2.1

/-- The aggregate is at least what the tag of the root adds. -/
theorem Weighed.tag_mul_length_le (h : t.Weighed lo hi) :
    t.tag.toInt * Segment.length lo hi ≤ t.aggregate.toInt := by
  induction t generalizing lo hi with
  | leaf x z =>
    obtain ⟨rfl, -, hx⟩ := h
    simp only [tag, aggregate, Segment.length, Nat.sub_self]
    omega
  | node x z left right ihl ihr =>
    obtain ⟨-, -, hx, hl, hr⟩ := h
    have h1 := mul_nonneg hl.tag_nonneg
      (Int.natCast_nonneg (Segment.length lo (Segment.midpoint lo hi)))
    have h2 := mul_nonneg hr.tag_nonneg
      (Int.natCast_nonneg (Segment.length (Segment.midpoint lo hi + 1) hi))
    have h3 := ihl hl
    have h4 := ihr hr
    simp only [tag, aggregate]
    omega

theorem Weighed.nonneg (h : t.Weighed lo hi) : 0 ≤ t.aggregate.toInt :=
  (mul_nonneg h.tag_nonneg (Int.natCast_nonneg _)).trans h.tag_mul_length_le

/-- Adding on a whole segment. -/
theorem Weighed.cover (h : t.Weighed lo hi) (hhi : hi < maxLength) (hf : 0 ≤ f.toInt)
    (hsum : t.aggregate.toInt + f.toInt * Segment.length lo hi < 2 ^ 63) :
    ∃ t', t.cover sumAddPolicy f (Segment.length lo hi) = .ok t' ∧ t'.Weighed lo hi ∧
      t'.aggregate.toInt = t.aggregate.toInt + f.toInt * Segment.length lo hi := by
  have hnonneg := h.nonneg
  have htag := h.tag_nonneg
  have hle := h.tag_mul_length_le
  have hone : (1 : ℤ) ≤ Segment.length lo hi := by unfold Segment.length; omega
  have hprod : 0 ≤ f.toInt * Segment.length lo hi := mul_nonneg hf (by omega)
  have hf1 : f.toInt ≤ f.toInt * Segment.length lo hi := le_mul_of_one_le_right hf hone
  have hz1 : t.tag.toInt ≤ t.tag.toInt * Segment.length lo hi := le_mul_of_one_le_right htag hone
  obtain ⟨x, hx⟩ := Representable.exists_toInt
    (x := t.aggregate.toInt + f.toInt * Segment.length lo hi)
    ⟨by omega, hsum⟩
  obtain ⟨z, hz⟩ := Representable.exists_toInt (x := f.toInt + t.tag.toInt) ⟨by omega, by omega⟩
  refine ⟨t.setRoot x z, cover_eq_ok.mpr ⟨x, z, ?_, checkedAdd_eq_ok.mpr hz, rfl⟩, ?_, ?_⟩
  · refine (SumAddPolicy.apply_eq_ok ?_).mpr ⟨⟨by omega, by omega⟩, hx⟩
    unfold Segment.length
    omega
  · cases t with
    | leaf y w =>
      obtain ⟨rfl, -, hy⟩ := h
      simp only [aggregate, tag, Segment.length, Nat.sub_self] at hx hz htag
      refine ⟨rfl, ?_, ?_⟩ <;> omega
    | node y w left right =>
      obtain ⟨hlt, -, hy, hl, hr⟩ := h
      simp only [aggregate, tag] at hx hz htag
      refine ⟨hlt, by omega, ?_, hl, hr⟩
      rw [hx, hz, hy, add_mul]
      omega
  · rw [aggregate_setRoot, hx]

theorem pushDown_zero : RecordTree.pushDown sumAddPolicy true 0 lo hi left right =
    .ok (left, right, 0, 0) := pushDown_of_retained fun h => h.2 rfl

/-- A push moves the weight of a tag into the halves. -/
theorem Weighed.pushDown {x : ValueType} (h : (node x z left right).Weighed lo hi)
    (hhi : hi < maxLength) :
    ∃ left' right' p, pushDown sumAddPolicy true z lo hi left right = .ok (left', right', 0, p) ∧
      left'.Weighed lo (Segment.midpoint lo hi) ∧ right'.Weighed (Segment.midpoint lo hi + 1) hi ∧
      left'.aggregate.toInt + right'.aggregate.toInt = x.toInt := by
  obtain ⟨hlt, hz, hx, hl, hr⟩ := h
  have hm := Segment.le_midpoint lo hi
  have hm' := Segment.midpoint_lt hlt
  have hlength : (Segment.length lo hi : ℤ) = Segment.length lo (Segment.midpoint lo hi) +
      Segment.length (Segment.midpoint lo hi + 1) hi := by
    unfold Segment.length
    omega
  rw [hlength, mul_add] at hx
  by_cases h0 : z = 0
  · subst h0
    refine ⟨left, right, 0, pushDown_zero, hl, hr, ?_⟩
    rw [Int64.toInt_zero, zero_mul, zero_mul] at hx
    omega
  · have hxlt := x.toInt_lt
    have h1 := hl.nonneg
    have h2 := hr.nonneg
    have h3 : 0 ≤ z.toInt * Segment.length lo (Segment.midpoint lo hi) := mul_nonneg hz (by omega)
    have h4 : 0 ≤ z.toInt * Segment.length (Segment.midpoint lo hi + 1) hi :=
      mul_nonneg hz (by omega)
    obtain ⟨left', hcl, hl', hal⟩ := hl.cover (by omega) hz (by omega)
    obtain ⟨right', hcr, hr', har⟩ := hr.cover hhi hz (by omega)
    exact ⟨left', right', 1, (pushDown_eq_ok_of_pushed ⟨rfl, h0⟩).mpr ⟨hcl, hcr, rfl, rfl⟩, hl', hr',
      by omega⟩

/-- **Adding what is representable** returns, and adds the amount on the part of the segment in
the range. -/
theorem Weighed.update (hlr : l ≤ r) (hf : 0 ≤ f.toInt) : ∀ lo hi, lo ≤ hi → ∀ {t : AddTree},
    l ≤ hi → lo ≤ r → hi < maxLength → t.Weighed lo hi →
    t.aggregate.toInt + f.toInt * Segment.overlap lo hi l r < 2 ^ 63 →
    ∃ t' c, t.update sumAddPolicy true l r f lo hi = .ok (t', c) ∧ t'.Weighed lo hi ∧
      t'.aggregate.toInt = t.aggregate.toInt + f.toInt * Segment.overlap lo hi l r := by
  have hcovered : ∀ {lo hi : ℕ} {t : AddTree}, l ≤ lo ∧ hi ≤ r → lo ≤ hi → hi < maxLength →
      t.Weighed lo hi → t.aggregate.toInt + f.toInt * Segment.overlap lo hi l r < 2 ^ 63 →
      ∃ t' c, t.update sumAddPolicy true l r f lo hi = .ok (t', c) ∧ t'.Weighed lo hi ∧
        t'.aggregate.toInt = t.aggregate.toInt + f.toInt * Segment.overlap lo hi l r := by
    intro lo hi t hin hle hhi h hsum
    have hall : Segment.overlap lo hi l r = Segment.length lo hi := by
      unfold Segment.overlap Segment.length
      omega
    rw [hall] at hsum ⊢
    obtain ⟨t', hc, ht, ha⟩ := h.cover hhi hf hsum
    exact ⟨t', 0, (update_inside_eq_ok hin).mpr ⟨hc, rfl⟩, ht, ha⟩
  refine Segment.halving_induction (fun i t h1 h2 hhi h hsum => ?_)
    fun lo hi hlt ihl ihr t h1 h2 hhi h hsum => ?_
  · exact hcovered ⟨h1, h2⟩ le_rfl hhi h hsum
  by_cases hin : l ≤ lo ∧ hi ≤ r
  · exact hcovered hin hlt.le hhi h hsum
  cases t with
  | leaf x z => exact absurd h.1 hlt.ne
  | node x z left right =>
    have hm := Segment.le_midpoint lo hi
    have hm' := Segment.midpoint_lt hlt
    obtain ⟨left₀, right₀, p, h0, hl, hr, hx⟩ := h.pushDown hhi
    have hsplit : (Segment.overlap lo hi l r : ℤ) =
        (if l ≤ Segment.midpoint lo hi then (Segment.overlap lo (Segment.midpoint lo hi) l r : ℤ)
          else 0) +
        if r > Segment.midpoint lo hi then (Segment.overlap (Segment.midpoint lo hi + 1) hi l r : ℤ)
        else 0 := by
      unfold Segment.overlap
      split_ifs <;> omega
    have half : ∀ {c : Prop} [Decidable c] {y : Except Exception (AddTree × ℕ)} {t : AddTree}
        {a b o : ℕ}, (c → ∃ t' q, y = .ok (t', q) ∧ t'.Weighed a b ∧
          t'.aggregate.toInt = t.aggregate.toInt + f.toInt * o) → t.Weighed a b →
        ∃ t' q, (if c then y else pure (t, 0)) = .ok (t', q) ∧ t'.Weighed a b ∧
          t'.aggregate.toInt = t.aggregate.toInt + f.toInt * (if c then (o : ℤ) else 0) := by
      intro c _ y t a b o hy ht
      by_cases hc : c
      · simp only [if_pos hc]
        exact hy hc
      · simp only [if_neg hc, mul_zero, add_zero]
        exact ⟨t, 0, rfl, ht, rfl⟩
    have hnl := hl.nonneg
    have hnr := hr.nonneg
    have hol : 0 ≤ f.toInt * (if l ≤ Segment.midpoint lo hi then
        (Segment.overlap lo (Segment.midpoint lo hi) l r : ℤ) else 0) :=
      mul_nonneg hf (by split_ifs <;> omega)
    have hor : 0 ≤ f.toInt * (if r > Segment.midpoint lo hi then
        (Segment.overlap (Segment.midpoint lo hi + 1) hi l r : ℤ) else 0) :=
      mul_nonneg hf (by split_ifs <;> omega)
    rw [hsplit, mul_add] at hsum ⊢
    simp only [aggregate] at hsum ⊢
    obtain ⟨left', q, h1', hl', hal⟩ := half (fun hc : l ≤ Segment.midpoint lo hi =>
      ihl hc h2 (by omega) hl (by rw [if_pos hc] at hsum hol; omega)) hl
    obtain ⟨right', q', h2', hr', har⟩ := half (fun hc : r > Segment.midpoint lo hi =>
      ihr h1 hc hhi hr (by rw [if_pos hc] at hsum hor; omega)) hr
    obtain ⟨y, hy⟩ := Representable.exists_toInt
      (x := left'.aggregate.toInt + right'.aggregate.toInt) ⟨by omega, by omega⟩
    refine ⟨node y 0 left' right', p + q + q', (update_split_eq_ok hin hlt).mpr ⟨left₀, right₀, 0, p,
      h0, left', q, h1', right', q', h2', y, y, checkedAdd_eq_ok.mpr hy, ?_, rfl, rfl⟩, ?_, ?_⟩
    · refine (SumAddPolicy.apply_eq_ok (by unfold Segment.length; omega)).mpr ?_
      rw [Int64.toInt_zero, zero_mul, add_zero]
      exact ⟨representable_zero, rfl⟩
    · refine ⟨hlt, le_of_eq Int64.toInt_zero.symm, ?_, hl', hr'⟩
      rw [Int64.toInt_zero, zero_mul, add_zero, hy]
    · simp only
      omega

end Weighed

/-! ## Trees with a tag wherever a descent goes on -/

/-- A tag is there at every node that a descent to the range goes on from. -/
def TaggedOn (l r : ℕ) : AddTree → ℕ → ℕ → Prop
  | leaf _ _, _, _ => True
  | node _ z left right, lo, hi => l ≤ lo ∧ hi ≤ r ∨ 0 < z.toInt ∧
      (l ≤ Segment.midpoint lo hi → left.TaggedOn l r lo (Segment.midpoint lo hi)) ∧
      (r > Segment.midpoint lo hi → right.TaggedOn l r (Segment.midpoint lo hi + 1) hi)

/-- No tag is there. -/
def Untagged : AddTree → Prop
  | leaf _ z => z = 0
  | node _ z left right => z = 0 ∧ left.Untagged ∧ right.Untagged

section Tagged

variable {t t' left right left' right' : AddTree} {lo hi l r n c : ℕ} {f z : ValueType}
  {x : ValueType}

/-- A tag pushed into the root only makes its tag larger. -/
theorem TaggedOn.cover (h : t.TaggedOn l r lo hi) (hf : 0 ≤ f.toInt)
    (hc : t.cover sumAddPolicy f n = .ok t') : t'.TaggedOn l r lo hi := by
  obtain ⟨x, z, -, hz, rfl⟩ := cover_eq_ok.mp hc
  have hz := checkedAdd_eq_ok.mp hz
  cases t with
  | leaf y w => trivial
  | node y w left right =>
    rcases h with h | ⟨hw, hl, hr⟩
    · exact .inl h
    · refine .inr ⟨?_, hl, hr⟩
      rw [hz]
      simp only [tag]
      omega

/-- **Every partially covered node pushes.** -/
theorem update_of_tagged : ∀ lo hi, lo ≤ hi → ∀ {t t' : AddTree} {c : ℕ}, t.TaggedOn l r lo hi →
    t.update sumAddPolicy true l r f lo hi = .ok (t', c) → c = Segment.partials lo hi l r := by
  refine Segment.halving_induction (fun i t t' c _ hu => ?_)
    fun lo hi hlt ihl ihr t t' c h hu => ?_
  · have hin := update_single_of_ok hu
    rw [((update_inside_eq_ok hin).mp hu).2, Segment.partials_of_inside hin]
  by_cases hin : l ≤ lo ∧ hi ≤ r
  · rw [((update_inside_eq_ok hin).mp hu).2, Segment.partials_of_inside hin]
  cases t with
  | leaf x z => exact absurd (update_leaf_of_ok hu) hin
  | node x z left right =>
    obtain ⟨hz, hl, hr⟩ := h.resolve_left hin
    have hpush : true = true ∧ z ≠ sumAddPolicy.actionIdentity := by
      refine ⟨rfl, ?_⟩
      rintro rfl
      exact absurd hz (lt_irrefl _)
    obtain ⟨left₀, right₀, z', p, h0, left', q, h1, right', q', h2, -, -, -, -, -, rfl⟩ :=
      (update_split_eq_ok hin hlt).mp hu
    obtain ⟨hcl, hcr, -, rfl⟩ := (pushDown_eq_ok_of_pushed hpush).mp h0
    have half : ∀ {p : Prop} [Decidable p] {y : Except Exception (AddTree × ℕ)} {t t' : AddTree}
        {q n : ℕ}, (p → y = .ok (t', q) → q = n) → (if p then y else pure (t, 0)) = .ok (t', q) →
        q = if p then n else 0 := by
      intro p _ y t t' q n hy h
      split_ifs at h ⊢ with hp
      · exact hy hp h
      · cases h
        rfl
    rw [Segment.partials_split hin hlt, half (fun hp => ihl ((hl hp).cover hz.le hcl)) h1,
      half (fun hp => ihr ((hr hp).cover hz.le hcr)) h2]

/-! ## The history -/

/-- Updates one after the other. -/
def updates (calls : List (RangeAction ValueType)) (lo hi : ℕ) (t : AddTree) :
    Except Exception AddTree :=
  calls.foldlM (fun t u => do
    return (← t.update sumAddPolicy true u.left u.right u.action lo hi).1) t

theorem updates_append {calls more : List (RangeAction ValueType)} :
    updates (calls ++ more) lo hi t = .ok t' ↔
      ∃ t₁, updates calls lo hi t = .ok t₁ ∧ updates more lo hi t₁ = .ok t' := by
  unfold updates
  rw [List.foldlM_append, Effect.bind_eq_ok]

theorem updates_cons {u : RangeAction ValueType} {calls : List (RangeAction ValueType)} :
    updates (u :: calls) lo hi t = .ok t' ↔
      ∃ t₁ c, t.update sumAddPolicy true u.left u.right u.action lo hi = .ok (t₁, c) ∧
        updates calls lo hi t₁ = .ok t' := by
  unfold updates
  simp only [List.foldlM_cons, Effect.bind_eq_ok, pure, Except.pure, Except.ok.injEq]
  constructor
  · rintro ⟨_, ⟨⟨t₁, c⟩, h, rfl⟩, h'⟩
    exact ⟨t₁, c, h, h'⟩
  · rintro ⟨t₁, c, h, h'⟩
    exact ⟨t₁, ⟨(t₁, c), h, rfl⟩, h'⟩

/-- One update of each node that a descent to the range goes on from, the nodes below it first. -/
def tagging (l r lo hi : ℕ) : List (RangeAction ValueType) :=
  if l ≤ lo ∧ hi ≤ r then []
  else if lo < hi then
    (if l ≤ Segment.midpoint lo hi then tagging l r lo (Segment.midpoint lo hi) else []) ++
      (if r > Segment.midpoint lo hi then tagging l r (Segment.midpoint lo hi + 1) hi else []) ++
      [⟨lo, hi, 1⟩]
  else []
termination_by hi - lo
decreasing_by all_goals (simp only [Segment.midpoint] at *; omega)

theorem tagging_of_inside (h : l ≤ lo ∧ hi ≤ r) : tagging l r lo hi = [] := by
  rw [tagging, if_pos h]

theorem tagging_split (hin : ¬ (l ≤ lo ∧ hi ≤ r)) (hlt : lo < hi) : tagging l r lo hi =
    (if l ≤ Segment.midpoint lo hi then tagging l r lo (Segment.midpoint lo hi) else []) ++
      (if r > Segment.midpoint lo hi then tagging l r (Segment.midpoint lo hi + 1) hi else []) ++
      [⟨lo, hi, 1⟩] := by
  rw [tagging, if_neg hin, if_pos hlt]

/-- The updates add one, on canonical segments. -/
theorem tagging_bounds (l r : ℕ) : ∀ lo hi, lo ≤ hi → ∀ u ∈ tagging l r lo hi,
    (lo ≤ u.left ∧ u.left ≤ u.right ∧ u.right ≤ hi) ∧ u.action = 1 := by
  refine Segment.halving_induction (fun i u hu => ?_) fun lo hi hlt ihl ihr u hu => ?_
  · rw [tagging, if_neg (lt_irrefl i), ite_self] at hu
    exact absurd hu List.not_mem_nil
  by_cases hin : l ≤ lo ∧ hi ≤ r
  · rw [tagging_of_inside hin] at hu
    exact absurd hu List.not_mem_nil
  have hm := Segment.le_midpoint lo hi
  have hm' := Segment.midpoint_lt hlt
  rw [tagging_split hin hlt, List.mem_append, List.mem_append, List.mem_singleton] at hu
  rcases hu with (hu | hu) | rfl
  · split_ifs at hu
    · obtain ⟨h1, h2⟩ := ihl u hu
      exact ⟨by omega, h2⟩
    · exact absurd hu List.not_mem_nil
  · split_ifs at hu
    · obtain ⟨h1, h2⟩ := ihr u hu
      exact ⟨by omega, h2⟩
    · exact absurd hu List.not_mem_nil
  · exact ⟨⟨le_rfl, hlt.le, le_rfl⟩, rfl⟩

/-- The numbers of indices they add to, together. -/
def width (calls : List (RangeAction ValueType)) : ℕ :=
  (calls.map fun u => Segment.length u.left u.right).sum

theorem width_append (calls more : List (RangeAction ValueType)) :
    width (calls ++ more) = width calls + width more := by
  unfold width
  rw [List.map_append, List.sum_append]

theorem width_half_le {p : Prop} [Decidable p] {calls : List (RangeAction ValueType)} :
    width (if p then calls else []) ≤ width calls := by
  split_ifs
  · exact le_rfl
  · exact Nat.zero_le _

/-- On each level the segments are apart. -/
theorem width_tagging_le (l r : ℕ) : ∀ lo hi, lo ≤ hi →
    width (tagging l r lo hi) ≤ Segment.height lo hi * Segment.length lo hi := by
  refine Segment.halving_induction (fun i => ?_) fun lo hi hlt ihl ihr => ?_
  · rw [tagging, if_neg (lt_irrefl i), ite_self]
    exact Nat.zero_le _
  by_cases hin : l ≤ lo ∧ hi ≤ r
  · rw [tagging_of_inside hin]
    exact Nat.zero_le _
  have hleft := (width_half_le (p := l ≤ Segment.midpoint lo hi)).trans ihl
  have hright := ((width_half_le (p := r > Segment.midpoint lo hi)).trans ihr).trans
    (Nat.mul_le_mul_right _ (Segment.height_right_le hlt))
  have hself : width [⟨lo, hi, 1⟩] = Segment.length lo hi := rfl
  have hlength := congrArg (Segment.height lo (Segment.midpoint lo hi) * ·)
    (SegmentAction.length_split hlt)
  simp only [mul_add] at hlength
  rw [tagging_split hin hlt, width_append, width_append, hself, Segment.height_split hlt,
    add_one_mul, hlength]
  omega

/-- Below a node without a tag, an update of one half leaves the other alone. -/
theorem update_left_of_ok (hlt : lo < hi) (hl : l ≤ Segment.midpoint lo hi)
    (hr : r ≤ Segment.midpoint lo hi)
    (h : (node x 0 left right).update sumAddPolicy true l r f lo hi = .ok (t', c)) :
    ∃ x' left' c', t' = node x' 0 left' right ∧
      left.update sumAddPolicy true l r f lo (Segment.midpoint lo hi) = .ok (left', c') := by
  have hm' := Segment.midpoint_lt hlt
  obtain ⟨left₀, right₀, z', p, h0, left', q, h1, right', q', h2, -, x', -, -, rfl, -⟩ :=
    (update_split_eq_ok (by omega) hlt).mp h
  rw [pushDown_zero] at h0
  cases h0
  rw [if_pos hl] at h1
  rw [if_neg (by omega)] at h2
  cases h2
  exact ⟨x', left', q, rfl, h1⟩

theorem update_right_of_ok (hlt : lo < hi) (hl : Segment.midpoint lo hi < l)
    (hr : Segment.midpoint lo hi < r)
    (h : (node x 0 left right).update sumAddPolicy true l r f lo hi = .ok (t', c)) :
    ∃ x' right' c', t' = node x' 0 left right' ∧
      right.update sumAddPolicy true l r f (Segment.midpoint lo hi + 1) hi = .ok (right', c') := by
  have hm := Segment.le_midpoint lo hi
  obtain ⟨left₀, right₀, z', p, h0, left', q, h1, right', q', h2, -, x', -, -, rfl, -⟩ :=
    (update_split_eq_ok (by omega) hlt).mp h
  rw [pushDown_zero] at h0
  cases h0
  rw [if_neg (by omega)] at h1
  cases h1
  rw [if_pos (show r > Segment.midpoint lo hi from hr)] at h2
  exact ⟨x', right', q', rfl, h2⟩

/-- So do the updates of a history of one half. -/
theorem updates_left_of_ok (hlt : lo < hi) {calls : List (RangeAction ValueType)}
    (hc : ∀ u ∈ calls, u.left ≤ u.right ∧ u.right ≤ Segment.midpoint lo hi)
    (h : updates calls lo hi (node x 0 left right) = .ok t') : ∃ x' left',
      t' = node x' 0 left' right ∧ updates calls lo (Segment.midpoint lo hi) left = .ok left' := by
  induction calls generalizing x left with
  | nil =>
    cases h
    exact ⟨x, left, rfl, rfl⟩
  | cons u calls ih =>
    have hu := hc u List.mem_cons_self
    obtain ⟨t₁, c, h1, h2⟩ := updates_cons.mp h
    obtain ⟨x₁, left₁, c', rfl, h3⟩ := update_left_of_ok hlt (by omega) hu.2 h1
    obtain ⟨x', left', rfl, h4⟩ := ih (fun w hw => hc w (List.mem_cons_of_mem u hw)) h2
    exact ⟨x', left', rfl, updates_cons.mpr ⟨left₁, c', h3, h4⟩⟩

theorem updates_right_of_ok (hlt : lo < hi) {calls : List (RangeAction ValueType)}
    (hc : ∀ u ∈ calls, Segment.midpoint lo hi < u.left ∧ u.left ≤ u.right)
    (h : updates calls lo hi (node x 0 left right) = .ok t') : ∃ x' right',
      t' = node x' 0 left right' ∧
        updates calls (Segment.midpoint lo hi + 1) hi right = .ok right' := by
  induction calls generalizing x right with
  | nil =>
    cases h
    exact ⟨x, right, rfl, rfl⟩
  | cons u calls ih =>
    have hu := hc u List.mem_cons_self
    obtain ⟨t₁, c, h1, h2⟩ := updates_cons.mp h
    obtain ⟨x₁, right₁, c', rfl, h3⟩ := update_right_of_ok hlt hu.1 (by omega) h1
    obtain ⟨x', right', rfl, h4⟩ := ih (fun w hw => hc w (List.mem_cons_of_mem u hw)) h2
    exact ⟨x', right', rfl, updates_cons.mpr ⟨right₁, c', h3, h4⟩⟩

/-- **The history** makes every tag the descent will meet. -/
theorem taggedOn_of_updates (l r : ℕ) : ∀ lo hi, lo ≤ hi → ∀ {t t' : AddTree}, t.Untagged →
    t.Spans lo hi → updates (tagging l r lo hi) lo hi t = .ok t' → t'.TaggedOn l r lo hi := by
  refine Segment.halving_induction (fun i t t' _ hs h => ?_)
    fun lo hi hlt ihl ihr t t' h0 hs h => ?_
  · rw [tagging, if_neg (lt_irrefl i), ite_self] at h
    cases h
    cases t with
    | leaf x z => trivial
    | node x z left right => exact absurd hs.1 (lt_irrefl i)
  cases t with
  | leaf x z => exact absurd hs hlt.ne
  | node x z left right =>
    by_cases hin : l ≤ lo ∧ hi ≤ r
    · rw [tagging_of_inside hin] at h
      cases h
      exact .inl hin
    have hm := Segment.le_midpoint lo hi
    have hm' := Segment.midpoint_lt hlt
    obtain ⟨rfl, h0l, h0r⟩ := h0
    rw [tagging_split hin hlt] at h
    obtain ⟨t₂, h12, h3⟩ := updates_append.mp h
    obtain ⟨t₁, h1, h2⟩ := updates_append.mp h12
    obtain ⟨x₁, left₁, rfl, hleft⟩ := updates_left_of_ok hlt (fun u hu => by
      split_ifs at hu
      · exact (tagging_bounds l r _ _ hm u hu).1.2
      · exact absurd hu List.not_mem_nil) h1
    obtain ⟨x₂, right₁, rfl, hright⟩ := updates_right_of_ok hlt (fun u hu => by
      split_ifs at hu
      · have hb := (tagging_bounds l r _ _ hm' u hu).1
        exact ⟨hb.1, hb.2.1⟩
      · exact absurd hu List.not_mem_nil) h2
    obtain ⟨t₃, c, h4, h5⟩ := updates_cons.mp h3
    cases h5
    obtain ⟨x₃, z₃, -, hz, rfl⟩ := cover_eq_ok.mp
      ((update_inside_eq_ok ⟨le_rfl, le_rfl⟩).mp h4).1
    have hz := checkedAdd_eq_ok.mp (show checkedAdd 1 0 = .ok z₃ from hz)
    refine .inr ⟨?_, fun hc => ?_, fun hc => ?_⟩
    · rw [hz]
      decide
    · rw [if_pos hc] at hleft
      exact ihl h0l hs.2.1 hleft
    · rw [if_pos hc] at hright
      exact ihr h0r hs.2.2 hright

/-- Updates that add one in the segment return while the sum of all stays representable. -/
theorem Weighed.updates {calls : List (RangeAction ValueType)} (hhi : hi < maxLength)
    (hc : ∀ u ∈ calls, (lo ≤ u.left ∧ u.left ≤ u.right ∧ u.right ≤ hi) ∧ u.action = 1)
    (h : t.Weighed lo hi) (hsum : t.aggregate.toInt + width calls < 2 ^ 63) :
    ∃ t', updates calls lo hi t = .ok t' ∧ t'.Weighed lo hi ∧
      t'.aggregate.toInt = t.aggregate.toInt + width calls := by
  induction calls generalizing t with
  | nil => exact ⟨t, rfl, h, (add_zero _).symm⟩
  | cons u calls ih =>
    obtain ⟨⟨h1, h2, h3⟩, h4⟩ := hc u List.mem_cons_self
    have hwidth : width (u :: calls) = Segment.length u.left u.right + width calls := by
      unfold width
      rw [List.map_cons, List.sum_cons]
    have hone : u.action.toInt = 1 := by rw [h4]; decide
    have hall : Segment.overlap lo hi u.left u.right = Segment.length u.left u.right := by
      unfold Segment.overlap Segment.length
      omega
    rw [hwidth, Nat.cast_add] at hsum ⊢
    obtain ⟨t₁, c, hu, ht₁, ha⟩ := h.update (f := u.action) h2 (by omega) lo hi (by omega) (by omega)
      (by omega) hhi (by rw [hone, one_mul, hall]; omega)
    rw [hone, one_mul, hall] at ha
    obtain ⟨t', hus, ht', ha'⟩ := ih (fun w hw => hc w (List.mem_cons_of_mem u hw)) ht₁ (by omega)
    exact ⟨t', updates_cons.mpr ⟨t₁, c, hu, hus⟩, ht', by omega⟩

/-- An array of zeros. -/
theorem build_zeros (n : ℕ) : ∀ lo hi, lo ≤ hi → hi < n → ∃ t,
    build sumAddPolicy (List.replicate n 0) lo hi = .ok t ∧ t.Weighed lo hi ∧ t.Untagged ∧
      t.aggregate = 0 := by
  refine Segment.halving_induction (fun i hi => ?_) fun lo hi hlt ihl ihr hhi => ?_
  · have hget : (List.replicate n (0 : ValueType))[i]? = some 0 := List.getElem?_replicate_of_lt hi
    exact ⟨leaf 0 0, build_single_eq_ok.mpr ⟨0, vectorAt_eq_ok.mpr hget, rfl⟩,
      ⟨rfl, le_rfl, rfl⟩, rfl, rfl⟩
  · have hm' := Segment.midpoint_lt hlt
    obtain ⟨left, h1, hl, h0l, hal⟩ := ihl (by omega)
    obtain ⟨right, h2, hr, h0r, har⟩ := ihr hhi
    have hsum : sumAddPolicy.combine left.aggregate right.aggregate = .ok 0 := by
      rw [hal, har]
      exact checkedAdd_zero 0
    refine ⟨_, (build_split_eq_ok hlt).mpr ⟨left, right, 0, h1, h2, hsum, rfl⟩,
      ⟨hlt, le_rfl, ?_, hl, hr⟩, ⟨rfl, h0l, h0r⟩, rfl⟩
    rw [hal, har, show sumAddPolicy.actionIdentity = 0 from rfl, Int64.toInt_zero, zero_mul]
    rfl

theorem Weighed.spans (h : t.Weighed lo hi) : t.Spans lo hi := by
  induction t generalizing lo hi with
  | leaf x z => exact h.1
  | node x z left right ihl ihr => exact ⟨h.1, ihl h.2.2.2.1, ihr h.2.2.2.2⟩

end Tagged

end RecordTree

open RecordTree (updates tagging width)

/-- After a history the latest tree is the one its updates make. -/
theorem holdsTrees_run (values : List ValueType) (calls : List (RangeAction ValueType))
    {t t' : RecordTree.AddTree} (hpos : 0 < values.length)
    (hroom : 2 * values.length - 1 ≤ vectorMaxSize sumAddPolicy.recordBytes)
    (hbuild : RecordTree.build sumAddPolicy values 0 (values.length - 1) = .ok t)
    (hc : ∀ u ∈ calls, (u.left ≤ u.right ∧ u.right < values.length) ∧ u.action ≠ 0)
    (hu : updates calls 0 (values.length - 1) t = .ok t') : ∃ trees,
      HoldsTrees ((copyOnPushPersistentTree sumAddPolicy).run values calls) values.length
        (trees ++ [t']) ∧ trees.length = calls.length := by
  induction calls using List.reverseRecOn generalizing t' with
  | nil =>
    cases hu
    obtain ⟨s, hs, hholds⟩ := initialize_holdsTrees true hpos hroom hbuild
    refine ⟨[], ?_, rfl⟩
    unfold ActionTreeParts.run
    rw [List.foldl_nil, copyOnPushPersistentTree, hs]
    exact hholds
  | append_singleton calls u ih =>
    obtain ⟨t₁, h1, h2⟩ := RecordTree.updates_append.mp hu
    obtain ⟨t₂, c, h3, h4⟩ := RecordTree.updates_cons.mp h2
    cases h4
    obtain ⟨trees, hholds, hlen⟩ := ih (fun w hw => hc w (List.mem_append_left _ hw)) h1
    obtain ⟨⟨hlr, hr⟩, hf⟩ := hc u (List.mem_append_right _ (List.mem_singleton_self u))
    obtain ⟨s', hs', hholds', -⟩ := hholds.rangeApply (P := sumAddPolicy) hlr hr hf h3
    refine ⟨trees ++ [t₁], ?_, ?_⟩
    · rw [ActionTreeParts.run_concat, show (copyOnPushPersistentTree sumAddPolicy).rangeApply u.left
        u.right u.action _ = _ from hs']
      exact hholds'
    · rw [List.length_append, List.length_append, hlen]
      rfl

/-- A size that can be initialized is at most `2 ^ 57`. -/
theorem height_le_of_room {h : ℕ} (hroom : 2 * 2 ^ h - 1 ≤ vectorMaxSize sumAddPolicy.recordBytes) :
    h ≤ 57 := by
  have hmax : vectorMaxSize sumAddPolicy.recordBytes = 2 ^ 58 - 1 := by decide
  have hpow : 2 ^ h ≤ 2 ^ 57 := by omega
  exact (Nat.pow_le_pow_iff_right one_lt_two).mp hpow

/-- **The extremum.** In a tree of `2 ^ h` zeros, an update of all but the ends after the tags of its
descent. -/
theorem exists_extremal_run {h : ℕ} (h2 : 2 ≤ h)
    (hroom : 2 * 2 ^ h - 1 ≤ vectorMaxSize sumAddPolicy.recordBytes) :
    ∃ calls : List (RangeAction ValueType), ∃ s',
      ((copyOnPushPersistentTree sumAddPolicy).run (List.replicate (2 ^ h) 0) calls).roots.length =
        calls.length + 1 ∧
      (copyOnPushPersistentTree sumAddPolicy).rangeApply 1 (2 ^ h - 2) 1
        ((copyOnPushPersistentTree sumAddPolicy).run (List.replicate (2 ^ h) 0) calls) =
          .ok (calls.length + 1) s' ∧
      s'.nodes.length = ((copyOnPushPersistentTree sumAddPolicy).run (List.replicate (2 ^ h) 0)
        calls).nodes.length + (8 * h - 5) := by
  have hle := height_le_of_room hroom
  have hfour : 2 ^ 2 ≤ 2 ^ h := Nat.pow_le_pow_right (by omega) h2
  have hpow : 2 ^ h ≤ 2 ^ 57 := Nat.pow_le_pow_right (by omega) hle
  have hheight : Segment.height 0 (2 ^ h - 1) = h := by
    rw [height_eq (by omega), Nat.clog_pow 2 h one_lt_two]
  have hlength : Segment.length 0 (2 ^ h - 1) = 2 ^ h := by
    unfold Segment.length
    omega
  have hmax : 2 ^ h - 1 < maxLength := by
    unfold maxLength
    omega
  have hlen : (List.replicate (2 ^ h) (0 : ValueType)).length = 2 ^ h := List.length_replicate
  -- the history returns
  obtain ⟨t, hbuild, hweighed, huntagged, hzero⟩ :=
    RecordTree.build_zeros (2 ^ h) 0 (2 ^ h - 1) (Nat.zero_le _) (by omega)
  have hbounds := RecordTree.tagging_bounds 1 (2 ^ h - 2) 0 (2 ^ h - 1) (Nat.zero_le _)
  have hwidth := RecordTree.width_tagging_le 1 (2 ^ h - 2) 0 (2 ^ h - 1) (Nat.zero_le _)
  rw [hheight, hlength] at hwidth
  have hwidth' := hwidth.trans (Nat.mul_le_mul hle hpow)
  obtain ⟨t₁, hus, hweighed₁, ha₁⟩ := hweighed.updates hmax hbounds (by
    rw [hzero, Int64.toInt_zero]
    omega)
  -- so does the update after it
  have hone : (1 : ValueType).toInt = 1 := by decide
  have hoverlap : Segment.overlap 0 (2 ^ h - 1) 1 (2 ^ h - 2) ≤ 2 ^ 57 := by
    unfold Segment.overlap
    omega
  obtain ⟨t₂, c, hu, -, -⟩ := hweighed₁.update (l := 1) (r := 2 ^ h - 2) (f := 1) (by omega)
    (by omega) 0 (2 ^ h - 1) (Nat.zero_le _) (by omega) (Nat.zero_le _) hmax (by
      rw [ha₁, hzero, hone, Int64.toInt_zero]
      omega)
  have hpushes := RecordTree.update_of_tagged 0 (2 ^ h - 1) (Nat.zero_le _)
    (RecordTree.taggedOn_of_updates 1 (2 ^ h - 2) 0 _ (Nat.zero_le _) huntagged hweighed.spans hus) hu
  -- and the tree stores both
  obtain ⟨trees, hholds, hcount⟩ := holdsTrees_run (List.replicate (2 ^ h) 0)
    (tagging 1 (2 ^ h - 2) 0 (2 ^ h - 1)) (t := t) (by omega) (by rwa [hlen]) (by rwa [hlen])
    (fun u hu => by
      obtain ⟨⟨-, h1, h2⟩, h3⟩ := hbounds u hu
      rw [hlen, h3]
      exact ⟨⟨h1, by omega⟩, by decide⟩) (by rwa [hlen])
  rw [hlen] at hholds
  have hroots := hholds.count
  rw [List.length_append, List.length_singleton, hcount] at hroots
  obtain ⟨s', hs', -, hgrown⟩ := hholds.rangeApply (P := sumAddPolicy)
    (show 1 ≤ 2 ^ h - 2 by omega) (by omega) (by decide) hu
  refine ⟨tagging 1 (2 ^ h - 2) 0 (2 ^ h - 1), s', hroots, hroots ▸ hs', hgrown.trans ?_⟩
  have hvisits := ends_left_out (show 3 ≤ 2 ^ h by omega)
  obtain ⟨a, b, -, -⟩ := Segment.bounds_of_inner 0 (2 ^ h - 1) (Nat.zero_le _)
    (show 0 < 1 by omega) (show 1 ≤ 2 ^ h - 2 by omega) (show 2 ^ h - 2 < 2 ^ h - 1 by omega)
  rw [Nat.clog_pow 2 h one_lt_two, Nat.log_pow one_lt_two] at hvisits
  rw [hheight] at a b
  unfold Segment.visits at hvisits ⊢
  omega

/-- What an update of `[l, r]` appends with so many pushes, and the bounds of both. -/
def AppendsPushes (n l r pushes appended : ℕ) : Prop :=
  ∃ counts visited, frontierCounts n l r = .ok counts ∧ counts.visited = .ok visited ∧
    appended = visited + 2 * pushes ∧ pushes ≤ counts.partialCount ∧
    (1 ≤ Nat.clog 2 n → counts.partialCount ≤ 2 * Nat.clog 2 n - 1) ∧
    (2 ≤ Nat.clog 2 n → appended ≤ 8 * Nat.clog 2 n - 5)

theorem appendsPushes_of_le {n l r pushes : ℕ} (hlr : l ≤ r) (hr : r < n) (hn : n ≤ sizeMax)
    (hp : pushes ≤ Segment.partials 0 (n - 1) l r) :
    AppendsPushes n l r pushes (Segment.visits 0 (n - 1) l r + 2 * pushes) := by
  have hheight := height_eq (Nat.zero_lt_of_lt hr)
  have hfrontier := frontier_run hlr hr hn
  unfold frontier at hfrontier
  rw [frontierCounts_run hlr hr hn, Effect.ok_bind] at hfrontier
  have hlarge : ∀ {k : ℕ}, k + 1 ≤ Nat.clog 2 n → k < n - 1 := by
    intro k hk
    have hpow := (Nat.lt_clog_iff_pow_lt one_lt_two).mp (Nat.lt_of_succ_le hk)
    have := Nat.lt_two_pow_self (n := k)
    omega
  have hpartials : 1 ≤ Nat.clog 2 n → Segment.partials 0 (n - 1) l r ≤ 2 * Nat.clog 2 n - 1 := by
    intro h1
    have := (Segment.partials_bounds (hlarge h1) (Nat.zero_le l) hlr (by omega)).1
    omega
  refine ⟨_, _, frontierCounts_run hlr hr hn, hfrontier, rfl, hp, hpartials, fun h2 => ?_⟩
  have hvisits := Segment.visits_le (by omega) (Nat.zero_lt_of_lt (hlarge h2)) (Nat.zero_le l) hlr
    (by omega : r ≤ n - 1)
  have := hpartials (by omega)
  omega

/-- **The push identity.** After any history on both sides, an update that is not the identity
appends the visited frontier and two records for each push the model counts, and over the SumAdd
policy the bound is reached at every height. -/
theorem push_identity :
    (∀ {X F : Type} [DecidableEq F] (M : SegmentAction X F) (sizes : RecordSizes) (values : List X)
      (model : PushCountingModel.State F) (calls : List (RangeAction F)) (l r : ℕ) (f : F),
      2 * values.length - 1 ≤ vectorMaxSize sizes.recordBytes →
      PushCountingModel.ofSize (totalPolicy M sizes) values.length = .ok model →
      l ≤ r → r < values.length → f ≠ M.identity →
      ∃ s' model' pushes appended,
        (copyOnPushPersistentTree (totalPolicy M sizes)).rangeApply l r f
          ((copyOnPushPersistentTree (totalPolicy M sizes)).run values calls) =
            .ok ((copyOnPushPersistentTree (totalPolicy M sizes)).run values calls).roots.length s' ∧
        PushCountingModel.apply (totalPolicy M sizes) l r f
          (PushCountingModel.run (totalPolicy M sizes) model calls) = .ok pushes model' ∧
        s'.nodes.length = ((copyOnPushPersistentTree (totalPolicy M sizes)).run values
          calls).nodes.length + appended ∧
        AppendsPushes values.length l r pushes appended) ∧
    ∀ h, 2 ≤ h → 2 * 2 ^ h - 1 ≤ vectorMaxSize sumAddPolicy.recordBytes →
      ∃ calls : List (RangeAction ValueType), ∃ l r delta s',
        ((copyOnPushPersistentTree sumAddPolicy).run (List.replicate (2 ^ h) 0) calls).roots.length =
          calls.length + 1 ∧
        (copyOnPushPersistentTree sumAddPolicy).rangeApply l r delta
          ((copyOnPushPersistentTree sumAddPolicy).run (List.replicate (2 ^ h) 0) calls) =
            .ok (calls.length + 1) s' ∧
        s'.nodes.length = ((copyOnPushPersistentTree sumAddPolicy).run (List.replicate (2 ^ h) 0)
          calls).nodes.length + (8 * h - 5) := by
  refine ⟨?_, fun h h2 hroom => ?_⟩
  · intro X F _ M sizes values model calls l r f hroom hmodel hlr hr hf
    have hn : values.length ≤ sizeMax := by
      have hmax : vectorMaxSize sizes.recordBytes ≤ sizeMax := by
        unfold vectorMaxSize sizeMax
        exact (Nat.div_le_self _ _).trans (by omega)
      omega
    obtain ⟨trees, t, h⟩ := sameTags_run hn hroom hmodel calls
    obtain ⟨t', c, hu⟩ := RecordTree.update_total M sizes true f 0 (values.length - 1)
      (Nat.zero_le _) (show l ≤ values.length - 1 by omega) (Nat.zero_le r) h.spans
    obtain ⟨s', model', hs, hm, hgrown, -⟩ := h.update hlr hr hn hf hu
    exact ⟨s', model', c, _, hs, hm, hgrown, appendsPushes_of_le hlr hr hn
      (RecordTree.update_pushes_le l r f 0 _ (Nat.zero_le _) hu)⟩
  · obtain ⟨calls, s', hroots, hs', hgrown⟩ := exists_extremal_run h2 hroom
    exact ⟨calls, 1, 2 ^ h - 2, 1, s', hroots, hs', hgrown⟩

/-- Four elements under an affine map of all and one of the middle, and four zeros. -/
theorem push_identity_four :
    (∃ s' model' pushes appended,
      (copyOnPushPersistentTree affinePolicy).rangeApply 1 2 ⟨2, 0⟩
        ((copyOnPushPersistentTree affinePolicy).run [1, 1, 1, 1] [⟨0, 3, ⟨1, 1⟩⟩]) = .ok 2 s' ∧
      PushCountingModel.apply affinePolicy 1 2 ⟨2, 0⟩ (PushCountingModel.run affinePolicy
        ⟨4, List.replicate 16 ⟨1, 0⟩⟩ [⟨0, 3, ⟨1, 1⟩⟩]) = .ok pushes model' ∧
      s'.nodes.length = 8 + appended ∧ AppendsPushes 4 1 2 pushes appended) ∧
    ∃ calls : List (RangeAction ValueType), ∃ l r delta s',
      ((copyOnPushPersistentTree sumAddPolicy).run (List.replicate (2 ^ 2) 0) calls).roots.length =
        calls.length + 1 ∧
      (copyOnPushPersistentTree sumAddPolicy).rangeApply l r delta
        ((copyOnPushPersistentTree sumAddPolicy).run (List.replicate (2 ^ 2) 0) calls) =
          .ok (calls.length + 1) s' ∧
      s'.nodes.length = ((copyOnPushPersistentTree sumAddPolicy).run (List.replicate (2 ^ 2) 0)
        calls).nodes.length + (8 * 2 - 5) := by
  refine ⟨?_, push_identity.2 2 le_rfl (by decide)⟩
  have h := push_identity.1 (AffineSumModPolicy.operations 7) ⟨8, 16, 40, 24⟩ [1, 1, 1, 1]
    ⟨4, List.replicate 16 ⟨1, 0⟩⟩ [⟨0, 3, ⟨1, 1⟩⟩] 1 2 ⟨2, 0⟩ (by decide) rfl (by decide) (by decide)
    (by decide)
  have hroots : ((copyOnPushPersistentTree affinePolicy).run [1, 1, 1, 1]
      [⟨0, 3, ⟨1, 1⟩⟩]).roots.length = 2 := by decide +kernel
  have hnodes : ((copyOnPushPersistentTree affinePolicy).run [1, 1, 1, 1]
      [⟨0, 3, ⟨1, 1⟩⟩]).nodes.length = 8 := by decide +kernel
  rwa [hroots, hnodes] at h

end PathCopyingActionTree

end Valseg
