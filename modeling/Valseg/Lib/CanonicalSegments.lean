import Valseg.Lib.Frontier

/-!
# Counting canonical segments

The canonical segments of `[lo, hi]` as a finite set, and how the number of those with a property
splits at the midpoint (`count_split`). The counts of a descent are such numbers: it goes on from
the segments that meet the range without being inside it (`partials_eq_count`), and a segment
meets the range when `meets` says so (`meets_eq_count`). The segments a descent enters are a set as
well (`visited`), with `visits` elements.
-/

namespace Segment

/-- The canonical segments. -/
def canonicals (lo hi : ℕ) : Finset (ℕ × ℕ) :=
  if lo < hi then
    insert (lo, hi) (canonicals lo (midpoint lo hi) ∪ canonicals (midpoint lo hi + 1) hi)
  else {(lo, hi)}
termination_by hi - lo
decreasing_by all_goals (simp only [midpoint] at *; omega)

theorem canonicals_single (i : ℕ) : canonicals i i = {(i, i)} := by
  rw [canonicals, if_neg (lt_irrefl i)]

theorem canonicals_split {lo hi : ℕ} (h : lo < hi) : canonicals lo hi =
    insert (lo, hi) (canonicals lo (midpoint lo hi) ∪ canonicals (midpoint lo hi + 1) hi) := by
  rw [canonicals, if_pos h]

theorem mem_canonicals {a b : ℕ} :
    ∀ lo hi, lo ≤ hi → ((a, b) ∈ canonicals lo hi ↔ Canonical lo hi a b) := by
  refine halving_induction (fun i => ?_) fun lo hi hlt ihl ihr => ?_
  · rw [canonicals_single, Finset.mem_singleton, Prod.mk.injEq]
    constructor
    · rintro ⟨rfl, rfl⟩
      exact .self le_rfl
    · intro h
      have := h.bounds
      omega
  · rw [canonicals_split hlt, Finset.mem_insert, Finset.mem_union, ihl, ihr, Prod.mk.injEq]
    constructor
    · rintro (⟨rfl, rfl⟩ | h | h)
      · exact .self hlt.le
      · exact .left hlt h
      · exact .right hlt h
    · intro h
      cases h with
      | self _ => exact .inl ⟨rfl, rfl⟩
      | left _ h => exact .inr (.inl h)
      | right _ h => exact .inr (.inr h)

/-- There is one for each index and one for each place between two of them, and no more. -/
theorem card_canonicals_le :
    ∀ lo hi, lo ≤ hi → (canonicals lo hi).card ≤ 2 * (hi - lo) + 1 := by
  refine halving_induction (fun i => ?_) fun lo hi hlt ihl ihr => ?_
  · rw [canonicals_single, Finset.card_singleton]
    omega
  · have h1 := le_midpoint lo hi
    have h2 := midpoint_lt hlt
    have hinsert := Finset.card_insert_le (lo, hi)
      (canonicals lo (midpoint lo hi) ∪ canonicals (midpoint lo hi + 1) hi)
    have hunion := Finset.card_union_le (canonicals lo (midpoint lo hi))
      (canonicals (midpoint lo hi + 1) hi)
    rw [canonicals_split hlt]
    omega

/-- The number of canonical segments with a property. -/
def count (lo hi : ℕ) (p : ℕ → ℕ → Prop) [∀ a b, Decidable (p a b)] : ℕ :=
  ((canonicals lo hi).filter fun s => p s.1 s.2).card

section Count

variable {lo hi l r : ℕ} {p q : ℕ → ℕ → Prop} [∀ a b, Decidable (p a b)]
  [∀ a b, Decidable (q a b)]

theorem count_single (i : ℕ) : count i i p = if p i i then 1 else 0 := by
  unfold count
  rw [canonicals_single, Finset.filter_singleton]
  split_ifs <;> rfl

theorem count_congr (hle : lo ≤ hi) (h : ∀ a b, Canonical lo hi a b → (p a b ↔ q a b)) :
    count lo hi p = count lo hi q := by
  unfold count
  congr 1
  refine Finset.filter_congr fun s hs => ?_
  exact h s.1 s.2 ((mem_canonicals lo hi hle).mp hs)

theorem count_eq_zero (hle : lo ≤ hi) (h : ∀ a b, Canonical lo hi a b → ¬ p a b) :
    count lo hi p = 0 := by
  unfold count
  rw [Finset.card_eq_zero, Finset.filter_eq_empty_iff]
  exact fun s hs => h s.1 s.2 ((mem_canonicals lo hi hle).mp hs)

/-- The segment itself, and those of its halves. -/
theorem count_split (h : lo < hi) : count lo hi p = (if p lo hi then 1 else 0) +
    count lo (midpoint lo hi) p + count (midpoint lo hi + 1) hi p := by
  have hm := le_midpoint lo hi
  have hm' := midpoint_lt h
  have hapart : Disjoint ((canonicals lo (midpoint lo hi)).filter fun s => p s.1 s.2)
      ((canonicals (midpoint lo hi + 1) hi).filter fun s => p s.1 s.2) := by
    rw [Finset.disjoint_left]
    intro s hl hr
    have hl' := ((mem_canonicals _ _ hm).mp (Finset.mem_filter.mp hl).1).bounds
    have hr' := ((mem_canonicals _ _ hm').mp (Finset.mem_filter.mp hr).1).bounds
    omega
  have hself : (lo, hi) ∉ ((canonicals lo (midpoint lo hi)).filter fun s => p s.1 s.2) ∪
      ((canonicals (midpoint lo hi + 1) hi).filter fun s => p s.1 s.2) := by
    rw [Finset.mem_union]
    rintro (hl | hr)
    · have := ((mem_canonicals _ _ hm).mp (Finset.mem_filter.mp hl).1).bounds
      omega
    · have := ((mem_canonicals _ _ hm').mp (Finset.mem_filter.mp hr).1).bounds
      omega
  unfold count
  rw [canonicals_split h, Finset.filter_insert, Finset.filter_union]
  split_ifs with hp
  · rw [Finset.card_insert_of_notMem hself, Finset.card_union_of_disjoint hapart]
    omega
  · rw [Finset.card_union_of_disjoint hapart]
    omega

/-- Inclusion and exclusion. -/
theorem count_or_add_count_and : count lo hi (fun a b => p a b ∨ q a b) +
    count lo hi (fun a b => p a b ∧ q a b) = count lo hi p + count lo hi q := by
  unfold count
  rw [Finset.filter_or, Finset.filter_and]
  exact Finset.card_union_add_card_inter _ _

/-! ## The counts of a descent -/

/-- The segments that meet the range. -/
theorem meets_eq_count (hlr : l ≤ r) : ∀ lo hi, lo ≤ hi → l ≤ hi → lo ≤ r →
    meets lo hi l r = count lo hi fun a b => a ≤ r ∧ l ≤ b := by
  refine halving_induction (fun i h1 h2 => ?_) fun lo hi hlt ihl ihr h1 h2 => ?_
  · rw [meets_of_single, count_single, if_pos ⟨h2, h1⟩]
  · have hm := le_midpoint lo hi
    have hm' := midpoint_lt hlt
    rw [meets_split hlt, count_split hlt, if_pos (show lo ≤ r ∧ l ≤ hi from ⟨h2, h1⟩)]
    by_cases hl : l ≤ midpoint lo hi <;> by_cases hr : r > midpoint lo hi
    · rw [if_pos hl, if_pos hr, ihl hl h2, ihr h1 hr]
    · rw [if_pos hl, if_neg hr, ihl hl h2, count_eq_zero hm']
      intro a b hc
      have := hc.bounds
      omega
    · rw [if_neg hl, if_pos hr, ihr h1 hr, count_eq_zero hm]
      intro a b hc
      have := hc.bounds
      omega
    · omega

/-- The segments a descent goes on from are those that meet the range without being inside it. -/
theorem partials_eq_count (hlr : l ≤ r) : ∀ lo hi, lo ≤ hi → l ≤ hi → lo ≤ r →
    partials lo hi l r = count lo hi fun a b => (a ≤ r ∧ l ≤ b) ∧ ¬ (l ≤ a ∧ b ≤ r) := by
  refine halving_induction (fun i h1 h2 => ?_) fun lo hi hlt ihl ihr h1 h2 => ?_
  · rw [partials_of_inside ⟨h1, h2⟩, count_single, if_neg fun h => h.2 ⟨h1, h2⟩]
  · have hm := le_midpoint lo hi
    have hm' := midpoint_lt hlt
    by_cases hin : l ≤ lo ∧ hi ≤ r
    · rw [partials_of_inside hin, count_eq_zero hlt.le]
      intro a b hc
      have := hc.bounds
      omega
    rw [partials_split hin hlt, count_split hlt,
      if_pos (show (lo ≤ r ∧ l ≤ hi) ∧ ¬ (l ≤ lo ∧ hi ≤ r) from ⟨⟨h2, h1⟩, hin⟩)]
    by_cases hl : l ≤ midpoint lo hi <;> by_cases hr : r > midpoint lo hi
    · rw [if_pos hl, if_pos hr, ihl hl h2, ihr h1 hr]
    · rw [if_pos hl, if_neg hr, ihl hl h2, count_eq_zero hm']
      intro a b hc
      have := hc.bounds
      omega
    · rw [if_neg hl, if_pos hr, ihr h1 hr, count_eq_zero hm]
      intro a b hc
      have := hc.bounds
      omega
    · omega

end Count

/-! ## The segments of a descent -/

/-- The segments a descent to the range enters: it stops inside the range, and goes on into the
halves that meet it. -/
def visited (lo hi l r : ℕ) : Finset (ℕ × ℕ) :=
  if l ≤ lo ∧ hi ≤ r then {(lo, hi)}
  else if lo < hi then
    insert (lo, hi) ((if l ≤ midpoint lo hi then visited lo (midpoint lo hi) l r else ∅) ∪
      if r > midpoint lo hi then visited (midpoint lo hi + 1) hi l r else ∅)
  else ∅
termination_by hi - lo
decreasing_by all_goals (simp only [midpoint] at *; omega)

section Visited

variable {lo hi l r : ℕ} {s : ℕ × ℕ}

theorem visited_of_inside (h : l ≤ lo ∧ hi ≤ r) : visited lo hi l r = {(lo, hi)} := by
  rw [visited, if_pos h]

theorem visited_split (hin : ¬ (l ≤ lo ∧ hi ≤ r)) (hlt : lo < hi) : visited lo hi l r =
    insert (lo, hi) ((if l ≤ midpoint lo hi then visited lo (midpoint lo hi) l r else ∅) ∪
      if r > midpoint lo hi then visited (midpoint lo hi + 1) hi l r else ∅) := by
  rw [visited, if_neg hin, if_pos hlt]

theorem visited_subset (l r : ℕ) : ∀ lo hi, lo ≤ hi → visited lo hi l r ⊆ canonicals lo hi := by
  refine halving_induction (fun i => ?_) fun lo hi hlt ihl ihr => ?_
  · rw [visited, canonicals_single, if_neg (lt_irrefl i)]
    split_ifs
    · exact subset_rfl
    · exact Finset.empty_subset _
  · by_cases hin : l ≤ lo ∧ hi ≤ r
    · rw [visited_of_inside hin, canonicals_split hlt]
      exact Finset.singleton_subset_iff.mpr (Finset.mem_insert_self _ _)
    · rw [visited_split hin hlt, canonicals_split hlt]
      refine Finset.insert_subset_insert _ (Finset.union_subset_union ?_ ?_)
      · split_ifs
        · exact ihl
        · exact Finset.empty_subset _
      · split_ifs
        · exact ihr
        · exact Finset.empty_subset _

theorem canonical_of_visited (hle : lo ≤ hi) (h : s ∈ visited lo hi l r) :
    Canonical lo hi s.1 s.2 := (mem_canonicals lo hi hle).mp (visited_subset l r lo hi hle h)

/-- Those of one half, where the descent goes on into it. -/
theorem canonical_of_mem_half {p : Prop} [Decidable p] (hle : lo ≤ hi)
    (h : s ∈ if p then visited lo hi l r else ∅) : Canonical lo hi s.1 s.2 := by
  split_ifs at h
  · exact canonical_of_visited hle h
  · exact absurd h (Finset.notMem_empty s)

/-- The segments below the left half that the descent enters. -/
theorem mem_visited_left (hin : ¬ (l ≤ lo ∧ hi ≤ r)) (hlt : lo < hi)
    (hs : Canonical lo (midpoint lo hi) s.1 s.2) : s ∈ visited lo hi l r ↔
      s ∈ if l ≤ midpoint lo hi then visited lo (midpoint lo hi) l r else ∅ := by
  have hm' := midpoint_lt hlt
  have hb := hs.bounds
  rw [visited_split hin hlt, Finset.mem_insert, Finset.mem_union]
  constructor
  · rintro (rfl | h | h)
    · omega
    · exact h
    · have := (canonical_of_mem_half hm' h).bounds
      omega
  · exact fun h => .inr (.inl h)

/-- The segments below the right half that the descent enters. -/
theorem mem_visited_right (hin : ¬ (l ≤ lo ∧ hi ≤ r)) (hlt : lo < hi)
    (hs : Canonical (midpoint lo hi + 1) hi s.1 s.2) : s ∈ visited lo hi l r ↔
      s ∈ if r > midpoint lo hi then visited (midpoint lo hi + 1) hi l r else ∅ := by
  have hm := le_midpoint lo hi
  have hb := hs.bounds
  rw [visited_split hin hlt, Finset.mem_insert, Finset.mem_union]
  constructor
  · rintro (rfl | h | h)
    · omega
    · have := (canonical_of_mem_half hm h).bounds
      omega
    · exact h
  · exact fun h => .inr (.inr h)

theorem self_mem_visited : ∀ lo hi, lo ≤ hi → l ≤ hi → lo ≤ r → (lo, hi) ∈ visited lo hi l r := by
  refine halving_induction (fun i h1 h2 => ?_) fun lo hi hlt _ _ _ _ => ?_
  · rw [visited_of_inside ⟨h1, h2⟩]
    exact Finset.mem_singleton_self _
  · by_cases hin : l ≤ lo ∧ hi ≤ r
    · rw [visited_of_inside hin]
      exact Finset.mem_singleton_self _
    · rw [visited_split hin hlt]
      exact Finset.mem_insert_self _ _

/-- It meets the range, and nothing that properly contains it is inside the range. -/
def Enters (lo hi l r a b : ℕ) : Prop := (a ≤ r ∧ l ≤ b) ∧
  ∀ c d, Canonical lo hi c d → c ≤ a ∧ b ≤ d → (c, d) ≠ (a, b) → ¬ (l ≤ c ∧ d ≤ r)

theorem self_enters (h1 : l ≤ hi) (h2 : lo ≤ r) : Enters lo hi l r lo hi := by
  refine ⟨⟨h2, h1⟩, fun c d hc _ hne => absurd ?_ hne⟩
  have := hc.bounds
  rw [Prod.mk.injEq]
  omega

/-- Inside the range only the segment itself is entered. -/
theorem mem_visited_of_inside {a b : ℕ} (hle : lo ≤ hi) (h1 : l ≤ hi) (h2 : lo ≤ r)
    (hin : l ≤ lo ∧ hi ≤ r) :
    (a, b) ∈ visited lo hi l r ↔ Canonical lo hi a b ∧ Enters lo hi l r a b := by
  rw [visited_of_inside hin, Finset.mem_singleton, Prod.mk.injEq]
  constructor
  · rintro ⟨rfl, rfl⟩
    exact ⟨.self hle, self_enters h1 h2⟩
  · rintro ⟨hc, -, hall⟩
    by_contra hne
    have := hc.bounds
    refine hall lo hi (.self hle) ⟨by omega, by omega⟩ ?_ hin
    rw [ne_eq, Prod.mk.injEq]
    omega

/-- **The segments of a descent.** -/
theorem mem_visited (l r : ℕ) : ∀ lo hi, lo ≤ hi → l ≤ hi → lo ≤ r → ∀ a b,
    ((a, b) ∈ visited lo hi l r ↔ Canonical lo hi a b ∧ Enters lo hi l r a b) := by
  refine halving_induction (fun i h1 h2 a b => mem_visited_of_inside le_rfl h1 h2 ⟨h1, h2⟩)
    fun lo hi hlt ihl ihr h1 h2 a b => ?_
  have hm := le_midpoint lo hi
  have hm' := midpoint_lt hlt
  by_cases hin : l ≤ lo ∧ hi ≤ r
  · exact mem_visited_of_inside hlt.le h1 h2 hin
  constructor
  · intro h
    have hc := canonical_of_visited hlt.le h
    refine ⟨hc, ?_⟩
    cases hc with
    | self _ => exact self_enters h1 h2
    | left _ hab =>
      have hb := hab.bounds
      rw [mem_visited_left hin hlt hab] at h
      split_ifs at h with hl
      · obtain ⟨-, hmeets, hall⟩ := (ihl hl h2 a b).mp h
        refine ⟨hmeets, fun c d hc hcon hne => ?_⟩
        cases hc with
        | self _ => exact hin
        | left _ hc => exact hall c d hc hcon hne
        | right _ hc =>
          have := hc.bounds
          omega
      · exact absurd h (Finset.notMem_empty _)
    | right _ hab =>
      have hb := hab.bounds
      rw [mem_visited_right hin hlt hab] at h
      split_ifs at h with hr
      · obtain ⟨-, hmeets, hall⟩ := (ihr h1 hr a b).mp h
        refine ⟨hmeets, fun c d hc hcon hne => ?_⟩
        cases hc with
        | self _ => exact hin
        | left _ hc =>
          have := hc.bounds
          omega
        | right _ hc => exact hall c d hc hcon hne
      · exact absurd h (Finset.notMem_empty _)
  · rintro ⟨hc, hmeets, hall⟩
    cases hc with
    | self _ => exact self_mem_visited lo hi hlt.le h1 h2
    | left _ hab =>
      have hb := hab.bounds
      have hl : l ≤ midpoint lo hi := by omega
      rw [mem_visited_left hin hlt hab, if_pos hl]
      exact (ihl hl h2 a b).mpr ⟨hab, hmeets, fun c d hc => hall c d (.left hlt hc)⟩
    | right _ hab =>
      have hb := hab.bounds
      have hr : r > midpoint lo hi := by omega
      rw [mem_visited_right hin hlt hab, if_pos hr]
      exact (ihr h1 hr a b).mpr ⟨hab, hmeets, fun c d hc => hall c d (.right hlt hc)⟩

/-- Sums over the segments of a descent, half by half. -/
theorem sum_visited {M : Type*} [AddCommMonoid M] (f : ℕ × ℕ → M) (hin : ¬ (l ≤ lo ∧ hi ≤ r))
    (hlt : lo < hi) : ∑ s ∈ visited lo hi l r, f s = f (lo, hi) +
      ((if l ≤ midpoint lo hi then ∑ s ∈ visited lo (midpoint lo hi) l r, f s else 0) +
        if r > midpoint lo hi then ∑ s ∈ visited (midpoint lo hi + 1) hi l r, f s else 0) := by
  have hm := le_midpoint lo hi
  have hm' := midpoint_lt hlt
  rw [visited_split hin hlt, Finset.sum_insert, Finset.sum_union]
  · split_ifs <;> simp only [Finset.sum_empty]
  · rw [Finset.disjoint_left]
    intro s hl hr
    have h1 := (canonical_of_mem_half hm hl).bounds
    have h2 := (canonical_of_mem_half hm' hr).bounds
    omega
  · rw [Finset.mem_union]
    rintro (h | h)
    · have := (canonical_of_mem_half hm h).bounds
      omega
    · have := (canonical_of_mem_half hm' h).bounds
      omega

/-- There are as many as the frontier counts. -/
theorem card_visited : ∀ lo hi, lo ≤ hi → l ≤ hi → lo ≤ r →
    (visited lo hi l r).card = visits lo hi l r := by
  refine halving_induction (fun i h1 h2 => ?_) fun lo hi hlt ihl ihr h1 h2 => ?_
  · rw [visited_of_inside ⟨h1, h2⟩, visits_of_inside ⟨h1, h2⟩, Finset.card_singleton]
  · by_cases hin : l ≤ lo ∧ hi ≤ r
    · rw [visited_of_inside hin, visits_of_inside hin, Finset.card_singleton]
    rw [Finset.card_eq_sum_ones, sum_visited _ hin hlt, visits_split hin hlt, Nat.add_assoc]
    simp only [← Finset.card_eq_sum_ones]
    congr 2
    · exact ite_congr rfl (fun hl => ihl hl h2) fun _ => rfl
    · exact ite_congr rfl (fun hr => ihr h1 hr) fun _ => rfl

end Visited

/-! ## The decomposition of a range -/

/-- The maximal canonical segments inside the range. -/
def decomposition (lo hi l r : ℕ) : Finset (ℕ × ℕ) :=
  (canonicals lo hi).filter fun s => (l ≤ s.1 ∧ s.2 ≤ r) ∧
    ∀ t ∈ canonicals lo hi, l ≤ t.1 ∧ t.2 ≤ r → t.1 ≤ s.1 ∧ s.2 ≤ t.2 → t = s

section Decomposition

variable {lo hi l r a b : ℕ}

theorem mem_decomposition (hle : lo ≤ hi) : (a, b) ∈ decomposition lo hi l r ↔
    Canonical lo hi a b ∧ (l ≤ a ∧ b ≤ r) ∧ ∀ c d, Canonical lo hi c d → l ≤ c ∧ d ≤ r →
      c ≤ a ∧ b ≤ d → c = a ∧ d = b := by
  unfold decomposition
  rw [Finset.mem_filter, mem_canonicals lo hi hle]
  refine and_congr_right fun _ => and_congr_right fun _ => ⟨fun h c d hc hin hcon => ?_,
    fun h t ht hin hcon => ?_⟩
  · exact Prod.mk.inj (h (c, d) ((mem_canonicals lo hi hle).mpr hc) hin hcon)
  · obtain ⟨h1, h2⟩ := h t.1 t.2 ((mem_canonicals lo hi hle).mp ht) hin hcon
    exact Prod.ext h1 h2

/-- Inside the range the segment itself is the only maximal one. -/
theorem mem_decomposition_of_inside (hle : lo ≤ hi) (hin : l ≤ lo ∧ hi ≤ r) :
    (a, b) ∈ decomposition lo hi l r ↔ a = lo ∧ b = hi := by
  rw [mem_decomposition hle]
  constructor
  · rintro ⟨hc, -, hmax⟩
    have hb := hc.bounds
    obtain ⟨h1, h2⟩ := hmax lo hi (.self hle) hin ⟨hb.1, hb.2.2⟩
    exact ⟨h1.symm, h2.symm⟩
  · rintro ⟨rfl, rfl⟩
    refine ⟨.self hle, hin, fun c d hc _ hcon => ?_⟩
    have hb := hc.bounds
    omega

/-- A segment that the range leaves out in part is not in the decomposition. -/
theorem self_notMem_decomposition (hin : ¬ (l ≤ lo ∧ hi ≤ r)) :
    (lo, hi) ∉ decomposition lo hi l r := fun h => hin (Finset.mem_filter.mp h).2.1

/-- Below the left half, the decomposition is that of the half. -/
theorem mem_decomposition_left (hin : ¬ (l ≤ lo ∧ hi ≤ r)) (hlt : lo < hi)
    (hc : Canonical lo (midpoint lo hi) a b) :
    (a, b) ∈ decomposition lo hi l r ↔ (a, b) ∈ decomposition lo (midpoint lo hi) l r := by
  have hb := hc.bounds
  rw [mem_decomposition hlt.le, mem_decomposition (le_midpoint lo hi)]
  constructor
  · rintro ⟨-, hab, hmax⟩
    exact ⟨hc, hab, fun c d hcd => hmax c d (.left hlt hcd)⟩
  · rintro ⟨-, hab, hmax⟩
    refine ⟨.left hlt hc, hab, fun c d hcd hcr hcon => ?_⟩
    cases hcd with
    | self => exact absurd hcr hin
    | left _ hcd => exact hmax c d hcd hcr hcon
    | right _ hcd =>
      have := hcd.bounds
      omega

/-- The same below the right half. -/
theorem mem_decomposition_right (hin : ¬ (l ≤ lo ∧ hi ≤ r)) (hlt : lo < hi)
    (hc : Canonical (midpoint lo hi + 1) hi a b) :
    (a, b) ∈ decomposition lo hi l r ↔ (a, b) ∈ decomposition (midpoint lo hi + 1) hi l r := by
  have hb := hc.bounds
  rw [mem_decomposition hlt.le, mem_decomposition (midpoint_lt hlt)]
  constructor
  · rintro ⟨-, hab, hmax⟩
    exact ⟨hc, hab, fun c d hcd => hmax c d (.right hlt hcd)⟩
  · rintro ⟨-, hab, hmax⟩
    refine ⟨.right hlt hc, hab, fun c d hcd hcr hcon => ?_⟩
    cases hcd with
    | self => exact absurd hcr hin
    | left _ hcd =>
      have := hcd.bounds
      omega
    | right _ hcd => exact hmax c d hcd hcr hcon

/-- A segment apart from the range has no part in it. -/
theorem notMem_decomposition_of_apart (hle : lo ≤ hi) (h : hi < l ∨ r < lo) :
    (a, b) ∉ decomposition lo hi l r := by
  rw [mem_decomposition hle]
  rintro ⟨hc, hab, -⟩
  have hb := hc.bounds
  omega

end Decomposition

end Segment
