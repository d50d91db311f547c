import Valseg.CheckedTree

/-!
# When the checked operations return

1. `innerTags_of_halfSums`: where the canonical sums of the array and the stored sums of the
   halves are representable, so are the tags on every path. Over a segment of two or more indices
   the tags on its path amount to its sum less the two sums stored below it, and half of such a
   difference is representable.
2. `materialize_returns`, `query_single_returns`: then a traversal returns, and so does the query
   of a single index.
3. `query_returns`: a query returns exactly when the part of every partially met segment and the
   tags' share of every fully met half of one are representable (`QueryFits`).
4. `update_returns`: an update returns exactly when every value it stores or computes on the way
   is representable (`UpdateFits`).
-/

namespace Valseg

open Segment (length addOn partSum Canonical Half)

/-- The segment meets the range without lying inside it. -/
def PartlyMet (a b l r : ℕ) : Prop := ¬ (b < l ∨ a > r) ∧ ¬ (l ≤ a ∧ b ≤ r)

namespace SumTree

variable {t : SumTree} {lo hi l r : ℕ} {A : ℕ → ℤ} {cov : ℕ → ℕ → ℤ} {value inherited : ValueType}

/-! ## Traversals and single indices -/

/-- Half of a difference of two representable numbers is representable. -/
theorem representable_of_mul {x k s c : ℤ} (hk : 2 ≤ k) (hs : Representable s)
    (hc : Representable c) (h : x * k = s - c) : Representable x := by
  unfold Representable at *
  constructor
  · by_contra hx
    have : x * k ≤ (-2 ^ 63 - 1) * k := mul_le_mul_of_nonneg_right (by omega) (by omega)
    omega
  · by_contra hx
    have : 2 ^ 63 * k ≤ x * k := mul_le_mul_of_nonneg_right (by omega) (by omega)
    omega

/-- **The tags on every path are representable.** -/
theorem innerTags_of_halfSums {T : ℤ} (h : t.Represents Int64.toInt lo hi A)
    (hh : t.HalfSums Int64.toInt Representable) (hf : CanonicalFit (fun i => A i + T) lo hi) :
    t.InnerTags Int64.toInt Representable T := by
  induction t generalizing lo hi A T with
  | leaf s z => trivial
  | node s z a b iha ihb =>
    have key := h.tag_mul_length T
    obtain ⟨hlt, -, ha, hb⟩ := h
    obtain ⟨h0, hha, hhb⟩ := hh
    obtain ⟨hs, hfa, hfb⟩ := (canonicalFit_split hlt).mp hf
    have hT : Representable (T + z.toInt) :=
      representable_of_mul (by unfold Segment.length; omega) hs h0 key
    have shift : ∀ i, A i + T = A i - z.toInt + (T + z.toInt) := fun i => by ring
    exact ⟨hT, iha ha hha (hfa.congr fun i _ _ => shift i),
      ihb hb hhb (hfb.congr fun i _ _ => shift i)⟩

/-- **Traversals.** One returns exactly when the tags on every path are representable. -/
theorem materialize_returns (inherited : ValueType) (values : List ValueType)
    (h : t.Represents Int64.toInt lo hi A)
    (hf : ∀ i, lo ≤ i → i ≤ hi → Representable (A i + inherited.toInt)) :
    Returns (materialize t inherited values) ↔
      t.InnerTags Int64.toInt Representable inherited.toInt := by
  induction t generalizing lo hi A inherited values with
  | leaf s z =>
    obtain ⟨rfl, hs⟩ := h
    refine ⟨fun _ => trivial, fun _ => ?_⟩
    obtain ⟨x, hx⟩ := (SumAddPolicy.apply_returns (a := inherited) (x := s) (n := 1)
      (by unfold maxLength; omega)).mpr ⟨by simpa using representable_toInt inherited,
        by simpa [hs] using hf lo le_rfl le_rfl⟩
    exact ⟨values ++ [x], by rw [materialize, hx]; rfl⟩
  | node s z a b iha ihb =>
    obtain ⟨hlt, -, ha, hb⟩ := h
    have h1 := Segment.le_midpoint lo hi
    have h2 := Segment.midpoint_lt hlt
    rw [materialize]
    by_cases hT : Representable (inherited.toInt + z.toInt)
    · obtain ⟨next, hn, hnT⟩ := checkedAdd_of_representable hT
      rw [hn, Effect.ok_bind]
      have shift : ∀ i, A i - z.toInt + next.toInt = A i + inherited.toInt := fun i => by
        rw [hnT]; ring
      have keya := iha next values ha
        fun i h3 h4 => by rw [shift]; exact hf i h3 (by omega)
      have keyb : ∀ vs, _ := fun vs => ihb next vs hb
        fun i h3 h4 => by rw [shift]; exact hf i (by omega) h4
      rw [hnT] at keya keyb
      constructor
      · rintro ⟨leaves, hl⟩
        obtain ⟨vs, hvs, hl⟩ := Effect.bind_eq_ok.mp hl
        exact ⟨hT, keya.mp ⟨vs, hvs⟩, (keyb vs).mp ⟨leaves, hl⟩⟩
      · rintro ⟨-, hia, hib⟩
        obtain ⟨vs, hvs⟩ := keya.mpr hia
        rw [hvs, Effect.ok_bind]
        exact (keyb vs).mpr hib
    · rw [checkedAdd_overflows hT]
      refine ⟨fun hr => ?_, fun hin => absurd hin.1 hT⟩
      obtain ⟨leaves, hl⟩ := hr
      cases hl

/-- What a query of a partly met segment sums up is the part of the array inside the range. -/
theorem query_halves {s z x y next : ValueType} {a b : SumTree} (hhi : hi < maxLength)
    (h : (TagTree.node s z a b).Represents Int64.toInt lo hi A)
    (hn : next.toInt = inherited.toInt + z.toInt)
    (hx : query a lo (Segment.midpoint lo hi) l r next = .ok x)
    (hy : query b (Segment.midpoint lo hi + 1) hi l r next = .ok y) :
    x.toInt + y.toInt = partSum (fun i => A i + inherited.toInt) lo hi l r := by
  obtain ⟨hlt, -, ha, hb⟩ := h
  have hm := Segment.midpoint_lt hlt
  have shift : ∀ i, A i - z.toInt + next.toInt = A i + inherited.toInt := fun i => by
    rw [hn]; ring
  rw [query_exact (by omega) ha hx, query_exact hhi hb hy, Segment.partSum_split hlt]
  simp only [shift]

/-- **Single indices.** Their query returns where the tags on every path are representable. -/
theorem query_single_returns (inherited : ValueType) {i : ℕ} (hhi : hi < maxLength)
    (h : t.Represents Int64.toInt lo hi A)
    (hin : t.InnerTags Int64.toInt Representable inherited.toInt)
    (hf : lo ≤ i → i ≤ hi → Representable (A i + inherited.toInt)) :
    Returns (query t lo hi i i inherited) := by
  induction t generalizing lo hi A inherited with
  | leaf s z =>
    obtain ⟨rfl, hs⟩ := h
    unfold query
    split_ifs with h1 h2
    · exact ⟨0, rfl⟩
    · rw [SumAddPolicy.apply_returns (length_le hhi)]
      have hlen : length lo lo = 1 := by unfold Segment.length; omega
      obtain rfl : lo = i := by omega
      rw [hlen, hs, Nat.cast_one, mul_one]
      exact ⟨representable_toInt _, hf le_rfl le_rfl⟩
    · omega
  | node s z a b iha ihb =>
    obtain ⟨hlt, -, ha, hb⟩ := id h
    obtain ⟨hT, hia, hib⟩ := hin
    have h1 := Segment.le_midpoint lo hi
    have h2 := Segment.midpoint_lt hlt
    unfold query
    split_ifs with h3 h4
    · exact ⟨0, rfl⟩
    · omega
    · obtain ⟨next, hn, hnT⟩ := checkedAdd_of_representable hT
      have shift : ∀ j, A j - z.toInt + next.toInt = A j + inherited.toInt := fun j => by
        rw [hnT]; ring
      rw [← hnT] at hia hib
      obtain ⟨x, hx⟩ := iha next (by omega) ha hia fun h5 h6 => by
        rw [shift]; exact hf h5 (by omega)
      obtain ⟨y, hy⟩ := ihb next hhi hb hib fun h5 h6 => by
        rw [shift]; exact hf (by omega) h6
      rw [hn, Effect.ok_bind, hx, Effect.ok_bind, hy, Effect.ok_bind, checkedAdd_returns,
        query_halves hhi h hnT hx hy, Segment.partSum_of_contains (by omega) (by omega),
        Segment.sum_single]
      exact hf (by omega) (by omega)

/-- The whole segment. Its query returns the root's sum. -/
theorem query_whole_returns (hhi : hi < maxLength) (h : t.Spans lo hi) :
    Returns (query t lo hi lo hi 0) := by
  have key : Returns (SumAddPolicy.apply 0 t.sum (length lo hi)) := by
    rw [SumAddPolicy.apply_returns (length_le hhi), Int64.toInt_zero, zero_mul, add_zero]
    exact ⟨representable_zero, representable_toInt _⟩
  have hle := h.le
  cases t with
  | leaf s z =>
    rw [query, if_neg (by omega), if_pos ⟨le_rfl, le_rfl⟩]
    exact key
  | node s z a b =>
    rw [query, if_neg (by omega), if_pos ⟨le_rfl, le_rfl⟩]
    exact key

/-! ## Queries -/

/-- Every value a query computes below the root is representable: the part of each partly met
segment, and the tags' share of each half of one that lies inside the range. -/
def QueryFits (A : ℕ → ℤ) (cov : ℕ → ℕ → ℤ) (lo hi l r : ℕ) : Prop :=
  ∀ a b, Canonical lo hi a b → PartlyMet a b l r → Representable (partSum A a b l r) ∧
    ∀ c d, Half a b c d → l ≤ c ∧ d ≤ r → Representable (cov a b * length c d)

/-- No segment of one apart from the range, or inside it, is partly met. -/
theorem not_partlyMet {a b : ℕ} (hc : Canonical lo hi a b)
    (h : (hi < l ∨ lo > r) ∨ (l ≤ lo ∧ hi ≤ r)) : ¬ PartlyMet a b l r := by
  obtain ⟨h1, h2, h3⟩ := hc.bounds
  unfold PartlyMet
  omega

theorem forall_half {P : ℕ → ℕ → Prop} : (∀ c d, Half lo hi c d → P c d) ↔
    P lo (Segment.midpoint lo hi) ∧ P (Segment.midpoint lo hi + 1) hi := by
  constructor
  · intro h
    exact ⟨h _ _ (.inl ⟨rfl, rfl⟩), h _ _ (.inr ⟨rfl, rfl⟩)⟩
  · rintro ⟨h1, h2⟩ c d (⟨rfl, rfl⟩ | ⟨rfl, rfl⟩)
    · exact h1
    · exact h2

/-- What a query of a segment needs below ancestors that owe `T`. -/
def ReachFits (A : ℕ → ℤ) (cov : ℕ → ℕ → ℤ) (lo hi l r : ℕ) (T : ℤ) : Prop :=
  (l ≤ lo ∧ hi ≤ r → Representable (T * length lo hi)) ∧ QueryFits A cov lo hi l r

theorem reachFits_of_apart (hle : lo ≤ hi) (h : hi < l ∨ lo > r) (T : ℤ) :
    ReachFits A cov lo hi l r T :=
  ⟨fun h2 => by omega, fun _ _ hc hp => absurd hp (not_partlyMet hc (.inl h))⟩

theorem reachFits_of_inside (h : l ≤ lo ∧ hi ≤ r) (T : ℤ) :
    ReachFits A cov lo hi l r T ↔ Representable (T * length lo hi) :=
  ⟨fun h2 => h2.1 h, fun h2 => ⟨fun _ => h2, fun _ _ hc hp =>
    absurd hp (not_partlyMet hc (.inr h))⟩⟩

theorem reachFits_of_partlyMet (hlt : lo < hi) (hp : PartlyMet lo hi l r) (T : ℤ) :
    ReachFits A cov lo hi l r T ↔ Representable (partSum A lo hi l r) ∧
      ReachFits A cov lo (Segment.midpoint lo hi) l r (cov lo hi) ∧
      ReachFits A cov (Segment.midpoint lo hi + 1) hi l r (cov lo hi) := by
  have split : QueryFits A cov lo hi l r ↔ _ := Segment.forall_canonical_split hlt
  unfold ReachFits
  rw [split, forall_half, eq_true hp, true_imp_iff]
  have hout : ¬ (l ≤ lo ∧ hi ≤ r) := hp.2
  constructor
  · rintro ⟨-, ⟨h1, h2, h3⟩, h4, h5⟩
    exact ⟨h1, ⟨h2, h4⟩, h3, h5⟩
  · rintro ⟨h1, ⟨h2, h4⟩, h3, h5⟩
    exact ⟨fun h => absurd h hout, ⟨h1, h2, h3⟩, h4, h5⟩

/-- At a segment inside the range only the tags' share is in question. -/
theorem apply_returns_of_inside {s : ValueType} (hhi : hi < maxLength) (hle : lo ≤ hi)
    (hs : s.toInt = Segment.sum A lo hi)
    (hf : CanonicalFit (fun i => A i + inherited.toInt) lo hi) (hin : l ≤ lo ∧ hi ≤ r) :
    Returns (SumAddPolicy.apply inherited s (length lo hi)) ↔
      ReachFits (fun i => A i + inherited.toInt) cov lo hi l r inherited.toInt := by
  have whole := hf.whole hle
  rw [Segment.sum_add_const hle, ← hs] at whole
  rw [SumAddPolicy.apply_returns (length_le hhi), reachFits_of_inside hin]
  exact and_iff_left whole

/-- **Queries.** One returns exactly when everything it computes is representable. -/
theorem query_returns (inherited : ValueType) (l r : ℕ) (hhi : hi < maxLength)
    (h : t.Represents Int64.toInt lo hi A)
    (ht : t.Tagged Int64.toInt cov lo hi inherited.toInt)
    (hin : t.InnerTags Int64.toInt Representable inherited.toInt)
    (hf : CanonicalFit (fun i => A i + inherited.toInt) lo hi) :
    Returns (query t lo hi l r inherited) ↔
      ReachFits (fun i => A i + inherited.toInt) cov lo hi l r inherited.toInt := by
  induction t generalizing lo hi A inherited with
  | leaf s z =>
    obtain ⟨rfl, hs⟩ := h
    unfold query
    split_ifs with h1 h2
    · exact iff_of_true ⟨0, rfl⟩ (reachFits_of_apart le_rfl h1 _)
    · exact apply_returns_of_inside hhi le_rfl (by rw [Segment.sum_single]; exact hs) hf h2
    · omega
  | node s z a b iha ihb =>
    obtain ⟨hlt, hs, ha, hb⟩ := id h
    obtain ⟨h0, hta, htb⟩ := ht
    obtain ⟨hT, hia, hib⟩ := hin
    have hm := Segment.midpoint_lt hlt
    unfold query
    split_ifs with h1 h2
    · exact iff_of_true ⟨0, rfl⟩ (reachFits_of_apart hlt.le h1 _)
    · exact apply_returns_of_inside hhi hlt.le hs hf h2
    obtain ⟨-, hfa, hfb⟩ := (canonicalFit_split hlt).mp hf
    obtain ⟨next, hn, hnT⟩ := checkedAdd_of_representable hT
    have shift : (fun j => A j - z.toInt + next.toInt) = fun j => A j + inherited.toInt := by
      funext j; rw [hnT]; ring
    rw [← hnT] at hta htb hia hib h0
    rw [← shift] at hfa hfb
    have keya := iha next (by omega) ha hta hia hfa
    have keyb := ihb next hhi hb htb hib hfb
    rw [shift] at keya keyb
    rw [hn, Effect.ok_bind, reachFits_of_partlyMet hlt ⟨h1, h2⟩, ← h0, ← keya, ← keyb]
    constructor
    · intro hret
      obtain ⟨x, hx⟩ := hret
      obtain ⟨u, hu, hx⟩ := Effect.bind_eq_ok.mp hx
      obtain ⟨v, hv, hx⟩ := Effect.bind_eq_ok.mp hx
      refine ⟨?_, ⟨u, hu⟩, v, hv⟩
      rw [← query_halves hhi h hnT hu hv, ← checkedAdd_returns]
      exact ⟨x, hx⟩
    · rintro ⟨hsum, ⟨u, hu⟩, v, hv⟩
      rw [hu, Effect.ok_bind, hv, Effect.ok_bind, checkedAdd_returns,
        query_halves hhi h hnT hu hv]
      exact hsum

/-! ## Updates -/

section UpdateFits

variable (A : ℕ → ℤ) (cov : ℕ → ℕ → ℤ) (l r : ℕ) (d : ℤ)

/-- The values a fully covered segment takes below ancestors that owe `T`: the amount added, the
new stored sum and the new tag. -/
def CoverFits (T : ℤ) (a b : ℕ) : Prop :=
  Representable (d * length a b) ∧
    Representable (Segment.sum A a b - T * length a b + d * length a b) ∧
    Representable (cov a b - T + d)

/-- The values a partly met segment takes below ancestors that owe `T`: the sum of the new stored
sums below it, its tag's share, and the new stored sum. -/
def RebuildFits (T : ℤ) (a b : ℕ) : Prop :=
  Representable (Segment.sum (addOn A l r d) a b - cov a b * length a b) ∧
    Representable ((cov a b - T) * length a b) ∧
    Representable (Segment.sum (addOn A l r d) a b - T * length a b)

/-- The values a visited segment takes. -/
def VisitFits (T : ℤ) (a b : ℕ) : Prop :=
  (l ≤ a ∧ b ≤ r → CoverFits A cov d T a b) ∧
    (PartlyMet a b l r → RebuildFits A cov l r d T a b)

/-- Every value an update stores or computes in `[lo, hi]` below ancestors that owe `T` is
representable. -/
def UpdateFits (T : ℤ) (lo hi : ℕ) : Prop :=
  VisitFits A cov l r d T lo hi ∧ ∀ a b, Canonical lo hi a b → PartlyMet a b l r →
    ∀ c e, Half a b c e → VisitFits A cov l r d (cov a b) c e

end UpdateFits

variable {d T : ℤ}

theorem updateFits_of_apart (hle : lo ≤ hi) (h : hi < l ∨ lo > r) :
    UpdateFits A cov l r d T lo hi :=
  ⟨⟨fun h2 => by omega, fun h2 => absurd h h2.1⟩,
    fun _ _ hc hp => absurd hp (not_partlyMet hc (.inl h))⟩

theorem updateFits_of_inside (h : l ≤ lo ∧ hi ≤ r) :
    UpdateFits A cov l r d T lo hi ↔ CoverFits A cov d T lo hi :=
  ⟨fun h2 => h2.1.1 h, fun h2 => ⟨⟨fun _ => h2, fun h3 => absurd h h3.2⟩,
    fun _ _ hc hp => absurd hp (not_partlyMet hc (.inr h))⟩⟩

theorem updateFits_of_partlyMet (hlt : lo < hi) (hp : PartlyMet lo hi l r) :
    UpdateFits A cov l r d T lo hi ↔ RebuildFits A cov l r d T lo hi ∧
      UpdateFits A cov l r d (cov lo hi) lo (Segment.midpoint lo hi) ∧
      UpdateFits A cov l r d (cov lo hi) (Segment.midpoint lo hi + 1) hi := by
  unfold UpdateFits
  rw [Segment.forall_canonical_split (P := fun a b => PartlyMet a b l r →
    ∀ c e, Half a b c e → VisitFits A cov l r d (cov a b) c e) hlt, forall_half]
  have hout : ¬ (l ≤ lo ∧ hi ≤ r) := hp.2
  constructor
  · rintro ⟨h1, h2, h3, h4⟩
    exact ⟨h1.2 hp, ⟨(h2 hp).1, h3⟩, (h2 hp).2, h4⟩
  · rintro ⟨h1, ⟨h2, h3⟩, h4, h5⟩
    exact ⟨⟨fun h => absurd h hout, fun _ => h1⟩, fun _ => ⟨h2, h4⟩, h3, h5⟩

/-- A covered segment returns exactly when the values it takes are representable. -/
theorem cover_returns (hhi : hi < maxLength) (h : t.Represents Int64.toInt lo hi fun i => A i - T)
    (ht : t.Tagged Int64.toInt cov lo hi T) :
    Returns (cover t lo hi value) ↔ CoverFits A cov value.toInt T lo hi := by
  have hs := h.sum_eq
  rw [Segment.sum_sub_const h.le] at hs
  have hz : t.tag.toInt = cov lo hi - T := by rw [← ht.root]; ring
  unfold CoverFits
  rw [← hs, ← hz]
  constructor
  · rintro ⟨t', ht'⟩
    obtain ⟨s, z, -, h1, h2, h3⟩ := (cover_eq_ok hhi).mp ht'
    exact ⟨h1, h2 ▸ representable_toInt s, h3 ▸ representable_toInt z⟩
  · rintro ⟨h1, h2, h3⟩
    obtain ⟨s, hs'⟩ := h2.exists_toInt
    obtain ⟨z, hz'⟩ := h3.exists_toInt
    exact ⟨t.setRoot s z, (cover_eq_ok hhi).mpr ⟨s, z, rfl, h1, hs', hz'⟩⟩

/-- A half that is updated where it meets the range stands for the updated array. -/
theorem half_represents {p : Prop} [Decidable p] {a a' : SumTree} (hhi : hi < maxLength)
    (h : a.Represents Int64.toInt lo hi A) (hp : p → l ≤ hi ∧ lo ≤ r)
    (hnp : ¬ p → hi < l ∨ r < lo)
    (ha : (if p then updateWith rebuildFromChildren l r value a lo hi else pure a) = .ok a') :
    a'.Represents Int64.toInt lo hi (addOn A l r value.toInt) := by
  rcases half_eq_ok.mp ha with ⟨h1, h2⟩ | ⟨h1, rfl⟩
  · exact updateWith_represents rebuildFromChildren_exact hhi (hp h1).1 (hp h1).2 h h2
  · exact h.congr fun i h3 h4 => (Segment.addOn_of_apart (hnp h1) h3 h4).symm

/-- A rebuilt segment returns exactly when the values it takes are representable. -/
theorem rebuildFromChildren_returns {s z : ValueType} {a b : SumTree} (hlt : lo < hi)
    (hhi : hi < maxLength) (hz : T + z.toInt = cov lo hi)
    (ha : a.Represents Int64.toInt lo (Segment.midpoint lo hi)
      (fun i => addOn A l r d i - T - z.toInt))
    (hb : b.Represents Int64.toInt (Segment.midpoint lo hi + 1) hi
      (fun i => addOn A l r d i - T - z.toInt)) :
    Returns (rebuildFromChildren s z a b lo hi) ↔ RebuildFits A cov l r d T lo hi := by
  have hsum : a.sum.toInt + b.sum.toInt =
      Segment.sum (addOn A l r d) lo hi - cov lo hi * length lo hi := by
    rw [ha.sum_eq, hb.sum_eq, ← Segment.sum_split hlt, Segment.sum_sub_const hlt.le,
      Segment.sum_sub_const hlt.le, ← hz]
    ring
  have hnew : Segment.sum (addOn A l r d) lo hi - T * length lo hi =
      a.sum.toInt + b.sum.toInt + z.toInt * length lo hi := by
    rw [hsum, ← hz]; ring
  unfold RebuildFits rebuildFromChildren
  rw [← hsum, hnew, show cov lo hi - T = z.toInt by rw [← hz]; ring]
  constructor
  · rintro ⟨x, hx⟩
    obtain ⟨c, hc, hx⟩ := Effect.bind_eq_ok.mp hx
    have hr := (SumAddPolicy.apply_returns (length_le hhi)).mp ⟨x, hx⟩
    rw [checkedAdd_eq_ok] at hc
    rw [← hc]
    exact ⟨representable_toInt c, hr⟩
  · rintro ⟨h1, h2⟩
    obtain ⟨c, hc, hcs⟩ := checkedAdd_of_representable h1
    rw [hc, Effect.ok_bind, SumAddPolicy.apply_returns (length_le hhi), hcs]
    exact h2

theorem half_returns {p : Prop} [Decidable p] {x : Except Exception SumTree} {a : SumTree}
    {Q : Prop} (h1 : p → (Returns x ↔ Q)) (h2 : ¬ p → Q) :
    Returns (if p then x else pure a) ↔ Q := by
  by_cases hp : p
  · rw [if_pos hp]
    exact h1 hp
  · rw [if_neg hp]
    exact iff_of_true ⟨a, rfl⟩ (h2 hp)

/-- **Updates.** One returns exactly when every value it stores or computes is representable. -/
theorem update_returns (value : ValueType) (hhi : hi < maxLength) (h1 : l ≤ hi) (h2 : lo ≤ r)
    (h : t.Represents Int64.toInt lo hi fun i => A i - T)
    (ht : t.Tagged Int64.toInt cov lo hi T) :
    Returns (updateWith rebuildFromChildren l r value t lo hi) ↔
      UpdateFits A cov l r value.toInt T lo hi := by
  induction t generalizing lo hi T with
  | leaf s z =>
    have hle : lo = hi := h.1
    have hin : l ≤ lo ∧ hi ≤ r := by omega
    rw [updateWith, if_pos hin, updateFits_of_inside hin]
    exact cover_returns hhi h ht
  | node s z a b iha ihb =>
    by_cases hin : l ≤ lo ∧ hi ≤ r
    · rw [updateWith, if_pos hin, updateFits_of_inside hin]
      exact cover_returns hhi h ht
    obtain ⟨hlt, -, ha, hb⟩ := h
    obtain ⟨h0, hta, htb⟩ := ht
    have hm := Segment.midpoint_lt hlt
    have shift : (fun i => A i - T - z.toInt) = fun i => A i - (T + z.toInt) := by
      funext i; ring
    have keya := half_returns (p := l ≤ Segment.midpoint lo hi) (a := a)
      (fun hl => iha (by omega) hl h2 (shift ▸ ha) hta)
      fun hl => updateFits_of_apart ha.le (.inl (by omega))
    have keyb := half_returns (p := r > Segment.midpoint lo hi) (a := b)
      (fun hl => ihb hhi h1 hl (shift ▸ hb) htb)
      fun hl => updateFits_of_apart hb.le (.inr (by omega))
    rw [h0] at keya keyb
    rw [updateWith, if_neg hin, updateFits_of_partlyMet hlt ⟨by omega, hin⟩, ← keya, ← keyb]
    have rebuilt : ∀ a' b',
        (if l ≤ Segment.midpoint lo hi then updateWith rebuildFromChildren l r value a
          lo (Segment.midpoint lo hi) else pure a) = .ok a' →
        (if r > Segment.midpoint lo hi then updateWith rebuildFromChildren l r value b
          (Segment.midpoint lo hi + 1) hi else pure b) = .ok b' →
        (Returns (rebuildFromChildren s z a' b' lo hi) ↔
          RebuildFits A cov l r value.toInt T lo hi) := by
      intro a' b' ha' hb'
      have expand : ∀ i, addOn (fun i => A i - T - z.toInt) l r value.toInt i =
          addOn A l r value.toInt i - T - z.toInt := fun i => by
        unfold Segment.addOn; split_ifs <;> ring
      refine rebuildFromChildren_returns hlt hhi h0 ?_ ?_
      · exact (half_represents (by omega) ha (fun hl => ⟨hl, h2⟩) (fun hl => .inl (by omega))
          ha').congr fun i _ _ => expand i
      · exact (half_represents hhi hb (fun hl => ⟨h1, hl⟩) (fun hl => .inr (by omega))
          hb').congr fun i _ _ => expand i
    constructor
    · rintro ⟨t', ht'⟩
      obtain ⟨a', ha', ht'⟩ := Effect.bind_eq_ok.mp ht'
      obtain ⟨b', hb', ht'⟩ := Effect.bind_eq_ok.mp ht'
      obtain ⟨s', hs', -⟩ := Effect.bind_eq_ok.mp ht'
      exact ⟨(rebuilt a' b' ha' hb').mp ⟨s', hs'⟩, ⟨a', ha'⟩, b', hb'⟩
    · rintro ⟨hr, ⟨a', ha'⟩, b', hb'⟩
      obtain ⟨s', hs'⟩ := (rebuilt a' b' ha' hb').mpr hr
      exact ⟨.node s' z a' b', by rw [ha', Effect.ok_bind, hb', Effect.ok_bind, hs']; rfl⟩

end SumTree

end Valseg
