import Valseg.Layout
import Valseg.VersionedTrees

/-!
# The numeric domain of a run

What valid trees say about the calls that may overflow, under each discipline.

1. Where the stored sums of the halves stay representable (`Discipline.retaining` and
   `Discipline.pushing`), the latest version materializes, the guard admits exactly the arrays of
   the domain (`Valid.guardExact`), and the sum of a single index or of everything is returned.
2. Under `Discipline.retaining` a sum is returned exactly when `QueryFits` (`Valid.rangeSum_returns`),
   and an update exactly when `UpdateFits` (`Valid.update_returns`).
3. Under `Discipline.absorbing` the latest version materializes exactly when the covering amounts
   of all segments of two or more indices are representable (`Valid.innerTags_iff`).
-/

namespace Valseg

open Segment (addOn Canonical)

/-- What a guard owes a structure that stands for the array: the traversal returns the leaves, the
bound is one of them, and an addition is admitted exactly when the proposed array is in the
domain. -/
structure GuardExact (guard : SumAddDomainGuard) (size : ℕ)
    (materialize : List ValueType → Except Exception (List ValueType)) (A : ℕ → ℤ) : Prop where
  leaves : ∃ xs, materialize [] = .ok xs ∧ Holds xs size A
  bound : ∀ i < size, (A i).natAbs ≤ guard.magnitudeBound
  admits : ∀ l r value, l ≤ r → r < size →
    (Returns (guard.validateRangeAdd size l r value materialize) ↔
      CanonicalFit (addOn A l r value.toInt) 0 (size - 1))

/-- Whichever of the envelope and the traversal decides, the decision is that of the domain. -/
theorem GuardExact.of_leaves {guard : SumAddDomainGuard} {size : ℕ} {A : ℕ → ℤ}
    {materialize : List ValueType → Except Exception (List ValueType)}
    (hleaves : ∃ xs, materialize [] = .ok xs ∧ Holds xs size A)
    (hbound : ∀ i < size, (A i).natAbs ≤ guard.magnitudeBound) :
    GuardExact guard size materialize A := by
  refine ⟨hleaves, hbound, fun l r value hlr hr => ?_⟩
  obtain ⟨xs, hxs, hholds⟩ := hleaves
  rcases validateRangeAdd_complete materialize value hlr hr hbound hxs hholds with
    ⟨h1, h2⟩ | ⟨h1, h2⟩
  · exact iff_of_true h1 h2
  · exact iff_of_false h1.not_returns h2

/-- What a guarded structure owes the history: an exact guard, versions in the domain, and the
sums of single elements and of the whole latest version. -/
structure DomainExact (h : RangeAdds ℤ) (size : ℕ) (published : ℕ → Prop)
    (guard : SumAddDomainGuard) (materialize : List ValueType → Except Exception (List ValueType))
    (rangeSum : (v l r : ℕ) → Except Exception ValueType) : Prop where
  guard : GuardExact guard size materialize h.latest
  fit : ∀ v < h.versionCount, CanonicalFit (h.array v) 0 (size - 1)
  single : ∀ v, published v → ∀ i < size, ∃ x, rangeSum v i i = .ok x ∧ x.toInt = h.array v i
  whole : ∃ x, rangeSum h.updates.length 0 (size - 1) = .ok x ∧
    x.toInt = Segment.sum h.latest 0 (size - 1)

namespace VersionedTrees

variable {D : Discipline} {h : RangeAdds ℤ} {m : VersionedTrees} {l r v i : ℕ}
  {value : ValueType} {t : SumTree}

theorem addZero (A : ℕ → ℤ) : (fun i => A i + (0 : ValueType).toInt) = A := by
  funext i; rw [Int64.toInt_zero, add_zero]

/-- What a stored tree is below no ancestors. -/
theorem Valid.innerTags (hv : Valid D h m) (hn : 0 < m.size) (ht : m.trees[v]? = some t)
    (hh : t.HalfSums Int64.toInt Representable) :
    t.InnerTags Int64.toInt Representable 0 := by
  have hlt := (List.getElem?_eq_some_iff.mp ht).1
  rw [hv.versions] at hlt
  refine SumTree.innerTags_of_halfSums (hv.represents hn v t ht) hh
    ((hv.fit hn v hlt).congr fun i _ _ => (add_zero _).symm)

/-! ## The guard and the safe sums -/

/-- The latest version materializes exactly when the tags on every path are representable. -/
theorem Valid.materialize_returns (hv : Valid D h m) (hn : 0 < m.size)
    (ht : m.trees[m.trees.length - 1]? = some t) :
    Returns (t.materialize 0 []) ↔ t.InnerTags Int64.toInt Representable 0 := by
  obtain ⟨t', ht', hlatest⟩ := hv.latest
  rw [ht, Option.some.injEq] at ht'
  subst ht'
  obtain ⟨hrep, -, hfit⟩ := hlatest hn
  rw [SumTree.materialize_returns 0 [] hrep
    fun i h1 h2 => by rw [Int64.toInt_zero, add_zero]; exact hfit.element h1 h2, Int64.toInt_zero]

/-- What it materializes are the latest leaves. -/
theorem Valid.leaves (hv : Valid D h m) (hn : 0 < m.size)
    (ht : m.trees[m.trees.length - 1]? = some t) (hret : Returns (t.materialize 0 [])) :
    ∃ xs, t.materialize 0 [] = .ok xs ∧ Holds xs m.size h.latest := by
  obtain ⟨t', ht', hlatest⟩ := hv.latest
  rw [ht, Option.some.injEq] at ht'
  subst ht'
  obtain ⟨xs, hxs⟩ := hret
  exact ⟨xs, hxs, SumTree.materialize_holds hn (hlatest hn).1 hxs⟩

/-- An element is returned where the tags on its path are representable. -/
theorem Valid.rangeSum_element (hv : Valid D h m) (ht : m.trees[v]? = some t) (hi : i < m.size)
    (hin : t.InnerTags Int64.toInt Representable 0) :
    ∃ x, m.rangeSum v i i = .ok x ∧ x.toInt = h.array v i := by
  have hn : 0 < m.size := by omega
  have hsize := hv.size_le
  have hver : v < h.versionCount := by
    rw [← hv.versions]
    exact (List.getElem?_eq_some_iff.mp ht).1
  obtain ⟨x, hx⟩ := SumTree.query_single_returns 0 (i := i) (by omega) (hv.represents hn v t ht) hin
    fun h1 h2 => by rw [Int64.toInt_zero, add_zero]; exact (hv.fit hn v hver).element h1 h2
  rw [← rangeSum_eq_query ht le_rfl hi] at hx
  exact ⟨x, hx, by rw [hv.rangeSum_exact hx, Segment.sum_single]⟩

section Guard

variable (hD : ∀ {cov : ℕ → ℕ → ℤ} {t : SumTree} {hi : ℕ}, D.keeps cov t hi →
  t.HalfSums Int64.toInt Representable)

include hD in
/-- **The latest version materializes.** -/
theorem Valid.materialize_latest (hv : Valid D h m) (hn : 0 < m.size)
    (ht : m.trees[m.trees.length - 1]? = some t) :
    ∃ xs, t.materialize 0 [] = .ok xs ∧ Holds xs m.size h.latest :=
  hv.leaves hn ht ((hv.materialize_returns hn ht).mpr
    (hv.innerTags hn ht (hD (hv.keeps hn _ t ht))))

include hD in
/-- The sum of a single index is returned, in every version. -/
theorem Valid.rangeSum_single (hv : Valid D h m) (hver : v < h.versionCount) (hi : i < m.size) :
    ∃ x, m.rangeSum v i i = .ok x ∧ x.toInt = h.array v i := by
  have hn : 0 < m.size := by omega
  obtain ⟨t, ht⟩ : ∃ t, m.trees[v]? = some t :=
    ⟨_, List.getElem?_eq_getElem (by rw [hv.versions]; exact hver)⟩
  exact hv.rangeSum_element ht hi (hv.innerTags hn ht (hD (hv.keeps hn v t ht)))

include hD in
/-- **The guard is exact**, from the leaves and the bound on. -/
theorem Valid.guardExact (hv : Valid D h m) (hg : D.guarded = true) (hn : 0 < m.size)
    (ht : m.trees[m.trees.length - 1]? = some t) :
    GuardExact m.guard m.size (fun values => t.materialize 0 values) h.latest :=
  .of_leaves (hv.materialize_latest hD hn ht) (hv.bound hg)

end Guard

/-- The sum of everything is returned, in every version. -/
theorem Valid.rangeSum_whole (hv : Valid D h m) (hver : v < h.versionCount) (hn : 0 < m.size) :
    ∃ x, m.rangeSum v 0 (m.size - 1) = .ok x ∧
      x.toInt = Segment.sum (h.array v) 0 (m.size - 1) := by
  obtain ⟨t, ht⟩ : ∃ t, m.trees[v]? = some t :=
    ⟨_, List.getElem?_eq_getElem (by rw [hv.versions]; exact hver)⟩
  have hsize := hv.size_le
  obtain ⟨x, hx⟩ := SumTree.query_whole_returns (by omega) (hv.represents hn v t ht).spans
  rw [← rangeSum_eq_query ht (Nat.zero_le _) (by omega)] at hx
  exact ⟨x, hx, hv.rangeSum_exact hx⟩

/-- **The domain is exact** where the latest tree is traversed and the sums are the trees'. -/
theorem Valid.domainExact (hD : ∀ {cov : ℕ → ℕ → ℤ} {t : SumTree} {hi : ℕ}, D.keeps cov t hi →
      t.HalfSums Int64.toInt Representable)
    (hv : Valid D h m) (hg : D.guarded = true) (hn : 0 < m.size) {published : ℕ → Prop}
    {materialize : List ValueType → Except Exception (List ValueType)}
    {rangeSum : (v l r : ℕ) → Except Exception ValueType}
    (hmat : ∀ t, m.trees[m.trees.length - 1]? = some t →
      ∀ values, materialize values = t.materialize 0 values)
    (hpub : ∀ v, published v → v < h.versionCount) (hlatest : published h.updates.length)
    (hsum : ∀ v l r, published v → l ≤ r → r < m.size → rangeSum v l r = m.rangeSum v l r) :
    DomainExact h m.size published m.guard materialize rangeSum := by
  obtain ⟨t, ht, -⟩ := hv.latest
  have hfun : materialize = fun values => t.materialize 0 values := funext (hmat t ht)
  refine ⟨hfun ▸ hv.guardExact hD hg hn ht, hv.fit hn, fun v hpv i hi => ?_, ?_⟩
  · rw [hsum v i i hpv le_rfl hi]
    exact hv.rangeSum_single hD (hpub v hpv) hi
  · rw [hsum _ _ _ hlatest (Nat.zero_le _) (by omega)]
    exact hv.rangeSum_whole (hpub _ hlatest) hn

/-! ## Which additions are admitted -/

/-- Only valid arguments are admitted. -/
theorem rangeAdd_valid (h : Returns (m.rangeAdd D l r value)) : l ≤ r ∧ r < m.size := by
  obtain ⟨m', hm⟩ := h
  obtain ⟨⟨⟩, -, hm⟩ := Effect.bind_eq_ok.mp hm
  obtain ⟨⟨⟩, -, hm⟩ := Effect.bind_eq_ok.mp hm
  obtain ⟨⟨⟩, hr, -⟩ := Effect.bind_eq_ok.mp hm
  exact validateRange_eq_ok.mp hr

/-- Invalid arguments are rejected. -/
theorem Valid.rangeAdd_not_admitted {e : Exception} (hv : Valid D h m)
    (ha : (do validateNonEmpty m.size; validateRange m.size l r) = .error e) :
    m.rangeAdd D l r value = .error e := by
  have hlen := hv.versions
  have hpos : 0 < h.versionCount := RangeAdds.versionCount_pos
  unfold VersionedTrees.rangeAdd
  rw [validateInitialized_eq_ok.mpr (by omega), Effect.ok_bind]
  rcases Effect.bind_eq_error.mp ha with ha | ⟨⟨⟩, h1, ha⟩
  · rw [ha]
    rfl
  · rw [h1, ha]
    rfl

/-- An addition of zero publishes the latest tree once more. -/
theorem rangeAdd_zero (hlr : l ≤ r) (hr : r < m.size)
    (ht : m.trees[m.trees.length - 1]? = some t) :
    m.rangeAdd D l r 0 = .ok ⟨m.size, m.trees ++ [t], m.guard⟩ := by
  rw [rangeAdd_eq_update hlr hr ht, if_pos rfl]

/-- A guarded addition publishes the tree its update makes. -/
theorem rangeAdd_publishes {t' : SumTree} {b : ℕ} (hlr : l ≤ r) (hr : r < m.size) (h0 : value ≠ 0)
    (ht : m.trees[m.trees.length - 1]? = some t)
    (hb : D.preflight m.guard m.size l r value t = .ok b)
    (hu : D.update l r value t 0 (m.size - 1) = .ok t') :
    m.rangeAdd D l r value = .ok ⟨m.size, m.trees ++ [t'], ⟨b⟩⟩ := by
  rw [rangeAdd_eq_update hlr hr ht, if_neg h0, hb, Effect.ok_bind, hu]
  rfl

/-- An addition throws what its preflight or its update throws. -/
theorem rangeAdd_throws {e : Exception} (hlr : l ≤ r) (hr : r < m.size) (h0 : value ≠ 0)
    (ht : m.trees[m.trees.length - 1]? = some t)
    (he : D.preflight m.guard m.size l r value t = .error e ∨
      Returns (D.preflight m.guard m.size l r value t) ∧
        D.update l r value t 0 (m.size - 1) = .error e) :
    m.rangeAdd D l r value = .error e := by
  rw [rangeAdd_eq_update hlr hr ht, if_neg h0]
  rcases he with he | ⟨⟨b, hb⟩, he⟩
  · rw [he]
    rfl
  · rw [hb, Effect.ok_bind, he]
    rfl

/-- With valid arguments an addition returns where its preflight and its update do, and
overflows otherwise. -/
theorem Valid.rangeAdd_cases (hv : Valid D h m) (hlr : l ≤ r) (hr : r < m.size)
    (ht : m.trees[m.trees.length - 1]? = some t)
    (hp : Returns (D.preflight m.guard m.size l r value t) ∨
      Overflows (D.preflight m.guard m.size l r value t)) :
    (Returns (m.rangeAdd D l r value) ∧ (value = 0 ∨
        Returns (D.preflight m.guard m.size l r value t) ∧
          Returns (D.update l r value t 0 (m.size - 1)))) ∨
      (Overflows (m.rangeAdd D l r value) ∧ ¬ (value = 0 ∨
        Returns (D.preflight m.guard m.size l r value t) ∧
          Returns (D.update l r value t 0 (m.size - 1)))) := by
  have hsize := hv.size_le
  rw [rangeAdd_eq_update hlr hr ht]
  by_cases h0 : value = 0
  · rw [if_pos h0]
    exact .inl ⟨⟨_, rfl⟩, .inl h0⟩
  rw [if_neg h0]
  rcases hp with ⟨b, hb⟩ | ⟨w, hw⟩
  · rw [hb, Effect.ok_bind]
    rcases hu : D.update l r value t 0 (m.size - 1) with e | t'
    · obtain ⟨w, rfl⟩ := D.update_error (by omega) hlr (by omega)
        (hv.represents (by omega) _ t ht).spans hu
      refine .inr ⟨⟨w, rfl⟩, ?_⟩
      rintro (h1 | ⟨-, t', h1⟩)
      · exact h0 h1
      · cases h1
    · exact .inl ⟨⟨_, rfl⟩, .inr ⟨⟨b, rfl⟩, t', rfl⟩⟩
  · rw [hw]
    refine .inr ⟨⟨w, rfl⟩, ?_⟩
    rintro (h1 | ⟨⟨b, h1⟩, -⟩)
    · exact h0 h1
    · cases h1

/-! ## Retained tags -/

/-- **Sums.** One is returned exactly when everything its query computes is representable. -/
theorem Valid.rangeSum_returns (hv : Valid .retaining h m) (hver : v < h.versionCount)
    (hlr : l ≤ r) (hr : r < m.size) :
    Returns (m.rangeSum v l r) ↔
      SumTree.QueryFits (h.array v) (h.covering v) 0 (m.size - 1) l r := by
  obtain ⟨t, ht⟩ : ∃ t, m.trees[v]? = some t :=
    ⟨_, List.getElem?_eq_getElem (by rw [hv.versions]; exact hver)⟩
  have hn : 0 < m.size := by omega
  have hsize := hv.size_le
  obtain ⟨hhalf, htag⟩ := hv.keeps hn v t ht
  have key := SumTree.query_returns 0 l r (by omega)
    (hv.represents hn v t ht) htag (hv.innerTags hn ht hhalf)
    (by rw [addZero]; exact hv.fit hn v hver)
  rw [addZero] at key
  rw [rangeSum_eq_query ht hlr hr, key]
  refine and_iff_right fun _ => ?_
  rw [Int64.toInt_zero, zero_mul]
  exact representable_zero

/-- **Updates.** One returns exactly when every value it stores or computes is representable. -/
theorem Valid.update_returns (hv : Valid .retaining h m) (value : ValueType) (hlr : l ≤ r)
    (hr : r < m.size)
    (ht : m.trees[m.trees.length - 1]? = some t) :
    Returns (Discipline.retaining.update l r value t 0 (m.size - 1)) ↔
      SumTree.UpdateFits h.latest (h.covering h.updates.length) l r value.toInt 0 0
        (m.size - 1) := by
  obtain ⟨t', ht', hlatest⟩ := hv.latest
  rw [ht, Option.some.injEq] at ht'
  subst ht'
  have hn : 0 < m.size := by omega
  have hsize := hv.size_le
  obtain ⟨hrep, ⟨-, htag⟩, -⟩ := hlatest hn
  exact SumTree.update_returns value (by omega) (by omega) (by omega)
    (hrep.congr fun i _ _ => (sub_zero _).symm) htag

/-- **Additions.** With valid arguments one is admitted exactly when it adds nothing, or the
proposed array is in the domain and every value the update stores or computes is representable;
otherwise it overflows. -/
theorem Valid.rangeAdd_retaining (hv : Valid .retaining h m) (hlr : l ≤ r) (hr : r < m.size) :
    (Returns (m.rangeAdd .retaining l r value) ↔ value = 0 ∨
        CanonicalFit (addOn h.latest l r value.toInt) 0 (m.size - 1) ∧
          SumTree.UpdateFits h.latest (h.covering h.updates.length) l r value.toInt 0 0
            (m.size - 1)) ∧
      (¬ Returns (m.rangeAdd .retaining l r value) →
        Overflows (m.rangeAdd .retaining l r value)) := by
  obtain ⟨t, ht, -⟩ := hv.latest
  obtain ⟨xs, hxs, hholds⟩ := hv.materialize_latest (D := .retaining) And.left (by omega) ht
  have hguard := (hv.guardExact And.left rfl (by omega) ht).admits l r value hlr hr
  have hupdate := hv.update_returns value hlr hr ht
  have hpre : Discipline.retaining.preflight m.guard m.size l r value t =
      m.guard.validateRangeAdd m.size l r value fun values => t.materialize 0 values := rfl
  rw [← hguard, ← hupdate, ← hpre]
  have hp : Returns (Discipline.retaining.preflight m.guard m.size l r value t) ∨
      Overflows (Discipline.retaining.preflight m.guard m.size l r value t) := by
    rcases validateRangeAdd_complete (fun values => t.materialize 0 values) value hlr hr
      (hv.bound rfl) hxs hholds with
      ⟨h1, -⟩ | ⟨h1, -⟩
    · exact .inl h1
    · exact .inr h1
  rcases hv.rangeAdd_cases hlr hr ht hp with ⟨h1, h2⟩ | ⟨h1, h2⟩
  · exact ⟨iff_of_true h1 h2, fun h3 => absurd h1 h3⟩
  · exact ⟨iff_of_false h1.not_returns h2, fun _ => h1⟩

/-- **Preflights.** A structure that stores the latest tree and checks an update before it writes
passes the check exactly where the versioned trees return. -/
theorem Valid.preflight_decides {L : Layout} {own : ℕ → ℕ → ℕ → Prop} {root : ℕ}
    (hv : Valid .retaining h m) (hlr : l ≤ r) (hr : r < m.size) (h0 : value ≠ 0)
    (ht : m.trees[m.trees.length - 1]? = some t) (hst : L.Stores own t root 0 (m.size - 1)) :
    (∃ t' next w, m.rangeAdd .retaining l r value = .ok ⟨m.size, m.trees ++ [t'], next⟩ ∧
        SumTree.updateWith SumTree.rebuildFromChildren l r value t 0 (m.size - 1) = .ok t' ∧
        m.guard.preflight m.size l r value
          (fun values => L.materialize root 0 (m.size - 1) 0 values) = .ok next ∧
        L.validateUpdate root 0 (m.size - 1) l r value = .ok w) ∨
      ∃ e e', e'.kind = e.kind ∧ m.rangeAdd .retaining l r value = .error e ∧ (do
        let next ← m.guard.preflight m.size l r value
          fun values => L.materialize root 0 (m.size - 1) 0 values
        let _ ← L.validateUpdate root 0 (m.size - 1) l r value
        return next) = .error e' := by
  have hlen := hv.versions
  have hpos : 0 < h.versionCount := RangeAdds.versionCount_pos
  have hsize := hv.size_le
  unfold VersionedTrees.rangeAdd SumAddDomainGuard.preflight Discipline.preflight
  rw [validateInitialized_eq_ok.mpr (by omega), validateNonEmpty_eq_ok.mpr (by omega),
    validateRange_eq_ok.mpr ⟨hlr, hr⟩, vectorAt_eq_ok.mpr ht,
    Layout.validateUpdate_eq (by omega) hst]
  simp only [Effect.ok_bind, if_neg h0, Layout.materialize_eq hst,
    if_pos (show Discipline.retaining.guarded = true from rfl)]
  rcases m.guard.validateRangeAdd m.size l r value (fun values => t.materialize 0 values) with e | b
  · exact .inr ⟨e, e, rfl, rfl, rfl⟩
  have hd : Discipline.retaining.update l r value t 0 (m.size - 1) =
      SumTree.updateWith SumTree.rebuildFromChildren l r value t 0 (m.size - 1) := rfl
  rw [Effect.ok_bind, hd]
  have hhi : m.size - 1 < maxLength := by omega
  rcases SumTree.validateUpdate_decides (l := l) (r := r) hhi (by omega) (Nat.zero_le r)
    hst.spans with ⟨t', hu, hy⟩ | ⟨⟨e, hu⟩, w, hy⟩
  · rw [hu, hy]
    exact .inl ⟨t', _, _, rfl, rfl, rfl, rfl⟩
  · obtain ⟨w', rfl⟩ := Discipline.retaining.update_error hhi hlr (by omega) hst.spans hu
    rw [hu, hy]
    exact .inr ⟨.overflowError w', .overflowError w, rfl, rfl, rfl⟩

/-! ## Absorbed deltas -/

/-- The tags on every path are what the additions gave to all of a segment of two or more
indices. -/
theorem Valid.innerTags_iff (hv : Valid .absorbing h m) (hn : 0 < m.size)
    (ht : m.trees[v]? = some t) :
    t.InnerTags Int64.toInt Representable 0 ↔ ∀ a b, Canonical 0 (m.size - 1) a b → a < b →
      Representable (h.covering v a b) :=
  TagTree.Tagged.innerTags_iff (hv.keeps hn v t ht) (hv.represents hn v t ht).spans

end VersionedTrees

end Valseg
