import Valseg.CheckedDomain

/-!
# Versioned trees

What the structures are for, between the versioned array and their arenas: one checked tree for
each published version, and a range addition that admits the proposed array, makes the next tree
out of the latest one, and publishes it. A `Discipline` is a way to make the next tree; it comes
with what it keeps of every tree it makes. `Valid` relates the trees to the versioned array, and
`Valid.rangeAdd` is the step that keeps it.
-/

namespace Valseg

open Segment (addOn)
open TagTree (coverOn)

/-- A way to make the tree of the next version. `keeps` is what holds of each of its trees next
to the covering amounts of its version; a discipline without the guard checks every canonical
sum itself. -/
structure Discipline where
  update : (l r : ℕ) → ValueType → SumTree → (lo hi : ℕ) → Except Exception SumTree
  guarded : Bool
  keeps : (ℕ → ℕ → ℤ) → SumTree → (hi : ℕ) → Prop
  keeps_build : ∀ {t : SumTree} {hi : ℕ}, t.Tagged Int64.toInt (fun _ _ => 0) 0 hi 0 →
    t.HalfSums Int64.toInt Representable → t.tag = 0 → keeps (fun _ _ => 0) t hi
  update_ok : ∀ {t t' : SumTree} {hi l r : ℕ} {A : ℕ → ℤ} {cov : ℕ → ℕ → ℤ} {value : ValueType},
    hi < maxLength → l ≤ r → r ≤ hi → t.Represents Int64.toInt 0 hi A → keeps cov t hi →
    update l r value t 0 hi = .ok t' →
    t'.Represents Int64.toInt 0 hi (addOn A l r value.toInt) ∧
      keeps (coverOn cov l r value.toInt) t' hi ∧
      (guarded = false → CanonicalFit (addOn A l r value.toInt) 0 hi)
  update_error : ∀ {t : SumTree} {hi l r : ℕ} {value : ValueType} {e : Exception},
    hi < maxLength → l ≤ r → r ≤ hi → t.Spans 0 hi →
    update l r value t 0 hi = .error e → ∃ w, e = .overflowError w

namespace Discipline

/-- Tags are retained and a partially covered node is rebuilt from its children. -/
def retaining : Discipline where
  update l r value t lo hi := SumTree.updateWith SumTree.rebuildFromChildren l r value t lo hi
  guarded := true
  keeps cov t hi := t.HalfSums Int64.toInt Representable ∧ t.Tagged Int64.toInt cov 0 hi 0
  keeps_build ht hh _ := ⟨hh, ht⟩
  update_ok hhi hlr hr h hk hu :=
    ⟨SumTree.updateWith_represents SumTree.rebuildFromChildren_exact hhi (hlr.trans hr)
        (Nat.zero_le _) h hu,
      ⟨SumTree.updateWith_halfSums SumTree.rebuildFromChildren_halves hhi h.spans hk.1 hu,
        SumTree.updateWith_tagged hhi h.spans hk.2 hu⟩,
      fun hg => by cases hg⟩
  update_error hhi hlr hr hsp hu := SumTree.updateWith_error SumTree.rebuildFromChildren_error hhi
    (hlr.trans hr) (Nat.zero_le _) hsp hu

/-- Tags are retained and a partially covered node absorbs its share of the delta. -/
def absorbing : Discipline where
  update l r value t lo hi :=
    SumTree.updateWith (SumTree.rebuildByOverlap l r value) l r value t lo hi
  guarded := true
  keeps cov t hi := t.Tagged Int64.toInt cov 0 hi 0
  keeps_build ht _ _ := ht
  update_ok hhi hlr hr h hk hu :=
    ⟨SumTree.updateWith_represents (SumTree.rebuildByOverlap_exact hlr) hhi (hlr.trans hr)
        (Nat.zero_le _) h hu,
      SumTree.updateWith_tagged hhi h.spans hk hu, fun hg => by cases hg⟩
  update_error hhi hlr hr hsp hu := SumTree.updateWith_error SumTree.rebuildByOverlap_error hhi
    (hlr.trans hr) (Nat.zero_le _) hsp hu

/-- Tags are pushed into both children before an update descends past them. -/
def pushing : Discipline where
  update l r value t lo hi := SumTree.updatePush l r value t lo hi
  guarded := true
  keeps _ t _ := t.HalfSums Int64.toInt Representable
  keeps_build _ hh _ := hh
  update_ok hhi hlr hr h hk hu := by
    obtain ⟨h1, h2⟩ := SumTree.updatePush_represents _ 0 _ h.le hhi (hlr.trans hr)
      (Nat.zero_le _) h hk hu
    exact ⟨h1, h2, fun hg => by cases hg⟩
  update_error hhi hlr hr hsp hu := SumTree.updatePush_error _ 0 _ hsp.le hhi (hlr.trans hr)
    (Nat.zero_le _) hsp hu

/-- The magnitude bound of the next version, where the guard admits it. -/
def preflight (D : Discipline) (guard : SumAddDomainGuard) (size l r : ℕ) (value : ValueType)
    (latest : SumTree) : Except Exception ℕ :=
  if D.guarded then guard.validateRangeAdd size l r value fun values => latest.materialize 0 values
  else .ok guard.magnitudeBound

end Discipline

/-- The trees of the published versions over `size` indices, oldest first, and the guard. Over an
empty array the trees stand for nothing. -/
structure VersionedTrees where
  size : ℕ
  trees : List SumTree
  guard : SumAddDomainGuard

namespace VersionedTrees

/-- Version 0. -/
def initializeFrom (values : List ValueType) : Except Exception VersionedTrees :=
  if values = [] then .ok ⟨0, [.leaf 0 0], .ofValues values⟩
  else do
    let t ← SumTree.build values 0 (values.length - 1)
    return ⟨values.length, [t], .ofValues values⟩

/-- One more version. -/
def rangeAdd (D : Discipline) (m : VersionedTrees) (l r : ℕ) (value : ValueType) :
    Except Exception VersionedTrees := do
  validateInitialized m.trees.length
  validateNonEmpty m.size
  validateRange m.size l r
  let latest ← vectorAt m.trees (m.trees.length - 1)
  if value = 0 then return ⟨m.size, m.trees ++ [latest], m.guard⟩
  else do
    let bound ← D.preflight m.guard m.size l r value latest
    let t ← D.update l r value latest 0 (m.size - 1)
    return ⟨m.size, m.trees ++ [t], ⟨bound⟩⟩

/-- The sum over `[l, r]` in a version. -/
def rangeSum (m : VersionedTrees) (version l r : ℕ) : Except Exception ValueType := do
  validateInitialized m.trees.length
  validateVersion version m.trees.length
  validateNonEmpty m.size
  validateRange m.size l r
  let t ← vectorAt m.trees version
  t.query 0 (m.size - 1) l r 0

/-- The trees are those of the versioned array `h`. -/
structure Valid (D : Discipline) (h : RangeAdds ℤ) (m : VersionedTrees) : Prop where
  size_le : m.size ≤ maxLength
  versions : m.trees.length = h.versionCount
  represents : 0 < m.size → ∀ (v : ℕ) (t : SumTree), m.trees[v]? = some t →
    t.Represents Int64.toInt 0 (m.size - 1) (h.array v)
  keeps : 0 < m.size → ∀ (v : ℕ) (t : SumTree), m.trees[v]? = some t →
    D.keeps (h.covering v) t (m.size - 1)
  fit : 0 < m.size → ∀ v < h.versionCount, CanonicalFit (h.array v) 0 (m.size - 1)
  bound : D.guarded = true → ∀ i < m.size, (h.latest i).natAbs ≤ m.guard.magnitudeBound

variable {D : Discipline} {h : RangeAdds ℤ} {m m' : VersionedTrees} {l r v : ℕ}
  {value : ValueType}

theorem Valid.initializeFrom {values : List ValueType} (hn : values.length ≤ maxLength)
    (hm : VersionedTrees.initializeFrom values = .ok m) :
    m.size = values.length ∧ Valid D ⟨leafArray values, []⟩ m := by
  unfold VersionedTrees.initializeFrom at hm
  split_ifs at hm with h0
  · cases hm
    exact ⟨by rw [h0]; rfl, Nat.zero_le _, rfl, fun h => absurd h (lt_irrefl 0),
      fun h => absurd h (lt_irrefl 0), fun h => absurd h (lt_irrefl 0),
      fun _ i hi => absurd hi (Nat.not_lt_zero i)⟩
  · obtain ⟨t, ht, hm⟩ := Effect.bind_eq_ok.mp hm
    cases hm
    have hlen : 0 < values.length := List.length_pos_of_ne_nil h0
    rcases SumTree.build_spec values 0 (values.length - 1) (by omega) (by omega) with
      ⟨t', ht', hrep, htag, hhalf, hz, hfit⟩ | ⟨⟨w, hw⟩, -⟩
    · rw [ht, Except.ok.injEq] at ht'
      subst ht'
      have only : ∀ {v : ℕ} {u : SumTree}, [t][v]? = some u → v = 0 ∧ u = t := by
        intro v u hu
        obtain ⟨hv, hu'⟩ := List.getElem?_eq_some_iff.mp hu
        obtain rfl : v = 0 := by simpa using hv
        exact ⟨rfl, hu'.symm⟩
      refine ⟨rfl, hn, rfl, fun _ v u hu => ?_, fun _ v u hu => ?_, fun _ v hv => ?_,
        fun _ i hi => ?_⟩
      · obtain ⟨rfl, rfl⟩ := only hu
        exact hrep
      · obtain ⟨rfl, rfl⟩ := only hu
        exact D.keeps_build htag hhalf hz
      · obtain rfl : v = 0 := by
          have : v < 0 + 1 := hv
          omega
        exact hfit
      · exact natAbs_le_maxMagnitude (A := leafArray values) ⟨rfl, fun _ _ => rfl⟩ i hi
    · rw [ht] at hw
      cases hw

/-- The tree of the latest version. -/
theorem Valid.latest (hv : Valid D h m) :
    ∃ t, m.trees[m.trees.length - 1]? = some t ∧ (0 < m.size →
      t.Represents Int64.toInt 0 (m.size - 1) h.latest ∧
        D.keeps (h.covering h.updates.length) t (m.size - 1) ∧
        CanonicalFit h.latest 0 (m.size - 1)) := by
  have hlen := hv.versions
  unfold RangeAdds.versionCount at hlen
  obtain ⟨t, ht⟩ : ∃ t, m.trees[m.trees.length - 1]? = some t :=
    ⟨_, List.getElem?_eq_getElem (by omega)⟩
  refine ⟨t, ht, fun hn => ?_⟩
  rw [show m.trees.length - 1 = h.updates.length by omega] at ht
  exact ⟨hv.represents hn _ t ht, hv.keeps hn _ t ht, hv.fit hn _ (Nat.lt_succ_self _)⟩

/-- A published tree keeps the versions before it valid. -/
theorem Valid.publish (hv : Valid D h m) {u : RangeAdd ℤ} {t : SumTree} {b : SumAddDomainGuard}
    (ht : 0 < m.size →
      t.Represents Int64.toInt 0 (m.size - 1) (addOn h.latest u.left u.right u.amount))
    (hk : 0 < m.size →
      D.keeps (coverOn (h.covering h.updates.length) u.left u.right u.amount) t (m.size - 1))
    (hf : 0 < m.size → CanonicalFit (addOn h.latest u.left u.right u.amount) 0 (m.size - 1))
    (hb : D.guarded = true → ∀ i < m.size,
      (addOn h.latest u.left u.right u.amount i).natAbs ≤ b.magnitudeBound) :
    Valid D (h.add u) ⟨m.size, m.trees ++ [t], b⟩ := by
  have hlen := hv.versions
  have old : ∀ {v : ℕ} {x : SumTree}, (m.trees ++ [t])[v]? = some x →
      (v < h.versionCount ∧ m.trees[v]? = some x) ∨ (v = h.versionCount ∧ x = t) := by
    intro v x hx
    rw [← hlen]
    exact getElem?_push hx
  refine ⟨hv.size_le, ?_, fun hn v x hx => ?_, fun hn v x hx => ?_, fun hn v hlt => ?_, ?_⟩
  · rw [List.length_append, hlen, RangeAdds.add_versionCount]
    rfl
  · rcases old hx with ⟨hlt, hx⟩ | ⟨rfl, rfl⟩
    · rw [RangeAdds.add_array hlt]
      exact hv.represents hn v x hx
    · rw [RangeAdds.add_array_new]
      exact ht hn
  · rcases old hx with ⟨hlt, hx⟩ | ⟨rfl, rfl⟩
    · rw [RangeAdds.add_covering hlt]
      exact hv.keeps hn v x hx
    · rw [RangeAdds.add_covering_new]
      exact hk hn
  · rw [RangeAdds.add_versionCount] at hlt
    rcases Nat.lt_succ_iff_lt_or_eq.mp hlt with hlt | rfl
    · rw [RangeAdds.add_array hlt]
      exact hv.fit hn v hlt
    · rw [RangeAdds.add_array_new]
      exact hf hn
  · intro hg i hi
    rw [RangeAdds.add_latest]
    exact hb hg i hi

/-- An addition of zero changes no array. -/
theorem addOn_zero (A : ℕ → ℤ) : addOn A l r 0 = A := by
  funext i; unfold Segment.addOn; split_ifs <;> simp

theorem coverOn_zero (cov : ℕ → ℕ → ℤ) : coverOn cov l r 0 = cov := by
  funext a b; unfold TagTree.coverOn; split_ifs <;> simp

/-- **One addition.** It publishes the tree of the next version of the array. -/
theorem Valid.rangeAdd (hv : Valid D h m) (hm : m.rangeAdd D l r value = .ok m') :
    m'.size = m.size ∧ m.trees <+: m'.trees ∧ Valid D (h.add ⟨l, r, value.toInt⟩) m' := by
  unfold VersionedTrees.rangeAdd at hm
  obtain ⟨⟨⟩, -, hm⟩ := Effect.bind_eq_ok.mp hm
  obtain ⟨⟨⟩, hn, hm⟩ := Effect.bind_eq_ok.mp hm
  obtain ⟨⟨⟩, hr, hm⟩ := Effect.bind_eq_ok.mp hm
  obtain ⟨t, ht, hm⟩ := Effect.bind_eq_ok.mp hm
  rw [validateNonEmpty_eq_ok] at hn
  rw [validateRange_eq_ok] at hr
  obtain ⟨t₀, ht₀, hlatest⟩ := hv.latest
  rw [vectorAt_eq_ok, ht₀, Option.some.injEq] at ht
  subst ht
  obtain ⟨hrep, hkeep, hfit⟩ := hlatest hn
  by_cases h0 : value = 0
  · rw [if_pos h0] at hm
    cases hm
    refine ⟨rfl, List.prefix_append _ _, hv.publish ?_ ?_ ?_ ?_⟩ <;>
      simp only [h0, Int64.toInt_zero, addOn_zero, coverOn_zero]
    · exact fun _ => hrep
    · exact fun _ => hkeep
    · exact fun _ => hfit
    · exact hv.bound
  · rw [if_neg h0] at hm
    obtain ⟨b, hb, hm⟩ := Effect.bind_eq_ok.mp hm
    obtain ⟨t', ht', hm⟩ := Effect.bind_eq_ok.mp hm
    cases hm
    have hsize := hv.size_le
    obtain ⟨h1, h2, h3⟩ :=
      D.update_ok (by omega) hr.1 (by omega) hrep hkeep ht'
    have guardSound : D.guarded = true →
        CanonicalFit (addOn h.latest l r value.toInt) 0 (m.size - 1) ∧
          ∀ i < m.size, (addOn h.latest l r value.toInt i).natAbs ≤ b := by
      intro hg
      rw [Discipline.preflight, if_pos hg] at hb
      exact validateRangeAdd_sound hr.1 hr.2 (hv.bound hg)
        (fun xs hxs => SumTree.materialize_holds hn hrep hxs) hb
    refine ⟨rfl, List.prefix_append _ _, hv.publish (fun _ => h1) (fun _ => h2) (fun _ => ?_)
      fun hg => (guardSound hg).2⟩
    rcases hg : D.guarded with _ | _
    · exact h3 hg
    · exact (guardSound hg).1

/-- With valid arguments an addition guards and updates the latest tree, or publishes it again. -/
theorem rangeAdd_eq_update {t : SumTree} (hlr : l ≤ r) (hr : r < m.size)
    (ht : m.trees[m.trees.length - 1]? = some t) :
    m.rangeAdd D l r value =
      if value = 0 then .ok ⟨m.size, m.trees ++ [t], m.guard⟩
      else do
        let bound ← D.preflight m.guard m.size l r value t
        let t' ← D.update l r value t 0 (m.size - 1)
        return ⟨m.size, m.trees ++ [t'], ⟨bound⟩⟩ := by
  have hpos := (List.getElem?_eq_some_iff.mp ht).1
  unfold VersionedTrees.rangeAdd
  rw [validateInitialized_eq_ok.mpr (by omega), validateNonEmpty_eq_ok.mpr (by omega),
    validateRange_eq_ok.mpr ⟨hlr, hr⟩, vectorAt_eq_ok.mpr ht]
  rfl

/-! ## Reading versions -/

/-- A structure has the sums of the trees where it checks as they do and reads what they read. -/
theorem rangeSum_congr {count size : ℕ} {sum : Except Exception ValueType}
    (hcount : count = m.trees.length) (hsize : size = m.size)
    (hsum : 0 < m.size → v < m.trees.length → sum = (do
      let t ← vectorAt m.trees v
      t.query 0 (m.size - 1) l r 0)) :
    (do
      validateInitialized count
      validateVersion v count
      validateNonEmpty size
      validateRange size l r
      sum) = m.rangeSum v l r := by
  unfold rangeSum
  rw [hcount, hsize]
  refine bind_congr fun _ => ?_
  rcases h2 : validateVersion v m.trees.length with e | ⟨⟩
  · rfl
  refine bind_congr fun _ => ?_
  rcases h3 : validateNonEmpty m.size with e | ⟨⟩
  · rfl
  refine bind_congr fun _ => bind_congr fun _ => ?_
  exact hsum (validateNonEmpty_eq_ok.mp h3) (validateVersion_eq_ok.mp h2)

/-- With valid arguments the sum is the query of the version's tree. -/
theorem rangeSum_eq_query {t : SumTree} (ht : m.trees[v]? = some t) (hlr : l ≤ r)
    (hr : r < m.size) : m.rangeSum v l r = t.query 0 (m.size - 1) l r 0 := by
  have hv := (List.getElem?_eq_some_iff.mp ht).1
  unfold rangeSum
  rw [validateInitialized_eq_ok.mpr (by omega), validateVersion_eq_ok.mpr hv,
    validateNonEmpty_eq_ok.mpr (by omega), validateRange_eq_ok.mpr ⟨hlr, hr⟩,
    vectorAt_eq_ok.mpr ht]
  rfl

theorem rangeSum_eq_ok {x : ValueType} (hx : m.rangeSum v l r = .ok x) :
    l ≤ r ∧ r < m.size ∧ ∃ t, m.trees[v]? = some t ∧ t.query 0 (m.size - 1) l r 0 = .ok x := by
  obtain ⟨⟨⟩, -, hx⟩ := Effect.bind_eq_ok.mp hx
  obtain ⟨⟨⟩, -, hx⟩ := Effect.bind_eq_ok.mp hx
  obtain ⟨⟨⟩, -, hx⟩ := Effect.bind_eq_ok.mp hx
  obtain ⟨⟨⟩, h4, hx⟩ := Effect.bind_eq_ok.mp hx
  obtain ⟨t, ht, hx⟩ := Effect.bind_eq_ok.mp hx
  obtain ⟨hlr, hr⟩ := validateRange_eq_ok.mp h4
  exact ⟨hlr, hr, t, vectorAt_eq_ok.mp ht, hx⟩

/-- **Sums are exact.** -/
theorem Valid.rangeSum_exact {x : ValueType} (hv : Valid D h m) (hx : m.rangeSum v l r = .ok x) :
    x.toInt = Segment.sum (h.array v) l r := by
  obtain ⟨hlr, hr, t, ht, hq⟩ := rangeSum_eq_ok hx
  have hsize := hv.size_le
  have hrep := hv.represents (by omega) v t ht
  rw [SumTree.query_exact (by omega) hrep hq, Segment.partSum_of_contains (Nat.zero_le _) (by omega)]
  refine Segment.sum_congr fun i _ _ => ?_
  rw [Int64.toInt_zero, add_zero]

/-- With valid arguments a sum is returned or overflows. -/
theorem Valid.rangeSum_cases (hv : Valid D h m) (hver : v < h.versionCount) (hlr : l ≤ r)
    (hr : r < m.size) :
    (∃ x, m.rangeSum v l r = .ok x ∧ x.toInt = Segment.sum (h.array v) l r) ∨
      Overflows (m.rangeSum v l r) := by
  obtain ⟨t, ht⟩ : ∃ t, m.trees[v]? = some t :=
    ⟨_, List.getElem?_eq_getElem (by rw [hv.versions]; exact hver)⟩
  have hsize := hv.size_le
  rcases hq : m.rangeSum v l r with e | x
  · right
    rw [rangeSum_eq_query ht hlr hr] at hq
    obtain ⟨w, rfl⟩ :=
      SumTree.query_error (by omega) (hv.represents (by omega) v t ht).spans hq
    exact ⟨w, rfl⟩
  · exact .inl ⟨x, rfl, hv.rangeSum_exact hq⟩

/-- **Old versions stay.** A version has the same sums after more are published. -/
theorem rangeSum_of_prefix (hp : m.trees <+: m'.trees) (hs : m'.size = m.size)
    (hv : v < m.trees.length) : m'.rangeSum v l r = m.rangeSum v l r := by
  obtain ⟨rest, hrest⟩ := hp
  have hlen : m.trees.length ≤ m'.trees.length := by
    rw [← hrest, List.length_append]; omega
  have hat : vectorAt m'.trees v = vectorAt m.trees v := by
    unfold vectorAt
    rw [← hrest, List.getElem?_append_left hv]
  unfold rangeSum
  rw [hat, hs, validateInitialized_eq_ok.mpr (by omega), validateInitialized_eq_ok.mpr (by omega),
    validateVersion_eq_ok.mpr (by omega), validateVersion_eq_ok.mpr hv]

end VersionedTrees

end Valseg
