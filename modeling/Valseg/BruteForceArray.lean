import Valseg.Engine

/-!
# BruteForceArray

`brute_force_array.cpp`: the oracle of the tests, which keeps a copy of the array for every
version. An update copies a version, adds to the elements of the range one after another and
validates every canonical sum of the copy. `rangeAdd_cases` says that this decides the domain of
the updated array, and that the vectors stay the versions of the array (`StoresArrays`).
-/

namespace Valseg

open Segment (addOn)

namespace BruteForceArray

/-- The state of the array. -/
structure State where
  versions : List (List ValueType)
  deriving DecidableEq, Repr

def initializeFrom (initial : List ValueType) : EStateM Exception State Unit := do
  validateCanonicalSums initial
  set (⟨[initial]⟩ : State)

def rangeAdd (baseVersion left right : ℕ) (value : ValueType) :
    EStateM Exception State ℕ := do
  let this ← get
  validateVersion baseVersion this.versions.length
  let base ← vectorAt this.versions baseVersion
  validateRange base.length left right
  let next ← addFrom value left right base
  validateCanonicalSums next
  modify fun s => { s with versions := s.versions ++ [next] }
  return (← get).versions.length - 1

/-- The loop `sum = checkedAdd(sum, version[index])` up to `right`. -/
def sumFrom (values : List ValueType) (index right : ℕ) (sum : ValueType) :
    Except Exception ValueType :=
  if index ≤ right then do
    sumFrom values (index + 1) right (← checkedAdd sum (← vectorAt values index))
  else .ok sum
termination_by right + 1 - index

def rangeSum (this : State) (version left right : ℕ) : Except Exception ValueType := do
  validateVersion version this.versions.length
  let values ← vectorAt this.versions version
  validateRange values.length left right
  sumFrom values left right 0

def versionCount (this : State) : ℕ := this.versions.length

/-- An addition to the latest version. Without versions every number is rejected. -/
def rangeAddLatest (left right : ℕ) (value : ValueType) : EStateM Exception State ℕ := do
  rangeAdd ((← get).versions.length - 1) left right value

/-- The structure and its writing operations. -/
def engine : Engine (List ValueType) ℕ State where
  empty := ⟨[]⟩
  values := id
  initializeFrom := initializeFrom
  rangeAdd := rangeAddLatest

/-! ## Runs -/

/-- The vectors are the versions of the array, and all of them are in the domain. -/
structure StoresArrays (s : State) (size : ℕ) (h : RangeAdds ℤ) : Prop where
  count : s.versions.length = h.versionCount
  holds : ∀ v xs, s.versions[v]? = some xs → Holds xs size (h.array v)
  fit : 0 < size → ∀ v < h.versionCount, CanonicalFit (h.array v) 0 (size - 1)

variable {s s' : State} {size l r v : ℕ} {h : RangeAdds ℤ} {value : ValueType}

/-- The latest vector holds the latest array. -/
theorem StoresArrays.latest (hs : StoresArrays s size h) : ∃ xs,
    s.versions[s.versions.length - 1]? = some xs ∧ Holds xs size h.latest := by
  have hlen := hs.count
  unfold RangeAdds.versionCount at hlen
  obtain ⟨xs, hxs⟩ : ∃ xs, s.versions[s.versions.length - 1]? = some xs :=
    ⟨_, List.getElem?_eq_getElem (by omega)⟩
  have hholds := hs.holds _ xs hxs
  rw [hlen, Nat.add_sub_cancel] at hholds
  exact ⟨xs, hxs, hholds⟩

/-- One more vector in the domain keeps the versions before it. -/
theorem StoresArrays.publish {u : RangeAdd ℤ} {xs : List ValueType} (hs : StoresArrays s size h)
    (hxs : Holds xs size (addOn h.latest u.left u.right u.amount))
    (hf : CanonicalFit (addOn h.latest u.left u.right u.amount) 0 (size - 1)) :
    StoresArrays ⟨s.versions ++ [xs]⟩ size (h.add u) := by
  refine ⟨?_, fun v ys hy => ?_, fun hn v hv => ?_⟩
  · rw [List.length_append, hs.count, RangeAdds.add_versionCount]
    rfl
  · rcases getElem?_push hy with ⟨hlt, hy⟩ | ⟨rfl, rfl⟩
    · rw [RangeAdds.add_array (hs.count ▸ hlt)]
      exact hs.holds v ys hy
    · rw [hs.count, RangeAdds.add_array_new]
      exact hxs
  · rw [RangeAdds.add_versionCount] at hv
    rcases Nat.lt_succ_iff_lt_or_eq.mp hv with hlt | rfl
    · rw [RangeAdds.add_array hlt]
      exact hs.fit hn v hlt
    · rw [RangeAdds.add_array_new]
      exact hf

/-- **One addition.** With valid arguments it returns exactly on the arrays of the domain, and
then publishes the updated array. -/
theorem rangeAdd_cases (value : ValueType) (hs : StoresArrays s size h) (hlr : l ≤ r) (hr : r < size) :
    (∃ s', rangeAddLatest l r value s = .ok h.versionCount s' ∧
        StoresArrays s' size (h.add ⟨l, r, value.toInt⟩) ∧
        CanonicalFit (addOn h.latest l r value.toInt) 0 (size - 1)) ∨
      ∃ w, rangeAddLatest l r value s = .error (.overflowError w) s ∧
        ¬ CanonicalFit (addOn h.latest l r value.toInt) 0 (size - 1) := by
  obtain ⟨xs, hxs, hholds⟩ := hs.latest
  have hlt := (List.getElem?_eq_some_iff.mp hxs).1
  unfold rangeAddLatest rangeAdd
  rw [Effect.run_bind_ok (Effect.run_get s), Effect.run_bind_ok (Effect.run_get s),
    validateVersion_eq_ok.mpr hlt, Effect.run_bind_ok (Effect.liftM_ok _ s),
    vectorAt_eq_ok.mpr hxs, Effect.run_bind_ok (Effect.liftM_ok _ s), hholds.1,
    validateRange_eq_ok.mpr ⟨hlr, hr⟩, Effect.run_bind_ok (Effect.liftM_ok _ s)]
  rcases fallback_spec (v := value) hholds hlr hr with
    ⟨ys, h1, h2, h3, h4⟩ | ⟨⟨w, h1⟩ | ⟨ys, h1, w, h2⟩, hf⟩
  · rw [h1, Effect.run_bind_ok (Effect.liftM_ok _ s), h2,
      Effect.run_bind_ok (Effect.liftM_ok _ s), Effect.run_bind_ok (Effect.run_modify _ s),
      Effect.run_bind_ok (Effect.run_get _), Effect.run_pure]
    refine .inl ⟨⟨s.versions ++ [ys]⟩, ?_, hs.publish h3 h4, h4⟩
    rw [List.length_append, hs.count]
    rfl
  · rw [h1]
    exact .inr ⟨w, rfl, hf⟩
  · rw [h1, Effect.run_bind_ok (Effect.liftM_ok _ s), h2]
    exact .inr ⟨w, rfl, hf⟩

/-- Invalid arguments are rejected, and so is every addition without versions. -/
theorem rangeAdd_invalid (size : ℕ) (value : ValueType)
    (hs : s.versions = [] ∨ StoresArrays s size h ∧ ¬ (l ≤ r ∧ r < size)) :
    ∃ e, rangeAddLatest l r value s = .error e s := by
  unfold rangeAddLatest rangeAdd
  rw [Effect.run_bind_ok (Effect.run_get s), Effect.run_bind_ok (Effect.run_get s)]
  rcases hs with hs | ⟨hs, hin⟩
  · rw [hs]
    exact ⟨_, rfl⟩
  · obtain ⟨xs, hxs, hholds⟩ := hs.latest
    rw [validateVersion_eq_ok.mpr (List.getElem?_eq_some_iff.mp hxs).1,
      Effect.run_bind_ok (Effect.liftM_ok _ s), vectorAt_eq_ok.mpr hxs,
      Effect.run_bind_ok (Effect.liftM_ok _ s), hholds.1]
    rcases h2 : validateRange size l r with e | ⟨⟩
    · exact ⟨e, rfl⟩
    · exact absurd (validateRange_eq_ok.mp h2) hin

/-- An initialization returns exactly on the arrays of the domain. -/
theorem initialize_cases {values : List ValueType} (hn : 0 < values.length) :
    (∃ s', initializeFrom values s = .ok () s' ∧
        StoresArrays s' values.length ⟨leafArray values, []⟩ ∧
        CanonicalFit (leafArray values) 0 (values.length - 1)) ∨
      ∃ w, initializeFrom values s = .error (.overflowError w) s ∧
        ¬ CanonicalFit (leafArray values) 0 (values.length - 1) := by
  unfold initializeFrom
  rcases validateCanonicalSums_spec hn with ⟨h1, hf⟩ | ⟨⟨w, h1⟩, hf⟩
  · rw [h1, Effect.run_bind_ok (Effect.liftM_ok _ s)]
    refine .inl ⟨⟨[values]⟩, rfl, ⟨rfl, fun v xs hxs => ?_, fun _ v hv => ?_⟩, hf⟩
    · rcases getElem?_push (show ([] ++ [values])[v]? = some xs from hxs) with
        ⟨hlt, -⟩ | ⟨rfl, rfl⟩
      · exact absurd hlt (Nat.not_lt_zero v)
      · exact ⟨rfl, fun i _ => rfl⟩
    · obtain rfl : v = 0 := Nat.lt_one_iff.mp hv
      exact hf
  · rw [h1]
    exact .inr ⟨w, rfl, hf⟩

end BruteForceArray

end Valseg
