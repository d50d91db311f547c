import Valseg.Policy
import Mathlib.Algebra.Order.BigOperators.Group.Finset

/-!
# The numeric-domain guard

`detail/sum_add_domain.hpp`. A proposed range addition is admitted when a bound on the
magnitudes proves every canonical sum representable, and otherwise when the proposed leaves and
all their canonical sums are. `validateRangeAdd_sound` and `validateRangeAdd_complete` say that
both ways decide `CanonicalFit` of the proposed array, given leaves that are the array's.
-/

namespace Valseg

open Segment (Canonical)

/-- The validated sum of one recursive segment. -/
def validateCanonicalSumsOn (values : List ValueType) (left right : ℕ) :
    Except Exception ValueType :=
  if left = right then vectorAt values left
  else if left < right then do
    let middle := Segment.midpoint left right
    let leftSum ← validateCanonicalSumsOn values left middle
    let rightSum ← validateCanonicalSumsOn values (middle + 1) right
    checkedAdd leftSum rightSum
  else .error .undefined
termination_by right - left
decreasing_by all_goals (simp only [Segment.midpoint] at *; omega)

def validateCanonicalSums (values : List ValueType) : Except Exception Unit := do
  if values ≠ [] then
    let _ ← validateCanonicalSumsOn values 0 (values.length - 1)

def magnitude (value : ValueType) : ℕ :=
  if value ≥ 0 then value.toInt.toNat else (-(value + 1)).toInt.toNat + 1

def maxMagnitude (values : List ValueType) : ℕ :=
  values.foldl (fun maximum value =>
    let current := magnitude value
    if current > maximum then current else maximum) 0

def saturatedAdd (left right : ℕ) : ℕ :=
  let maximum := 2 ^ 64 - 1
  if right > maximum - left then maximum else left + right

def provesCanonicalRepresentability (bound : ℕ) (size : ℕ) : Bool :=
  if bound = 0 ∨ size = 0 then true
  else
    let maximum := 2 ^ 63 - 1
    if size > maximum then false else bound ≤ maximum / size

/-- The loop `proposed[index] = checkedAdd(proposed[index], value)` up to `right`. -/
def addFrom (value : ValueType) (index right : ℕ) (proposed : List ValueType) :
    Except Exception (List ValueType) :=
  if index ≤ right then do
    let element ← vectorAt proposed index
    addFrom value (index + 1) right (proposed.set index (← checkedAdd element value))
  else .ok proposed
termination_by right + 1 - index

structure SumAddDomainGuard where
  magnitudeBound : ℕ := 0
  deriving DecidableEq, Repr

namespace SumAddDomainGuard

/-- The guard of an initialized array. -/
def ofValues (values : List ValueType) : SumAddDomainGuard := ⟨maxMagnitude values⟩

/-- The bound to commit after the update; `materialize` appends the current leaves. -/
def validateRangeAdd (guard : SumAddDomainGuard) (size left right : ℕ) (value : ValueType)
    (materialize : List ValueType → Except Exception (List ValueType)) :
    Except Exception ℕ :=
  let conservative := saturatedAdd guard.magnitudeBound (magnitude value)
  if provesCanonicalRepresentability conservative size then .ok conservative
  else do
    let leaves ← materialize []
    if leaves.length ≠ size then
      .error (.logicError "numeric-domain traversal produced the wrong number of elements")
    else do
      let proposed ← addFrom value left right leaves
      validateCanonicalSums proposed
      return maxMagnitude proposed

def commit (_ : SumAddDomainGuard) (nextBound : ℕ) : SumAddDomainGuard := ⟨nextBound⟩

/-- The guard to go on with after the update. -/
def preflight (guard : SumAddDomainGuard) (size left right : ℕ) (value : ValueType)
    (materialize : List ValueType → Except Exception (List ValueType)) :
    Except Exception SumAddDomainGuard := do
  return guard.commit (← guard.validateRangeAdd size left right value materialize)

theorem preflight_eq_ok {guard next : SumAddDomainGuard} {size left right : ℕ} {value : ValueType}
    {materialize : List ValueType → Except Exception (List ValueType)} :
    guard.preflight size left right value materialize = .ok next ↔
      guard.validateRangeAdd size left right value materialize = .ok next.magnitudeBound := by
  unfold preflight
  rcases guard.validateRangeAdd size left right value materialize with e | b
  · exact iff_of_false nofun nofun
  · constructor <;> rintro ⟨⟩ <;> rfl

theorem preflight_eq_error {guard : SumAddDomainGuard} {size left right : ℕ} {value : ValueType}
    {materialize : List ValueType → Except Exception (List ValueType)} {e : Exception} :
    guard.preflight size left right value materialize = .error e ↔
      guard.validateRangeAdd size left right value materialize = .error e := by
  unfold preflight
  rcases guard.validateRangeAdd size left right value materialize with e | b
  · constructor <;> rintro ⟨⟩ <;> rfl
  · exact iff_of_false nofun nofun

end SumAddDomainGuard

/-! ## The arrays the vectors stand for -/

/-- The array of a vector of leaves. -/
def leafArray (values : List ValueType) (i : ℕ) : ℤ := (values.getD i 0).toInt

theorem leafArray_of_getElem? {values : List ValueType} {i : ℕ} {x : ValueType}
    (h : values[i]? = some x) : leafArray values i = x.toInt := by
  unfold leafArray; rw [List.getD_eq_getElem?_getD, h]; rfl

/-- The vector holds the first `n` elements of the array. -/
def Holds (values : List ValueType) (n : ℕ) (A : ℕ → ℤ) : Prop :=
  values.length = n ∧ ∀ i < n, leafArray values i = A i

/-- Every canonical segment sum of the array is representable. -/
def CanonicalFit (A : ℕ → ℤ) (lo hi : ℕ) : Prop :=
  ∀ a b, Canonical lo hi a b → Representable (Segment.sum A a b)

theorem CanonicalFit.congr {A B : ℕ → ℤ} {lo hi : ℕ} (h : CanonicalFit A lo hi)
    (hAB : ∀ i, lo ≤ i → i ≤ hi → A i = B i) : CanonicalFit B lo hi := by
  intro a b hc
  obtain ⟨h1, h2, h3⟩ := hc.bounds
  rw [← Segment.sum_congr fun i h4 h5 => hAB i (h1.trans h4) (h5.trans h3)]
  exact h a b hc

theorem canonicalFit_split {A : ℕ → ℤ} {lo hi : ℕ} (h : lo < hi) :
    CanonicalFit A lo hi ↔ Representable (Segment.sum A lo hi) ∧
      CanonicalFit A lo (Segment.midpoint lo hi) ∧ CanonicalFit A (Segment.midpoint lo hi + 1) hi :=
  Segment.forall_canonical_split h

theorem CanonicalFit.element {A : ℕ → ℤ} {lo hi i : ℕ} (h : CanonicalFit A lo hi)
    (h1 : lo ≤ i) (h2 : i ≤ hi) : Representable (A i) := by
  have := h i i (.single i h1 h2)
  rwa [Segment.sum_single] at this

theorem CanonicalFit.whole {A : ℕ → ℤ} {lo hi : ℕ} (h : CanonicalFit A lo hi) (hle : lo ≤ hi) :
    Representable (Segment.sum A lo hi) := h lo hi (.self hle)

/-! ## The exact validation -/

/-- The recursion returns the segment's sum exactly when all its canonical sums fit. -/
theorem validateCanonicalSumsOn_spec (values : List ValueType) :
    ∀ lo hi, lo ≤ hi → hi < values.length →
      (∃ x, validateCanonicalSumsOn values lo hi = .ok x ∧
          x.toInt = Segment.sum (leafArray values) lo hi ∧ CanonicalFit (leafArray values) lo hi) ∨
        (Overflows (validateCanonicalSumsOn values lo hi) ∧
          ¬ CanonicalFit (leafArray values) lo hi) := by
  refine Segment.halving_induction ?_ ?_
  · intro i hi
    left
    obtain ⟨x, hx⟩ : ∃ x, values[i]? = some x := ⟨_, List.getElem?_eq_getElem hi⟩
    have hs := leafArray_of_getElem? hx
    refine ⟨x, ?_, by rw [Segment.sum_single, hs], ?_⟩
    · rw [validateCanonicalSumsOn, if_pos rfl, vectorAt_eq_ok]
      exact hx
    · unfold CanonicalFit
      rw [Segment.forall_canonical_single (P := fun a b => Representable (Segment.sum _ a b)),
        Segment.sum_single, hs]
      exact representable_toInt x
  · intro lo hi hlt ihl ihr hlen
    have h2 := Segment.midpoint_lt hlt
    rw [validateCanonicalSumsOn, if_neg hlt.ne, if_pos hlt, canonicalFit_split hlt]
    rcases ihl (by omega) with ⟨x, hx, hxs, hxf⟩ | ⟨⟨w, hw⟩, hf⟩
    · rcases ihr hlen with ⟨y, hy, hys, hyf⟩ | ⟨⟨w, hw⟩, hf⟩
      · simp only [hx, hy, Effect.ok_bind]
        rw [Segment.sum_split hlt, ← hxs, ← hys]
        by_cases hr : Representable (x.toInt + y.toInt)
        · obtain ⟨c, hc, hcs⟩ := checkedAdd_of_representable hr
          exact .inl ⟨c, hc, hcs, hr, hxf, hyf⟩
        · exact .inr ⟨⟨_, checkedAdd_overflows hr⟩, fun h => hr h.1⟩
      · simp only [hx, hw, Effect.ok_bind, Effect.error_bind]
        exact .inr ⟨⟨w, rfl⟩, fun h => hf h.2.2⟩
    · simp only [hw, Effect.error_bind]
      exact .inr ⟨⟨w, rfl⟩, fun h => hf h.2.1⟩

theorem validateCanonicalSums_spec {values : List ValueType} (h : 0 < values.length) :
    (validateCanonicalSums values = .ok () ∧
        CanonicalFit (leafArray values) 0 (values.length - 1)) ∨
      (Overflows (validateCanonicalSums values) ∧
        ¬ CanonicalFit (leafArray values) 0 (values.length - 1)) := by
  unfold validateCanonicalSums
  rw [if_pos (List.ne_nil_of_length_pos h)]
  rcases validateCanonicalSumsOn_spec values 0 (values.length - 1) (by omega) (by omega) with
    ⟨x, hx, -, hf⟩ | ⟨⟨w, hw⟩, hf⟩
  · exact .inl ⟨by rw [hx]; rfl, hf⟩
  · exact .inr ⟨⟨w, by rw [hw]; rfl⟩, hf⟩

/-- The loop adds the delta on the range, or overflows at an element that does not fit. -/
theorem addFrom_spec (value : ValueType) (right : ℕ) :
    ∀ (k index : ℕ) (xs : List ValueType), right + 1 - index = k → right < xs.length →
      (∃ ys, addFrom value index right xs = .ok ys ∧
          Holds ys xs.length (Segment.addOn (leafArray xs) index right value.toInt)) ∨
        (Overflows (addFrom value index right xs) ∧
          ∃ i, index ≤ i ∧ i ≤ right ∧ ¬ Representable (leafArray xs i + value.toInt)) := by
  intro k
  induction k with
  | zero =>
    intro index xs hk _
    left
    refine ⟨xs, ?_, rfl, fun i hi => ?_⟩
    · rw [addFrom, if_neg (by omega)]
    · rw [Segment.addOn, if_neg (by omega)]
  | succ k ih =>
    intro index xs hk hlen
    obtain ⟨x, hx⟩ : ∃ x, xs[index]? = some x := ⟨_, List.getElem?_eq_getElem (by omega)⟩
    have hxs := leafArray_of_getElem? hx
    rw [addFrom, if_pos (by omega), vectorAt_eq_ok.mpr hx, Effect.ok_bind]
    by_cases hr : Representable (x.toInt + value.toInt)
    · obtain ⟨y, hy, hys⟩ := checkedAdd_of_representable hr
      rw [hy, Effect.ok_bind]
      have hset : ∀ i, leafArray (xs.set index y) i =
          if i = index then x.toInt + value.toInt else leafArray xs i := by
        intro i
        unfold leafArray
        rw [List.getD_eq_getElem?_getD, List.getD_eq_getElem?_getD, List.getElem?_set]
        by_cases hi : i = index
        · rw [if_pos hi.symm, if_pos hi, if_pos (by omega), ← hys]; rfl
        · rw [if_neg (Ne.symm hi), if_neg hi]
      rcases ih (index + 1) (xs.set index y) (by omega) (by rwa [List.length_set]) with
        ⟨ys, h1, h2, h3⟩ | ⟨h1, i, h2, h3, h4⟩
      · rw [List.length_set] at h2 h3
        refine .inl ⟨ys, h1, h2, fun i hi => ?_⟩
        rw [h3 i hi, Segment.addOn, Segment.addOn, hset]
        by_cases hi' : i = index
        · subst hi'
          rw [if_neg (by omega), if_pos rfl, if_pos ⟨le_rfl, by omega⟩, hxs]
        · rw [if_neg hi']
          split_ifs <;> first | rfl | omega
      · rw [hset, if_neg (by omega)] at h4
        exact .inr ⟨h1, i, by omega, h3, h4⟩
    · rw [checkedAdd_overflows hr]
      exact .inr ⟨⟨_, rfl⟩, index, le_rfl, by omega, by rwa [hxs]⟩

/-! ## The magnitude envelope -/

theorem magnitude_eq (v : ValueType) : magnitude v = v.toInt.natAbs := by
  have hv := representable_toInt v
  unfold magnitude
  by_cases h : v ≥ 0
  · rw [if_pos h]
    rw [ge_iff_le, Int64.le_iff_toInt_le, Int64.toInt_zero] at h
    omega
  · rw [if_neg h]
    rw [ge_iff_le, Int64.le_iff_toInt_le, Int64.toInt_zero] at h
    unfold Representable at hv
    have h1 : (v + 1).toInt = v.toInt + 1 := by
      rw [Int64.toInt_add, Int64.toInt_one, bmod_of_representable ⟨by omega, by omega⟩]
    have h2 : (-(v + 1)).toInt = -(v.toInt + 1) := by
      rw [Int64.toInt_neg, h1, bmod_of_representable ⟨by omega, by omega⟩]
    rw [h2]; omega

theorem le_foldl_maxMagnitude (values : List ValueType) (b : ℕ) :
    b ≤ values.foldl (fun m v => if magnitude v > m then magnitude v else m) b ∧
      ∀ v ∈ values, magnitude v ≤
        values.foldl (fun m v => if magnitude v > m then magnitude v else m) b := by
  induction values generalizing b with
  | nil => simp
  | cons x xs ih =>
    obtain ⟨h1, h2⟩ := ih (if magnitude x > b then magnitude x else b)
    have hb : b ≤ (if magnitude x > b then magnitude x else b) := by split_ifs <;> omega
    have hx : magnitude x ≤ (if magnitude x > b then magnitude x else b) := by
      split_ifs <;> omega
    refine ⟨hb.trans h1, fun v hv => ?_⟩
    rcases List.mem_cons.mp hv with rfl | hv
    · exact hx.trans h1
    · exact h2 v hv

/-- The maximum bounds every leaf. -/
theorem natAbs_le_maxMagnitude {values : List ValueType} {n : ℕ} {A : ℕ → ℤ}
    (h : Holds values n A) : ∀ i < n, (A i).natAbs ≤ maxMagnitude values := by
  intro i hi
  obtain ⟨x, hx⟩ : ∃ x, values[i]? = some x := ⟨_, List.getElem?_eq_getElem (h.1 ▸ hi)⟩
  rw [← h.2 i hi, leafArray_of_getElem? hx, ← magnitude_eq]
  exact (le_foldl_maxMagnitude values 0).2 x (List.mem_of_getElem? hx)

theorem provesCanonicalRepresentability_iff {b n : ℕ} (hn : 0 < n) :
    provesCanonicalRepresentability b n = true ↔ b * n ≤ 2 ^ 63 - 1 := by
  unfold provesCanonicalRepresentability
  by_cases hb : b = 0
  · simp [hb]
  · rw [if_neg (by omega)]
    by_cases hs : n > 2 ^ 63 - 1
    · have : n ≤ b * n := Nat.le_mul_of_pos_left n (by omega)
      simp only [if_pos hs, Bool.false_eq_true, false_iff]; omega
    · simp only [if_neg hs, decide_eq_true_eq]
      exact Nat.le_div_iff_mul_le hn

/-- The sum of a segment is at most its length times a bound on the elements. -/
theorem natAbs_sum_le {A : ℕ → ℤ} {b lo hi : ℕ} (hle : lo ≤ hi)
    (h : ∀ i, lo ≤ i → i ≤ hi → (A i).natAbs ≤ b) :
    (Segment.sum A lo hi).natAbs ≤ b * Segment.length lo hi := by
  have h1 : |Segment.sum A lo hi| ≤ ∑ i ∈ Finset.Icc lo hi, |A i| := Finset.abs_sum_le_sum_abs _ _
  have h2 : ∑ i ∈ Finset.Icc lo hi, |A i| ≤ (Finset.Icc lo hi).card • (b : ℤ) := by
    refine Finset.sum_le_card_nsmul _ _ _ fun i hi => ?_
    rw [Finset.mem_Icc] at hi
    rw [Int.abs_eq_natAbs]
    exact_mod_cast h i hi.1 hi.2
  rw [Nat.card_Icc, nsmul_eq_mul, show hi + 1 - lo = Segment.length lo hi by
    unfold Segment.length; omega] at h2
  have h3 := h1.trans h2
  rw [mul_comm] at h3
  have h4 : ((Segment.sum A lo hi).natAbs : ℤ) ≤ ((b * Segment.length lo hi : ℕ) : ℤ) := by
    rw [Int.natCast_natAbs]; exact_mod_cast h3
  exact_mod_cast h4

/-- **The envelope.** A bound that passes the constant-time test proves the whole domain. -/
theorem canonicalFit_of_envelope {A : ℕ → ℤ} {b n : ℕ} (hn : 0 < n)
    (hb : ∀ i < n, (A i).natAbs ≤ b) (hp : provesCanonicalRepresentability b n = true) :
    CanonicalFit A 0 (n - 1) := by
  rw [provesCanonicalRepresentability_iff hn] at hp
  intro a c hc
  obtain ⟨h1, h2, h3⟩ := hc.bounds
  have hs := natAbs_sum_le (A := A) (b := b) h2 fun i h4 h5 => hb i (by omega)
  have hl : Segment.length a c ≤ n := by unfold Segment.length; omega
  have hm : b * Segment.length a c ≤ b * n := Nat.mul_le_mul_left b hl
  unfold Representable
  omega

/-! ## What the guard decides -/

section Guard

variable {guard : SumAddDomainGuard} {n l r : ℕ} {v : ValueType} {A : ℕ → ℤ}
  {materialize : List ValueType → Except Exception (List ValueType)}

theorem natAbs_addOn_le (hb : ∀ i < n, (A i).natAbs ≤ guard.magnitudeBound) :
    ∀ i < n, (Segment.addOn A l r v.toInt i).natAbs ≤ guard.magnitudeBound + magnitude v := by
  intro i hi
  have := hb i hi
  rw [magnitude_eq]
  unfold Segment.addOn
  split_ifs <;> omega

/-- Saturation is never below the true bound where the envelope is proved. -/
theorem saturatedAdd_of_proves {a b : ℕ} (hn : 0 < n)
    (h : provesCanonicalRepresentability (saturatedAdd a b) n = true) :
    saturatedAdd a b = a + b := by
  rw [provesCanonicalRepresentability_iff hn] at h
  unfold saturatedAdd at *
  simp only at *
  split_ifs at * with hs
  · have : 2 ^ 64 - 1 ≤ (2 ^ 64 - 1) * n := Nat.le_mul_of_pos_right _ hn
    omega
  · rfl

/-- The exact fallback decides the domain of the proposed array. -/
theorem fallback_spec {xs : List ValueType} (hxs : Holds xs n A) (hlr : l ≤ r) (hr : r < n) :
    (∃ ys, addFrom v l r xs = .ok ys ∧ validateCanonicalSums ys = .ok () ∧
        Holds ys n (Segment.addOn A l r v.toInt) ∧
        CanonicalFit (Segment.addOn A l r v.toInt) 0 (n - 1)) ∨
      ((Overflows (addFrom v l r xs) ∨
          ∃ ys, addFrom v l r xs = .ok ys ∧ Overflows (validateCanonicalSums ys)) ∧
        ¬ CanonicalFit (Segment.addOn A l r v.toInt) 0 (n - 1)) := by
  obtain ⟨hlen, hA⟩ := hxs
  rcases addFrom_spec v r _ l xs rfl (by omega) with ⟨ys, h1, h2, h3⟩ | ⟨⟨w, h1⟩, i, h2, h3, h4⟩
  · have hys : Holds ys n (Segment.addOn A l r v.toInt) := by
      refine ⟨h2.trans hlen, fun i hi => ?_⟩
      rw [h3 i (by omega)]
      unfold Segment.addOn
      rw [hA i hi]
    have hcongr : ∀ i, 0 ≤ i → i ≤ n - 1 → leafArray ys i = Segment.addOn A l r v.toInt i :=
      fun i _ hi => hys.2 i (by omega)
    rcases validateCanonicalSums_spec (show 0 < ys.length by omega) with ⟨h5, h6⟩ | ⟨⟨w, h5⟩, h6⟩
    · rw [hys.1] at h6
      exact .inl ⟨ys, h1, h5, hys, h6.congr hcongr⟩
    · rw [hys.1] at h6
      refine .inr ⟨.inr ⟨ys, h1, w, h5⟩, fun hf => h6 (hf.congr fun i h7 h8 => ?_)⟩
      exact (hcongr i h7 h8).symm
  · refine .inr ⟨.inl ⟨w, h1⟩, fun hf => h4 ?_⟩
    have := hf.element (i := i) (by omega) (by omega)
    rwa [Segment.addOn, if_pos ⟨h2, h3⟩, ← hA i (by omega)] at this

/-- **Soundness.** What the guard admits is in the domain, and the bound it returns bounds it. -/
theorem validateRangeAdd_sound {b : ℕ} (hlr : l ≤ r) (hr : r < n)
    (hb : ∀ i < n, (A i).natAbs ≤ guard.magnitudeBound)
    (hm : ∀ xs, materialize [] = .ok xs → Holds xs n A)
    (h : guard.validateRangeAdd n l r v materialize = .ok b) :
    CanonicalFit (Segment.addOn A l r v.toInt) 0 (n - 1) ∧
      ∀ i < n, (Segment.addOn A l r v.toInt i).natAbs ≤ b := by
  unfold SumAddDomainGuard.validateRangeAdd at h
  simp only at h
  split_ifs at h with hp
  · rw [Except.ok.injEq] at h
    rw [saturatedAdd_of_proves (by omega) hp] at h hp
    have hb' := natAbs_addOn_le (l := l) (r := r) (v := v) hb
    subst h
    exact ⟨canonicalFit_of_envelope (by omega) hb' hp, hb'⟩
  · obtain ⟨xs, hx, h⟩ := Effect.bind_eq_ok.mp h
    have hxs := hm xs hx
    rw [if_neg (by rw [hxs.1]; exact not_not.mpr rfl)] at h
    rcases fallback_spec hxs hlr hr with
      ⟨ys, h1, h2, h3, h4⟩ | ⟨⟨w, h1⟩ | ⟨ys, h1, w, h2⟩, -⟩
    · rw [h1, Effect.ok_bind, h2, Effect.ok_bind] at h
      cases h
      exact ⟨h4, natAbs_le_maxMagnitude h3⟩
    · rw [h1] at h
      cases h
    · rw [h1, Effect.ok_bind, h2] at h
      cases h

/-- **Completeness.** With leaves that materialize, the guard admits the whole domain and
overflows outside it. -/
theorem validateRangeAdd_complete
    (materialize : List ValueType → Except Exception (List ValueType)) (v : ValueType)
    {xs : List ValueType} (hlr : l ≤ r) (hr : r < n)
    (hb : ∀ i < n, (A i).natAbs ≤ guard.magnitudeBound)
    (hm : materialize [] = .ok xs) (hxs : Holds xs n A) :
    (Returns (guard.validateRangeAdd n l r v materialize) ∧
        CanonicalFit (Segment.addOn A l r v.toInt) 0 (n - 1)) ∨
      (Overflows (guard.validateRangeAdd n l r v materialize) ∧
        ¬ CanonicalFit (Segment.addOn A l r v.toInt) 0 (n - 1)) := by
  by_cases hp : provesCanonicalRepresentability
      (saturatedAdd guard.magnitudeBound (magnitude v)) n = true
  · left
    have hret : guard.validateRangeAdd n l r v materialize =
        .ok (saturatedAdd guard.magnitudeBound (magnitude v)) := if_pos hp
    refine ⟨⟨_, hret⟩, (validateRangeAdd_sound hlr hr hb (fun ys hy => ?_) hret).1⟩
    rw [hm, Except.ok.injEq] at hy
    exact hy ▸ hxs
  · unfold SumAddDomainGuard.validateRangeAdd
    simp only [if_neg hp, hm, Effect.ok_bind, hxs.1, ne_eq, not_true_eq_false, if_false]
    rcases fallback_spec hxs hlr hr with
      ⟨ys, h1, h2, h3, h4⟩ | ⟨⟨w, h1⟩ | ⟨ys, h1, w, h2⟩, hf⟩
    · exact .inl ⟨⟨maxMagnitude ys, by rw [h1, Effect.ok_bind, h2]; rfl⟩, h4⟩
    · exact .inr ⟨⟨w, by rw [h1]; rfl⟩, hf⟩
    · exact .inr ⟨⟨w, by rw [h1, Effect.ok_bind, h2]; rfl⟩, hf⟩

end Guard

end Valseg
