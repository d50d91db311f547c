import Valseg.Detail
import Valseg.Lib.Effect
import Mathlib.Tactic.Linarith

/-!
# The SumAdd policy

`policy.hpp`: exact 64-bit addition and multiplication that throw where the result is not
representable, and the range-add policy over them. The specifications are stated through
`toInt`: a checked operation returns `c` exactly when `c` is the mathematical result
(`checkedAdd_eq_ok`, `checkedMultiply_eq_ok`, `apply_eq_ok`), and otherwise it overflows.
-/

namespace Valseg

/-- `long long`. -/
abbrev ValueType := Int64

def checkedAdd (left right : ValueType) : Except Exception ValueType :=
  let maximum := Int64.maxValue
  let minimum := Int64.minValue
  if (right > 0 ∧ left > maximum - right) ∨ (right < 0 ∧ left < minimum - right) then
    .error (.overflowError "policy addition is not representable")
  else .ok (left + right)

def checkedMultiply (left right : ValueType) : Except Exception ValueType :=
  let maximum := Int64.maxValue
  let minimum := Int64.minValue
  if left = 0 ∨ right = 0 then .ok 0
  else if left = -1 then
    if right = minimum then .error (.overflowError "policy multiplication is not representable")
    else .ok (-right)
  else if right = -1 then
    if left = minimum then .error (.overflowError "policy multiplication is not representable")
    else .ok (-left)
  else if (left > 0 ∧ right > 0 ∧ left > maximum / right) ∨
      (left > 0 ∧ right < 0 ∧ right < minimum / left) ∨
      (left < 0 ∧ right > 0 ∧ left < minimum / right) ∨
      (left < 0 ∧ right < 0 ∧ left < maximum / right) then
    .error (.overflowError "policy multiplication is not representable")
  else .ok (left * right)

def checkedLength (length : ℕ) : Except Exception ValueType :=
  if length > 2 ^ 63 - 1 then
    .error (.overflowError "policy segment length is not representable")
  else .ok (Int64.ofNat length)

namespace SumAddPolicy

def apply (action aggregate : ValueType) (length : ℕ) : Except Exception ValueType := do
  checkedAdd aggregate (← checkedMultiply action (← checkedLength length))

end SumAddPolicy

/-! ## Representable numbers -/

/-- The number is a `long long`. -/
def Representable (x : ℤ) : Prop := -2 ^ 63 ≤ x ∧ x < 2 ^ 63

instance : DecidablePred Representable := fun x => by unfold Representable; infer_instance

theorem representable_toInt (a : ValueType) : Representable a.toInt := ⟨a.le_toInt, a.toInt_lt⟩

/-- The number as a `long long`. -/
theorem Representable.exists_toInt {x : ℤ} (h : Representable x) :
    ∃ a : ValueType, a.toInt = x := ⟨Int64.ofInt x, Int64.toInt_ofInt_of_le h.1 h.2⟩

theorem representable_zero : Representable 0 := by unfold Representable; omega

theorem bmod_of_representable {x : ℤ} (h : Representable x) : x.bmod (2 ^ 64) = x := by
  obtain ⟨h1, h2⟩ := h
  exact Int.bmod_eq_of_le (by omega) (by omega)

/-! ## Addition -/

/-- The test of `checkedAdd` is the test that the sum leaves the representation. -/
theorem checkedAdd_test (a b : ValueType) :
    ((b > 0 ∧ a > Int64.maxValue - b) ∨ (b < 0 ∧ a < Int64.minValue - b)) ↔
      ¬ Representable (a.toInt + b.toInt) := by
  have ha := representable_toInt a
  have hb := representable_toInt b
  simp only [gt_iff_lt, Int64.lt_iff_toInt_lt, Int64.toInt_sub, Int64.toInt_maxValue,
    Int64.toInt_minValue, Int64.toInt_zero]
  unfold Representable at *
  by_cases h0 : 0 < b.toInt
  · rw [bmod_of_representable (x := 2 ^ 63 - 1 - b.toInt) ⟨by omega, by omega⟩]
    omega
  · by_cases h1 : b.toInt < 0
    · rw [bmod_of_representable (x := -2 ^ 63 - b.toInt) ⟨by omega, by omega⟩]
      omega
    · omega

theorem checkedAdd_of_representable {a b : ValueType} (h : Representable (a.toInt + b.toInt)) :
    ∃ c, checkedAdd a b = .ok c ∧ c.toInt = a.toInt + b.toInt := by
  refine ⟨a + b, ?_, ?_⟩
  · unfold checkedAdd
    exact if_neg fun ht => (checkedAdd_test a b).mp ht h
  · rw [Int64.toInt_add, bmod_of_representable h]

theorem checkedAdd_overflows {a b : ValueType} (h : ¬ Representable (a.toInt + b.toInt)) :
    checkedAdd a b = .error (.overflowError "policy addition is not representable") := by
  unfold checkedAdd
  exact if_pos ((checkedAdd_test a b).mpr h)

theorem checkedAdd_eq_ok {a b c : ValueType} :
    checkedAdd a b = .ok c ↔ c.toInt = a.toInt + b.toInt := by
  by_cases h : Representable (a.toInt + b.toInt)
  · obtain ⟨c', h1, h2⟩ := checkedAdd_of_representable h
    rw [h1, Except.ok.injEq, ← h2, Int64.toInt_inj, eq_comm]
  · rw [checkedAdd_overflows h]
    simp only [reduceCtorEq, false_iff]
    intro hc
    exact h (hc ▸ representable_toInt c)

theorem checkedAdd_error {a b : ValueType} {e : Exception} (h : checkedAdd a b = .error e) :
    e = .overflowError "policy addition is not representable" ∧
      ¬ Representable (a.toInt + b.toInt) := by
  by_cases hr : Representable (a.toInt + b.toInt)
  · obtain ⟨c, hc, -⟩ := checkedAdd_of_representable hr
    rw [hc] at h
    cases h
  · rw [checkedAdd_overflows hr, Except.error.injEq] at h
    exact ⟨h.symm, hr⟩

theorem checkedAdd_returns {a b : ValueType} :
    Returns (checkedAdd a b) ↔ Representable (a.toInt + b.toInt) := by
  constructor
  · rintro ⟨c, hc⟩
    rw [← checkedAdd_eq_ok.mp hc]
    exact representable_toInt c
  · intro h
    obtain ⟨c, hc, -⟩ := checkedAdd_of_representable h
    exact ⟨c, hc⟩

theorem checkedAdd_comm (a b : ValueType) : checkedAdd a b = checkedAdd b a := by
  by_cases h : Representable (a.toInt + b.toInt)
  · obtain ⟨c, hc, hab⟩ := checkedAdd_of_representable h
    rw [hc, eq_comm, checkedAdd_eq_ok, hab, add_comm]
  · rw [checkedAdd_overflows h, checkedAdd_overflows (by rwa [add_comm])]

theorem checkedAdd_zero (a : ValueType) : checkedAdd a 0 = .ok a :=
  checkedAdd_eq_ok.mpr (by rw [Int64.toInt_zero, add_zero])

/-! ## Multiplication -/

/-- A factor is past the truncated quotient of a bound exactly when the product is past the
bound. -/
theorem lt_tdiv_iff {m x y : ℤ} (hm : 0 ≤ m) (hy : 0 < y) : m.tdiv y < x ↔ m < x * y := by
  rw [Int.tdiv_eq_ediv_of_nonneg hm, Int.ediv_lt_iff_lt_mul hy]

/-- The test of `checkedMultiply` is the test that the product leaves the representation. -/
theorem checkedMultiply_test {a b : ValueType} (ha : a.toInt ≠ 0) (hb : b.toInt ≠ 0) :
    ((a > 0 ∧ b > 0 ∧ a > Int64.maxValue / b) ∨ (a > 0 ∧ b < 0 ∧ b < Int64.minValue / a) ∨
      (a < 0 ∧ b > 0 ∧ a < Int64.minValue / b) ∨ (a < 0 ∧ b < 0 ∧ a < Int64.maxValue / b)) ↔
      ¬ Representable (a.toInt * b.toInt) := by
  simp only [gt_iff_lt, Int64.lt_iff_toInt_lt, Int64.toInt_div, Int64.toInt_maxValue,
    Int64.toInt_minValue, Int64.toInt_zero]
  generalize a.toInt = x at *
  generalize b.toInt = y at *
  have hmax : ∀ z : ℤ, z ≠ 0 → Representable ((2 ^ 63 - 1 : ℤ).tdiv z) := by
    intro z hz
    have h := Int.natAbs_tdiv_le_natAbs (2 ^ 63 - 1) z
    unfold Representable; omega
  have hmin : ∀ z : ℤ, 0 < z → Representable ((-2 ^ 63 : ℤ).tdiv z) := by
    intro z hz
    have h := Int.natAbs_tdiv_le_natAbs (-2 ^ 63) z
    have h' : (-2 ^ 63 : ℤ).tdiv z ≤ 0 := by
      rw [Int.neg_tdiv]
      have := Int.tdiv_nonneg (a := 2 ^ 63) (b := z) (by norm_num) hz.le
      omega
    unfold Representable; omega
  rcases lt_or_gt_of_ne ha with hx | hx <;> rcases lt_or_gt_of_ne hb with hy | hy
  · -- both negative: compare with `-(maximum / -y)`
    rw [bmod_of_representable (hmax y hb)]
    have e : (2 ^ 63 - 1 : ℤ).tdiv y = -((2 ^ 63 - 1 : ℤ).tdiv (-y)) := by rw [Int.tdiv_neg, neg_neg]
    have key := lt_tdiv_iff (m := 2 ^ 63 - 1) (x := -x) (y := -y) (by norm_num) (by omega)
    rw [neg_mul_neg] at key
    have hpos : 0 < x * y := mul_pos_of_neg_of_neg hx hy
    unfold Representable
    omega
  · -- negative times positive
    rw [bmod_of_representable (hmin y hy)]
    have e : (-2 ^ 63 : ℤ).tdiv y = -((2 ^ 63 : ℤ).tdiv y) := Int.neg_tdiv ..
    have key := lt_tdiv_iff (m := 2 ^ 63) (x := -x) (y := y) (by norm_num) hy
    rw [neg_mul] at key
    have hneg : x * y < 0 := mul_neg_of_neg_of_pos hx hy
    unfold Representable
    omega
  · -- positive times negative
    rw [bmod_of_representable (hmin x hx)]
    have e : (-2 ^ 63 : ℤ).tdiv x = -((2 ^ 63 : ℤ).tdiv x) := Int.neg_tdiv ..
    have key := lt_tdiv_iff (m := 2 ^ 63) (x := -y) (y := x) (by norm_num) hx
    rw [neg_mul, mul_comm] at key
    have hneg : x * y < 0 := mul_neg_of_pos_of_neg hx hy
    unfold Representable
    omega
  · rw [bmod_of_representable (hmax y hb)]
    have key := lt_tdiv_iff (m := 2 ^ 63 - 1) (x := x) (y := y) (by norm_num) hy
    have hpos : 0 < x * y := mul_pos hx hy
    unfold Representable
    omega

theorem neg_overflow {b : ValueType} : b = Int64.minValue ↔ ¬ Representable (-b.toInt) := by
  have h := representable_toInt b
  rw [← Int64.toInt_inj, Int64.toInt_minValue]
  unfold Representable at *
  omega

theorem checkedMultiply_cases (a b : ValueType) :
    (∃ c, checkedMultiply a b = .ok c ∧ c.toInt = a.toInt * b.toInt) ∨
      (checkedMultiply a b = .error (.overflowError "policy multiplication is not representable") ∧
        ¬ Representable (a.toInt * b.toInt)) := by
  have hneg : ∀ x : ValueType, x = -1 ↔ x.toInt = -1 := fun x => by
    rw [← Int64.toInt_inj]; rfl
  unfold checkedMultiply
  by_cases h0 : a = 0 ∨ b = 0
  · left
    refine ⟨0, if_pos h0, ?_⟩
    rcases h0 with rfl | rfl <;> simp
  have ha0 : a.toInt ≠ 0 := fun h => h0 (.inl (Int64.toInt_inj.mp (h.trans Int64.toInt_zero.symm)))
  have hb0 : b.toInt ≠ 0 := fun h => h0 (.inr (Int64.toInt_inj.mp (h.trans Int64.toInt_zero.symm)))
  simp only [if_neg h0]
  by_cases ha1 : a = -1
  · rw [if_pos ha1, (hneg a).mp ha1, neg_one_mul]
    by_cases hm : b = Int64.minValue
    · exact .inr ⟨if_pos hm, neg_overflow.mp hm⟩
    · refine .inl ⟨-b, if_neg hm, ?_⟩
      rw [Int64.toInt_neg, bmod_of_representable (not_not.mp fun h => hm (neg_overflow.mpr h))]
  rw [if_neg ha1]
  by_cases hb1 : b = -1
  · rw [if_pos hb1, (hneg b).mp hb1, mul_neg_one]
    by_cases hm : a = Int64.minValue
    · exact .inr ⟨if_pos hm, neg_overflow.mp hm⟩
    · refine .inl ⟨-a, if_neg hm, ?_⟩
      rw [Int64.toInt_neg, bmod_of_representable (not_not.mp fun h => hm (neg_overflow.mpr h))]
  rw [if_neg hb1]
  have test := checkedMultiply_test ha0 hb0
  by_cases hr : Representable (a.toInt * b.toInt)
  · refine .inl ⟨a * b, if_neg fun h => test.mp h hr, ?_⟩
    rw [Int64.toInt_mul, bmod_of_representable hr]
  · exact .inr ⟨if_pos (test.mpr hr), hr⟩

theorem checkedMultiply_eq_ok {a b c : ValueType} :
    checkedMultiply a b = .ok c ↔ c.toInt = a.toInt * b.toInt := by
  rcases checkedMultiply_cases a b with ⟨c', h1, h2⟩ | ⟨h1, h2⟩
  · rw [h1, Except.ok.injEq, ← h2, Int64.toInt_inj, eq_comm]
  · rw [h1]
    simp only [reduceCtorEq, false_iff]
    intro hc
    exact h2 (hc ▸ representable_toInt c)

theorem checkedMultiply_error {a b : ValueType} {e : Exception}
    (h : checkedMultiply a b = .error e) :
    e = .overflowError "policy multiplication is not representable" ∧
      ¬ Representable (a.toInt * b.toInt) := by
  rcases checkedMultiply_cases a b with ⟨c', h1, -⟩ | ⟨h1, h2⟩
  · rw [h1] at h; cases h
  · rw [h1, Except.error.injEq] at h
    exact ⟨h.symm, h2⟩

/-! ## The policy's action -/

/-- The longest segment whose length is a `long long`. -/
def maxLength : ℕ := 2 ^ 63 - 1

theorem checkedLength_of_le {n : ℕ} (h : n ≤ maxLength) :
    ∃ c, checkedLength n = .ok c ∧ c.toInt = n := by
  unfold maxLength at h
  refine ⟨Int64.ofNat n, ?_, Int64.toInt_ofNat_of_lt (by omega)⟩
  unfold checkedLength
  rw [if_neg (by omega)]

namespace SumAddPolicy

/-- The action returns exactly when the amount added and the result are representable. -/
theorem apply_eq_ok {a x c : ValueType} {n : ℕ} (hn : n ≤ maxLength) :
    apply a x n = .ok c ↔ Representable (a.toInt * n) ∧ c.toInt = x.toInt + a.toInt * n := by
  obtain ⟨k, hk, hk'⟩ := checkedLength_of_le hn
  unfold apply
  rw [hk, Effect.ok_bind, Effect.bind_eq_ok]
  constructor
  · rintro ⟨p, hp, hc⟩
    rw [checkedMultiply_eq_ok, hk'] at hp
    rw [checkedAdd_eq_ok, hp] at hc
    exact ⟨hp ▸ representable_toInt p, hc⟩
  · rintro ⟨hr, hc⟩
    obtain ⟨p, hp⟩ := hr.exists_toInt
    exact ⟨p, by rw [checkedMultiply_eq_ok, hk', hp], by rw [checkedAdd_eq_ok, hp, hc]⟩

theorem apply_error {a x : ValueType} {n : ℕ} {e : Exception} (hn : n ≤ maxLength)
    (h : apply a x n = .error e) :
    (∃ w, e = .overflowError w) ∧
      ¬ (Representable (a.toInt * n) ∧ Representable (x.toInt + a.toInt * n)) := by
  obtain ⟨k, hk, hk'⟩ := checkedLength_of_le hn
  unfold apply at h
  rw [hk, Effect.ok_bind, Effect.bind_eq_error] at h
  rcases h with h | ⟨p, hp, h⟩
  · obtain ⟨rfl, hr⟩ := checkedMultiply_error h
    rw [hk'] at hr
    exact ⟨⟨_, rfl⟩, fun h' => hr h'.1⟩
  · rw [checkedMultiply_eq_ok, hk'] at hp
    obtain ⟨rfl, hr⟩ := checkedAdd_error h
    rw [hp] at hr
    exact ⟨⟨_, rfl⟩, fun h' => hr h'.2⟩

theorem apply_returns {a x : ValueType} {n : ℕ} (hn : n ≤ maxLength) :
    Returns (apply a x n) ↔
      Representable (a.toInt * n) ∧ Representable (x.toInt + a.toInt * n) := by
  constructor
  · rintro ⟨c, hc⟩
    obtain ⟨h1, h2⟩ := (apply_eq_ok hn).mp hc
    exact ⟨h1, h2 ▸ representable_toInt c⟩
  · rintro ⟨h1, h2⟩
    obtain ⟨c, hc⟩ := h2.exists_toInt
    exact ⟨c, (apply_eq_ok hn).mpr ⟨h1, hc⟩⟩

end SumAddPolicy

end Valseg
