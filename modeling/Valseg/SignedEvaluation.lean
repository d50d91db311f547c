import Valseg.Policy

/-!
# Signed arithmetic, operator by operator

The language leaves a signed operator undefined where the exact result is no `long long`, and a
division by zero. `checkedAdd` and `checkedMultiply` of `policy.hpp` are evaluated here with such
operators, in the order of the source: `&&` and `||` leave out their right operand.

1. `checkedAdd_eq`, `checkedMultiply_eq`: no operator that is reached is undefined, so the
   evaluation ends as the wrapping one of `Policy` does.
2. `checked_arithmetic_exact`: the sum and the product are exact, or they overflow.
-/

namespace Valseg

namespace SignedEvaluation

/-- The result of a signed operator, which is undefined where it is no `long long`. -/
def signed (exact : ℤ) : Except Exception ValueType :=
  if Representable exact then .ok (Int64.ofInt exact) else .error .undefined

/-- `a + b`. -/
def add (a b : ValueType) : Except Exception ValueType := signed (a.toInt + b.toInt)

/-- `a - b`. -/
def sub (a b : ValueType) : Except Exception ValueType := signed (a.toInt - b.toInt)

/-- `a * b`. -/
def mul (a b : ValueType) : Except Exception ValueType := signed (a.toInt * b.toInt)

/-- `-a`. -/
def neg (a : ValueType) : Except Exception ValueType := signed (-a.toInt)

/-- `a / b`, rounded toward zero. -/
def div (a b : ValueType) : Except Exception ValueType :=
  if b = 0 then .error .undefined else signed (a.toInt.tdiv b.toInt)

/-- `x && y`. -/
def andAlso (x y : Except Exception Bool) : Except Exception Bool := do
  if ← x then y else return false

/-- `x || y`. -/
def orElse (x y : Except Exception Bool) : Except Exception Bool := do
  if ← x then return true else y

def checkedAdd (left right : ValueType) : Except Exception ValueType := do
  let maximum := Int64.maxValue
  let minimum := Int64.minValue
  if ← orElse (andAlso (pure (right > 0)) (do return left > (← sub maximum right)))
      (andAlso (pure (right < 0)) (do return left < (← sub minimum right))) then
    throw (.overflowError "policy addition is not representable")
  else add left right

def checkedMultiply (left right : ValueType) : Except Exception ValueType := do
  let maximum := Int64.maxValue
  let minimum := Int64.minValue
  if ← orElse (pure (left = 0)) (pure (right = 0)) then return 0
  else if left = -1 then do
    if right = minimum then throw (.overflowError "policy multiplication is not representable")
    else neg right
  else if right = -1 then do
    if left = minimum then throw (.overflowError "policy multiplication is not representable")
    else neg left
  else do
    let overflows ← orElse (orElse (orElse
      (andAlso (andAlso (pure (left > 0)) (pure (right > 0)))
        (do return left > (← div maximum right)))
      (andAlso (andAlso (pure (left > 0)) (pure (right < 0)))
        (do return right < (← div minimum left))))
      (andAlso (andAlso (pure (left < 0)) (pure (right > 0)))
        (do return left < (← div minimum right))))
      (andAlso (andAlso (pure (left < 0)) (pure (right < 0)))
        (do return left < (← div maximum right)))
    if overflows then throw (.overflowError "policy multiplication is not representable")
    else mul left right

/-! ## Operators that are defined -/

section Operators

variable {a b : ValueType} {x : ℤ} {p q : Prop} [Decidable p] [Decidable q]

theorem signed_of_toInt (h : a.toInt = x) : signed x = .ok a := by
  subst h
  rw [signed, if_pos (representable_toInt a), Int64.ofInt_toInt]

theorem add_eq (h : Representable (a.toInt + b.toInt)) : add a b = .ok (a + b) :=
  signed_of_toInt (by rw [Int64.toInt_add, bmod_of_representable h])

theorem mul_eq (h : Representable (a.toInt * b.toInt)) : mul a b = .ok (a * b) :=
  signed_of_toInt (by rw [Int64.toInt_mul, bmod_of_representable h])

theorem neg_eq (h : a ≠ Int64.minValue) : neg a = .ok (-a) := by
  have hr : Representable (-a.toInt) := not_not.mp fun h' => h (neg_overflow.mpr h')
  exact signed_of_toInt (by rw [Int64.toInt_neg, bmod_of_representable hr])

/-- Nothing but the quotient by -1 can overflow. -/
theorem div_eq (h0 : b ≠ 0) (h1 : b ≠ -1) : div a b = .ok (a / b) := by
  rw [div, if_neg h0]
  exact signed_of_toInt (Int64.toInt_div_of_ne_right a b h1)

theorem sub_eq (h : Representable (a.toInt - b.toInt)) : sub a b = .ok (a - b) :=
  signed_of_toInt (by rw [Int64.toInt_sub, bmod_of_representable h])

/-- The room above a positive addend. -/
theorem maximum_sub (h : b > 0) : sub Int64.maxValue b = .ok (Int64.maxValue - b) := by
  refine sub_eq ?_
  have hb := representable_toInt b
  rw [gt_iff_lt, Int64.lt_iff_toInt_lt, Int64.toInt_zero] at h
  rw [Int64.toInt_maxValue]
  unfold Representable at *
  omega

/-- The room below a negative one. -/
theorem minimum_sub (h : b < 0) : sub Int64.minValue b = .ok (Int64.minValue - b) := by
  refine sub_eq ?_
  have hb := representable_toInt b
  rw [Int64.lt_iff_toInt_lt, Int64.toInt_zero] at h
  rw [Int64.toInt_minValue]
  unfold Representable at *
  omega

theorem pure_eq (x : Bool) : (pure x : Except Exception Bool) = .ok x := rfl

/-- The right operand matters only after a true left one. -/
theorem andAlso_of {y : Except Exception Bool} (h : p → y = .ok (decide q)) :
    andAlso (.ok (decide p)) y = .ok (decide (p ∧ q)) := by
  unfold andAlso
  by_cases hp : p
  · simp [hp, h hp]
  · simp [hp, pure_eq]

theorem andAlso_ok : andAlso (.ok (decide p)) (.ok (decide q)) = .ok (decide (p ∧ q)) :=
  andAlso_of fun _ => rfl

theorem orElse_ok : orElse (.ok (decide p)) (.ok (decide q)) = .ok (decide (p ∨ q)) := by
  unfold orElse
  by_cases hp : p <;> simp [hp, pure_eq]

end Operators

/-! ## The two functions -/

section Evaluated

variable {a b : ValueType}

/-- The test of `checkedAdd` is evaluated. -/
theorem checkedAdd_test_eq (a b : ValueType) :
    orElse (andAlso (pure (b > 0)) (do return a > (← sub Int64.maxValue b)))
      (andAlso (pure (b < 0)) (do return a < (← sub Int64.minValue b))) =
      .ok (decide ((b > 0 ∧ a > Int64.maxValue - b) ∨ (b < 0 ∧ a < Int64.minValue - b))) := by
  have hmax : andAlso (.ok (decide (b > 0))) (do return a > (← sub Int64.maxValue b)) = _ :=
    andAlso_of (q := a > Int64.maxValue - b) fun h => by rw [maximum_sub h]; rfl
  have hmin : andAlso (.ok (decide (b < 0))) (do return a < (← sub Int64.minValue b)) = _ :=
    andAlso_of (q := a < Int64.minValue - b) fun h => by rw [minimum_sub h]; rfl
  exact (congrArg₂ orElse hmax hmin).trans orElse_ok

/-- **Addition.** Every operator that is reached is defined. -/
theorem checkedAdd_eq (a b : ValueType) : checkedAdd a b = Valseg.checkedAdd a b := by
  unfold checkedAdd Valseg.checkedAdd
  simp only [checkedAdd_test_eq, Effect.ok_bind, decide_eq_true_eq]
  split_ifs with h
  · rfl
  · exact add_eq (not_not.mp fun hr => h ((checkedAdd_test a b).mpr hr))

/-- The test of `checkedMultiply` is evaluated: no divisor is 0 or -1. -/
theorem checkedMultiply_test_eq (ha : a ≠ 0) (hb : b ≠ 0) (ha' : a ≠ -1) (hb' : b ≠ -1) :
    orElse (orElse (orElse
      (andAlso (andAlso (pure (a > 0)) (pure (b > 0))) (do return a > (← div Int64.maxValue b)))
      (andAlso (andAlso (pure (a > 0)) (pure (b < 0))) (do return b < (← div Int64.minValue a))))
      (andAlso (andAlso (pure (a < 0)) (pure (b > 0))) (do return a < (← div Int64.minValue b))))
      (andAlso (andAlso (pure (a < 0)) (pure (b < 0))) (do return a < (← div Int64.maxValue b))) =
    .ok (decide ((a > 0 ∧ b > 0 ∧ a > Int64.maxValue / b) ∨
      (a > 0 ∧ b < 0 ∧ b < Int64.minValue / a) ∨ (a < 0 ∧ b > 0 ∧ a < Int64.minValue / b) ∨
        (a < 0 ∧ b < 0 ∧ a < Int64.maxValue / b))) := by
  rw [div_eq hb hb', div_eq ha ha', div_eq hb hb']
  simp only [Effect.ok_bind, pure_eq, andAlso_ok, orElse_ok, and_assoc, or_assoc]

/-- **Multiplication.** Every operator that is reached is defined. -/
theorem checkedMultiply_eq (a b : ValueType) :
    checkedMultiply a b = Valseg.checkedMultiply a b := by
  unfold checkedMultiply Valseg.checkedMultiply
  simp only [pure_eq, orElse_ok, Effect.ok_bind, decide_eq_true_eq]
  by_cases h0 : a = 0 ∨ b = 0
  · rw [if_pos h0, if_pos h0]
    rfl
  rw [if_neg h0, if_neg h0]
  obtain ⟨ha, hb⟩ := not_or.mp h0
  by_cases ha' : a = -1
  · rw [if_pos ha', if_pos ha']
    refine ite_congr rfl (fun _ => rfl) fun h => neg_eq h
  rw [if_neg ha', if_neg ha']
  by_cases hb' : b = -1
  · rw [if_pos hb', if_pos hb']
    refine ite_congr rfl (fun _ => rfl) fun h => neg_eq h
  have htest := checkedMultiply_test_eq ha hb ha' hb'
  simp only [pure_eq] at htest
  rw [if_neg hb', if_neg hb', htest]
  simp only [Effect.ok_bind, decide_eq_true_eq]
  refine ite_congr rfl (fun _ => rfl) fun h => mul_eq ?_
  have hne : ∀ x : ValueType, x ≠ 0 → x.toInt ≠ 0 := fun x hx h =>
    hx (Int64.toInt_inj.mp (h.trans Int64.toInt_zero.symm))
  exact not_not.mp fun hr => h ((checkedMultiply_test (hne a ha) (hne b hb)).mpr hr)

end Evaluated

/-- A checked operation with an exact result, and how its operators evaluate: none is undefined,
what is returned is the exact result, and where that is not representable the call overflows. -/
structure Exact (exact : ℤ) (evaluated result : Except Exception ValueType) : Prop where
  defined : evaluated ≠ .error .undefined
  evaluated : evaluated = result
  returns : ∀ c, result = .ok c ↔ c.toInt = exact
  representable : Returns result ↔ Representable exact
  overflows : Overflows result ↔ ¬ Representable exact

theorem Exact.of_cases {exact : ℤ} {evaluated result : Except Exception ValueType} {what : String}
    (he : evaluated = result) (hok : ∀ c, result = .ok c ↔ c.toInt = exact)
    (herror : ∀ e, result = .error e → e = .overflowError what ∧ ¬ Representable exact) :
    Exact exact evaluated result := by
  have hreturns : Returns result ↔ Representable exact := by
    constructor
    · rintro ⟨c, hc⟩
      exact (hok c).mp hc ▸ representable_toInt c
    · intro h
      obtain ⟨c, hc⟩ := h.exists_toInt
      exact ⟨c, (hok c).mpr hc⟩
  refine ⟨fun h => ?_, he, hok, hreturns, ?_, fun h => ?_⟩
  · obtain ⟨h1, -⟩ := herror _ (he ▸ h)
    cases h1
  · rintro ⟨w, hw⟩
    exact (herror _ hw).2
  · rcases hr : result with e | c
    · exact ⟨what, by rw [(herror e hr).1]⟩
    · exact absurd (hreturns.mp ⟨c, hr⟩) h

end SignedEvaluation

/-- **Checked arithmetic is exact**, for all 64-bit operands. -/
theorem checked_arithmetic_exact (a b : ValueType) :
    SignedEvaluation.Exact (a.toInt + b.toInt) (SignedEvaluation.checkedAdd a b)
      (checkedAdd a b) ∧
    SignedEvaluation.Exact (a.toInt * b.toInt) (SignedEvaluation.checkedMultiply a b)
      (checkedMultiply a b) :=
  ⟨.of_cases (SignedEvaluation.checkedAdd_eq a b) (fun _ => checkedAdd_eq_ok)
      fun _ => checkedAdd_error,
    .of_cases (SignedEvaluation.checkedMultiply_eq a b) (fun _ => checkedMultiply_eq_ok)
      fun _ => checkedMultiply_error⟩

end Valseg
