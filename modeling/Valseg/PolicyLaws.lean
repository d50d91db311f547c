import Valseg.AffineWords
import Mathlib.Tactic.Ring

/-!
# The laws of the policies

The laws that `policy.hpp` asks of a policy, for operations that may throw. `SumAddPolicy` and
`MinAddPolicy` keep them wherever both sides return, and `AffineSumModPolicy` returns on both sides
whatever it is given (`policy_laws`).
-/

namespace Valseg

/-! ## Range minimum -/

namespace MinAddPolicy

def combine (left right : ValueType) : ValueType := if left < right then left else right

def apply (action aggregate : ValueType) (length : ℕ) : Except Exception ValueType :=
  if length = 0 then .ok aggregate else checkedAdd aggregate action

end MinAddPolicy

/-- Range-add actions over range-minimum aggregates. -/
def minAddPolicy : Policy ValueType ValueType where
  combine left right := .ok (MinAddPolicy.combine left right)
  aggregateIdentity := Int64.maxValue
  compose newer older := checkedAdd newer older
  actionIdentity := 0
  apply := MinAddPolicy.apply
  aggregateBytes := 8
  actionBytes := 8
  recordBytes := 32
  taglessRecordBytes := 24

/-! ## The laws -/

section Laws

variable {X F : Type}

/-- Both sides return, and the same. -/
def BothReturn {α : Type} (u v : Except Exception α) : Prop := ∃ a, u = .ok a ∧ v = .ok a

/-- The sides are equal if both return. -/
def AgreeIfReturning {α : Type} (u v : Except Exception α) : Prop :=
  ∀ a b, u = .ok a → v = .ok b → a = b

/-- The laws of a policy, on the aggregates that are valid for a length. -/
structure Policy.Laws (P : Policy X F) (valid : ℕ → X → Prop)
    (agree : ∀ {α : Type}, Except Exception α → Except Exception α → Prop) : Prop where
  combine_assoc : ∀ {a b c x y z}, valid a x → valid b y → valid c z →
    agree (do P.combine (← P.combine x y) z) (do P.combine x (← P.combine y z))
  identity_combine : ∀ {a x}, valid a x → agree (P.combine P.aggregateIdentity x) (.ok x)
  combine_identity : ∀ {a x}, valid a x → agree (P.combine x P.aggregateIdentity) (.ok x)
  compose_assoc : ∀ f g h, agree (do P.compose (← P.compose f g) h) (do P.compose f (← P.compose g h))
  identity_compose : ∀ f, agree (P.compose P.actionIdentity f) (.ok f)
  compose_identity : ∀ f, agree (P.compose f P.actionIdentity) (.ok f)
  apply_identity : ∀ {a x}, valid a x → a ≤ sizeMax →
    agree (P.apply P.actionIdentity x a) (.ok x)
  apply_compose : ∀ {a x} (g f), valid a x → a ≤ sizeMax →
    agree (do P.apply (← P.compose g f) x a) (do P.apply g (← P.apply f x a) a)
  apply_combine : ∀ {a b x y} (f), valid a x → valid b y → a + b ≤ sizeMax →
    agree (do P.apply f (← P.combine x y) (a + b))
      (do P.combine (← P.apply f x a) (← P.apply f y b))
  apply_empty : ∀ f, agree (P.apply f P.aggregateIdentity 0) (.ok P.aggregateIdentity)

end Laws

/-- Any number is an aggregate, but that of no element is the identity. -/
def EmptyIsIdentity (P : Policy ValueType ValueType) (length : ℕ) (x : ValueType) : Prop :=
  length = 0 → x = P.aggregateIdentity

/-! ## Checked sums -/

variable {f g x y z : ValueType} {m n : ℕ}

theorem agree_of_eq {α : Type} {u : Except Exception α} {w : α} (h : u = .ok w) :
    AgreeIfReturning u (.ok w) := by
  intro p q hp hq
  rw [h] at hp
  cases hp
  cases hq
  rfl

theorem zero_checkedAdd (a : ValueType) : checkedAdd 0 a = .ok a := by
  rw [checkedAdd_comm, checkedAdd_zero]

theorem checkedAdd_assoc (x y z : ValueType) : AgreeIfReturning
    (do checkedAdd (← checkedAdd x y) z) (do checkedAdd x (← checkedAdd y z)) := by
  intro u v hu hv
  obtain ⟨xy, hxy, hu⟩ := Effect.bind_eq_ok.mp hu
  obtain ⟨yz, hyz, hv⟩ := Effect.bind_eq_ok.mp hv
  rw [checkedAdd_eq_ok] at hxy hyz hu hv
  apply Int64.toInt_inj.mp
  rw [hu, hv, hxy, hyz, add_assoc]

namespace SumAddPolicy

/-- What an action that returns makes of a sum. -/
theorem toInt_apply (h : apply f x n = .ok y) : y.toInt = x.toInt + f.toInt * n := by
  by_cases hn : n ≤ maxLength
  · exact ((apply_eq_ok hn).mp h).2
  · have hlength : checkedLength n =
        .error (.overflowError "policy segment length is not representable") :=
      if_pos (not_le.mp hn)
    rw [apply, hlength, Effect.error_bind] at h
    cases h

theorem laws : sumAddPolicy.Laws (EmptyIsIdentity sumAddPolicy) AgreeIfReturning where
  combine_assoc _ _ _ := checkedAdd_assoc _ _ _
  identity_combine _ := agree_of_eq (zero_checkedAdd _)
  combine_identity _ := agree_of_eq (checkedAdd_zero _)
  compose_assoc _ _ _ := checkedAdd_assoc _ _ _
  identity_compose _ := agree_of_eq (zero_checkedAdd _)
  compose_identity _ := agree_of_eq (checkedAdd_zero _)
  apply_identity _ _ := by
    intro u v hu hv
    cases hv
    apply Int64.toInt_inj.mp
    rw [toInt_apply hu, show sumAddPolicy.actionIdentity = 0 from rfl, Int64.toInt_zero, zero_mul,
      add_zero]
  apply_compose g f _ _ := by
    intro u v hu hv
    obtain ⟨gf, hgf, hu⟩ := Effect.bind_eq_ok.mp hu
    obtain ⟨fx, hfx, hv⟩ := Effect.bind_eq_ok.mp hv
    apply Int64.toInt_inj.mp
    rw [toInt_apply hu, toInt_apply hv, toInt_apply hfx, checkedAdd_eq_ok.mp hgf]
    ring
  apply_combine f _ _ _ := by
    intro u v hu hv
    obtain ⟨xy, hxy, hu⟩ := Effect.bind_eq_ok.mp hu
    obtain ⟨fx, hfx, hv⟩ := Effect.bind_eq_ok.mp hv
    obtain ⟨fy, hfy, hv⟩ := Effect.bind_eq_ok.mp hv
    apply Int64.toInt_inj.mp
    rw [toInt_apply hu, checkedAdd_eq_ok.mp hxy, checkedAdd_eq_ok.mp hv, toInt_apply hfx,
      toInt_apply hfy]
    push_cast
    ring
  apply_empty f := by
    intro u v hu hv
    cases hv
    apply Int64.toInt_inj.mp
    rw [toInt_apply hu, Nat.cast_zero, mul_zero, add_zero]

end SumAddPolicy

namespace MinAddPolicy

theorem toInt_combine (x y : ValueType) : (combine x y).toInt = min x.toInt y.toInt := by
  unfold combine
  simp only [Int64.lt_iff_toInt_lt]
  split_ifs <;> omega

theorem combine_maxValue (x : ValueType) : combine x Int64.maxValue = x := by
  have := representable_toInt x
  apply Int64.toInt_inj.mp
  rw [toInt_combine, Int64.toInt_maxValue]
  unfold Representable at this
  omega

theorem maxValue_combine (x : ValueType) : combine Int64.maxValue x = x := by
  have := representable_toInt x
  apply Int64.toInt_inj.mp
  rw [toInt_combine, Int64.toInt_maxValue]
  unfold Representable at this
  omega

/-- What an action that returns makes of the minimum of some elements. -/
theorem toInt_apply (hn : n ≠ 0) (h : apply f x n = .ok y) : y.toInt = x.toInt + f.toInt := by
  rw [apply, if_neg hn] at h
  exact checkedAdd_eq_ok.mp h

theorem apply_zero (f x : ValueType) : apply f x 0 = .ok x := if_pos rfl

theorem laws : minAddPolicy.Laws (EmptyIsIdentity minAddPolicy) AgreeIfReturning where
  combine_assoc {a b c x y z} _ _ _ := by
    intro u v hu hv
    cases hu
    cases hv
    apply Int64.toInt_inj.mp
    simp only [toInt_combine, min_assoc]
  identity_combine _ := agree_of_eq (congrArg _ (maxValue_combine _))
  combine_identity _ := agree_of_eq (congrArg _ (combine_maxValue _))
  compose_assoc _ _ _ := checkedAdd_assoc _ _ _
  identity_compose _ := agree_of_eq (zero_checkedAdd _)
  compose_identity _ := agree_of_eq (checkedAdd_zero _)
  apply_identity {a x} _ _ := by
    refine agree_of_eq ?_
    show apply 0 x a = _
    unfold apply
    split_ifs
    · rfl
    · exact checkedAdd_zero x
  apply_compose {a x} g f _ _ := by
    intro u v hu hv
    obtain ⟨gf, hgf, hu⟩ := Effect.bind_eq_ok.mp hu
    obtain ⟨fx, hfx, hv⟩ := Effect.bind_eq_ok.mp hv
    by_cases ha : a = 0
    · subst ha
      cases hfx
      cases hu
      cases hv
      rfl
    · apply Int64.toInt_inj.mp
      rw [toInt_apply ha hu, toInt_apply ha hv, toInt_apply ha hfx, checkedAdd_eq_ok.mp hgf]
      ring
  apply_combine {a b x y} f hx hy _ := by
    intro u v hu hv
    obtain ⟨fx, hfx, hv⟩ := Effect.bind_eq_ok.mp hv
    obtain ⟨fy, hfy, hv⟩ := Effect.bind_eq_ok.mp hv
    cases hv
    -- no element on one side: the other is all there is
    by_cases ha : a = 0
    · subst ha
      cases hfx
      obtain rfl : x = Int64.maxValue := hx rfl
      rw [maxValue_combine]
      have hu' : apply f (combine Int64.maxValue y) (0 + b) = .ok u := hu
      rw [maxValue_combine, Nat.zero_add] at hu'
      exact Except.ok.inj (hu'.symm.trans hfy)
    by_cases hb : b = 0
    · subst hb
      cases hfy
      obtain rfl : y = Int64.maxValue := hy rfl
      rw [combine_maxValue]
      have hu' : apply f (combine x Int64.maxValue) (a + 0) = .ok u := hu
      rw [combine_maxValue, Nat.add_zero] at hu'
      exact Except.ok.inj (hu'.symm.trans hfx)
    have hab : a + b ≠ 0 := by omega
    apply Int64.toInt_inj.mp
    rw [toInt_apply hab hu, toInt_combine, toInt_combine, toInt_apply ha hfx, toInt_apply hb hfy,
      min_add_add_right]
  apply_empty f := agree_of_eq (apply_zero f _)

end MinAddPolicy

/-! ## Affine maps -/

namespace AffineSumModPolicy

variable {M : Modulus}

/-- An aggregate that the operations return. -/
def Reduced (M : Modulus) (_ : ℕ) (x : UInt64) : Prop := x.toNat < M.value.toNat

theorem bothReturn {α : Type} {u v : α} (h : u = v) :
    BothReturn (.ok u : Except Exception α) (.ok v) := ⟨u, rfl, h ▸ rfl⟩

/-- The words act as their residues do, and the laws hold of the residues. -/
theorem laws (M : Modulus) : (affineSumModPolicy M).Laws (Reduced M) BothReturn := by
  rw [affineSumModPolicy_eq]
  constructor
  case combine_assoc =>
    intro a b c x y z _ _ _
    exact bothReturn words_combine_assoc
  case identity_combine =>
    intro a x hx
    exact bothReturn (words_empty_combine hx)
  case combine_identity =>
    intro a x hx
    exact bothReturn (words_combine_empty hx)
  case compose_assoc =>
    intro f g h
    exact bothReturn words_compose_assoc
  case identity_compose =>
    intro f
    exact bothReturn words_identity_compose
  case compose_identity =>
    intro f
    exact bothReturn words_compose_identity
  case apply_identity =>
    intro a x hx _
    exact bothReturn (words_apply_identity hx)
  case apply_compose =>
    intro a x g f _ _
    exact bothReturn words_apply_compose
  case apply_combine =>
    intro a b x y f _ _ _
    exact bothReturn words_apply_combine
  case apply_empty =>
    intro f
    exact bothReturn words_apply_empty

end AffineSumModPolicy

/-- **The laws.** The checked policies keep them where both sides return, and the affine policy
everywhere. -/
theorem policy_laws :
    sumAddPolicy.Laws (EmptyIsIdentity sumAddPolicy) AgreeIfReturning ∧
      minAddPolicy.Laws (EmptyIsIdentity minAddPolicy) AgreeIfReturning ∧
      ∀ M : AffineSumModPolicy.Modulus,
        (affineSumModPolicy M).Laws (AffineSumModPolicy.Reduced M) BothReturn :=
  ⟨SumAddPolicy.laws, MinAddPolicy.laws, AffineSumModPolicy.laws⟩

end Valseg
