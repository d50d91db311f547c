import Mathlib.Data.Nat.Log
import Valseg.Lib.Segment

/-!
# Sizes and argument checks

`detail/checked_size.hpp` and `detail/validation.hpp`: sizes are natural numbers, and every
calculation the source checks against `std::size_t` is checked here. An `Exception` names the
class the source throws and its text.
-/

namespace Valseg

/-- What a call can throw. `undefined` is no exception: it stands for an access past the end of a
vector, which no caller can catch. -/
inductive Exception where
  | runtimeError (what : String)
  | invalidArgument (what : String)
  | outOfRange (what : String)
  | overflowError (what : String)
  | lengthError (what : String)
  | logicError (what : String)
  | undefined
  deriving DecidableEq, Repr

/-- The class of an exception, whatever its text. -/
inductive ExceptionClass where
  | runtimeError
  | invalidArgument
  | outOfRange
  | overflowError
  | lengthError
  | logicError
  | undefined
  deriving DecidableEq, Repr

def Exception.kind : Exception → ExceptionClass
  | .runtimeError _ => .runtimeError
  | .invalidArgument _ => .invalidArgument
  | .outOfRange _ => .outOfRange
  | .overflowError _ => .overflowError
  | .lengthError _ => .lengthError
  | .logicError _ => .logicError
  | .undefined => .undefined

/-- How a call ends: it returns, or throws an exception of a class. -/
def kindOf {α : Type} : Except Exception α → Option ExceptionClass
  | .ok _ => none
  | .error e => some e.kind

/-- What is thrown where a container would need more elements than it can have: a vector's
length check, or a size that is no `std::size_t`. -/
def Exception.OutOfRoom : Exception → Prop
  | .lengthError _ => True
  | .overflowError what => what = "size calculation is not representable"
  | _ => False

instance Exception.decidableOutOfRoom : DecidablePred Exception.OutOfRoom
  | .lengthError _ => .isTrue trivial
  | .overflowError what => inferInstanceAs (Decidable (what = _))
  | .runtimeError _ => .isFalse nofun
  | .invalidArgument _ => .isFalse nofun
  | .outOfRange _ => .isFalse nofun
  | .logicError _ => .isFalse nofun
  | .undefined => .isFalse nofun

/-- A call that ends for lack of room. -/
def OutOfRoom {α : Type} : Except Exception α → Prop
  | .ok _ => False
  | .error e => e.OutOfRoom

instance decidableOutOfRoom {α : Type} : DecidablePred (OutOfRoom (α := α))
  | .ok _ => .isFalse nofun
  | .error e => inferInstanceAs (Decidable e.OutOfRoom)

/-- A call that ends with `std::overflow_error`. -/
def Overflows {α : Type} (x : Except Exception α) : Prop := ∃ what, x = .error (.overflowError what)

/-- A call that returns. -/
def Returns {α : Type} (x : Except Exception α) : Prop := ∃ a, x = .ok a

theorem Overflows.not_returns {α : Type} {x : Except Exception α} (h : Overflows x) :
    ¬ Returns x := by
  obtain ⟨w, rfl⟩ := h
  rintro ⟨a, ha⟩
  cases ha

/-- `std::numeric_limits<std::size_t>::max()`. -/
def sizeMax : ℕ := 2 ^ 64 - 1

def checkedSizeAdd (left right : ℕ) : Except Exception ℕ :=
  if right > sizeMax - left then .error (.overflowError "size calculation is not representable")
  else .ok (left + right)

def checkedSizeMultiply (left right : ℕ) : Except Exception ℕ :=
  if left ≠ 0 ∧ right > sizeMax / left then
    .error (.overflowError "size calculation is not representable")
  else .ok (left * right)

def canonicalNodeCount (n : ℕ) : Except Exception ℕ :=
  if n = 0 then .ok 0
  else do checkedSizeAdd (← checkedSizeMultiply 2 (n - 1)) 1

def lazyStorageCount (n : ℕ) : Except Exception ℕ := checkedSizeMultiply 4 n

def inclusiveLength (left right : ℕ) : Except Exception ℕ :=
  if left > right then .error (.invalidArgument "left endpoint exceeds right endpoint")
  else checkedSizeAdd (right - left) 1

/-- The number of times a number is shifted right until it is zero. -/
def shiftCount (n : ℕ) : ℕ := if h : n = 0 then 0 else shiftCount (n / 2) + 1
termination_by n
decreasing_by omega

theorem shiftCount_eq (n : ℕ) : shiftCount n = Nat.clog 2 (n + 1) := by
  induction n using Nat.strong_induction_on with
  | _ n ih =>
    rw [shiftCount]
    split_ifs with h
    · rw [h, Nat.zero_add, Nat.clog_one_right]
    · rw [ih (n / 2) (by omega), Nat.clog_of_two_le one_lt_two (show 2 ≤ n + 1 by omega),
        show (n + 1 + 2 - 1) / 2 = n / 2 + 1 by omega]

def treeHeight (n : ℕ) : Except Exception ℕ :=
  if n = 0 then .error (.invalidArgument "tree size must be positive")
  else .ok (shiftCount (n - 1))

/-- The height is the binary logarithm, rounded up. -/
theorem treeHeight_eq {n : ℕ} (h : 0 < n) : treeHeight n = .ok (Nat.clog 2 n) := by
  rw [treeHeight, if_neg h.ne', shiftCount_eq, Nat.sub_add_cancel h]

def triangularNumber (n : ℕ) : Except Exception ℕ :=
  if n % 2 = 0 then do checkedSizeMultiply (n / 2) (← checkedSizeAdd n 1)
  else checkedSizeMultiply n (n / 2 + 1)

/-- `vector[index]`, which is undefined past the end. -/
def vectorAt {α : Type} (vector : List α) (index : ℕ) : Except Exception α :=
  match vector[index]? with
  | some x => .ok x
  | none => .error .undefined

/-- `std::vector<T>::max_size()` on a 64-bit target, for elements of the given size. -/
def vectorMaxSize (elementSize : ℕ) : ℕ := (2 ^ 63 - 1) / elementSize

/-- The length check of a standard vector that is asked for `count` elements at once. -/
def checkVectorLength (what : String) (elementSize count : ℕ) : Except Exception Unit :=
  if count > vectorMaxSize elementSize then .error (.lengthError what) else .ok ()

def validateInitialized (versionCount : ℕ) : Except Exception Unit :=
  if versionCount = 0 then .error (.runtimeError "Tree has no versions.") else .ok ()

def validateVersion (version versionCount : ℕ) : Except Exception Unit :=
  if version ≥ versionCount then .error (.outOfRange "Invalid version number.") else .ok ()

def validateNonEmpty (arraySize : ℕ) : Except Exception Unit :=
  if arraySize = 0 then .error (.runtimeError "Tree is empty.") else .ok ()

def validateRange (arraySize left right : ℕ) : Except Exception Unit :=
  if left > right then .error (.invalidArgument "Left index is greater than right index.")
  else if right ≥ arraySize then .error (.outOfRange "Range exceeds array size.")
  else .ok ()

/-! ## What the checks let through -/

theorem checkedSizeAdd_eq_ok {a b c : ℕ} (ha : a ≤ sizeMax) :
    checkedSizeAdd a b = .ok c ↔ c = a + b ∧ a + b ≤ sizeMax := by
  unfold checkedSizeAdd
  split_ifs with h
  · simp; omega
  · simp only [Except.ok.injEq]
    constructor
    · rintro rfl; exact ⟨rfl, by omega⟩
    · rintro ⟨rfl, -⟩; rfl

theorem eq_of_checkedSizeAdd {a b c : ℕ} (h : checkedSizeAdd a b = .ok c) : c = a + b := by
  unfold checkedSizeAdd at h
  split_ifs at h
  cases h
  rfl

theorem checkedSizeMultiply_eq_ok {a b c : ℕ} :
    checkedSizeMultiply a b = .ok c ↔ c = a * b ∧ a * b ≤ sizeMax := by
  unfold checkedSizeMultiply
  rcases Nat.eq_zero_or_pos a with rfl | ha
  · simp [eq_comm]
  · have key : b ≤ sizeMax / a ↔ a * b ≤ sizeMax := by
      rw [Nat.le_div_iff_mul_le ha, mul_comm]
    split_ifs with h
    · simp only [false_iff, not_and]
      intro _ hle
      exact absurd (key.mpr hle) (by omega)
    · simp only [Except.ok.injEq]
      constructor
      · rintro rfl; exact ⟨rfl, key.mp (by omega)⟩
      · rintro ⟨rfl, -⟩; rfl

theorem checkedSizeAdd_error {a b : ℕ} {e : Exception} (h : checkedSizeAdd a b = .error e) :
    e.OutOfRoom := by
  unfold checkedSizeAdd at h
  split_ifs at h
  cases h
  exact rfl

theorem checkedSizeMultiply_error {a b : ℕ} {e : Exception}
    (h : checkedSizeMultiply a b = .error e) : e.OutOfRoom := by
  unfold checkedSizeMultiply at h
  split_ifs at h
  cases h
  exact rfl

theorem checkedSizeAdd_cases {a : ℕ} (b : ℕ) (ha : a ≤ sizeMax) :
    (checkedSizeAdd a b = .ok (a + b) ∧ a + b ≤ sizeMax) ∨
      (Overflows (checkedSizeAdd a b) ∧ sizeMax < a + b) := by
  rcases h : checkedSizeAdd a b with e | c
  · unfold checkedSizeAdd at h
    split_ifs at h
    cases h
    exact .inr ⟨⟨_, rfl⟩, by omega⟩
  · obtain ⟨rfl, hle⟩ := (checkedSizeAdd_eq_ok ha).mp h
    exact .inl ⟨rfl, hle⟩

theorem checkedSizeMultiply_cases (a b : ℕ) :
    (checkedSizeMultiply a b = .ok (a * b) ∧ a * b ≤ sizeMax) ∨
      (Overflows (checkedSizeMultiply a b) ∧ sizeMax < a * b) := by
  rcases h : checkedSizeMultiply a b with e | c
  · have hlt : sizeMax < a * b := by
      by_contra hle
      rw [checkedSizeMultiply_eq_ok.mpr ⟨rfl, not_lt.mp hle⟩] at h
      cases h
    unfold checkedSizeMultiply at h
    split_ifs at h
    cases h
    exact .inr ⟨⟨_, rfl⟩, hlt⟩
  · obtain ⟨rfl, hle⟩ := checkedSizeMultiply_eq_ok.mp h
    exact .inl ⟨rfl, hle⟩

/-- Triangular numbers are exact, or they overflow because they are not representable. -/
theorem triangularNumber_cases {n : ℕ} (hn : n ≤ sizeMax) :
    (triangularNumber n = .ok (n * (n + 1) / 2) ∧ n * (n + 1) / 2 ≤ sizeMax) ∨
      (Overflows (triangularNumber n) ∧ sizeMax < n * (n + 1) / 2) := by
  unfold triangularNumber
  rcases Nat.even_or_odd' n with ⟨k, rfl | rfl⟩
  · have hadd : checkedSizeAdd (2 * k) 1 = .ok (2 * k + 1) :=
      (checkedSizeAdd_eq_ok hn).mpr ⟨rfl, by unfold sizeMax at *; omega⟩
    have hexact : 2 * k * (2 * k + 1) / 2 = 2 * k / 2 * (2 * k + 1) := by
      rw [Nat.mul_assoc, Nat.mul_div_cancel_left _ two_pos, Nat.mul_div_cancel_left _ two_pos]
    rw [if_pos (Nat.mul_mod_right 2 k), hadd, hexact]
    exact checkedSizeMultiply_cases _ _
  · have hexact : (2 * k + 1) * (2 * k + 1 + 1) / 2 = (2 * k + 1) * ((2 * k + 1) / 2 + 1) := by
      rw [show 2 * k + 1 + 1 = 2 * (k + 1) by omega, show (2 * k + 1) / 2 = k by omega,
        Nat.mul_left_comm, Nat.mul_div_cancel_left _ two_pos]
    rw [if_neg (by omega), hexact]
    exact checkedSizeMultiply_cases _ _

theorem inclusiveLength_eq {lo hi : ℕ} (h : lo ≤ hi) (hm : hi < sizeMax) :
    inclusiveLength lo hi = .ok (Segment.length lo hi) := by
  unfold inclusiveLength
  rw [if_neg (by omega), checkedSizeAdd_eq_ok (by omega)]
  exact ⟨rfl, by omega⟩

theorem canonicalNodeCount_eq_ok {n c : ℕ} (hn : 0 < n) :
    canonicalNodeCount n = .ok c ↔ c = 2 * n - 1 ∧ 2 * n - 1 ≤ sizeMax := by
  unfold canonicalNodeCount
  rw [if_neg hn.ne']
  constructor
  · intro h
    rcases hm : checkedSizeMultiply 2 (n - 1) with e | d
    · rw [hm] at h; cases h
    · rw [hm] at h
      obtain ⟨rfl, hd⟩ := checkedSizeMultiply_eq_ok.mp hm
      obtain ⟨rfl, hc⟩ := (checkedSizeAdd_eq_ok hd).mp h
      omega
  · rintro ⟨rfl, hc⟩
    have hm : checkedSizeMultiply 2 (n - 1) = .ok (2 * (n - 1)) :=
      checkedSizeMultiply_eq_ok.mpr ⟨rfl, by omega⟩
    rw [hm]
    exact (checkedSizeAdd_eq_ok (by omega)).mpr (by omega)

theorem checkVectorLength_eq_ok {what : String} {size count : ℕ} :
    checkVectorLength what size count = .ok () ↔ count ≤ vectorMaxSize size := by
  unfold checkVectorLength
  split_ifs with h
  · simp; omega
  · simp; omega

theorem canonicalNodeCount_error {n : ℕ} {e : Exception} (h : canonicalNodeCount n = .error e) :
    e.OutOfRoom := by
  unfold canonicalNodeCount at h
  split_ifs at h
  rcases hm : checkedSizeMultiply 2 (n - 1) with e' | c <;> rw [hm] at h
  · cases h
    exact checkedSizeMultiply_error hm
  · exact checkedSizeAdd_error h

theorem checkVectorLength_error {what : String} {size count : ℕ} {e : Exception}
    (h : checkVectorLength what size count = .error e) : e.OutOfRoom := by
  unfold checkVectorLength at h
  split_ifs at h
  cases h
  trivial

theorem vectorAt_eq_ok {α : Type} {xs : List α} {i : ℕ} {x : α} :
    vectorAt xs i = .ok x ↔ xs[i]? = some x := by
  unfold vectorAt; cases xs[i]? <;> simp

/-- An index of the vector is read. -/
theorem exists_vectorAt {α : Type} {xs : List α} {i : ℕ} (h : i < xs.length) :
    ∃ x, vectorAt xs i = .ok x :=
  ⟨xs[i], vectorAt_eq_ok.mpr (List.getElem?_eq_getElem h)⟩

/-- Reading the image of a vector. -/
theorem vectorAt_map {α β : Type} (g : α → β) (xs : List α) (i : ℕ) :
    vectorAt (xs.map g) i = g <$> vectorAt xs i := by
  unfold vectorAt
  rw [List.getElem?_map]
  cases xs[i]? <;> rfl

/-- An element stays where it is when more are appended. -/
theorem getElem?_more {α : Type} {xs : List α} (more : List α) {i : ℕ} {x : α}
    (h : xs[i]? = some x) : (xs ++ more)[i]? = some x := by
  rw [List.getElem?_append_left (List.getElem?_eq_some_iff.mp h).1]
  exact h

theorem getElem?_getD {α : Type} {xs : List α} (d : α) {i : ℕ} (hi : i < xs.length) :
    xs[i]? = some (xs.getD i d) := by
  rw [List.getD_eq_getElem?_getD, List.getElem?_eq_getElem hi, Option.getD_some]

/-- An element of a vector with one more at its end. -/
theorem getElem?_push {α : Type} {xs : List α} {x y : α} {i : ℕ} (h : (xs ++ [x])[i]? = some y) :
    (i < xs.length ∧ xs[i]? = some y) ∨ (i = xs.length ∧ y = x) := by
  rw [List.getElem?_append] at h
  split_ifs at h with hlt
  · exact .inl ⟨hlt, h⟩
  · obtain ⟨h1, h2⟩ := List.getElem?_eq_some_iff.mp h
    have h3 : i - xs.length = 0 := by simpa using h1
    refine .inr ⟨by omega, ?_⟩
    rw [← h2]
    simp [h3]

/-- The last element of such a vector. -/
theorem eq_of_last_push {α : Type} {xs : List α} {x y : α}
    (h : (xs ++ [x])[(xs ++ [x]).length - 1]? = some y) : y = x := by
  rwa [List.length_append, List.length_singleton, Nat.add_sub_cancel, List.getElem?_concat_length,
    Option.some.injEq, eq_comm] at h

theorem validateInitialized_eq_ok {n : ℕ} : validateInitialized n = .ok () ↔ 0 < n := by
  unfold validateInitialized; split_ifs with h <;> simp <;> omega

theorem validateVersion_eq_ok {v n : ℕ} : validateVersion v n = .ok () ↔ v < n := by
  unfold validateVersion; split_ifs with h <;> simp <;> omega

theorem validateNonEmpty_eq_ok {n : ℕ} : validateNonEmpty n = .ok () ↔ 0 < n := by
  unfold validateNonEmpty; split_ifs with h <;> simp <;> omega

theorem validateRange_eq_ok {n l r : ℕ} : validateRange n l r = .ok () ↔ l ≤ r ∧ r < n := by
  unfold validateRange; split_ifs with h h' <;> simp <;> omega

end Valseg
