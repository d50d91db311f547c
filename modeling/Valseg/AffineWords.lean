import Valseg.CommutativityBoundary

/-!
# The affine policy over words

`AffineSumModPolicy` of `policy.hpp` as it is computed: aggregates and coefficients are 64-bit
words, and the modulus is below `2 ^ 32`. No sum and no product of the policy wraps around
(`affineSumModPolicy_eq`), and the residues of the words are acted on as those of
`AffineSumModPolicy.operations` are (`residue_combine`, `residues_compose`, `residue_apply`).
-/

namespace Valseg

namespace AffineSumModPolicy

/-- The template parameter, with its two assertions. -/
structure Modulus where
  value : UInt64
  one_lt : 1 < value.toNat
  lt : value.toNat < 2 ^ 32

/-- An affine map with reduced coefficients. -/
@[ext] structure WordAction (M : Modulus) where
  scale : UInt64
  shift : UInt64
  scale_lt : scale.toNat < M.value.toNat
  shift_lt : shift.toNat < M.value.toNat
  deriving DecidableEq

variable (M : Modulus)

theorem Modulus.pos : 0 < M.value.toNat := by
  have := M.one_lt
  omega

instance : NeZero M.value.toNat := ⟨M.pos.ne'⟩

theorem Modulus.mod_lt (x : UInt64) : (x % M.value).toNat < M.value.toNat := by
  rw [UInt64.toNat_mod]
  exact Nat.mod_lt _ M.pos

theorem Modulus.ofNat_lt (n : ℕ) : (UInt64.ofNat (n % M.value.toNat)).toNat < M.value.toNat := by
  have hlt := Nat.mod_lt n M.pos
  rw [UInt64.toNat_ofNat_of_lt' (hlt.trans M.value.toNat_lt)]
  exact hlt

/-- The constructor reduces both coefficients. -/
def WordAction.canonical (actionScale actionShift : UInt64) : WordAction M :=
  ⟨actionScale % M.value, actionShift % M.value, M.mod_lt _, M.mod_lt _⟩

/-- `left + right`. Where it would wrap around, the model ends. -/
def addWords (left right : UInt64) : Except Exception UInt64 :=
  if left.toNat + right.toNat < 2 ^ 64 then .ok (left + right) else .error .undefined

/-- `left * right`. Where it would wrap around, the model ends. -/
def multiplyWords (left right : UInt64) : Except Exception UInt64 :=
  if left.toNat * right.toNat < 2 ^ 64 then .ok (left * right) else .error .undefined

def addReduced (left right : UInt64) : Except Exception UInt64 := do
  return (← addWords left right) % M.value

def multiplyReduced (left right : UInt64) : Except Exception UInt64 := do
  return (← multiplyWords left right) % M.value

def combine (left right : UInt64) : Except Exception UInt64 :=
  addReduced M (left % M.value) (right % M.value)

def compose (newer older : WordAction M) : Except Exception (WordAction M) := do
  let scale ← multiplyReduced M newer.scale older.scale
  let shift ← addReduced M (← multiplyReduced M newer.scale older.shift) newer.shift
  return .canonical M scale shift

def apply (action : WordAction M) (aggregate : UInt64) (length : ℕ) : Except Exception UInt64 := do
  let reducedLength := UInt64.ofNat (length % M.value.toNat)
  addReduced M (← multiplyReduced M action.scale (aggregate % M.value))
    (← multiplyReduced M action.shift reducedLength)

end AffineSumModPolicy

open AffineSumModPolicy in
/-- Affine actions over range-sum aggregates, modulo an integer. -/
def affineSumModPolicy (M : Modulus) : Policy UInt64 (WordAction M) where
  combine := combine M
  aggregateIdentity := 0
  compose := compose M
  actionIdentity := .canonical M 1 0
  apply := apply M
  aggregateBytes := 8
  actionBytes := 16
  recordBytes := 40
  taglessRecordBytes := 24

namespace AffineSumModPolicy

variable {M : Modulus} {x y : UInt64}

/-! ## No word wraps around -/

theorem addReduced_eq (hx : x.toNat < M.value.toNat) (hy : y.toNat < M.value.toNat) :
    addReduced M x y = .ok ((x + y) % M.value) := by
  have := M.lt
  rw [addReduced, addWords, if_pos (by omega)]
  rfl

theorem multiplyReduced_eq (hx : x.toNat < M.value.toNat) (hy : y.toNat < M.value.toNat) :
    multiplyReduced M x y = .ok (x * y % M.value) := by
  have hlt : x.toNat * y.toNat < 2 ^ 32 * 2 ^ 32 :=
    Nat.mul_lt_mul'' (hx.trans M.lt) (hy.trans M.lt)
  rw [multiplyReduced, multiplyWords, if_pos (by omega)]
  rfl

/-- The operations with their words. -/
def words (M : Modulus) : SegmentAction UInt64 (WordAction M) where
  combine x y := (x % M.value + y % M.value) % M.value
  empty := 0
  compose g f := .canonical M (g.scale * f.scale % M.value)
    ((g.scale * f.shift % M.value + g.shift) % M.value)
  identity := .canonical M 1 0
  apply f x length := (f.scale * (x % M.value) % M.value +
    f.shift * UInt64.ofNat (length % M.value.toNat) % M.value) % M.value

/-- **No sum and no product wraps around**, whatever the words are. -/
theorem affineSumModPolicy_eq (M : Modulus) :
    affineSumModPolicy M = totalPolicy (words M) ⟨8, 16, 40, 24⟩ := by
  unfold affineSumModPolicy totalPolicy
  congr 1
  · funext x y
    exact addReduced_eq (M.mod_lt x) (M.mod_lt y)
  · funext g f
    rw [compose, multiplyReduced_eq g.scale_lt f.scale_lt, Effect.ok_bind,
      multiplyReduced_eq g.scale_lt f.shift_lt, Effect.ok_bind,
      addReduced_eq (M.mod_lt _) g.shift_lt]
    rfl
  · funext f x length
    rw [apply, multiplyReduced_eq f.scale_lt (M.mod_lt x), Effect.ok_bind,
      multiplyReduced_eq f.shift_lt (M.ofNat_lt length), Effect.ok_bind,
      addReduced_eq (M.mod_lt _) (M.mod_lt _)]
    rfl

/-! ## Residues -/

/-- A word modulo the modulus. -/
def residue (M : Modulus) (x : UInt64) : ZMod M.value.toNat := (x.toNat : ZMod M.value.toNat)

def residues (f : WordAction M) : Action M.value.toNat := ⟨residue M f.scale, residue M f.shift⟩

@[simp] theorem residue_mod (M : Modulus) (x : UInt64) : residue M (x % M.value) = residue M x := by
  rw [residue, UInt64.toNat_mod, ZMod.natCast_mod, residue]

theorem residue_add (hx : x.toNat < M.value.toNat) (hy : y.toNat < M.value.toNat) :
    residue M (x + y) = residue M x + residue M y := by
  have := M.lt
  rw [residue, UInt64.toNat_add, Nat.mod_eq_of_lt (by omega), Nat.cast_add]
  rfl

theorem residue_mul (hx : x.toNat < M.value.toNat) (hy : y.toNat < M.value.toNat) :
    residue M (x * y) = residue M x * residue M y := by
  have hlt : x.toNat * y.toNat < 2 ^ 32 * 2 ^ 32 :=
    Nat.mul_lt_mul'' (hx.trans M.lt) (hy.trans M.lt)
  rw [residue, UInt64.toNat_mul, Nat.mod_eq_of_lt (by omega), Nat.cast_mul]
  rfl

theorem residue_ofNat (M : Modulus) (n : ℕ) :
    residue M (UInt64.ofNat (n % M.value.toNat)) = n := by
  rw [residue, UInt64.toNat_ofNat_of_lt' ((Nat.mod_lt n M.pos).trans M.value.toNat_lt),
    ZMod.natCast_mod]

/-- Reduced words are their residues. -/
theorem eq_of_residue (hx : x.toNat < M.value.toNat) (hy : y.toNat < M.value.toNat)
    (h : residue M x = residue M y) : x = y := by
  rw [residue, residue, ZMod.natCast_eq_natCast_iff', Nat.mod_eq_of_lt hx, Nat.mod_eq_of_lt hy] at h
  exact UInt64.toNat_inj.mp h

theorem residues_injective {f g : WordAction M} (h : residues f = residues g) : f = g := by
  rw [residues, residues, Action.mk.injEq] at h
  exact WordAction.ext (eq_of_residue f.scale_lt g.scale_lt h.1)
    (eq_of_residue f.shift_lt g.shift_lt h.2)

theorem residue_combine (x y : UInt64) : residue M ((words M).combine x y) =
    (operations M.value.toNat).combine (residue M x) (residue M y) := by
  simp only [words, operations, residue_mod, residue_add (M.mod_lt x) (M.mod_lt y)]

theorem residue_empty : residue M (words M).empty = (operations M.value.toNat).empty := by
  simp [words, operations, residue]

theorem residues_compose (g f : WordAction M) : residues ((words M).compose g f) =
    (operations M.value.toNat).compose (residues g) (residues f) := by
  simp only [words, operations, residues, WordAction.canonical, residue_mod,
    residue_add (M.mod_lt _) g.shift_lt, residue_mul g.scale_lt f.scale_lt,
    residue_mul g.scale_lt f.shift_lt]

theorem residues_identity :
    residues (words M).identity = (operations M.value.toNat).identity := by
  simp [words, operations, residues, WordAction.canonical, residue]

theorem residue_apply (f : WordAction M) (x : UInt64) (length : ℕ) :
    residue M ((words M).apply f x length) =
      (operations M.value.toNat).apply (residues f) (residue M x) length := by
  simp only [words, operations, residues, residue_mod, residue_add (M.mod_lt _) (M.mod_lt _),
    residue_mul f.scale_lt (M.mod_lt x), residue_mul f.shift_lt (M.ofNat_lt length), residue_ofNat]

theorem combine_lt (x y : UInt64) : ((words M).combine x y).toNat < M.value.toNat := M.mod_lt _

theorem apply_lt (f : WordAction M) (x : UInt64) (length : ℕ) :
    ((words M).apply f x length).toNat < M.value.toNat := M.mod_lt _

/-! ## The laws -/

section Laws

variable {z : UInt64} {a b : ℕ} {f g h : WordAction M}

theorem words_combine_assoc : (words M).combine ((words M).combine x y) z =
    (words M).combine x ((words M).combine y z) := by
  refine eq_of_residue (combine_lt _ _) (combine_lt _ _) ?_
  simp only [residue_combine, operations, add_assoc]

theorem words_empty_combine (hx : x.toNat < M.value.toNat) :
    (words M).combine (words M).empty x = x := by
  refine eq_of_residue (combine_lt _ _) hx ?_
  simp only [residue_combine, residue_empty, operations, zero_add]

theorem words_combine_empty (hx : x.toNat < M.value.toNat) :
    (words M).combine x (words M).empty = x := by
  refine eq_of_residue (combine_lt _ _) hx ?_
  simp only [residue_combine, residue_empty, operations, add_zero]

theorem words_compose_assoc : (words M).compose ((words M).compose f g) h =
    (words M).compose f ((words M).compose g h) := by
  refine residues_injective ?_
  simp only [residues_compose]
  exact (lawful _ Set.univ).compose_assoc _ _ _

theorem words_identity_compose : (words M).compose (words M).identity f = f := by
  refine residues_injective ?_
  simp only [residues_compose, residues_identity]
  exact (lawful _ Set.univ).identity_compose _

theorem words_compose_identity : (words M).compose f (words M).identity = f := by
  refine residues_injective ?_
  simp only [residues_compose, residues_identity]
  exact (lawful _ Set.univ).compose_identity _

theorem words_apply_identity (hx : x.toNat < M.value.toNat) :
    (words M).apply (words M).identity x a = x := by
  refine eq_of_residue (apply_lt _ _ _) hx ?_
  simp only [residue_apply, residues_identity, operations, one_mul, zero_mul, add_zero]

theorem words_apply_compose : (words M).apply ((words M).compose g f) x a =
    (words M).apply g ((words M).apply f x a) a := by
  refine eq_of_residue (apply_lt _ _ _) (apply_lt _ _ _) ?_
  simp only [residue_apply, residues_compose, operations]
  ring

theorem words_apply_combine : (words M).apply f ((words M).combine x y) (a + b) =
    (words M).combine ((words M).apply f x a) ((words M).apply f y b) := by
  refine eq_of_residue (apply_lt _ _ _) (combine_lt _ _) ?_
  simp only [residue_apply, residue_combine, operations, Nat.cast_add]
  ring

theorem words_apply_empty : (words M).apply f (words M).empty 0 = (words M).empty := by
  refine eq_of_residue (apply_lt _ _ _) M.pos ?_
  simp only [residue_apply, residue_empty, operations, Nat.cast_zero, mul_zero, add_zero]

end Laws

end AffineSumModPolicy

end Valseg
