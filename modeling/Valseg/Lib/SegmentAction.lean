import Valseg.Lib.Segment
import Mathlib.Data.List.Basic
import Mathlib.Data.Set.Basic

/-!
# Actions on the aggregates of segments

Aggregates of segments are combined in index order, and actions are applied to them; an action is
given the length of the segment. Nothing commutes. `Lawful` are the laws on the aggregates that
segments of elements reached from a set `S` have. Under them the aggregate of a segment
(`aggregate`) splits at its midpoint, an action on an aggregate is the action on every element
(`apply_aggregate`), and the part of a segment inside a range (`partAggregate`) splits alike.
-/

universe u v

/-- Aggregates of segments, and actions on them. -/
structure SegmentAction (X : Type u) (F : Type v) where
  combine : X → X → X
  empty : X
  compose : (newer older : F) → F
  identity : F
  apply : F → X → (length : ℕ) → X

/-- One action on every index of `[left, right]`. -/
structure RangeAction (F : Type v) where
  left : ℕ
  right : ℕ
  action : F
  deriving DecidableEq, Repr

namespace SegmentAction

variable {X : Type u} {F : Type v} (M : SegmentAction X F) (S : Set X)

/-- An action on one element. -/
def act (f : F) (x : X) : X := M.apply f x 1

/-- The elements actions make out of those of `S`. -/
inductive Reached : X → Prop
  | initial {x : X} (h : x ∈ S) : Reached x
  | act {x : X} (f : F) (h : Reached x) : Reached (M.act f x)

/-- The aggregates of segments of such elements, by length. -/
inductive Valid : ℕ → X → Prop
  | empty : Valid 0 M.empty
  | single {x : X} (h : M.Reached S x) : Valid 1 x
  | combine {a b : ℕ} {x y : X} (hx : Valid a x) (hy : Valid b y) : Valid (a + b) (M.combine x y)

/-- The laws, on valid aggregates. -/
structure Lawful : Prop where
  combine_assoc : ∀ {a b c x y z}, M.Valid S a x → M.Valid S b y → M.Valid S c z →
    M.combine (M.combine x y) z = M.combine x (M.combine y z)
  empty_combine : ∀ {a x}, M.Valid S a x → M.combine M.empty x = x
  combine_empty : ∀ {a x}, M.Valid S a x → M.combine x M.empty = x
  compose_assoc : ∀ f g h, M.compose (M.compose f g) h = M.compose f (M.compose g h)
  identity_compose : ∀ f, M.compose M.identity f = f
  compose_identity : ∀ f, M.compose f M.identity = f
  apply_identity : ∀ {a x}, M.Valid S a x → M.apply M.identity x a = x
  apply_compose : ∀ {a x} (g f), M.Valid S a x → M.apply (M.compose g f) x a =
    M.apply g (M.apply f x a) a
  apply_combine : ∀ {a b x y} (f), M.Valid S a x → M.Valid S b y →
    M.apply f (M.combine x y) (a + b) = M.combine (M.apply f x a) (M.apply f y b)
  apply_empty : ∀ f, M.apply f M.empty 0 = M.empty

/-! ## Arrays of elements -/

/-- The elements combined in the order of a list. -/
def total (xs : List X) : X := xs.foldr M.combine M.empty

/-- The indices of a segment, in order. -/
def indices (lo hi : ℕ) : List ℕ := List.range' lo (Segment.length lo hi)

/-- The index-order combine of the elements of a segment. -/
def aggregate (A : ℕ → X) (lo hi : ℕ) : X := M.total ((indices lo hi).map A)

/-- The same for the part of the segment inside `[l, r]`. -/
def partAggregate (A : ℕ → X) (lo hi l r : ℕ) : X :=
  M.total (((indices lo hi).filter fun i => l ≤ i ∧ i ≤ r).map A)

/-- The array with an action made on every index of `[l, r]`. -/
def actOn (A : ℕ → X) (l r : ℕ) (f : F) (i : ℕ) : X := if l ≤ i ∧ i ≤ r then M.act f (A i) else A i

/-- The array after actions, oldest first. -/
def elements (A : ℕ → X) (updates : List (RangeAction F)) : ℕ → X :=
  updates.foldl (fun A u => M.actOn A u.left u.right u.action) A

variable {M S} {A B : ℕ → X} {lo hi l r i : ℕ} {f g : F} {x : X}

theorem mem_indices : i ∈ indices lo hi ↔ lo ≤ i ∧ i < lo + Segment.length lo hi := by
  unfold indices
  rw [List.mem_range'_1]

theorem indices_single (i : ℕ) : indices i i = [i] := by
  unfold indices Segment.length
  rw [Nat.sub_self]
  rfl

theorem indices_split (h : lo < hi) : indices lo hi =
    indices lo (Segment.midpoint lo hi) ++ indices (Segment.midpoint lo hi + 1) hi := by
  have h1 := Segment.le_midpoint lo hi
  have h2 := Segment.midpoint_lt h
  unfold indices Segment.length
  rw [show Segment.midpoint lo hi + 1 = lo + (Segment.midpoint lo hi - lo + 1) by omega,
    List.range'_append_1]
  congr 1
  omega

theorem length_split (h : lo < hi) : Segment.length lo hi =
    Segment.length lo (Segment.midpoint lo hi) + Segment.length (Segment.midpoint lo hi + 1) hi := by
  have h1 := Segment.le_midpoint lo hi
  have h2 := Segment.midpoint_lt h
  unfold Segment.length
  omega

theorem actOn_of_inside (h1 : l ≤ i) (h2 : i ≤ r) : M.actOn A l r f i = M.act f (A i) :=
  if_pos ⟨h1, h2⟩

theorem actOn_of_apart (h : i < l ∨ r < i) : M.actOn A l r f i = A i := if_neg (by omega)

theorem elements_concat (updates : List (RangeAction F)) (u : RangeAction F) :
    M.elements A (updates ++ [u]) = M.actOn (M.elements A updates) u.left u.right u.action :=
  List.foldl_append

/-- Elements that actions are made on stay reached. -/
theorem Reached.actOn (h : M.Reached S (A i)) : M.Reached S (M.actOn A l r f i) := by
  unfold SegmentAction.actOn
  split_ifs
  · exact h.act f
  · exact h

/-- The identity on any range leaves reached elements as they are. -/
theorem Lawful.actOn_identity (hM : M.Lawful S) (h : M.Reached S (A i)) :
    M.actOn A l r M.identity i = A i := by
  unfold SegmentAction.actOn
  split_ifs
  · exact hM.apply_identity (.single h)
  · rfl

theorem Lawful.act_identity (hM : M.Lawful S) (h : M.Reached S x) : M.act M.identity x = x :=
  hM.apply_identity (.single h)

theorem Lawful.act_compose (hM : M.Lawful S) (h : M.Reached S x) (g f : F) :
    M.act (M.compose g f) x = M.act g (M.act f x) := hM.apply_compose g f (.single h)

/-! ## Aggregates -/

theorem aggregate_congr (h : ∀ i, lo ≤ i → i ≤ hi → A i = B i) (hle : lo ≤ hi) :
    M.aggregate A lo hi = M.aggregate B lo hi := by
  refine congrArg M.total (List.map_congr_left fun i hi' => ?_)
  rw [mem_indices, Segment.length] at hi'
  exact h i hi'.1 (by omega)

theorem partAggregate_congr (h : ∀ i, lo ≤ i → i ≤ hi → A i = B i) (hle : lo ≤ hi) :
    M.partAggregate A lo hi l r = M.partAggregate B lo hi l r := by
  refine congrArg M.total (List.map_congr_left fun i hi' => ?_)
  have hmem := (List.mem_filter.mp hi').1
  rw [mem_indices, Segment.length] at hmem
  exact h i hmem.1 (by omega)

theorem valid_total (is : List ℕ) (h : ∀ i ∈ is, M.Reached S (A i)) :
    M.Valid S is.length (M.total (is.map A)) := by
  induction is with
  | nil => exact .empty
  | cons i is ih =>
    have hi := h i List.mem_cons_self
    have his := ih fun j hj => h j (List.mem_cons_of_mem i hj)
    rw [List.length_cons, add_comm]
    exact .combine (.single hi) his

theorem Lawful.total_append (hM : M.Lawful S) (is js : List ℕ) (hi : ∀ i ∈ is, M.Reached S (A i))
    (hj : ∀ j ∈ js, M.Reached S (A j)) :
    M.total ((is ++ js).map A) = M.combine (M.total (is.map A)) (M.total (js.map A)) := by
  induction is with
  | nil => exact (hM.empty_combine (valid_total js hj)).symm
  | cons i is ih =>
    have his := fun j hj => hi j (List.mem_cons_of_mem i hj)
    have hsplit := ih his
    have hassoc := hM.combine_assoc (.single (hi i List.mem_cons_self)) (valid_total is his)
      (valid_total js hj)
    calc M.total ((i :: is ++ js).map A)
        = M.combine (A i) (M.total ((is ++ js).map A)) := rfl
      _ = M.combine (A i) (M.combine (M.total (is.map A)) (M.total (js.map A))) := by rw [hsplit]
      _ = M.combine (M.total ((i :: is).map A)) (M.total (js.map A)) := hassoc.symm

/-- An action on an aggregate is the action on every element. -/
theorem Lawful.apply_total (hM : M.Lawful S) (f : F) (is : List ℕ)
    (h : ∀ i ∈ is, M.Reached S (A i)) :
    M.apply f (M.total (is.map A)) is.length = M.total (is.map fun i => M.act f (A i)) := by
  induction is with
  | nil => exact hM.apply_empty f
  | cons i is ih =>
    have his := fun j hj => h j (List.mem_cons_of_mem i hj)
    have hsplit := hM.apply_combine f (.single (h i List.mem_cons_self)) (valid_total is his)
    rw [ih his] at hsplit
    rw [List.length_cons, add_comm]
    exact hsplit

/-- The elements of a segment are reached. -/
def AllReached (M : SegmentAction X F) (S : Set X) (A : ℕ → X) (lo hi : ℕ) : Prop :=
  ∀ i, lo ≤ i → i ≤ hi → M.Reached S (A i)

theorem AllReached.getD {xs : List X} (hS : ∀ x ∈ xs, x ∈ S) (hpos : 0 < xs.length) (d : X) :
    M.AllReached S (fun i => xs.getD i d) 0 (xs.length - 1) := by
  intro i _ hi
  have hlt : i < xs.length := by omega
  simp only [List.getD_eq_getElem?_getD, List.getElem?_eq_getElem hlt, Option.getD_some]
  exact .initial (hS _ (List.getElem_mem hlt))

theorem AllReached.indices (h : M.AllReached S A lo hi) (hle : lo ≤ hi) :
    ∀ i ∈ indices lo hi, M.Reached S (A i) := by
  intro i hi'
  rw [mem_indices, Segment.length] at hi'
  exact h i hi'.1 (by omega)

theorem AllReached.act (h : M.AllReached S A lo hi) (f : F) :
    M.AllReached S (fun i => M.act f (A i)) lo hi := fun i h1 h2 => (h i h1 h2).act f

theorem AllReached.left (h : M.AllReached S A lo hi) (hlt : lo < hi) :
    M.AllReached S A lo (Segment.midpoint lo hi) := fun i h1 h2 =>
  h i h1 (h2.trans (Segment.midpoint_lt hlt).le)

theorem AllReached.right (h : M.AllReached S A lo hi) :
    M.AllReached S A (Segment.midpoint lo hi + 1) hi := fun i h1 h2 =>
  h i ((Segment.le_midpoint lo hi).trans (by omega)) h2

theorem Lawful.aggregate_single (hM : M.Lawful S) (h : M.Reached S (A i)) :
    M.aggregate A i i = A i := by
  unfold aggregate
  rw [indices_single]
  exact hM.combine_empty (.single h)

theorem Lawful.aggregate_split (hM : M.Lawful S) (hlt : lo < hi) (h : M.AllReached S A lo hi) :
    M.aggregate A lo hi = M.combine (M.aggregate A lo (Segment.midpoint lo hi))
      (M.aggregate A (Segment.midpoint lo hi + 1) hi) := by
  unfold aggregate
  rw [indices_split hlt]
  exact hM.total_append _ _ ((h.left hlt).indices (Segment.le_midpoint lo hi))
    (h.right.indices (Segment.midpoint_lt hlt))

theorem valid_aggregate (hle : lo ≤ hi) (h : M.AllReached S A lo hi) :
    M.Valid S (Segment.length lo hi) (M.aggregate A lo hi) := by
  have hvalid := valid_total (indices lo hi) (h.indices hle)
  rwa [indices, List.length_range'] at hvalid

/-- The identity on the combine of the halves. -/
theorem Lawful.apply_identity_halves (hM : M.Lawful S) (hlt : lo < hi)
    (h : M.AllReached S A lo hi) :
    M.apply M.identity (M.combine (M.aggregate A lo (Segment.midpoint lo hi))
      (M.aggregate A (Segment.midpoint lo hi + 1) hi)) (Segment.length lo hi) =
    M.combine (M.aggregate A lo (Segment.midpoint lo hi))
      (M.aggregate A (Segment.midpoint lo hi + 1) hi) := by
  rw [← hM.aggregate_split hlt h]
  exact hM.apply_identity (valid_aggregate hlt.le h)

/-- An action on the aggregate of a segment is the action on every element. -/
theorem Lawful.apply_aggregate (hM : M.Lawful S) (f : F) (hle : lo ≤ hi)
    (h : M.AllReached S A lo hi) : M.apply f (M.aggregate A lo hi) (Segment.length lo hi) =
      M.aggregate (fun i => M.act f (A i)) lo hi := by
  have happly := hM.apply_total f (indices lo hi) (h.indices hle)
  rw [indices, List.length_range'] at happly
  exact happly

theorem Lawful.partAggregate_split (hM : M.Lawful S) (hlt : lo < hi) (h : M.AllReached S A lo hi) :
    M.partAggregate A lo hi l r = M.combine (M.partAggregate A lo (Segment.midpoint lo hi) l r)
      (M.partAggregate A (Segment.midpoint lo hi + 1) hi l r) := by
  unfold partAggregate
  rw [indices_split hlt, List.filter_append]
  exact hM.total_append _ _
    (fun i hi => (h.left hlt).indices (Segment.le_midpoint lo _) i (List.mem_filter.mp hi).1)
    fun i hi => h.right.indices (Segment.midpoint_lt hlt) i (List.mem_filter.mp hi).1

/-- Inside the range the part is the whole. -/
theorem partAggregate_of_inside (hle : lo ≤ hi) (h : l ≤ lo ∧ hi ≤ r) :
    M.partAggregate A lo hi l r = M.aggregate A lo hi := by
  unfold partAggregate aggregate
  rw [List.filter_eq_self.mpr fun i hi' => ?_]
  rw [mem_indices, Segment.length] at hi'
  exact decide_eq_true (by omega)

/-- A segment apart from the range contributes nothing. -/
theorem partAggregate_of_apart (hle : lo ≤ hi) (h : hi < l ∨ lo > r) :
    M.partAggregate A lo hi l r = M.empty := by
  unfold partAggregate
  rw [List.filter_eq_nil_iff.mpr fun i hi' => ?_]
  · rfl
  · rw [mem_indices, Segment.length] at hi'
    rw [decide_eq_true_eq]
    omega

/-- A range inside the segment is all of its own part. -/
theorem partAggregate_of_contains (h1 : lo ≤ l) (hlr : l ≤ r) (h2 : r ≤ hi) :
    M.partAggregate A lo hi l r = M.aggregate A l r := by
  have hsplit : indices lo hi =
      List.range' lo (l - lo) ++ (indices l r ++ List.range' (r + 1) (hi - r)) := by
    have hl : lo + (l - lo) = l := by omega
    have hr : l + (r - l + 1) = r + 1 := by omega
    have hlow := List.range'_append_1 (s := lo) (m := l - lo) (n := r - l + 1 + (hi - r))
    have hhigh := List.range'_append_1 (s := l) (m := r - l + 1) (n := hi - r)
    rw [hl] at hlow
    rw [hr] at hhigh
    unfold indices Segment.length
    rw [hhigh, hlow]
    congr 1
    omega
  unfold partAggregate aggregate
  rw [hsplit, List.filter_append, List.filter_append, List.filter_eq_nil_iff.mpr fun i hi' => ?_,
    List.filter_eq_self.mpr fun i hi' => ?_, List.filter_eq_nil_iff.mpr fun i hi' => ?_,
    List.nil_append, List.append_nil]
  · rw [List.mem_range'_1] at hi'
    rw [decide_eq_true_eq]
    omega
  · rw [mem_indices, Segment.length] at hi'
    exact decide_eq_true (by omega)
  · rw [List.mem_range'_1] at hi'
    rw [decide_eq_true_eq]
    omega

end SegmentAction
