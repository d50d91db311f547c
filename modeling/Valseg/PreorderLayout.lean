import Valseg.CheckpointingSegmentTree
import Valseg.SlotAccesses
import Valseg.Lib.Descent
import Mathlib.Data.Set.Function

/-!
# The preorder layout

Where the nodes of `CheckpointingSegmentTree` are in its vectors. `preorderSlot` descends from the
slot of a segment to that of a segment below it, and is the function of which `PreorderSlot` is the
graph. The segments below one of `m` indices fill the `2 m - 1` slots from its own on
(`image_preorderSlot`), so over the whole array the map is a bijection onto the vector. Every
recursion keeps to it, which is said of the log of its accesses.
-/

namespace Valseg

open Segment (length Canonical descend midpoint le_midpoint midpoint_lt descend_self descend_left
  descend_right descend_trans descend_halves)
open Effect

/-! ## The slot of a segment -/

/-- The slots of two halves, the left one after the slot of their segment and the right one after
the slots of the left half. -/
def preorderHalves (base lo middle : ℕ) : ℕ × ℕ := (base + 1, base + 2 * length lo middle)

/-- The slot of `[a, b]` when that of `[lo, hi]` is `base`. -/
def preorderSlot (base lo hi a b : ℕ) : ℕ := descend preorderHalves base lo hi a b

section Slot

variable {base lo hi i a b c d : ℕ}

@[simp] theorem preorderSlot_self : preorderSlot base lo hi lo hi = base := descend_self

theorem preorderSlot_left (hlt : lo < hi) (h : Canonical lo (midpoint lo hi) a b) :
    preorderSlot base lo hi a b = preorderSlot (base + 1) lo (midpoint lo hi) a b :=
  descend_left hlt h

theorem preorderSlot_right (hlt : lo < hi) (h : Canonical (midpoint lo hi + 1) hi a b) :
    preorderSlot base lo hi a b =
      preorderSlot (base + 2 * length lo (midpoint lo hi)) (midpoint lo hi + 1) hi a b :=
  descend_right hlt h

/-- A segment below has the slot that the descent finds. -/
theorem preorderSlot_spec (base : ℕ) (h : Canonical lo hi a b) :
    PreorderSlot base lo hi (preorderSlot base lo hi a b) a b := by
  induction h generalizing base with
  | self _ => rw [preorderSlot_self]; exact .root
  | left hlt h ih => rw [preorderSlot_left hlt h]; exact .left hlt (ih _)
  | right hlt h ih => rw [preorderSlot_right hlt h]; exact .right hlt (ih _)

theorem PreorderSlot.canonical (h : PreorderSlot base lo hi i a b) (hle : lo ≤ hi) :
    Canonical lo hi a b := by
  induction h with
  | root => exact .self hle
  | left hlt _ ih => exact .left hlt (ih (le_midpoint _ _))
  | right hlt _ ih => exact .right hlt (ih (midpoint_lt hlt))

/-- It has no other slot. -/
theorem PreorderSlot.eq_slot (h : PreorderSlot base lo hi i a b) (hle : lo ≤ hi) :
    i = preorderSlot base lo hi a b := by
  induction h with
  | root => rw [preorderSlot_self]
  | left hlt h ih =>
    rw [preorderSlot_left hlt (h.canonical (le_midpoint _ _))]
    exact ih (le_midpoint _ _)
  | right hlt h ih =>
    rw [preorderSlot_right hlt (h.canonical (midpoint_lt hlt))]
    exact ih (midpoint_lt hlt)

theorem preorderSlot_iff (hle : lo ≤ hi) : PreorderSlot base lo hi i a b ↔
    Canonical lo hi a b ∧ i = preorderSlot base lo hi a b := by
  refine ⟨fun h => ⟨h.canonical hle, h.eq_slot hle⟩, ?_⟩
  rintro ⟨h, rfl⟩
  exact preorderSlot_spec base h

/-- Every slot of the block is that of a segment: the first of the segment itself, the next ones
of the left half, the others of the right half. -/
theorem exists_preorderSlot : ∀ lo hi, lo ≤ hi → ∀ base i, base ≤ i →
    i + 1 < base + 2 * length lo hi → ∃ a b, PreorderSlot base lo hi i a b := by
  refine Segment.halving_induction (fun m base i h1 h2 => ?_)
    fun lo hi hlt ihl ihr base i h1 h2 => ?_
  · unfold length at h2
    obtain rfl : i = base := by omega
    exact ⟨m, m, .root⟩
  · have hm := le_midpoint lo hi
    have hm' := midpoint_lt hlt
    have hsplit : length lo hi = length lo (midpoint lo hi) + length (midpoint lo hi + 1) hi := by
      unfold length; omega
    rcases Nat.eq_or_lt_of_le h1 with rfl | h1
    · exact ⟨lo, hi, .root⟩
    by_cases hl : i < base + 2 * length lo (midpoint lo hi)
    · obtain ⟨a, b, h⟩ := ihl (base + 1) i (by omega) (by omega)
      exact ⟨a, b, .left hlt h⟩
    · obtain ⟨a, b, h⟩ := ihr (base + 2 * length lo (midpoint lo hi)) i (by omega) (by omega)
      exact ⟨a, b, .right hlt h⟩

/-- **The block of a segment.** -/
theorem image_preorderSlot (hle : lo ≤ hi) (base : ℕ) :
    (fun s : ℕ × ℕ => preorderSlot base lo hi s.1 s.2) '' {s | Canonical lo hi s.1 s.2} =
      Set.Ico base (base + (2 * length lo hi - 1)) := by
  have hlen : 0 < length lo hi := Nat.succ_pos _
  ext i
  simp only [Set.mem_image, Set.mem_ofPred_eq, Set.mem_Ico, Prod.exists]
  constructor
  · rintro ⟨a, b, h, rfl⟩
    have hb := (preorderSlot_spec base h).bounds hle
    have : 0 < length a b := Nat.succ_pos _
    omega
  · rintro ⟨h1, h2⟩
    obtain ⟨a, b, h⟩ := exists_preorderSlot lo hi hle base i h1 (by omega)
    exact ⟨a, b, h.canonical hle, (h.eq_slot hle).symm⟩

end Slot

/-! ## The children of a slot -/

section RightChild

variable {i a b k size : ℕ}

theorem preorderRightChild_inBounds (i a b : ℕ) :
    ThrowsOnly InBounds (preorderRightChild i a b) :=
  .bind (inclusiveLength_inBounds a b) fun _ _ =>
    .bind (fun _ h => (checkedSizeMultiply_error h).inBounds) fun _ _ _ h =>
      (checkedSizeAdd_error h).inBounds

/-- Where the right child is computed, it is after the left subtree. -/
theorem eq_of_preorderRightChild (h : preorderRightChild i a b = .ok k) :
    k = i + 2 * length a b := by
  obtain ⟨m, h1, h⟩ := bind_eq_ok.mp h
  obtain ⟨d, h2, h⟩ := bind_eq_ok.mp h
  obtain ⟨rfl, -⟩ := checkedSizeMultiply_eq_ok.mp h2
  unfold inclusiveLength at h1
  split_ifs at h1 with hab
  rw [eq_of_checkedSizeAdd h, eq_of_checkedSizeAdd h1]
  rfl

theorem preorderChildren_eq_ok {j : ℕ} (h : preorderChildren i a b = .ok (j, k)) :
    j = i + 1 ∧ k = i + 2 * length a b := by
  obtain ⟨right, hright, h⟩ := bind_eq_ok.mp h
  cases h
  exact ⟨rfl, eq_of_preorderRightChild hright⟩

/-- A vector of `2 n - 1` slots has one for every segment. -/
theorem preorder_addresses (hn : 0 < size) :
    Addresses InBounds preorderChildren (PreorderSlot 0 0 (size - 1)) (2 * size - 1) where
  bound h := by
    obtain ⟨-, -, -, h4⟩ := h.bounds (Nat.zero_le _)
    unfold length at h4
    omega
  throws _ _ := .bind (preorderRightChild_inBounds _ _ _) fun _ _ => .ok _
  halves ho hlt hc := by
    obtain ⟨rfl, rfl⟩ := preorderChildren_eq_ok hc
    exact ho.split hlt

/-- The slot that an access writes. -/
def Access.written (w : Access) : Option ℕ := if w.kind = .writes then some w.slot else none

/-- A build writes every slot of the block of its segment once; where it throws, no slot twice. -/
theorem loggedBuild_covers {α β : Type} (leaf : β → α) (combine : α → α → Except Exception α)
    (values : List β) : ∀ lo hi, lo ≤ hi → ∀ base,
      Covers Access.written (List.range' base (2 * length lo hi - 1))
        (loggedBuild preorderChildren leaf combine values base lo hi) := by
  have hwrite : ∀ slot lo hi (x : ArenaM α Unit),
      Covers Access.written [slot] (writeAt slot lo hi x) := fun slot lo hi x =>
    .bind (.note _) fun _ => .quietly x
  have hread : ∀ slot lo hi (x : ArenaM α α), Covers Access.written [] (readAt slot lo hi x) :=
    fun slot lo hi x => .bind (.note _) fun _ => .quietly x
  have henter : ∀ slot lo hi,
      Covers Access.written [] (enter slot lo hi : AccessM (List α) PUnit) :=
    fun slot lo hi => .note _
  refine Segment.halving_induction (fun m base => ?_) fun lo hi hlt ihl ihr base => ?_
  · rw [loggedBuild, if_pos rfl, show List.range' base (2 * length m m - 1) = [base] by
      simp [length]]
    exact .silent_bind (henter _ _ _) fun _ => .lift_bind fun _ _ => hwrite _ _ _ _
  · rw [loggedBuild, if_neg hlt.ne, if_pos hlt]
    have hm := midpoint_lt hlt
    have hm' := le_midpoint lo hi
    -- The left block is right after the slot, and the right block right after the left one.
    have hblock : List.range' base (2 * length lo hi - 1) =
        base :: (List.range' (base + 1) (2 * length lo (midpoint lo hi) - 1) ++
          List.range' (base + 2 * length lo (midpoint lo hi))
            (2 * length (midpoint lo hi + 1) hi - 1)) := by
      rw [List.range'_eq_cons_iff]
      refine ⟨rfl, by unfold length; omega, ?_⟩
      rw [show base + 2 * length lo (midpoint lo hi) =
          base + 1 + 1 * (2 * length lo (midpoint lo hi) - 1) by unfold length; omega,
        List.range'_append]
      congr 1
      unfold length
      omega
    rw [hblock]
    refine .silent_bind (henter _ _ _) fun _ => .lift_bind fun pair hc => ?_
    obtain ⟨j, k⟩ := pair
    refine Covers.perm ?_ (List.perm_append_singleton base _)
    obtain ⟨rfl, rfl⟩ := preorderChildren_eq_ok hc
    rw [List.append_assoc]
    refine .bind (ihl _) fun _ => .bind (ihr _) fun _ => ?_
    refine .silent_bind (hread _ _ _ _) fun x => .silent_bind (hread _ _ _ _) fun y => ?_
    exact .lift_bind fun node _ => hwrite _ _ _ _

end RightChild

namespace CheckpointingSegmentTree

/-- The slot of a segment in a vector over `n` indices. -/
def slotOf (n : ℕ) (segment : ℕ × ℕ) : ℕ := preorderSlot 0 0 (n - 1) segment.1 segment.2

theorem slot_iff {n i a b : ℕ} : Slot n i a b ↔ IsSlot n (slotOf n) i a b :=
  preorderSlot_iff (Nat.zero_le _)

/-! ## The recursions with their accesses -/

def loggedBuild (values : List ValueType) (nodeIndex segmentLeft segmentRight : ℕ) :
    AccessM (List Node) Unit :=
  Valseg.loggedBuild preorderChildren (fun sum => ⟨sum, 0⟩)
    (combineSums (fun sum => ⟨sum, 0⟩) Node.sum) values nodeIndex segmentLeft segmentRight

def loggedUpdate (nodeIndex segmentLeft segmentRight queryLeft queryRight : ℕ)
    (value : ValueType) : AccessM (List Node) Unit := do
  enter nodeIndex segmentLeft segmentRight
  if segmentRight < queryLeft ∨ segmentLeft > queryRight then pure ()
  else do
    let current ← readAt nodeIndex segmentLeft segmentRight (readNode nodeIndex)
    if queryLeft ≤ segmentLeft ∧ segmentRight ≤ queryRight then do
      let sum ← SumAddPolicy.apply value current.sum (← segmentLength segmentLeft segmentRight)
      writeAt nodeIndex segmentLeft segmentRight (writeSlot nodeIndex ⟨sum, current.lazy⟩)
      let lazy ← checkedAdd current.lazy value
      writeAt nodeIndex segmentLeft segmentRight (writeSlot nodeIndex ⟨sum, lazy⟩)
    else if segmentLeft < segmentRight then do
      let middle := Segment.midpoint segmentLeft segmentRight
      let leftIndex := nodeIndex + 1
      let rightIndex ← rightChild nodeIndex segmentLeft middle
      loggedUpdate leftIndex segmentLeft middle queryLeft queryRight value
      loggedUpdate rightIndex (middle + 1) segmentRight queryLeft queryRight value
      let current ← readAt nodeIndex segmentLeft segmentRight (readNode nodeIndex)
      let left ← readAt leftIndex segmentLeft middle (readNode leftIndex)
      let right ← readAt rightIndex (middle + 1) segmentRight (readNode rightIndex)
      let childSum ← checkedAdd left.sum right.sum
      let sum ← SumAddPolicy.apply current.lazy childSum
        (← segmentLength segmentLeft segmentRight)
      writeAt nodeIndex segmentLeft segmentRight (writeSlot nodeIndex ⟨sum, current.lazy⟩)
    else throw .undefined
termination_by segmentRight - segmentLeft
decreasing_by all_goals (simp only [Segment.midpoint] at *; omega)

def loggedValidateUpdate (nodes : List Node) :
    (nodeIndex segmentLeft segmentRight queryLeft queryRight : ℕ) → ValueType →
      AccessM Unit ValueType := (layout nodes).loggedValidateUpdate

def loggedQuery (nodes : List Node) :
    (nodeIndex segmentLeft segmentRight queryLeft queryRight : ℕ) → (inheritedLazy : ValueType) →
      AccessM Unit ValueType := (layout nodes).loggedQuery

def loggedMaterialize (nodes : List Node) : (nodeIndex segmentLeft segmentRight : ℕ) →
    (inheritedLazy : ValueType) → List ValueType → AccessM Unit (List ValueType) :=
  (layout nodes).loggedMaterialize

section Accesses

variable {n : ℕ} {l r : ℕ} {value : ValueType}

theorem loggedUpdate_erases (l r : ℕ) (value : ValueType) : ∀ lo hi, lo ≤ hi → ∀ i,
    Erases (loggedUpdate i lo hi l r value) (update i lo hi l r value) := by
  refine Segment.halving_induction (fun m i => ?_) fun lo hi hlt ihl ihr i => ?_
  all_goals
    rw [loggedUpdate, update]
    refine enter_erases (.ite (fun _ => .pure _) fun hmeets => .bind readAt_erases fun node => ?_)
    refine .ite (fun _ => ?_) fun hin => ?_
    · refine .bind (.lift _) fun _ => .bind (.lift _) fun _ => .bind writeAt_erases fun _ => ?_
      exact .bind (.lift _) fun _ => writeAt_erases
  · omega
  · refine .ite (fun _ => .bind (.lift _) fun k => ?_) fun h => absurd hlt h
    refine .bind (ihl _) fun _ => .bind (ihr k) fun _ => .bind readAt_erases fun _ => ?_
    refine .bind readAt_erases fun _ => .bind readAt_erases fun _ => .bind (.lift _) fun _ => ?_
    exact .bind (.lift _) fun _ => .bind (.lift _) fun _ => writeAt_erases

/-- An update stays with the slots of the segments it is for. -/
theorem loggedUpdate_staysIn (hn : 0 < n) (l r : ℕ) (value : ValueType) : ∀ lo hi, lo ≤ hi →
    ∀ {i}, Slot n i lo hi →
      WritesIn (2 * n - 1) InBounds (Slot n) (loggedUpdate i lo hi l r value) := by
  have hA := preorder_addresses hn
  have hread : ∀ {i a b}, Slot n i a b →
      WritesIn (2 * n - 1) InBounds (Slot n) (readAt i a b (readNode i : ArenaM Node Node)) :=
    fun ho => readAt_staysIn ho (readNode_maintains (hA.bound ho))
  have hwrite : ∀ {i a b}, Slot n i a b → ∀ node : Node,
      WritesIn (2 * n - 1) InBounds (Slot n) (writeAt i a b (writeSlot i node)) :=
    fun ho node => writeAt_staysIn ho (writeSlot_maintains (hA.bound ho) node)
  refine Segment.halving_induction (fun m i ho => ?_) fun lo hi hlt ihl ihr i ho => ?_
  all_goals
    rw [loggedUpdate]
    refine .bind (enter_staysIn ho) fun _ => .ite (fun _ => .pure _) fun hmeets => ?_
    refine .bind (hread ho) fun node => .ite (fun _ => ?_) fun hin => ?_
    · refine .bind (.lift (inclusiveLength_inBounds _ _)) fun _ => ?_
      refine .bind (.lift (apply_inBounds _ _ _)) fun _ => .bind (hwrite ho _) fun _ => ?_
      exact .bind (.lift (checkedAdd_inBounds _ _)) fun _ => hwrite ho _
  · omega
  · refine .ite (fun _ => ?_) fun h => absurd hlt h
    refine .lift_bind (preorderRightChild_inBounds _ _ _) fun k hk => ?_
    obtain rfl := eq_of_preorderRightChild hk
    obtain ⟨hl, hr⟩ := ho.split hlt
    refine .bind (ihl hl) fun _ => .bind (ihr hr) fun _ => .bind (hread ho) fun _ => ?_
    refine .bind (hread hl) fun _ => .bind (hread hr) fun _ => ?_
    refine .bind (.lift (checkedAdd_inBounds _ _)) fun _ => ?_
    refine .bind (.lift (inclusiveLength_inBounds _ _)) fun _ => ?_
    exact .bind (.lift (apply_inBounds _ _ _)) fun _ => hwrite ho _

/-- What is read of a vector of the right length. -/
theorem layout_addressed (hn : 0 < n) {nodes : List Node} (hlen : nodes.length = 2 * n - 1) :
    (layout nodes).Addressed (Slot n) := (preorder_addresses hn).slotLayout _ hlen

end Accesses

/-! ## The layout -/

/-- What the vector of a tree over `n` elements has where. -/
structure PreorderLayout (n : ℕ) : Prop where
  /-- Every slot has one segment and every segment has one slot. -/
  bijective : Set.BijOn (slotOf n) (segments n) (Set.Iio (2 * n - 1))
  root : slotOf n (0, n - 1) = 0
  left : ∀ a b, (a, b) ∈ segments n → a < b → slotOf n (a, midpoint a b) = slotOf n (a, b) + 1
  /-- Where the right child is computed it is the slot of the right half, and it is computed
  wherever there is such a vector. -/
  right : ∀ a b, (a, b) ∈ segments n → a < b →
    (∀ k, rightChild (slotOf n (a, b)) a (midpoint a b) = .ok k →
      k = slotOf n (midpoint a b + 1, b)) ∧
      (2 * n - 1 ≤ sizeMax →
        rightChild (slotOf n (a, b)) a (midpoint a b) = .ok (slotOf n (midpoint a b + 1, b)))
  /-- The subtree of a segment of `m` elements is the `2 m - 1` slots from its own on. -/
  block : ∀ a b, (a, b) ∈ segments n → slotOf n '' {s | Canonical a b s.1 s.2} =
    Set.Ico (slotOf n (a, b)) (slotOf n (a, b) + (2 * length a b - 1))
  build : ∀ values : List ValueType, values.length = n →
    Tracks (fun nodes => nodes.length = 2 * n - 1) InBounds (IsSlot n (slotOf n))
      (loggedBuild values 0 0 (n - 1)) (build values 0 0 (n - 1))
  /-- A build that returns has written every slot once; one that throws has written none twice. -/
  buildWrites : ∀ values : List ValueType,
    Covers Access.written (List.range (2 * n - 1)) (loggedBuild values 0 0 (n - 1))
  update : ∀ l r value, Tracks (fun nodes => nodes.length = 2 * n - 1) InBounds
    (IsSlot n (slotOf n)) (loggedUpdate 0 0 (n - 1) l r value) (update 0 0 (n - 1) l r value)
  validateUpdate : ∀ (nodes : List Node) l r value, nodes.length = 2 * n - 1 → l ≤ r → r < n →
    Tracks (fun _ => True) InBounds (IsSlot n (slotOf n))
      (loggedValidateUpdate nodes 0 0 (n - 1) l r value)
      (liftM (validateUpdate nodes 0 0 (n - 1) l r value))
  query : ∀ (nodes : List Node) l r inheritedLazy, nodes.length = 2 * n - 1 →
    Tracks (fun _ => True) InBounds (IsSlot n (slotOf n))
      (loggedQuery nodes 0 0 (n - 1) l r inheritedLazy)
      (liftM (query nodes 0 0 (n - 1) l r inheritedLazy))
  materialize : ∀ (nodes : List Node) inheritedLazy values, nodes.length = 2 * n - 1 →
    Tracks (fun _ => True) InBounds (IsSlot n (slotOf n))
      (loggedMaterialize nodes 0 0 (n - 1) inheritedLazy values)
      (liftM (materialize nodes 0 0 (n - 1) inheritedLazy values))

section Layout

variable {n a b : ℕ}

/-- The image of the segments is the vector, and a slot determines its segment. -/
theorem slotOf_bijOn (hn : 0 < n) : Set.BijOn (slotOf n) (segments n) (Set.Iio (2 * n - 1)) := by
  have himage : slotOf n '' segments n = Set.Iio (2 * n - 1) := by
    have hlen : 2 * length 0 (n - 1) - 1 = 2 * n - 1 := by unfold length; omega
    have h := image_preorderSlot (Nat.zero_le (n - 1)) 0
    rw [hlen, zero_add, ← bot_eq_zero, Set.Ico_bot] at h
    exact h
  rw [← himage]
  refine Set.InjOn.bijOn_image fun s hs t ht hst => ?_
  have h := preorderSlot_spec 0 ht
  rw [show preorderSlot 0 0 (n - 1) t.1 t.2 = slotOf n s from hst.symm] at h
  have hs := preorderSlot_spec 0 hs
  exact Prod.ext_iff.mpr (PreorderSlot.exclusive (Nat.zero_le _) _ _ _ _ _ hs h)

/-- The halves of a segment have the slots after its own. -/
theorem slotOf_halves (h : (a, b) ∈ segments n) (hlt : a < b) :
    slotOf n (a, midpoint a b) = slotOf n (a, b) + 1 ∧
      slotOf n (midpoint a b + 1, b) = slotOf n (a, b) + 2 * length a (midpoint a b) :=
  descend_halves h hlt

theorem slotOf_block (h : (a, b) ∈ segments n) : slotOf n '' {s | Canonical a b s.1 s.2} =
    Set.Ico (slotOf n (a, b)) (slotOf n (a, b) + (2 * length a b - 1)) := by
  rw [← image_preorderSlot (Segment.Canonical.bounds h).2.1]
  exact Set.image_congr fun s hs => descend_trans h hs

/-- The right child of a slot of the vector is a `std::size_t` where its length is one. -/
theorem rightChild_of_le (h : (a, b) ∈ segments n) (hlt : a < b) (hsize : 2 * n - 1 ≤ sizeMax) :
    rightChild (slotOf n (a, b)) a (midpoint a b) = .ok (slotOf n (midpoint a b + 1, b)) := by
  have hm := midpoint_lt hlt
  rw [(slotOf_halves h hlt).2]
  refine preorderRightChild_of_le (le_midpoint a b) ?_
  have hb := (preorderSlot_spec 0 h).bounds (Nat.zero_le _)
  unfold slotOf length at *
  omega

/-- **The layout.** -/
theorem preorder_layout (hn : 0 < n) : PreorderLayout n where
  bijective := slotOf_bijOn hn
  root := preorderSlot_self
  left a b h hlt := (slotOf_halves h hlt).1
  right a b h hlt := ⟨fun k hk => (eq_of_preorderRightChild hk).trans (slotOf_halves h hlt).2.symm,
    rightChild_of_le h hlt⟩
  block a b h := slotOf_block h
  build values hv := Tracks.mono ⟨loggedBuild_erases _ _ _ values 0 (n - 1) (Nat.zero_le _) 0,
    (preorder_addresses hn).loggedBuild _ combineSums_inBounds values 0 (n - 1) (Nat.zero_le _)
      (by omega) .root⟩ fun _ _ _ => slot_iff.mp
  buildWrites values := by
    have h := loggedBuild_covers (fun sum => (⟨sum, 0⟩ : Node))
      (combineSums (fun sum => ⟨sum, 0⟩) Node.sum) values 0 (n - 1) (Nat.zero_le _) 0
    rwa [show 2 * length 0 (n - 1) - 1 = 2 * n - 1 by unfold length; omega,
      ← List.range_eq_range'] at h
  update l r value := Tracks.mono ⟨loggedUpdate_erases l r value 0 (n - 1) (Nat.zero_le _) 0,
    loggedUpdate_staysIn hn l r value 0 (n - 1) (Nat.zero_le _) .root⟩ fun _ _ _ => slot_iff.mp
  validateUpdate nodes l r value hlen hlr hr :=
    Tracks.mono ⟨Layout.loggedValidateUpdate_erases _ l r value 0 (n - 1) (Nat.zero_le _) 0,
      (layout_addressed hn hlen).loggedValidateUpdate l r value 0 (n - 1) (Nat.zero_le _)
        (by omega) (Nat.zero_le r) .root⟩ fun _ _ _ => slot_iff.mp
  query nodes l r inheritedLazy hlen :=
    Tracks.mono ⟨Layout.loggedQuery_erases _ l r 0 (n - 1) (Nat.zero_le _) 0 inheritedLazy,
      (layout_addressed hn hlen).loggedQuery l r 0 (n - 1) (Nat.zero_le _) .root⟩
      fun _ _ _ => slot_iff.mp
  materialize nodes inheritedLazy values hlen :=
    Tracks.mono ⟨Layout.loggedMaterialize_erases _ 0 (n - 1) (Nat.zero_le _) 0 inheritedLazy values,
      (layout_addressed hn hlen).loggedMaterialize 0 (n - 1) (Nat.zero_le _) .root⟩
      fun _ _ _ => slot_iff.mp

theorem preorder_layout_three : PreorderLayout 3 := preorder_layout (by decide)

end Layout

end CheckpointingSegmentTree

end Valseg
