import Valseg.SlotAccesses
import Valseg.CopySafety
import Valseg.Lib.Descent
import Valseg.LazySegmentTree
import Valseg.PushedLazyTree
import Valseg.Frontier

/-!
# Heap-indexed storage

The three classes that put the children of node `i` at `2 i + 1` and `2 i + 2` and allocate four
slots for each element. `heapIndex` is the index of a segment, the function of which `HeapSlot` is
the graph. Whatever a recursion enters, reads or writes is the index of the segment it is meant
for, the tags of children that are written without being entered included, and all of these are
slots of the vectors.
-/

namespace Valseg

open Segment (Canonical descend midpoint le_midpoint midpoint_lt descend_self descend_left
  descend_right descend_trans descend_halves)
open Effect

/-! ## The index of a segment -/

/-- The indices of two halves. -/
def heapHalves (node _segmentLeft _middle : ℕ) : ℕ × ℕ := (2 * node + 1, 2 * node + 2)

/-- The index of a segment of an array of `n` elements. -/
def heapIndex (n : ℕ) (segment : ℕ × ℕ) : ℕ :=
  descend heapHalves 0 0 (n - 1) segment.1 segment.2

section Index

variable {n i lo hi a b : ℕ}

/-- Below a node with its index, the descent finds the indices. -/
theorem HeapSlot.descend (ho : HeapSlot n i lo hi) (h : Canonical lo hi a b) :
    HeapSlot n (descend heapHalves i lo hi a b) a b := by
  induction h generalizing i with
  | self _ => rwa [descend_self]
  | left hlt h ih => rw [descend_left hlt h]; exact ih (.left ho hlt)
  | right hlt h ih => rw [descend_right hlt h]; exact ih (.right ho hlt)

/-- The halves of a segment have the indices of the children of its own. -/
theorem heapIndex_halves (h : (a, b) ∈ segments n) (hlt : a < b) :
    heapIndex n (a, midpoint a b) = 2 * heapIndex n (a, b) + 1 ∧
      heapIndex n (midpoint a b + 1, b) = 2 * heapIndex n (a, b) + 2 :=
  descend_halves h hlt

theorem heapSlot_iff : HeapSlot n i a b ↔ IsSlot n (heapIndex n) i a b := by
  constructor
  · intro h
    induction h with
    | root => exact ⟨.self (Nat.zero_le _), descend_self.symm⟩
    | left h hlt ih =>
      obtain ⟨hc, rfl⟩ := ih
      exact ⟨(Canonical.halves hc hlt).1, (heapIndex_halves hc hlt).1.symm⟩
    | right h hlt ih =>
      obtain ⟨hc, rfl⟩ := ih
      exact ⟨(Canonical.halves hc hlt).2, (heapIndex_halves hc hlt).2.symm⟩
  · rintro ⟨hc, rfl⟩
    exact HeapSlot.root.descend hc

/-- Four slots for each element hold every index and those of the children. -/
theorem heap_addresses (Q : Exception → Prop) (hn : 0 < n) :
    Addresses Q heapChildren (HeapSlot n) (4 * n) where
  bound := HeapSlot.bound hn
  throws _ _ := .ok _
  halves ho hlt hc := by
    cases hc
    exact ⟨.left ho hlt, .right ho hlt⟩

end Index

/-! ## LazySegmentTree -/

namespace LazySegmentTree

def loggedBuild (values : List ValueType) (node segmentLeft segmentRight : ℕ) :
    AccessM (List ValueType) Unit :=
  Valseg.loggedBuild heapChildren id (combineSums id id) values node segmentLeft segmentRight

def loggedValidateUpdate (this : Storage) :
    (node segmentLeft segmentRight queryLeft queryRight : ℕ) → ValueType →
      AccessM Unit ValueType := (layout this).loggedValidateUpdate

def loggedUpdate (node segmentLeft segmentRight queryLeft queryRight : ℕ) (value : ValueType) :
    AccessM Storage Unit := do
  enter node segmentLeft segmentRight
  let length ← inclusiveLength segmentLeft segmentRight
  if queryLeft ≤ segmentLeft ∧ segmentRight ≤ queryRight then do
    let sum ← SumAddPolicy.apply value (← readAt node segmentLeft segmentRight (readTree node))
      length
    writeAt node segmentLeft segmentRight (writeTree node sum)
    let tag ← checkedAdd (← readAt node segmentLeft segmentRight (readLazy node)) value
    writeAt node segmentLeft segmentRight (writeLazy node tag)
  else if segmentLeft < segmentRight then do
    let middle := Segment.midpoint segmentLeft segmentRight
    (if queryLeft ≤ middle then
      loggedUpdate (2 * node + 1) segmentLeft middle queryLeft queryRight value else pure ())
    (if queryRight > middle then
      loggedUpdate (2 * node + 2) (middle + 1) segmentRight queryLeft queryRight value
      else pure ())
    let tag ← readAt node segmentLeft segmentRight (readLazy node)
    let childSum ← checkedAdd
      (← readAt (2 * node + 1) segmentLeft middle (readTree (2 * node + 1)))
      (← readAt (2 * node + 2) (middle + 1) segmentRight (readTree (2 * node + 2)))
    let sum ← SumAddPolicy.apply tag childSum length
    writeAt node segmentLeft segmentRight (writeTree node sum)
  else throw .undefined
termination_by segmentRight - segmentLeft
decreasing_by all_goals (simp only [Segment.midpoint] at *; omega)

def loggedQuery (this : Storage) : (node segmentLeft segmentRight queryLeft queryRight : ℕ) →
    (inheritedLazy : ValueType) → AccessM Unit ValueType := (layout this).loggedQuery

def loggedMaterialize (this : Storage) : (node segmentLeft segmentRight : ℕ) →
    (inheritedLazy : ValueType) → List ValueType → AccessM Unit (List ValueType) :=
  (layout this).loggedMaterialize

section Accesses

variable {n i lo hi l r : ℕ} {value : ValueType}

theorem loggedUpdate_erases (l r : ℕ) (value : ValueType) : ∀ lo hi, lo ≤ hi → ∀ i,
    Erases (loggedUpdate i lo hi l r value) (update i lo hi l r value) := by
  refine Segment.halving_induction (fun m i => ?_) fun lo hi hlt ihl ihr i => ?_
  all_goals
    rw [loggedUpdate, update]
    refine enter_erases (.bind (.lift _) fun length => .ite (fun _ => ?_) fun _ => ?_)
    · refine .bind readAt_erases fun _ => .bind (.lift _) fun _ => .bind writeAt_erases fun _ => ?_
      exact .bind readAt_erases fun _ => .bind (.lift _) fun _ => writeAt_erases
  · exact .ite (fun h => absurd h (lt_irrefl m)) fun _ => .throw _
  · refine .ite (fun _ => ?_) fun h => absurd hlt h
    refine .bind (.ite (fun _ => ihl _) fun _ => .pure _) fun _ => ?_
    refine .bind (.ite (fun _ => ihr _) fun _ => .pure _) fun _ => .bind readAt_erases fun _ => ?_
    refine .bind readAt_erases fun _ => .bind readAt_erases fun _ => .bind (.lift _) fun _ => ?_
    exact .bind (.lift _) fun _ => writeAt_erases

/-- What keeps the lengths of both vectors and throws no access past their ends. -/
abbrev Within (n : ℕ) {α : Type} (x : AccessM Storage α) : Prop :=
  StaysIn (Fits n) InBounds (HeapSlot n) x

theorem readTree_within (hn : 0 < n) (ho : HeapSlot n i lo hi) :
    Within n (readAt i lo hi (readTree i)) := by
  refine readAt_staysIn ho fun st hst => ?_
  have hlt : i < st.tree.length := hst.1 ▸ ho.bound hn
  exact .inl ⟨_, st, readTree_run (List.getElem?_eq_getElem hlt), hst⟩

theorem readLazy_within (hn : 0 < n) (ho : HeapSlot n i lo hi) :
    Within n (readAt i lo hi (readLazy i)) := by
  refine readAt_staysIn ho fun st hst => ?_
  have hlt : i < st.lazy.length := hst.2 ▸ ho.bound hn
  exact .inl ⟨_, st, readLazy_run (List.getElem?_eq_getElem hlt), hst⟩

theorem writeTree_within (hn : 0 < n) (ho : HeapSlot n i lo hi) (x : ValueType) :
    Within n (writeAt i lo hi (writeTree i x)) :=
  writeAt_staysIn ho ((writeSlot_maintains (ho.bound hn) x).zoom (fun _ h => h.1)
    fun _ _ h ht => ⟨ht, h.2⟩)

theorem writeLazy_within (hn : 0 < n) (ho : HeapSlot n i lo hi) (x : ValueType) :
    Within n (writeAt i lo hi (writeLazy i x)) :=
  writeAt_staysIn ho ((writeSlot_maintains (ho.bound hn) x).zoom (fun _ h => h.2)
    fun _ _ h ht => ⟨h.1, ht⟩)

/-- The range has to meet the segment: it does at the root, and in every half gone on into. -/
theorem loggedUpdate_within (hn : 0 < n) (l r : ℕ) (value : ValueType) : ∀ lo hi, lo ≤ hi →
    l ≤ hi → lo ≤ r → ∀ {i}, HeapSlot n i lo hi → Within n (loggedUpdate i lo hi l r value) := by
  refine Segment.halving_induction (fun m hl hr i ho => ?_) fun lo hi hlt ihl ihr hl hr i ho => ?_
  all_goals
    rw [loggedUpdate]
    refine .bind (enter_staysIn ho) fun _ => ?_
    refine .bind (.lift (inclusiveLength_inBounds _ _)) fun length => ?_
    refine .ite (fun _ => ?_) fun hin => ?_
    · refine .bind (readTree_within hn ho) fun _ => .bind (.lift (apply_inBounds _ _ _)) fun _ => ?_
      refine .bind (writeTree_within hn ho _) fun _ => .bind (readLazy_within hn ho) fun _ => ?_
      exact .bind (.lift (checkedAdd_inBounds _ _)) fun _ => writeLazy_within hn ho _
  · exact absurd ⟨hl, hr⟩ hin
  · have hleft := HeapSlot.left ho hlt
    have hright := HeapSlot.right ho hlt
    refine .ite (fun _ => ?_) fun h => absurd hlt h
    refine .bind (.ite (fun h => ihl h hr hleft) fun _ => .pure _) fun _ => ?_
    refine .bind (.ite (fun h => ihr hl h hright) fun _ => .pure _) fun _ => ?_
    refine .bind (readLazy_within hn ho) fun _ => .bind (readTree_within hn hleft) fun _ => ?_
    refine .bind (readTree_within hn hright) fun _ => ?_
    refine .bind (.lift (checkedAdd_inBounds _ _)) fun _ => ?_
    exact .bind (.lift (apply_inBounds _ _ _)) fun _ => writeTree_within hn ho _

/-- What is read of vectors of the right length. -/
theorem layout_addressed (hn : 0 < n) {st : Storage} (hst : Fits n st) :
    (layout st).Addressed (HeapSlot n) where
  read {i a b} ho := by
    have h1 : i < st.tree.length := hst.1 ▸ ho.bound hn
    have h2 : i < st.lazy.length := hst.2 ▸ ho.bound hn
    rw [layout_read.mpr ⟨List.getElem?_eq_getElem h1, List.getElem?_eq_getElem h2⟩]
    exact .ok _
  children := (heap_addresses InBounds hn).throws
  halves := (heap_addresses InBounds hn).halves

end Accesses

end LazySegmentTree

/-! ## PushedLazyTree -/

namespace PushedLazyTree

variable {X F : Type} (P : Policy X F)

def loggedBuild (values : List X) (node segmentLeft segmentRight : ℕ) : AccessM (List X) Unit :=
  Valseg.loggedBuild heapChildren id P.combine values node segmentLeft segmentRight

def loggedComposeInto (tag : F) (child segmentLeft segmentRight : ℕ) :
    AccessM (Storage X F) Unit := do
  let composed ← P.compose tag (← readAt child segmentLeft segmentRight (readTag child))
  writeAt child segmentLeft segmentRight (writeTag child composed)

variable [DecidableEq F]

/-- The tags of the children are meant for the halves. -/
def loggedPush (node segmentLeft segmentRight : ℕ) : AccessM (Storage X F) Unit := do
  enter node segmentLeft segmentRight
  let tag ← readAt node segmentLeft segmentRight (readTag node)
  if tag = P.actionIdentity then return
  else do
    let aggregate ← P.apply tag (← readAt node segmentLeft segmentRight (readAggregate node))
      (Segment.length segmentLeft segmentRight)
    writeAt node segmentLeft segmentRight (writeAggregate node aggregate)
    (if segmentLeft ≠ segmentRight then do
      let middle := Segment.midpoint segmentLeft segmentRight
      loggedComposeInto P tag (2 * node + 1) segmentLeft middle
      loggedComposeInto P tag (2 * node + 2) (middle + 1) segmentRight
    else pure ())
    writeAt node segmentLeft segmentRight (writeTag node P.actionIdentity)

def loggedUpdate (node segmentLeft segmentRight queryLeft queryRight : ℕ) (action : F) :
    AccessM (Storage X F) Unit := do
  enter node segmentLeft segmentRight
  loggedPush P node segmentLeft segmentRight
  if segmentRight < queryLeft ∨ segmentLeft > queryRight then return
  else if queryLeft ≤ segmentLeft ∧ segmentRight ≤ queryRight then do
    loggedComposeInto P action node segmentLeft segmentRight
    loggedPush P node segmentLeft segmentRight
  else if segmentLeft < segmentRight then do
    let middle := Segment.midpoint segmentLeft segmentRight
    loggedUpdate (2 * node + 1) segmentLeft middle queryLeft queryRight action
    loggedUpdate (2 * node + 2) (middle + 1) segmentRight queryLeft queryRight action
    let aggregate ← P.combine
      (← readAt (2 * node + 1) segmentLeft middle (readAggregate (2 * node + 1)))
      (← readAt (2 * node + 2) (middle + 1) segmentRight (readAggregate (2 * node + 2)))
    writeAt node segmentLeft segmentRight (writeAggregate node aggregate)
  else throw .undefined
termination_by segmentRight - segmentLeft
decreasing_by all_goals (simp only [Segment.midpoint] at *; omega)

def loggedQuery (node segmentLeft segmentRight queryLeft queryRight : ℕ) :
    AccessM (Storage X F) X := do
  enter node segmentLeft segmentRight
  loggedPush P node segmentLeft segmentRight
  if segmentRight < queryLeft ∨ segmentLeft > queryRight then return P.aggregateIdentity
  else if queryLeft ≤ segmentLeft ∧ segmentRight ≤ queryRight then
    readAt node segmentLeft segmentRight (readAggregate node)
  else if segmentLeft < segmentRight then do
    let middle := Segment.midpoint segmentLeft segmentRight
    let left ← loggedQuery (2 * node + 1) segmentLeft middle queryLeft queryRight
    let right ← loggedQuery (2 * node + 2) (middle + 1) segmentRight queryLeft queryRight
    P.combine left right
  else throw .undefined
termination_by segmentRight - segmentLeft
decreasing_by all_goals (simp only [Segment.midpoint] at *; omega)

section Accesses

variable {P} {n i lo hi l r : ℕ} {action : F}

omit [DecidableEq F] in
theorem loggedBuild_erases (values : List X) : ∀ lo hi, lo ≤ hi → ∀ i,
    Erases (loggedBuild P values i lo hi) (build P values i lo hi) := by
  unfold loggedBuild
  refine Segment.halving_induction (fun m i => ?_) fun lo hi hlt ihl ihr i => ?_
  all_goals
    rw [Valseg.loggedBuild, build]
    refine enter_erases ?_
  · exact .ite (fun _ => .bind (.lift _) fun _ => writeAt_erases) fun h => absurd rfl h
  · refine .ite (fun h => absurd h hlt.ne) fun _ => .ite (fun _ => ?_) fun h => absurd hlt h
    refine .bind (ihl _) fun _ => .bind (ihr _) fun _ => .bind readAt_erases fun x => ?_
    exact .bind readAt_erases fun y => .bind (.lift _) fun _ => writeAt_erases

omit [DecidableEq F] in
theorem loggedComposeInto_erases {tag : F} :
    Erases (loggedComposeInto P tag i lo hi) (composeInto P tag i) :=
  .bind readAt_erases fun _ => .bind (.lift _) fun _ => writeAt_erases

theorem loggedPush_erases : Erases (loggedPush P i lo hi) (push P i lo hi) := by
  unfold loggedPush push
  refine enter_erases (.bind readAt_erases fun tag => .ite (fun _ => .pure _) fun _ => ?_)
  refine .bind readAt_erases fun _ => .bind (.lift _) fun _ => .bind writeAt_erases fun _ => ?_
  refine .bind (.ite (fun _ => ?_) fun _ => .pure _) fun _ => writeAt_erases
  exact .bind loggedComposeInto_erases fun _ => loggedComposeInto_erases

theorem loggedUpdate_erases (l r : ℕ) (action : F) : ∀ lo hi, lo ≤ hi → ∀ i,
    Erases (loggedUpdate P i lo hi l r action) (update P i lo hi l r action) := by
  refine Segment.halving_induction (fun m i => ?_) fun lo hi hlt ihl ihr i => ?_
  all_goals
    rw [loggedUpdate, update]
    refine enter_erases (.bind loggedPush_erases fun _ => .ite (fun _ => .pure _) fun _ => ?_)
    refine .ite (fun _ => ?_) fun _ => ?_
    · exact .bind loggedComposeInto_erases fun _ => loggedPush_erases
  · exact .ite (fun h => absurd h (lt_irrefl m)) fun _ => .throw _
  · refine .ite (fun _ => ?_) fun h => absurd hlt h
    refine .bind (ihl _) fun _ => .bind (ihr _) fun _ => .bind readAt_erases fun _ => ?_
    exact .bind readAt_erases fun _ => .bind (.lift _) fun _ => writeAt_erases

theorem loggedQuery_erases (l r : ℕ) : ∀ lo hi, lo ≤ hi → ∀ i,
    Erases (loggedQuery P i lo hi l r) (query P i lo hi l r) := by
  refine Segment.halving_induction (fun m i => ?_) fun lo hi hlt ihl ihr i => ?_
  all_goals
    rw [loggedQuery, query]
    refine enter_erases (.bind loggedPush_erases fun _ => .ite (fun _ => .pure _) fun _ => ?_)
    refine .ite (fun _ => readAt_erases) fun _ => ?_
  · exact .ite (fun h => absurd h (lt_irrefl m)) fun _ => .throw _
  · refine .ite (fun _ => ?_) fun h => absurd hlt h
    exact .bind (ihl _) fun _ => .bind (ihr _) fun _ => .lift _

/-- What keeps the lengths of both vectors and throws only what the policy does. -/
abbrev Within (P : Policy X F) (n : ℕ) {α : Type} (x : AccessM (Storage X F) α) : Prop :=
  StaysIn (Fits n) P.Raises (HeapSlot n) x

omit [DecidableEq F]

theorem readAggregate_within (hn : 0 < n) (ho : HeapSlot n i lo hi) :
    Within P n (readAt i lo hi (readAggregate i)) := by
  refine readAt_staysIn ho fun st hst => ?_
  have hlt : i < st.aggregates.length := hst.1 ▸ ho.bound hn
  exact .inl ⟨_, st, readAggregate_run (List.getElem?_eq_getElem hlt), hst⟩

theorem readTag_within (hn : 0 < n) (ho : HeapSlot n i lo hi) :
    Within P n (readAt i lo hi (readTag i)) := by
  refine readAt_staysIn ho fun st hst => ?_
  have hlt : i < st.tags.length := hst.2 ▸ ho.bound hn
  exact .inl ⟨_, st, readTag_run (List.getElem?_eq_getElem hlt), hst⟩

theorem writeAggregate_within (hn : 0 < n) (ho : HeapSlot n i lo hi) (x : X) :
    Within P n (writeAt i lo hi (writeAggregate i x)) :=
  writeAt_staysIn ho ((writeSlot_maintains (ho.bound hn) x).zoom (fun _ h => h.1)
    fun _ _ h ht => ⟨ht, h.2⟩)

theorem writeTag_within (hn : 0 < n) (ho : HeapSlot n i lo hi) (tag : F) :
    Within P n (writeAt i lo hi (writeTag i tag)) :=
  writeAt_staysIn ho ((writeSlot_maintains (ho.bound hn) tag).zoom (fun _ h => h.2)
    fun _ _ h ht => ⟨h.1, ht⟩)

theorem loggedComposeInto_within (hn : 0 < n) (ho : HeapSlot n i lo hi) (tag : F) :
    Within P n (loggedComposeInto P tag i lo hi) :=
  .bind (readTag_within hn ho) fun _ => .bind (.lift (compose_raises _ _)) fun _ =>
    writeTag_within hn ho _

variable [DecidableEq F]

/-- A push writes the tags of the children of a node over at least two elements. -/
theorem loggedPush_within (hn : 0 < n) (hle : lo ≤ hi) (ho : HeapSlot n i lo hi) :
    Within P n (loggedPush P i lo hi) := by
  unfold loggedPush
  refine .bind (enter_staysIn ho) fun _ => .bind (readTag_within hn ho) fun tag => ?_
  refine .ite (fun _ => .pure _) fun _ => .bind (readAggregate_within hn ho) fun _ => ?_
  refine .bind (.lift (apply_raises _ _ _)) fun _ => ?_
  refine .bind (writeAggregate_within hn ho _) fun _ => ?_
  refine .bind (.ite (fun hne => ?_) fun _ => .pure _) fun _ => writeTag_within hn ho _
  have hlt : lo < hi := lt_of_le_of_ne hle hne
  exact .bind (loggedComposeInto_within hn (.left ho hlt) tag) fun _ =>
    loggedComposeInto_within hn (.right ho hlt) tag

theorem loggedUpdate_within (hn : 0 < n) (l r : ℕ) (action : F) : ∀ lo hi, lo ≤ hi → ∀ {i},
    HeapSlot n i lo hi → Within P n (loggedUpdate P i lo hi l r action) := by
  refine Segment.halving_induction (fun m i ho => ?_) fun lo hi hlt ihl ihr i ho => ?_
  all_goals
    rw [loggedUpdate]
    have hpush := loggedPush_within (P := P) hn (by omega) ho
    refine .bind (enter_staysIn ho) fun _ => .bind hpush fun _ => ?_
    refine .ite (fun _ => .pure _) fun hmeets => .ite (fun _ => ?_) fun hin => ?_
    · exact .bind (loggedComposeInto_within hn ho action) fun _ => hpush
  · omega
  · have hleft := HeapSlot.left ho hlt
    have hright := HeapSlot.right ho hlt
    refine .ite (fun _ => ?_) fun h => absurd hlt h
    refine .bind (ihl hleft) fun _ => .bind (ihr hright) fun _ => ?_
    refine .bind (readAggregate_within hn hleft) fun _ => ?_
    refine .bind (readAggregate_within hn hright) fun _ => ?_
    exact .bind (.lift (combine_raises _ _)) fun _ => writeAggregate_within hn ho _

theorem loggedQuery_within (hn : 0 < n) (l r : ℕ) : ∀ lo hi, lo ≤ hi → ∀ {i},
    HeapSlot n i lo hi → Within P n (loggedQuery P i lo hi l r) := by
  refine Segment.halving_induction (fun m i ho => ?_) fun lo hi hlt ihl ihr i ho => ?_
  all_goals
    rw [loggedQuery]
    refine .bind (enter_staysIn ho) fun _ => ?_
    refine .bind (loggedPush_within hn (by omega) ho) fun _ => ?_
    refine .ite (fun _ => .pure _) fun hmeets => ?_
    refine .ite (fun _ => readAggregate_within hn ho) fun hin => ?_
  · omega
  · refine .ite (fun _ => ?_) fun h => absurd hlt h
    refine .bind (ihl (.left ho hlt)) fun _ => .bind (ihr (.right ho hlt)) fun _ => ?_
    exact .lift (combine_raises _ _)

end Accesses

end PushedLazyTree

/-! ## PushCountingModel -/

namespace PushCountingModel

variable {X F : Type} (P : Policy X F)

def loggedComposeInto (tag : F) (child segmentLeft segmentRight : ℕ) : AccessM (List F) Unit := do
  let composed ← P.compose tag (← readAt child segmentLeft segmentRight (readNode child))
  writeAt child segmentLeft segmentRight (writeSlot child composed)

variable [DecidableEq F]

/-- The tags of the children are meant for the halves. -/
def loggedPushTag (node segmentLeft segmentRight : ℕ) : AccessM (List F) ℕ := do
  let tag ← readAt node segmentLeft segmentRight (readNode node)
  if tag ≠ P.actionIdentity then do
    let middle := Segment.midpoint segmentLeft segmentRight
    loggedComposeInto P tag (2 * node + 1) segmentLeft middle
    loggedComposeInto P tag (2 * node + 2) (middle + 1) segmentRight
    writeAt node segmentLeft segmentRight (writeSlot node P.actionIdentity)
    return 1
  else return 0

def loggedUpdate (node segmentLeft segmentRight left right : ℕ) (action : F) :
    AccessM (List F) ℕ := do
  enter node segmentLeft segmentRight
  if left ≤ segmentLeft ∧ segmentRight ≤ right then do
    loggedComposeInto P action node segmentLeft segmentRight
    return 0
  else if segmentLeft < segmentRight then do
    let pushes ← loggedPushTag P node segmentLeft segmentRight
    let middle := Segment.midpoint segmentLeft segmentRight
    let pushes ← (if left ≤ middle then do
      checkedSizeAdd pushes (← loggedUpdate (2 * node + 1) segmentLeft middle left right action)
      else pure pushes)
    if right > middle then do
      checkedSizeAdd pushes
        (← loggedUpdate (2 * node + 2) (middle + 1) segmentRight left right action)
    else pure pushes
  else throw .undefined
termination_by segmentRight - segmentLeft
decreasing_by all_goals (simp only [Segment.midpoint] at *; omega)

section Accesses

variable {P} {n i lo hi l r : ℕ} {action tag : F}

omit [DecidableEq F] in
theorem loggedComposeInto_erases :
    Erases (loggedComposeInto P tag i lo hi) (composeInto P tag i) :=
  .bind readAt_erases fun _ => .bind (.lift _) fun _ => writeAt_erases

theorem loggedPushTag_erases : Erases (loggedPushTag P i lo hi) (pushTag P i) := by
  unfold loggedPushTag pushTag
  refine .bind readAt_erases fun tag => .ite (fun _ => ?_) fun _ => .pure _
  refine .bind loggedComposeInto_erases fun _ => .bind loggedComposeInto_erases fun _ => ?_
  exact .bind writeAt_erases fun _ => .pure _

theorem loggedUpdate_erases (l r : ℕ) (action : F) : ∀ lo hi, lo ≤ hi → ∀ i,
    Erases (loggedUpdate P i lo hi l r action) (update P i lo hi l r action) := by
  refine Segment.halving_induction (fun m i => ?_) fun lo hi hlt ihl ihr i => ?_
  all_goals
    rw [loggedUpdate, update]
    refine enter_erases (.ite (fun _ => ?_) fun _ => ?_)
    · exact .bind loggedComposeInto_erases fun _ => .pure _
  · exact .ite (fun h => absurd h (lt_irrefl m)) fun _ => .throw _
  · refine .ite (fun _ => .bind loggedPushTag_erases fun _ => ?_) fun h => absurd hlt h
    refine .bind (.ite (fun _ => .bind (ihl _) fun _ => .lift _) fun _ => .pure _) fun _ => ?_
    exact .ite (fun _ => .bind (ihr _) fun _ => .lift _) fun _ => .pure _

/-- An operation of the policy throws it, or a count is not representable. -/
def Throws (P : Policy X F) (e : Exception) : Prop := P.Raises e ∨ e.OutOfRoom

omit [DecidableEq F] in
theorem checkedSizeAdd_throws (a b : ℕ) : ThrowsOnly (Throws P) (checkedSizeAdd a b) :=
  fun _ h => .inr (checkedSizeAdd_error h)

/-- What keeps the number of the tags and throws only what the policy and the counts do. -/
abbrev Within (P : Policy X F) (n : ℕ) {α : Type} (x : AccessM (List F) α) : Prop :=
  WritesIn (4 * n) (Throws P) (HeapSlot n) x

omit [DecidableEq F] in
theorem readNode_within (hn : 0 < n) (ho : HeapSlot n i lo hi) :
    Within P n (readAt i lo hi (readNode i)) :=
  readAt_staysIn ho (readNode_maintains (ho.bound hn))

omit [DecidableEq F] in
theorem writeSlot_within (hn : 0 < n) (ho : HeapSlot n i lo hi) (tag : F) :
    Within P n (writeAt i lo hi (writeSlot i tag)) :=
  writeAt_staysIn ho (writeSlot_maintains (ho.bound hn) tag)

omit [DecidableEq F] in
theorem loggedComposeInto_within (hn : 0 < n) (ho : HeapSlot n i lo hi) (tag : F) :
    Within P n (loggedComposeInto P tag i lo hi) :=
  .bind (readNode_within hn ho) fun _ =>
    .bind (.lift fun _ h => .inl (compose_raises _ _ _ h)) fun _ => writeSlot_within hn ho _

/-- A push writes the tags of both children, whichever of them is entered then. -/
theorem loggedPushTag_within (hn : 0 < n) (hlt : lo < hi) (ho : HeapSlot n i lo hi) :
    Within P n (loggedPushTag P i lo hi) := by
  unfold loggedPushTag
  refine .bind (readNode_within hn ho) fun tag => .ite (fun _ => ?_) fun _ => .pure _
  refine .bind (loggedComposeInto_within hn (.left ho hlt) tag) fun _ => ?_
  refine .bind (loggedComposeInto_within hn (.right ho hlt) tag) fun _ => ?_
  exact .bind (writeSlot_within hn ho _) fun _ => .pure _

/-- The range has to meet the segment: it does at the root, and in every half gone on into. -/
theorem loggedUpdate_within (hn : 0 < n) (l r : ℕ) (action : F) : ∀ lo hi, lo ≤ hi → l ≤ hi →
    lo ≤ r → ∀ {i}, HeapSlot n i lo hi → Within P n (loggedUpdate P i lo hi l r action) := by
  refine Segment.halving_induction (fun m hl hr i ho => ?_) fun lo hi hlt ihl ihr hl hr i ho => ?_
  all_goals
    rw [loggedUpdate]
    refine .bind (enter_staysIn ho) fun _ => .ite (fun _ => ?_) fun hin => ?_
    · exact .bind (loggedComposeInto_within hn ho action) fun _ => .pure _
  · exact absurd ⟨hl, hr⟩ hin
  · refine .ite (fun _ => ?_) fun h => absurd hlt h
    refine .bind (loggedPushTag_within hn hlt ho) fun pushes => .bind ?_ fun pushes => ?_
    · refine .ite (fun h => ?_) fun _ => .pure _
      exact .bind (ihl h hr (.left ho hlt)) fun _ => .lift (checkedSizeAdd_throws _ _)
    · refine .ite (fun h => ?_) fun _ => .pure _
      exact .bind (ihr hl h (.right ho hlt)) fun _ => .lift (checkedSizeAdd_throws _ _)

end Accesses

end PushCountingModel

/-! ## The storage -/

/-- What `LazySegmentTree` does with its two vectors. -/
structure LazySegmentTree.KeepsToStorage (n : ℕ) : Prop where
  build : ∀ values : List ValueType, values.length = n →
    Tracks (fun sums => sums.length = 4 * n) InBounds (IsSlot n (heapIndex n))
      (loggedBuild values 0 0 (n - 1)) (build values 0 0 (n - 1))
  validateUpdate : ∀ (this : Storage) l r value, Fits n this → l ≤ r → r < n →
    Tracks (fun _ => True) InBounds (IsSlot n (heapIndex n))
      (loggedValidateUpdate this 0 0 (n - 1) l r value)
      (liftM (validateUpdate this 0 0 (n - 1) l r value))
  update : ∀ l r value, l ≤ r → r < n → Tracks (Fits n) InBounds (IsSlot n (heapIndex n))
    (loggedUpdate 0 0 (n - 1) l r value) (update 0 0 (n - 1) l r value)
  query : ∀ (this : Storage) l r inheritedLazy, Fits n this →
    Tracks (fun _ => True) InBounds (IsSlot n (heapIndex n))
      (loggedQuery this 0 0 (n - 1) l r inheritedLazy)
      (liftM (query this 0 0 (n - 1) l r inheritedLazy))
  materialize : ∀ (this : Storage) inheritedLazy values, Fits n this →
    Tracks (fun _ => True) InBounds (IsSlot n (heapIndex n))
      (loggedMaterialize this 0 0 (n - 1) inheritedLazy values)
      (liftM (materialize this 0 0 (n - 1) inheritedLazy values))

/-- What `PushedLazyTree` does with its two vectors. -/
structure PushedLazyTree.KeepsToStorage {X F : Type} [DecidableEq F] (P : Policy X F) (n : ℕ) :
    Prop where
  build : ∀ values : List X, values.length = n →
    Tracks (fun output => output.length = 4 * n) P.Raises (IsSlot n (heapIndex n))
      (loggedBuild P values 0 0 (n - 1)) (build P values 0 0 (n - 1))
  /-- The index that a push is given is that of a segment, as in every call of `update` and
  `query`. -/
  push : ∀ node a b, IsSlot n (heapIndex n) node a b →
    Tracks (Fits n) P.Raises (IsSlot n (heapIndex n)) (loggedPush P node a b) (push P node a b)
  update : ∀ l r action, Tracks (Fits n) P.Raises (IsSlot n (heapIndex n))
    (loggedUpdate P 0 0 (n - 1) l r action) (update P 0 0 (n - 1) l r action)
  query : ∀ l r, Tracks (Fits n) P.Raises (IsSlot n (heapIndex n))
    (loggedQuery P 0 0 (n - 1) l r) (query P 0 0 (n - 1) l r)

/-- What `PushCountingModel` does with its vector. -/
structure PushCountingModel.KeepsToStorage {X F : Type} [DecidableEq F] (P : Policy X F) (n : ℕ) :
    Prop where
  update : ∀ l r action, l ≤ r → r < n →
    Tracks (fun tags => tags.length = 4 * n) (Throws P) (IsSlot n (heapIndex n))
      (loggedUpdate P 0 0 (n - 1) l r action) (update P 0 0 (n - 1) l r action)

/-- What the vectors over `n` elements have where, and what is done with them. -/
structure HeapStorage (n : ℕ) : Prop where
  storageCount : lazyStorageCount n = .ok (4 * n)
  root : heapIndex n (0, n - 1) = 0
  inRange : Set.MapsTo (heapIndex n) (segments n) (Set.Iio (4 * n))
  injective : Set.InjOn (heapIndex n) (segments n)
  left : ∀ a b, (a, b) ∈ segments n → a < b →
    heapIndex n (a, midpoint a b) = 2 * heapIndex n (a, b) + 1
  right : ∀ a b, (a, b) ∈ segments n → a < b →
    heapIndex n (midpoint a b + 1, b) = 2 * heapIndex n (a, b) + 2
  childrenInRange : ∀ a b, (a, b) ∈ segments n → a < b →
    2 * heapIndex n (a, b) + 1 < 4 * n ∧ 2 * heapIndex n (a, b) + 2 < 4 * n
  lazySegmentTree : LazySegmentTree.KeepsToStorage n
  pushedLazyTree : ∀ {X F : Type} [DecidableEq F] (P : Policy X F),
    PushedLazyTree.KeepsToStorage P n
  pushCountingModel : ∀ {X F : Type} [DecidableEq F] (P : Policy X F),
    PushCountingModel.KeepsToStorage P n

section Storage

variable {n : ℕ}

theorem heapIndex_lt (hn : 0 < n) {s : ℕ × ℕ} (h : s ∈ segments n) : heapIndex n s < 4 * n :=
  (heapSlot_iff.mpr ⟨h, rfl⟩).bound hn

theorem heapIndex_injOn : Set.InjOn (heapIndex n) (segments n) := by
  intro s hs t ht hst
  have h : HeapSlot n (heapIndex n s) s.1 s.2 := heapSlot_iff.mpr ⟨hs, rfl⟩
  have h' : HeapSlot n (heapIndex n s) t.1 t.2 := heapSlot_iff.mpr ⟨ht, hst⟩
  exact Prod.ext_iff.mpr (HeapSlot.exclusive _ _ _ _ _ h h')

theorem LazySegmentTree.keepsToStorage (hn : 0 < n) : LazySegmentTree.KeepsToStorage n where
  build values hv := Tracks.mono ⟨loggedBuild_erases _ _ _ values 0 (n - 1) (Nat.zero_le _) 0,
    (heap_addresses _ hn).loggedBuild _ combineSums_inBounds values 0 (n - 1) (Nat.zero_le _)
      (by omega) .root⟩ fun _ _ _ => heapSlot_iff.mp
  validateUpdate this l r value hst hlr hr :=
    Tracks.mono ⟨Layout.loggedValidateUpdate_erases _ l r value 0 (n - 1) (Nat.zero_le _) 0,
      (layout_addressed hn hst).loggedValidateUpdate l r value 0 (n - 1) (Nat.zero_le _)
        (by omega) (Nat.zero_le r) .root⟩ fun _ _ _ => heapSlot_iff.mp
  update l r value hlr hr :=
    Tracks.mono ⟨loggedUpdate_erases l r value 0 (n - 1) (Nat.zero_le _) 0,
      loggedUpdate_within hn l r value 0 (n - 1) (Nat.zero_le _) (by omega) (Nat.zero_le r) .root⟩
      fun _ _ _ => heapSlot_iff.mp
  query this l r inheritedLazy hst :=
    Tracks.mono ⟨Layout.loggedQuery_erases _ l r 0 (n - 1) (Nat.zero_le _) 0 inheritedLazy,
      (layout_addressed hn hst).loggedQuery l r 0 (n - 1) (Nat.zero_le _) .root⟩
      fun _ _ _ => heapSlot_iff.mp
  materialize this inheritedLazy values hst :=
    Tracks.mono ⟨Layout.loggedMaterialize_erases _ 0 (n - 1) (Nat.zero_le _) 0 inheritedLazy values,
      (layout_addressed hn hst).loggedMaterialize 0 (n - 1) (Nat.zero_le _) .root⟩
      fun _ _ _ => heapSlot_iff.mp

theorem PushedLazyTree.keepsToStorage {X F : Type} [DecidableEq F] (P : Policy X F) (hn : 0 < n) :
    PushedLazyTree.KeepsToStorage P n where
  build values hv := Tracks.mono ⟨loggedBuild_erases values 0 (n - 1) (Nat.zero_le _) 0,
    (heap_addresses _ hn).loggedBuild _ combine_raises values 0 (n - 1) (Nat.zero_le _) (by omega)
      .root⟩ fun _ _ _ => heapSlot_iff.mp
  push node a b h := Tracks.mono ⟨loggedPush_erases,
    loggedPush_within hn (Canonical.bounds h.1).2.1 (heapSlot_iff.mpr h)⟩
    fun _ _ _ => heapSlot_iff.mp
  update l r action := Tracks.mono ⟨loggedUpdate_erases l r action 0 (n - 1) (Nat.zero_le _) 0,
    loggedUpdate_within hn l r action 0 (n - 1) (Nat.zero_le _) .root⟩
    fun _ _ _ => heapSlot_iff.mp
  query l r := Tracks.mono ⟨loggedQuery_erases l r 0 (n - 1) (Nat.zero_le _) 0,
    loggedQuery_within hn l r 0 (n - 1) (Nat.zero_le _) .root⟩ fun _ _ _ => heapSlot_iff.mp

theorem PushCountingModel.keepsToStorage {X F : Type} [DecidableEq F] (P : Policy X F)
    (hn : 0 < n) : PushCountingModel.KeepsToStorage P n where
  update l r action hlr hr :=
    Tracks.mono ⟨loggedUpdate_erases l r action 0 (n - 1) (Nat.zero_le _) 0,
      loggedUpdate_within hn l r action 0 (n - 1) (Nat.zero_le _) (by omega) (Nat.zero_le r) .root⟩
      fun _ _ _ => heapSlot_iff.mp

/-- **The storage.** -/
theorem heap_storage (hn : 0 < n) (hsize : 4 * n ≤ sizeMax) : HeapStorage n where
  storageCount := checkedSizeMultiply_eq_ok.mpr ⟨rfl, hsize⟩
  root := descend_self
  inRange _ h := heapIndex_lt hn h
  injective := heapIndex_injOn
  left a b h hlt := (heapIndex_halves h hlt).1
  right a b h hlt := (heapIndex_halves h hlt).2
  childrenInRange a b h hlt := by
    obtain ⟨hl, hr⟩ := heapIndex_halves h hlt
    obtain ⟨hcl, hcr⟩ := Canonical.halves h hlt
    exact ⟨hl ▸ heapIndex_lt hn hcl, hr ▸ heapIndex_lt hn hcr⟩
  lazySegmentTree := LazySegmentTree.keepsToStorage hn
  pushedLazyTree P := PushedLazyTree.keepsToStorage P hn
  pushCountingModel P := PushCountingModel.keepsToStorage P hn

theorem heap_storage_three : HeapStorage 3 := heap_storage (by decide) (by decide)

end Storage

end Valseg
