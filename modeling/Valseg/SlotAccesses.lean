import Valseg.Lib.Logging
import Valseg.ArenaShapes
import Valseg.Slots

/-!
# Accesses to computed slots

The recursions of the two vector layouts, with a log of the slots they pass on, read and write and
of the segment each of these slots is meant for. Without the log they are the recursions
themselves (`loggedQuery_erases` and its like). Where the slots and their children are as a scheme
has them (`Addressed`), every entry is a slot of its segment and nothing past the end of a vector
is accessed (`loggedQuery_staysIn` and its like).
-/

namespace Valseg

open Effect

/-- What is done with a slot: a call is made for it, its record is read, its record is written. -/
inductive AccessKind where
  | enters
  | reads
  | writes
  deriving DecidableEq, Repr

/-- An access to a slot, which is meant for a segment. -/
structure Access where
  kind : AccessKind
  slot : ℕ
  segmentLeft : ℕ
  segmentRight : ℕ
  deriving DecidableEq, Repr

/-- The slot belongs to the segment. -/
def Access.Owned (own : ℕ → ℕ → ℕ → Prop) (w : Access) : Prop :=
  own w.slot w.segmentLeft w.segmentRight

/-- The segments that an array of `n` elements is halved into. -/
def segments (n : ℕ) : Set (ℕ × ℕ) := {s | Segment.Canonical 0 (n - 1) s.1 s.2}

/-- `i` is the slot of `[a, b]`, where `slotOf` has the slots. -/
def IsSlot (n : ℕ) (slotOf : ℕ × ℕ → ℕ) (i a b : ℕ) : Prop :=
  (a, b) ∈ segments n ∧ i = slotOf (a, b)

/-- A computation that logs its accesses. -/
abbrev AccessM (σ : Type) := LoggedM Exception σ Access

section Access

variable {σ α β : Type} (slot segmentLeft segmentRight : ℕ) (x : EStateM Exception σ α)

/-- A call for the slot. -/
def enter : AccessM σ PUnit := note ⟨.enters, slot, segmentLeft, segmentRight⟩

/-- A read of the slot. -/
def readAt : AccessM σ α := do
  note ⟨.reads, slot, segmentLeft, segmentRight⟩
  quietly x

/-- A write of the slot. -/
def writeAt : AccessM σ α := do
  note ⟨.writes, slot, segmentLeft, segmentRight⟩
  quietly x

variable {slot segmentLeft segmentRight x}

theorem enter_erases {y : AccessM σ α} {z : EStateM Exception σ α} (h : Erases y z) :
    Erases (enter slot segmentLeft segmentRight >>= fun _ => y) z := .note_bind h

theorem readAt_erases : Erases (readAt slot segmentLeft segmentRight x) x :=
  .note_bind (.quietly x)

theorem writeAt_erases : Erases (writeAt slot segmentLeft segmentRight x) x :=
  .note_bind (.quietly x)

variable {I : σ → Prop} {Q : Exception → Prop} {own : ℕ → ℕ → ℕ → Prop}

/-- From a state with the invariant every access is to a slot of the segment it is meant for, the
invariant holds again, and what is thrown satisfies `Q`. -/
abbrev StaysIn (I : σ → Prop) (Q : Exception → Prop) (own : ℕ → ℕ → ℕ → Prop)
    (x : AccessM σ α) : Prop := Confined I Q (Access.Owned own) x

theorem enter_staysIn (ho : own slot segmentLeft segmentRight) :
    StaysIn I Q own (enter slot segmentLeft segmentRight) := .note ho

theorem readAt_staysIn (ho : own slot segmentLeft segmentRight) (hx : Maintains I Q x) :
    StaysIn I Q own (readAt slot segmentLeft segmentRight x) :=
  Confined.bind (.note ho) fun _ => .quietly hx

theorem writeAt_staysIn (ho : own slot segmentLeft segmentRight) (hx : Maintains I Q x) :
    StaysIn I Q own (writeAt slot segmentLeft segmentRight x) :=
  Confined.bind (.note ho) fun _ => .quietly hx

/-- `x` is `y` with its accesses in a log, all of them to slots of the segments they are meant
for. -/
structure Tracks (I : σ → Prop) (Q : Exception → Prop) (own : ℕ → ℕ → ℕ → Prop) (x : AccessM σ α)
    (y : EStateM Exception σ α) : Prop where
  erases : Erases x y
  staysIn : StaysIn I Q own x

/-- The slots may be described in another way. -/
theorem Tracks.mono {own' : ℕ → ℕ → ℕ → Prop} {x : AccessM σ α} {y : EStateM Exception σ α}
    (h : Tracks I Q own x y) (ho : ∀ i a b, own i a b → own' i a b) : Tracks I Q own' x y :=
  ⟨h.erases, h.staysIn.mono fun w => ho w.slot w.segmentLeft w.segmentRight⟩

end Access

/-! ## Reading a layout -/

namespace Layout

section Logged

/-- A read of a node, with the segment it is read for. -/
def loggedRead (L : Layout) (nodeIndex segmentLeft segmentRight : ℕ) :
    AccessM Unit (ValueType × ValueType) :=
  readAt nodeIndex segmentLeft segmentRight (liftM (L.read nodeIndex))

def loggedQuery (L : Layout) (nodeIndex segmentLeft segmentRight queryLeft queryRight : ℕ)
    (inheritedLazy : ValueType) : AccessM Unit ValueType := do
  enter nodeIndex segmentLeft segmentRight
  if segmentRight < queryLeft ∨ segmentLeft > queryRight then pure 0
  else do
    let (sum, lazy) ← L.loggedRead nodeIndex segmentLeft segmentRight
    if queryLeft ≤ segmentLeft ∧ segmentRight ≤ queryRight then do
      SumAddPolicy.apply inheritedLazy sum (← inclusiveLength segmentLeft segmentRight)
    else if segmentLeft < segmentRight then do
      let middle := Segment.midpoint segmentLeft segmentRight
      let nextLazy ← checkedAdd inheritedLazy lazy
      let (leftChild, rightChild) ← L.children nodeIndex segmentLeft middle
      let leftSum ← L.loggedQuery leftChild segmentLeft middle queryLeft queryRight nextLazy
      let rightSum ←
        L.loggedQuery rightChild (middle + 1) segmentRight queryLeft queryRight nextLazy
      checkedAdd leftSum rightSum
    else throw .undefined
termination_by segmentRight - segmentLeft
decreasing_by all_goals (simp only [Segment.midpoint] at *; omega)

def loggedMaterialize (L : Layout) (nodeIndex segmentLeft segmentRight : ℕ)
    (inheritedLazy : ValueType) (values : List ValueType) : AccessM Unit (List ValueType) := do
  enter nodeIndex segmentLeft segmentRight
  let (sum, lazy) ← L.loggedRead nodeIndex segmentLeft segmentRight
  if segmentLeft = segmentRight then do
    return values ++ [← SumAddPolicy.apply inheritedLazy sum 1]
  else if segmentLeft < segmentRight then do
    let middle := Segment.midpoint segmentLeft segmentRight
    let nextLazy ← checkedAdd inheritedLazy lazy
    let (leftChild, rightChild) ← L.children nodeIndex segmentLeft middle
    let leftValues ← L.loggedMaterialize leftChild segmentLeft middle nextLazy values
    L.loggedMaterialize rightChild (middle + 1) segmentRight nextLazy leftValues
  else throw .undefined
termination_by segmentRight - segmentLeft
decreasing_by all_goals (simp only [Segment.midpoint] at *; omega)

def loggedValidateUpdate (L : Layout)
    (nodeIndex segmentLeft segmentRight queryLeft queryRight : ℕ) (value : ValueType) :
    AccessM Unit ValueType := do
  enter nodeIndex segmentLeft segmentRight
  let (sum, lazy) ← L.loggedRead nodeIndex segmentLeft segmentRight
  let length ← inclusiveLength segmentLeft segmentRight
  if queryLeft ≤ segmentLeft ∧ segmentRight ≤ queryRight then do
    let _ ← checkedAdd lazy value
    SumAddPolicy.apply value sum length
  else if segmentLeft < segmentRight then do
    let middle := Segment.midpoint segmentLeft segmentRight
    let (leftChild, rightChild) ← L.children nodeIndex segmentLeft middle
    let (oldLeft, _) ← L.loggedRead leftChild segmentLeft middle
    let (oldRight, _) ← L.loggedRead rightChild (middle + 1) segmentRight
    let leftSum ← (if queryLeft ≤ middle then
      L.loggedValidateUpdate leftChild segmentLeft middle queryLeft queryRight value
      else pure oldLeft)
    let rightSum ← (if queryRight > middle then
      L.loggedValidateUpdate rightChild (middle + 1) segmentRight queryLeft queryRight value
      else pure oldRight)
    SumAddPolicy.apply lazy (← checkedAdd leftSum rightSum) length
  else throw .undefined
termination_by segmentRight - segmentLeft
decreasing_by all_goals (simp only [Segment.midpoint] at *; omega)

end Logged

variable {L : Layout} {own : ℕ → ℕ → ℕ → Prop} {l r : ℕ} {value : ValueType}

theorem loggedRead_erases (i lo hi : ℕ) : Erases (L.loggedRead i lo hi) (liftM (L.read i)) :=
  readAt_erases

theorem loggedQuery_erases (L : Layout) (l r : ℕ) : ∀ lo hi, lo ≤ hi → ∀ i inherited,
    Erases (L.loggedQuery i lo hi l r inherited) (liftM (L.query i lo hi l r inherited)) := by
  refine Segment.halving_induction (fun m i inherited => ?_) fun lo hi hlt ihl ihr i inherited => ?_
  all_goals
    rw [loggedQuery, query]
    refine enter_erases (.lift_ite (fun _ => .lift _) fun _ => ?_)
    refine .lift_bind (loggedRead_erases _ _ _) fun read => ?_
    refine .lift_ite (fun _ => ?_) fun _ => ?_
    · exact .lift_bind (.lift _) fun _ => .lift _
  · rw [if_neg (lt_irrefl m), if_neg (lt_irrefl m)]
    exact .lift _
  · rw [if_pos hlt, if_pos hlt]
    refine .lift_bind (.lift _) fun nextLazy => .lift_bind (.lift _) fun pair => ?_
    obtain ⟨j, k⟩ := pair
    exact .lift_bind (ihl j nextLazy) fun _ => .lift_bind (ihr k nextLazy) fun _ => .lift _

theorem loggedMaterialize_erases (L : Layout) : ∀ lo hi, lo ≤ hi → ∀ i inherited values,
    Erases (L.loggedMaterialize i lo hi inherited values)
      (liftM (L.materialize i lo hi inherited values)) := by
  refine Segment.halving_induction (fun m i inherited values => ?_)
    fun lo hi hlt ihl ihr i inherited values => ?_
  all_goals
    rw [loggedMaterialize, materialize]
    refine enter_erases (.lift_bind (loggedRead_erases _ _ _) fun read => ?_)
  · exact .lift_ite (fun _ => .lift_bind (.lift _) fun _ => .pure _) fun h => absurd rfl h
  · refine .lift_ite (fun h => absurd h hlt.ne) fun _ => .lift_ite (fun _ => ?_) fun _ => .lift _
    refine .lift_bind (.lift _) fun nextLazy => .lift_bind (.lift _) fun pair => ?_
    obtain ⟨j, k⟩ := pair
    exact .lift_bind (ihl j nextLazy values) fun _ => ihr k nextLazy _

theorem loggedValidateUpdate_erases (L : Layout) (l r : ℕ) (value : ValueType) :
    ∀ lo hi, lo ≤ hi → ∀ i,
      Erases (L.loggedValidateUpdate i lo hi l r value)
        (liftM (L.validateUpdate i lo hi l r value)) := by
  refine Segment.halving_induction (fun m i => ?_) fun lo hi hlt ihl ihr i => ?_
  all_goals
    rw [loggedValidateUpdate, validateUpdate]
    refine enter_erases (.lift_bind (loggedRead_erases _ _ _) fun read => ?_)
    refine .lift_bind (.lift _) fun length => .lift_ite (fun _ => ?_) fun _ => ?_
    · exact .lift_bind (.lift _) fun _ => .lift _
  · rw [if_neg (lt_irrefl m), if_neg (lt_irrefl m)]
    exact .lift _
  · rw [if_pos hlt, if_pos hlt]
    refine .lift_bind (.lift _) fun pair => ?_
    obtain ⟨j, k⟩ := pair
    refine .lift_bind (loggedRead_erases _ _ _) fun oldLeft => ?_
    refine .lift_bind (loggedRead_erases _ _ _) fun oldRight => ?_
    refine .lift_bind (.lift_ite (fun _ => ihl j) fun _ => .pure _) fun _ => ?_
    refine .lift_bind (.lift_ite (fun _ => ihr k) fun _ => .pure _) fun _ => ?_
    exact .lift_bind (.lift _) fun _ => .lift _

/-! ### The slots of a scheme -/

/-- The nodes are where `own` has them: a slot with a segment is there, its children are computed
without leaving the vector, and they are the slots of the halves. -/
structure Addressed (L : Layout) (own : ℕ → ℕ → ℕ → Prop) : Prop where
  read : ∀ {i a b : ℕ}, own i a b → ThrowsOnly InBounds (L.read i)
  children : ∀ {i a b : ℕ}, own i a b → a < b →
    ThrowsOnly InBounds (L.children i a (Segment.midpoint a b))
  halves : ∀ {i a b j k : ℕ}, own i a b → a < b →
    L.children i a (Segment.midpoint a b) = .ok (j, k) →
      own j a (Segment.midpoint a b) ∧ own k (Segment.midpoint a b + 1) b

/-- What only reads, and stays with the slots of the segments. -/
abbrev ReadsIn {α : Type} (own : ℕ → ℕ → ℕ → Prop) (x : AccessM Unit α) : Prop :=
  StaysIn (fun _ => True) InBounds own x

namespace Addressed

variable {i lo hi : ℕ}

theorem loggedRead (hL : L.Addressed own) (ho : own i lo hi) :
    ReadsIn own (L.loggedRead i lo hi) :=
  readAt_staysIn ho (.lift (hL.read ho))

theorem loggedQuery (hL : L.Addressed own) (l r : ℕ) : ∀ lo hi, lo ≤ hi → ∀ {i inherited},
    own i lo hi → ReadsIn own (L.loggedQuery i lo hi l r inherited) := by
  refine Segment.halving_induction (fun m i inherited ho => ?_)
    fun lo hi hlt ihl ihr i inherited ho => ?_
  all_goals
    rw [Layout.loggedQuery]
    refine .bind (enter_staysIn ho) fun _ => .ite (fun _ => .pure _) fun hmeets => ?_
    refine .bind (hL.loggedRead ho) fun read => .ite (fun _ => ?_) fun hin => ?_
    · exact .bind (.lift (inclusiveLength_inBounds _ _)) fun _ => .lift (apply_inBounds _ _ _)
  · -- A single index that meets the range is covered.
    omega
  · rw [if_pos hlt]
    refine .bind (.lift (checkedAdd_inBounds _ _)) fun nextLazy => ?_
    refine .lift_bind (hL.children ho hlt) fun pair hc => ?_
    obtain ⟨j, k⟩ := pair
    obtain ⟨hj, hk⟩ := hL.halves ho hlt hc
    exact .bind (ihl hj) fun _ => .bind (ihr hk) fun _ => .lift (checkedAdd_inBounds _ _)

theorem loggedMaterialize (hL : L.Addressed own) : ∀ lo hi, lo ≤ hi → ∀ {i inherited values},
    own i lo hi → ReadsIn own (L.loggedMaterialize i lo hi inherited values) := by
  refine Segment.halving_induction (fun m i inherited values ho => ?_)
    fun lo hi hlt ihl ihr i inherited values ho => ?_
  all_goals
    rw [Layout.loggedMaterialize]
    refine .bind (enter_staysIn ho) fun _ => .bind (hL.loggedRead ho) fun read => ?_
  · refine .ite (fun _ => ?_) fun h => absurd rfl h
    exact .bind (.lift (apply_inBounds _ _ _)) fun _ => .pure _
  · refine .ite (fun h => absurd h hlt.ne) fun _ => .ite (fun _ => ?_) fun h => absurd hlt h
    refine .bind (.lift (checkedAdd_inBounds _ _)) fun nextLazy => ?_
    refine .lift_bind (hL.children ho hlt) fun pair hc => ?_
    obtain ⟨j, k⟩ := pair
    obtain ⟨hj, hk⟩ := hL.halves ho hlt hc
    exact .bind (ihl hj) fun _ => ihr hk

/-- The range has to meet the segment: it does at the root, and in every half gone on into. -/
theorem loggedValidateUpdate (hL : L.Addressed own) (l r : ℕ) (value : ValueType) :
    ∀ lo hi, lo ≤ hi → l ≤ hi → lo ≤ r → ∀ {i}, own i lo hi →
      ReadsIn own (L.loggedValidateUpdate i lo hi l r value) := by
  refine Segment.halving_induction (fun m hl hr i ho => ?_)
    fun lo hi hlt ihl ihr hl hr i ho => ?_
  all_goals
    rw [Layout.loggedValidateUpdate]
    refine .bind (enter_staysIn ho) fun _ => .bind (hL.loggedRead ho) fun read => ?_
    refine .bind (.lift (inclusiveLength_inBounds _ _)) fun length => ?_
    refine .ite (fun _ => ?_) fun hin => ?_
    · exact .bind (.lift (checkedAdd_inBounds _ _)) fun _ => .lift (apply_inBounds _ _ _)
  · exact absurd ⟨hl, hr⟩ hin
  · rw [if_pos hlt]
    refine .lift_bind (hL.children ho hlt) fun pair hc => ?_
    obtain ⟨j, k⟩ := pair
    obtain ⟨hj, hk⟩ := hL.halves ho hlt hc
    refine .bind (hL.loggedRead hj) fun oldLeft => .bind (hL.loggedRead hk) fun oldRight => ?_
    refine .bind (.ite (fun h => ihl h hr hj) fun _ => .pure _) fun leftSum => ?_
    refine .bind (.ite (fun h => ihr hl h hk) fun _ => .pure _) fun rightSum => ?_
    exact .bind (.lift (checkedAdd_inBounds _ _)) fun _ => .lift (apply_inBounds _ _ _)

end Addressed

end Layout

/-! ## Writing a vector -/

section Vector

variable {α β : Type} {children : Children} {own : ℕ → ℕ → ℕ → Prop} {capacity : ℕ}
  {Q : Exception → Prop}

/-- A scheme of slots in a vector with a capacity; computing the slots of children may throw what
satisfies `Q`. -/
structure Addresses (Q : Exception → Prop) (children : Children) (own : ℕ → ℕ → ℕ → Prop)
    (capacity : ℕ) : Prop where
  bound : ∀ {i a b : ℕ}, own i a b → i < capacity
  throws : ∀ {i a b : ℕ}, own i a b → a < b →
    ThrowsOnly Q (children i a (Segment.midpoint a b))
  halves : ∀ {i a b j k : ℕ}, own i a b → a < b →
    children i a (Segment.midpoint a b) = .ok (j, k) →
      own j a (Segment.midpoint a b) ∧ own k (Segment.midpoint a b + 1) b

/-- A vector of that capacity, read at the slots. -/
theorem Addresses.slotLayout (h : Addresses InBounds children own capacity)
    (fields : α → ValueType × ValueType) {nodes : List α} (hlen : nodes.length = capacity) :
    (slotLayout fields children nodes).Addressed own where
  read {i a b} ho := by
    have hi : i < nodes.length := hlen ▸ h.bound ho
    rw [slotLayout_read (List.getElem?_eq_getElem hi)]
    exact .ok _
  children := h.throws
  halves := h.halves

/-- What keeps the length of the vector. -/
abbrev WritesIn {γ : Type} (capacity : ℕ) (Q : Exception → Prop) (own : ℕ → ℕ → ℕ → Prop)
    (x : AccessM (List α) γ) : Prop := StaysIn (fun nodes => nodes.length = capacity) Q own x

theorem readNode_maintains {i : ℕ} (hi : i < capacity) :
    Maintains (fun nodes => nodes.length = capacity) Q (readNode i : ArenaM α α) := by
  rintro nodes rfl
  exact .inl ⟨_, nodes, readNode_run (List.getElem?_eq_getElem hi), rfl⟩

theorem writeSlot_maintains {i : ℕ} (hi : i < capacity) (x : α) :
    Maintains (fun nodes => nodes.length = capacity) Q (writeSlot i x) := by
  rintro nodes rfl
  exact .inl ⟨_, _, writeSlot_run hi, List.length_set⟩

/-- The builds of the two layouts: the record of a leaf is made from its value, the record of
another node from those of its children. -/
def loggedBuild (children : Children) (leaf : β → α)
    (combine : (left right : α) → Except Exception α) (values : List β)
    (nodeIndex segmentLeft segmentRight : ℕ) : AccessM (List α) Unit := do
  enter nodeIndex segmentLeft segmentRight
  if segmentLeft = segmentRight then do
    let value ← vectorAt values segmentLeft
    writeAt nodeIndex segmentLeft segmentRight (writeSlot nodeIndex (leaf value))
  else if segmentLeft < segmentRight then do
    let middle := Segment.midpoint segmentLeft segmentRight
    let (leftIndex, rightIndex) ← children nodeIndex segmentLeft middle
    loggedBuild children leaf combine values leftIndex segmentLeft middle
    loggedBuild children leaf combine values rightIndex (middle + 1) segmentRight
    let leftNode ← readAt leftIndex segmentLeft middle (readNode leftIndex)
    let rightNode ← readAt rightIndex (middle + 1) segmentRight (readNode rightIndex)
    let node ← combine leftNode rightNode
    writeAt nodeIndex segmentLeft segmentRight (writeSlot nodeIndex node)
  else throw .undefined
termination_by segmentRight - segmentLeft
decreasing_by all_goals (simp only [Segment.midpoint] at *; omega)

/-- The record of a node over two others, with the sum of theirs. -/
def combineSums (make : ValueType → α) (sumOf : α → ValueType) (left right : α) :
    Except Exception α := do
  return make (← checkedAdd (sumOf left) (sumOf right))

theorem combineSums_inBounds {make : ValueType → α} {sumOf : α → ValueType} (left right : α) :
    ThrowsOnly InBounds (combineSums make sumOf left right) :=
  .bind (checkedAdd_inBounds _ _) fun _ _ => .ok _

theorem loggedBuild_erases (children : Children) (make : ValueType → α) (sumOf : α → ValueType)
    (values : List ValueType) : ∀ lo hi, lo ≤ hi → ∀ i,
      Erases (loggedBuild children make (combineSums make sumOf) values i lo hi)
        (buildSlots children make sumOf values i lo hi) := by
  refine Segment.halving_induction (fun m i => ?_) fun lo hi hlt ihl ihr i => ?_
  all_goals
    rw [loggedBuild, buildSlots]
    refine enter_erases ?_
  · exact .ite (fun _ => .bind (.lift _) fun _ => writeAt_erases) fun h => absurd rfl h
  · refine .ite (fun h => absurd h hlt.ne) fun _ => .ite (fun _ => ?_) fun h => absurd hlt h
    refine .bind (.lift _) fun pair => ?_
    obtain ⟨j, k⟩ := pair
    refine .bind (ihl j) fun _ => .bind (ihr k) fun _ => ?_
    refine .bind readAt_erases fun x => .bind readAt_erases fun y => ?_
    unfold combineSums
    rw [Effect.liftM_bind, bind_assoc]
    exact .bind (.lift _) fun _ => writeAt_erases

namespace Addresses

/-- A build writes and reads slots of its segments only. -/
theorem loggedBuild (h : Addresses Q children own capacity) (leaf : β → α)
    {combine : α → α → Except Exception α} (hcombine : ∀ x y, ThrowsOnly Q (combine x y))
    (values : List β) : ∀ lo hi, lo ≤ hi → hi < values.length → ∀ {i}, own i lo hi →
      WritesIn capacity Q own (loggedBuild children leaf combine values i lo hi) := by
  refine Segment.halving_induction (fun m hm i ho => ?_) fun lo hi hlt ihl ihr hhi i ho => ?_
  all_goals
    rw [Valseg.loggedBuild]
    refine .bind (enter_staysIn ho) fun _ => ?_
    have hwrite : ∀ x : α, WritesIn capacity Q own (writeAt i _ _ (writeSlot i x)) :=
      fun x => writeAt_staysIn ho (writeSlot_maintains (h.bound ho) x)
  · refine .ite (fun _ => ?_) fun h => absurd rfl h
    have hvalue : vectorAt values m = .ok values[m] :=
      vectorAt_eq_ok.mpr (List.getElem?_eq_getElem hm)
    rw [hvalue]
    exact .bind (.lift (.ok _)) fun _ => hwrite _
  · have hm := Segment.midpoint_lt hlt
    refine .ite (fun h => absurd h hlt.ne) fun _ => .ite (fun _ => ?_) fun h => absurd hlt h
    refine .lift_bind (h.throws ho hlt) fun pair hc => ?_
    obtain ⟨j, k⟩ := pair
    obtain ⟨hj, hk⟩ := h.halves ho hlt hc
    refine .bind (ihl (by omega) hj) fun _ => .bind (ihr hhi hk) fun _ => ?_
    refine .bind (readAt_staysIn hj (readNode_maintains (h.bound hj))) fun x => ?_
    refine .bind (readAt_staysIn hk (readNode_maintains (h.bound hk))) fun y => ?_
    exact .bind (.lift (hcombine x y)) fun _ => hwrite _

end Addresses

end Vector

end Valseg
