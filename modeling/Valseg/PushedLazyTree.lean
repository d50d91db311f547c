import Valseg.ActionArrays
import Valseg.Slots

/-!
# PushedLazyTree

`policy_trees.hpp`: the ordinary lazy tree over a policy, in two vectors, of aggregates and of
tags. Here a tag is not yet part of the aggregate next to it. Updates and queries push the tags of
the nodes they enter, so a query writes too; `update_spec` and `query_spec` say that the array the
tree holds is changed by updates only, in their order.
-/

namespace Valseg

namespace PushedLazyTree

variable {X F : Type}

/-- The two vectors. -/
structure Storage (Aggregate Action : Type) where
  aggregates : List Aggregate
  tags : List Action
  deriving DecidableEq, Repr

/-- The state of the tree. -/
structure State (Aggregate Action : Type) extends Storage Aggregate Action where
  arraySize : ℕ
  deriving DecidableEq, Repr

section Operations

variable (P : Policy X F)

/-- `aggregates[node]`. -/
def readAggregate (node : ℕ) : EStateM Exception (Storage X F) X := do
  vectorAt (← get).aggregates node

/-- `tags[node]`. -/
def readTag (node : ℕ) : EStateM Exception (Storage X F) F := do vectorAt (← get).tags node

/-- `aggregates[node] = x`. -/
def writeAggregate (node : ℕ) (x : X) : EStateM Exception (Storage X F) Unit :=
  Effect.zoom Storage.aggregates (fun aggregates this => { this with aggregates := aggregates })
    (writeSlot node x)

/-- `tags[node] = f`. -/
def writeTag (node : ℕ) (f : F) : EStateM Exception (Storage X F) Unit :=
  Effect.zoom Storage.tags (fun tags this => { this with tags := tags }) (writeSlot node f)

def build (values : List X) (node segmentLeft segmentRight : ℕ) : ArenaM X Unit :=
  if segmentLeft = segmentRight then do
    let value ← vectorAt values segmentLeft
    writeSlot node value
  else if segmentLeft < segmentRight then do
    let middle := Segment.midpoint segmentLeft segmentRight
    build values (2 * node + 1) segmentLeft middle
    build values (2 * node + 2) (middle + 1) segmentRight
    let aggregate ← P.combine (← readNode (2 * node + 1)) (← readNode (2 * node + 2))
    writeSlot node aggregate
  else throw .undefined
termination_by segmentRight - segmentLeft
decreasing_by all_goals (simp only [Segment.midpoint] at *; omega)

/-- `tags[child] = compose(tag, tags[child])`. -/
def composeInto (tag : F) (child : ℕ) : EStateM Exception (Storage X F) Unit := do
  writeTag child (← P.compose tag (← readTag child))

variable [DecidableEq F]

def push (node segmentLeft segmentRight : ℕ) : EStateM Exception (Storage X F) Unit := do
  let tag ← readTag node
  if tag = P.actionIdentity then return
  else do
    let aggregate ← P.apply tag (← readAggregate node) (Segment.length segmentLeft segmentRight)
    writeAggregate node aggregate
    (if segmentLeft ≠ segmentRight then do
      composeInto P tag (2 * node + 1)
      composeInto P tag (2 * node + 2)
    else pure ())
    writeTag node P.actionIdentity

def update (node segmentLeft segmentRight queryLeft queryRight : ℕ) (action : F) :
    EStateM Exception (Storage X F) Unit := do
  push P node segmentLeft segmentRight
  if segmentRight < queryLeft ∨ segmentLeft > queryRight then return
  else if queryLeft ≤ segmentLeft ∧ segmentRight ≤ queryRight then do
    composeInto P action node
    push P node segmentLeft segmentRight
  else if segmentLeft < segmentRight then do
    let middle := Segment.midpoint segmentLeft segmentRight
    update (2 * node + 1) segmentLeft middle queryLeft queryRight action
    update (2 * node + 2) (middle + 1) segmentRight queryLeft queryRight action
    let aggregate ← P.combine (← readAggregate (2 * node + 1)) (← readAggregate (2 * node + 2))
    writeAggregate node aggregate
  else throw .undefined
termination_by segmentRight - segmentLeft
decreasing_by all_goals (simp only [Segment.midpoint] at *; omega)

def query (node segmentLeft segmentRight queryLeft queryRight : ℕ) :
    EStateM Exception (Storage X F) X := do
  push P node segmentLeft segmentRight
  if segmentRight < queryLeft ∨ segmentLeft > queryRight then return P.aggregateIdentity
  else if queryLeft ≤ segmentLeft ∧ segmentRight ≤ queryRight then readAggregate node
  else if segmentLeft < segmentRight then do
    let middle := Segment.midpoint segmentLeft segmentRight
    let left ← query (2 * node + 1) segmentLeft middle queryLeft queryRight
    let right ← query (2 * node + 2) (middle + 1) segmentRight queryLeft queryRight
    P.combine left right
  else throw .undefined
termination_by segmentRight - segmentLeft
decreasing_by all_goals (simp only [Segment.midpoint] at *; omega)

end Operations

section Public

variable (P : Policy X F)

/-- The constructed tree is empty. -/
def empty : State X F := ⟨⟨[], []⟩, 0⟩

def initializeFrom (values : List X) : EStateM Exception (State X F) Unit := do
  let storageCount ← lazyStorageCount values.length
  checkVectorLength "cannot create std::vector larger than max_size()" P.aggregateBytes storageCount
  let newAggregates := List.replicate storageCount P.aggregateIdentity
  checkVectorLength "cannot create std::vector larger than max_size()" P.actionBytes storageCount
  let newTags := List.replicate storageCount P.actionIdentity
  let built ← (if values ≠ [] then do
      return (← Effect.onLocal (build P values 0 0 (values.length - 1)) newAggregates).2
    else pure newAggregates)
  set (⟨⟨built, newTags⟩, values.length⟩ : State X F)

/-- A computation on the two vectors of the tree. -/
def onStorage {α : Type} (x : EStateM Exception (Storage X F) α) : EStateM Exception (State X F) α :=
  Effect.zoom State.toStorage (fun storage s => { s with toStorage := storage }) x

variable [DecidableEq F]

def rangeApply (left right : ℕ) (action : F) : EStateM Exception (State X F) Unit := do
  let this ← get
  validateNonEmpty this.arraySize
  validateRange this.arraySize left right
  onStorage (update P 0 0 (this.arraySize - 1) left right action)

def rangeAggregate (left right : ℕ) : EStateM Exception (State X F) X := do
  let this ← get
  validateNonEmpty this.arraySize
  validateRange this.arraySize left right
  onStorage (query P 0 0 (this.arraySize - 1) left right)

end Public

/-! ## The array two vectors hold -/

section Pending

variable {M : SegmentAction X F} {S : Set X} {sizes : RecordSizes} {st st' st'' : Storage X F}
  {size i j k lo hi l r : ℕ} {A B : ℕ → X} {f z : F} {x : X}

/-- The vectors have a slot for every node. -/
def Fits (size : ℕ) (st : Storage X F) : Prop :=
  st.aggregates.length = 4 * size ∧ st.tags.length = 4 * size

/-- The slot is as it was. -/
def Same (st st' : Storage X F) (j : ℕ) : Prop :=
  st'.aggregates[j]? = st.aggregates[j]? ∧ st'.tags[j]? = st.tags[j]?

/-- The slots of segments that are not inside `[lo, hi]` are as they were. -/
def Keeps (size lo hi : ℕ) (st st' : Storage X F) : Prop :=
  ∀ j a b, HeapSlot size j a b → a ≤ b → ¬ (lo ≤ a ∧ b ≤ hi) → Same st st' j

theorem Keeps.refl (st : Storage X F) : Keeps size lo hi st st := fun _ _ _ _ _ _ => ⟨rfl, rfl⟩

theorem Keeps.trans (h : Keeps size lo hi st st') (h' : Keeps size lo hi st' st'') :
    Keeps size lo hi st st'' := fun j a b ho hle hout =>
  ⟨(h' j a b ho hle hout).1.trans (h j a b ho hle hout).1,
    (h' j a b ho hle hout).2.trans (h j a b ho hle hout).2⟩

theorem Keeps.mono {lo' hi' : ℕ} (h : Keeps size lo hi st st') (h1 : lo' ≤ lo) (h2 : hi ≤ hi') :
    Keeps size lo' hi' st st' := fun j a b ho hle hout =>
  h j a b ho hle fun hin => hout ⟨h1.trans hin.1, hin.2.trans h2⟩

/-- Writing the slot of a segment keeps the slots of the others. -/
theorem Keeps.slot (ho : HeapSlot size i lo hi) (h : ∀ j, j ≠ i → Same st st' j) :
    Keeps size lo hi st st' := by
  intro j a b hj _ hout
  refine h j ?_
  rintro rfl
  obtain ⟨rfl, rfl⟩ := HeapSlot.exclusive _ _ _ _ _ hj ho
  exact hout ⟨le_rfl, le_rfl⟩

variable (M S) in
/-- The nodes below the slot hold the array, once their tags are applied: the aggregate is that
of the array `B` that the children hold, and the tag makes `A` out of `B`. -/
inductive Pending (st : Storage X F) : ℕ → ℕ → ℕ → (ℕ → X) → Prop
  | node {i lo hi : ℕ} {A B : ℕ → X} {z : F} (hz : st.tags[i]? = some z)
      (ha : st.aggregates[i]? = some (M.aggregate B lo hi)) (hB : M.AllReached S B lo hi)
      (hA : ∀ j, lo ≤ j → j ≤ hi → A j = M.act z (B j))
      (hl : lo < hi → Pending st (2 * i + 1) lo (Segment.midpoint lo hi) B)
      (hr : lo < hi → Pending st (2 * i + 2) (Segment.midpoint lo hi + 1) hi B) :
      Pending st i lo hi A

variable (M S) in
/-- The same where nothing is pending at the node itself. -/
structure Pushed (st : Storage X F) (i lo hi : ℕ) (A : ℕ → X) : Prop where
  tag : st.tags[i]? = some M.identity
  aggregate : st.aggregates[i]? = some (M.aggregate A lo hi)
  reached : M.AllReached S A lo hi
  left : lo < hi → Pending M S st (2 * i + 1) lo (Segment.midpoint lo hi) A
  right : lo < hi → Pending M S st (2 * i + 2) (Segment.midpoint lo hi + 1) hi A

theorem Pushed.pending (hM : M.Lawful S) (h : Pushed M S st i lo hi A) : Pending M S st i lo hi A :=
  .node h.tag h.aggregate h.reached (fun j h1 h2 => (hM.act_identity (h.reached j h1 h2)).symm)
    h.left h.right

/-- Only the slots of its segments matter. -/
theorem Pending.frame (h : Pending M S st i lo hi A) (ho : HeapSlot size i lo hi) (hle : lo ≤ hi)
    (hs : ∀ j a b, HeapSlot size j a b → a ≤ b → lo ≤ a → b ≤ hi → Same st st' j) :
    Pending M S st' i lo hi A := by
  induction h with
  | @node i lo hi A B z hz ha hB hA hl hr ihl ihr =>
    obtain ⟨h1, h2⟩ := hs i lo hi ho hle le_rfl le_rfl
    have hm := Segment.le_midpoint lo hi
    refine .node (h2.trans hz) (h1.trans ha) hB hA (fun hlt => ?_) fun hlt => ?_
    · have hm' := Segment.midpoint_lt hlt
      exact ihl hlt (.left ho hlt) hm fun j a b h3 h4 h5 h6 => hs j a b h3 h4 h5 (by omega)
    · have hm' := Segment.midpoint_lt hlt
      exact ihr hlt (.right ho hlt) hm' fun j a b h3 h4 h5 h6 => hs j a b h3 h4 (by omega) h6

/-- Nodes apart from what was written hold what they held. -/
theorem Pending.keep {lo' hi' : ℕ} (h : Pending M S st i lo hi A) (ho : HeapSlot size i lo hi)
    (hle : lo ≤ hi) (hk : Keeps size lo' hi' st st') (hd : hi < lo' ∨ hi' < lo) :
    Pending M S st' i lo hi A :=
  h.frame ho hle fun j a b hj hab _ _ => hk j a b hj hab (by omega)

/-- The halves do not see what is written to the node above them. -/
theorem Pending.child {a b : ℕ} (h : Pending M S st j a b A) (hj : HeapSlot size j a b) (hab : a ≤ b)
    (ho : HeapSlot size i lo hi) (hlt : b - a < hi - lo) (hs : ∀ j, j ≠ i → Same st st' j) :
    Pending M S st' j a b A := by
  refine h.frame hj hab fun k c d hk hcd h1 h2 => hs k ?_
  rintro rfl
  obtain ⟨rfl, rfl⟩ := HeapSlot.exclusive _ _ _ _ _ hk ho
  omega

theorem Pending.reached (h : Pending M S st i lo hi A) : M.AllReached S A lo hi := by
  cases h with
  | node hz ha hB hA hl hr => exact fun j h1 h2 => hA j h1 h2 ▸ (hB j h1 h2).act _

theorem Pending.congr (h : Pending M S st i lo hi A) (hAB : ∀ j, lo ≤ j → j ≤ hi → A j = B j) :
    Pending M S st i lo hi B := by
  cases h with
  | node hz ha hB hA hl hr =>
    exact .node hz ha hB (fun j h1 h2 => (hAB j h1 h2).symm.trans (hA j h1 h2)) hl hr

theorem Pushed.congr (h : Pushed M S st i lo hi A) (hle : lo ≤ hi)
    (hAB : ∀ j, lo ≤ j → j ≤ hi → A j = B j) : Pushed M S st i lo hi B := by
  have hm := Segment.le_midpoint lo hi
  refine ⟨h.tag, ?_, fun j h1 h2 => hAB j h1 h2 ▸ h.reached j h1 h2, fun hlt => ?_, fun hlt => ?_⟩
  · rw [h.aggregate, SegmentAction.aggregate_congr hAB hle]
  · have hm' := Segment.midpoint_lt hlt
    exact (h.left hlt).congr fun j h1 h2 => hAB j h1 (by omega)
  · exact (h.right hlt).congr fun j h1 h2 => hAB j (by omega) h2

/-! ## Reading and writing -/

theorem readAggregate_run (h : st.aggregates[i]? = some x) : readAggregate i st = .ok x st := by
  unfold readAggregate
  rw [Effect.run_bind_ok (Effect.run_get _), vectorAt_eq_ok.mpr h]
  rfl

theorem readTag_run (h : st.tags[i]? = some z) : readTag i st = .ok z st := by
  unfold readTag
  rw [Effect.run_bind_ok (Effect.run_get _), vectorAt_eq_ok.mpr h]
  rfl

theorem writeAggregate_run (h : i < st.aggregates.length) :
    writeAggregate i x st = .ok () { st with aggregates := st.aggregates.set i x } :=
  Effect.zoom_ok (writeSlot_run h)

theorem writeTag_run (h : i < st.tags.length) :
    writeTag i f st = .ok () { st with tags := st.tags.set i f } :=
  Effect.zoom_ok (writeSlot_run h)

theorem same_set_aggregate : ∀ j, j ≠ i → Same st { st with aggregates := st.aggregates.set i x } j :=
  fun _ hj => ⟨List.getElem?_set_ne hj.symm, rfl⟩

theorem same_set_tag : ∀ j, j ≠ i → Same st { st with tags := st.tags.set i f } j :=
  fun _ hj => ⟨rfl, List.getElem?_set_ne hj.symm⟩

theorem readAggregate_state (i : ℕ) (st : Storage X F) :
    Effect.finalState (readAggregate i st) = st := by
  unfold readAggregate
  rw [Effect.run_bind_ok (Effect.run_get _)]
  cases vectorAt st.aggregates i <;> rfl

theorem readTag_state (i : ℕ) (st : Storage X F) : Effect.finalState (readTag i st) = st := by
  unfold readTag
  rw [Effect.run_bind_ok (Effect.run_get _)]
  cases vectorAt st.tags i <;> rfl

theorem readAggregate_eq_ok (h : readAggregate i st = .ok x st') :
    st.aggregates[i]? = some x ∧ st' = st := by
  unfold readAggregate at h
  rw [Effect.run_bind_ok (Effect.run_get _)] at h
  obtain ⟨hx, rfl⟩ := Effect.run_liftM_eq_ok.mp h
  exact ⟨vectorAt_eq_ok.mp hx, rfl⟩

theorem readTag_eq_ok (h : readTag i st = .ok z st') : st.tags[i]? = some z ∧ st' = st := by
  unfold readTag at h
  rw [Effect.run_bind_ok (Effect.run_get _)] at h
  obtain ⟨hz, rfl⟩ := Effect.run_liftM_eq_ok.mp h
  exact ⟨vectorAt_eq_ok.mp hz, rfl⟩

theorem writeAggregate_ends (i : ℕ) (x : X) : Effect.Ends
    (fun _ (st : Storage X F) => st.aggregates[i]? = some x) (writeAggregate i x) :=
  .zoom (writeSlot_ends i x) fun _ _ _ h => h

theorem writeTag_ends (i : ℕ) (f : F) : Effect.Ends
    (fun _ (st : Storage X F) => st.tags[i]? = some f) (writeTag i f) :=
  .zoom (writeSlot_ends i f) fun _ _ _ h => h

/-- The computation writes tags only. -/
def KeepsAggregates (st st' : Storage X F) : Prop := st'.aggregates = st.aggregates

theorem KeepsAggregates.refl (st : Storage X F) : KeepsAggregates st st := rfl

theorem KeepsAggregates.trans (h : KeepsAggregates st st') (h' : KeepsAggregates st' st'') :
    KeepsAggregates st st'' := Eq.trans h' h

theorem writeTag_keeps (i : ℕ) (f : F) :
    Effect.Within (KeepsAggregates (X := X)) (writeTag i f) :=
  .zoom (writeSlot_length i f) fun _ _ _ => rfl

theorem composeInto_keeps (P : Policy X F) (f : F) (i : ℕ) :
    Effect.Within KeepsAggregates (composeInto P f i) :=
  .bind .trans (.of_state .refl (readTag_state i)) fun _ =>
    .bind .trans (.lift .refl _) fun g => writeTag_keeps i g

theorem composeChildren_keeps (P : Policy X F) (f : F) (i lo hi : ℕ) :
    Effect.Within (KeepsAggregates (X := X)) (if lo ≠ hi then do
        composeInto P f (2 * i + 1)
        composeInto P f (2 * i + 2)
      else pure ()) :=
  .ite (fun _ => .bind .trans (composeInto_keeps P f _) fun _ => composeInto_keeps P f _)
    fun _ => .pure .refl _

/-- A push that returns leaves nothing pending at the node, and where something was its aggregate is
what applying it made. -/
theorem push_ok [DecidableEq F] {P : Policy X F} (h : push P i lo hi st = .ok () st') :
    st'.tags[i]? = some P.actionIdentity ∧ (st.tags[i]? = some P.actionIdentity ∨
      ∃ f aggregate x, P.apply f aggregate (Segment.length lo hi) = .ok x ∧
        st'.aggregates[i]? = some x) := by
  unfold push at h
  obtain ⟨tag, st₁, h1, h⟩ := Effect.run_bind_eq_ok.mp h
  obtain ⟨htag, hst⟩ := readTag_eq_ok h1
  rw [hst] at h
  by_cases h0 : tag = P.actionIdentity
  · rw [if_pos h0] at h
    cases h
    rw [h0] at htag
    exact ⟨htag, .inl htag⟩
  rw [if_neg h0] at h
  obtain ⟨aggregate, st₂, -, h⟩ := Effect.run_bind_eq_ok.mp h
  obtain ⟨x, hx, h⟩ := Effect.run_liftM_bind_eq_ok.mp h
  obtain ⟨_, st₃, h3, h⟩ := Effect.run_bind_eq_ok.mp h
  obtain ⟨_, st₄, h4, h⟩ := Effect.run_bind_eq_ok.mp h
  have hchildren := composeChildren_keeps P tag i lo hi st₃
  have htags := writeTag_keeps (X := X) i P.actionIdentity st₄
  rw [h4] at hchildren
  rw [h] at htags
  refine ⟨writeTag_ends i _ _ _ _ h, .inr ⟨tag, aggregate, x, hx, ?_⟩⟩
  rw [show st'.aggregates = st₃.aggregates from hchildren.trans htags]
  exact writeAggregate_ends i x _ _ _ h3

/-- One that covers the segment of the node pushes its own action there. -/
theorem update_covering [DecidableEq F] {P : Policy X F} (hle : lo ≤ hi) (hin : l ≤ lo ∧ hi ≤ r)
    (hid : ∀ z, P.compose f P.actionIdentity = .ok z → z ≠ P.actionIdentity)
    (h : update P i lo hi l r f st = .ok () st') :
    ∃ z aggregate x, P.apply z aggregate (Segment.length lo hi) = .ok x ∧
      st'.aggregates[i]? = some x := by
  rw [update] at h
  obtain ⟨_, st₁, h1, h⟩ := Effect.run_bind_eq_ok.mp h
  rw [if_neg (by omega), if_pos hin] at h
  obtain ⟨_, st₂, h2, h⟩ := Effect.run_bind_eq_ok.mp h
  obtain ⟨older, st₃, h3, h2⟩ := Effect.run_bind_eq_ok.mp h2
  obtain ⟨z, hz, h2⟩ := Effect.run_liftM_bind_eq_ok.mp h2
  have holder : older = P.actionIdentity :=
    Option.some.inj ((readTag_eq_ok h3).1.symm.trans (push_ok h1).1)
  rw [holder] at hz
  rcases (push_ok h).2 with hnone | hx
  · have htag : st₂.tags[i]? = some z := writeTag_ends i z _ _ _ h2
    exact absurd (Option.some.inj (htag.symm.trans hnone)) (hid z hz)
  · exact hx

/-- An initialization that returns has built its aggregates. -/
theorem initializeFrom_ok {P : Policy X F} {values : List X} {s s' : State X F}
    (hne : values ≠ []) (h : initializeFrom P values s = .ok () s') :
    ∃ start, build P values 0 0 (values.length - 1) start = .ok () s'.aggregates := by
  unfold initializeFrom at h
  obtain ⟨count, -, h⟩ := Effect.run_liftM_bind_eq_ok.mp h
  obtain ⟨_, -, h⟩ := Effect.run_liftM_bind_eq_ok.mp h
  obtain ⟨_, -, h⟩ := Effect.run_liftM_bind_eq_ok.mp h
  rw [if_pos hne] at h
  obtain ⟨built, s₁, hb, h⟩ := Effect.run_bind_eq_ok.mp h
  obtain ⟨⟨_, aggregates⟩, hlocal, hb⟩ := Effect.run_liftM_bind_eq_ok.mp hb
  cases hb
  cases h
  exact ⟨_, Effect.onLocal_eq_ok.mp hlocal⟩

/-! ## One call on the vectors -/

/-- The computation returns, and leaves vectors of the same length with only slots of segments
inside `[lo, hi]` written. -/
def Leaves {α : Type} (size lo hi : ℕ) (y : EStateM Exception (Storage X F) α) (st : Storage X F)
    (a : α) (Q : Storage X F → Prop) : Prop :=
  ∃ st', y st = .ok a st' ∧ Fits size st' ∧ Keeps size lo hi st st' ∧ Q st'

theorem Leaves.bind {α β : Type} {y : EStateM Exception (Storage X F) α} {a : α} {b : β}
    {g : α → EStateM Exception (Storage X F) β} {Q Q' : Storage X F → Prop}
    (hy : Leaves size lo hi y st a Q) (hg : ∀ st', Fits size st' → Keeps size lo hi st st' →
      Q st' → Leaves size lo hi (g a) st' b Q') : Leaves size lo hi (y >>= g) st b Q' := by
  obtain ⟨st₁, h1, hf, hk, hq⟩ := hy
  obtain ⟨st₂, h2, hf', hk', hq'⟩ := hg st₁ hf hk hq
  exact ⟨st₂, (Effect.run_bind_ok h1).trans h2, hf', hk.trans hk', hq'⟩

theorem Leaves.mono {α : Type} {lo' hi' : ℕ} {y : EStateM Exception (Storage X F) α} {a : α}
    {Q Q' : Storage X F → Prop} (hy : Leaves size lo hi y st a Q) (h1 : lo' ≤ lo) (h2 : hi ≤ hi')
    (hq : ∀ st', Q st' → Q' st') : Leaves size lo' hi' y st a Q' := by
  obtain ⟨st', hy, hf, hk, h⟩ := hy
  exact ⟨st', hy, hf, hk.mono h1 h2, hq st' h⟩

variable (sizes) in
/-- An action is composed into the tag of a node. -/
theorem composeInto_spec (hM : M.Lawful S) (hn : 0 < size) (hf : Fits size st)
    (ho : HeapSlot size i lo hi) (h : Pending M S st i lo hi A) (f : F) :
    Leaves size lo hi (composeInto (totalPolicy M sizes) f i) st () fun st' =>
      Pending M S st' i lo hi (fun j => M.act f (A j)) ∧ ∀ j, j ≠ i → Same st st' j := by
  have hlen : i < st.tags.length := by
    rw [hf.2]
    exact ho.bound hn
  cases h with
  | @node _ _ _ _ B z hz ha hB hA hl hr =>
    have hm := Segment.le_midpoint lo hi
    refine ⟨{ st with tags := st.tags.set i (M.compose f z) }, ?_, ⟨hf.1, ?_⟩,
      .slot ho same_set_tag, ?_, same_set_tag⟩
    · unfold composeInto
      rw [Effect.run_bind_ok (readTag_run hz)]
      exact writeTag_run hlen
    · rw [List.length_set, hf.2]
    · refine .node (List.getElem?_set_self hlen) ha hB (fun j h1 h2 => ?_) (fun hlt => ?_)
        fun hlt => ?_
      · rw [hM.act_compose (hB j h1 h2), hA j h1 h2]
      · have hm' := Segment.midpoint_lt hlt
        exact (hl hlt).child (.left ho hlt) hm ho (by omega) same_set_tag
      · have hm' := Segment.midpoint_lt hlt
        exact (hr hlt).child (.right ho hlt) hm' ho (by omega) same_set_tag

theorem writeAggregate_spec (hn : 0 < size) (hf : Fits size st) (ho : HeapSlot size i lo hi)
    (x : X) : Leaves size lo hi (writeAggregate i x) st () fun st' =>
      st'.aggregates[i]? = some x ∧ st'.tags = st.tags ∧ ∀ j, j ≠ i → Same st st' j := by
  have hlen : i < st.aggregates.length := by
    rw [hf.1]
    exact ho.bound hn
  refine ⟨_, writeAggregate_run hlen, ⟨?_, hf.2⟩, .slot ho same_set_aggregate,
    List.getElem?_set_self hlen, rfl, same_set_aggregate⟩
  rw [List.length_set, hf.1]

theorem writeTag_spec (hn : 0 < size) (hf : Fits size st) (ho : HeapSlot size i lo hi) (f : F) :
    Leaves size lo hi (writeTag i f) st () fun st' =>
      st'.tags[i]? = some f ∧ st'.aggregates = st.aggregates ∧ ∀ j, j ≠ i → Same st st' j := by
  have hlen : i < st.tags.length := by
    rw [hf.2]
    exact ho.bound hn
  refine ⟨_, writeTag_run hlen, ⟨hf.1, ?_⟩, .slot ho same_set_tag, List.getElem?_set_self hlen,
    rfl, same_set_tag⟩
  rw [List.length_set, hf.2]

variable (sizes) in
/-- A tag is composed into the tags of both children. -/
theorem composeChildren_spec (hM : M.Lawful S) (hn : 0 < size) (hf : Fits size st)
    (ho : HeapSlot size i lo hi) (hlt : lo < hi)
    (hl : Pending M S st (2 * i + 1) lo (Segment.midpoint lo hi) B)
    (hr : Pending M S st (2 * i + 2) (Segment.midpoint lo hi + 1) hi B) (z : F) :
    Leaves size lo hi (do
        composeInto (totalPolicy M sizes) z (2 * i + 1)
        composeInto (totalPolicy M sizes) z (2 * i + 2)) st () fun st' =>
      Pending M S st' (2 * i + 1) lo (Segment.midpoint lo hi) (fun j => M.act z (B j)) ∧
        Pending M S st' (2 * i + 2) (Segment.midpoint lo hi + 1) hi (fun j => M.act z (B j)) ∧
          Same st st' i := by
  have hm := Segment.le_midpoint lo hi
  have hm' := Segment.midpoint_lt hlt
  have hol := HeapSlot.left ho hlt
  have hor := HeapSlot.right ho hlt
  obtain ⟨st₁, h1, hf₁, hk₁, hl₁, hs₁⟩ := composeInto_spec sizes hM hn hf hol hl z
  obtain ⟨st₂, h2, hf₂, hk₂, hr₂, hs₂⟩ := composeInto_spec sizes hM hn hf₁ hor
    (hr.keep hor hm' hk₁ (.inr (by omega))) z
  refine ⟨st₂, (Effect.run_bind_ok h1).trans h2, hf₂,
    (hk₁.mono le_rfl hm'.le).trans (hk₂.mono (by omega) le_rfl),
    hl₁.keep hol hm hk₂ (.inl (by omega)), hr₂, ?_⟩
  have hi₁ := hs₁ i (by omega)
  have hi₂ := hs₂ i (by omega)
  exact ⟨hi₂.1.trans hi₁.1, hi₂.2.trans hi₁.2⟩

/-- The tag of a node goes into its aggregate and into the tags of its children. -/
theorem push_spec [DecidableEq F] (hM : M.Lawful S) (hn : 0 < size) (hf : Fits size st)
    (ho : HeapSlot size i lo hi) (hle : lo ≤ hi) (h : Pending M S st i lo hi A) :
    Leaves size lo hi (push (totalPolicy M sizes) i lo hi) st () fun st' =>
      Pushed M S st' i lo hi A := by
  have hreach := h.reached
  cases h with
  | @node _ _ _ _ B z hz ha hB hA hl hr =>
    have hm := Segment.le_midpoint lo hi
    by_cases hid : z = M.identity
    · have hBA : ∀ j, lo ≤ j → j ≤ hi → B j = A j := fun j h1 h2 => by
        rw [hA j h1 h2, hid, hM.act_identity (hB j h1 h2)]
      have hpushed : Pushed M S st i lo hi B := ⟨hid ▸ hz, ha, hB, hl, hr⟩
      refine ⟨st, ?_, hf, .refl st, hpushed.congr hle hBA⟩
      unfold push
      rw [Effect.run_bind_ok (readTag_run hz)]
      exact congrFun (if_pos hid) st
    have hagg : M.apply z (M.aggregate B lo hi) (Segment.length lo hi) = M.aggregate A lo hi := by
      rw [hM.apply_aggregate z hle hB]
      exact SegmentAction.aggregate_congr (fun j h1 h2 => (hA j h1 h2).symm) hle
    have hrun : push (totalPolicy M sizes) i lo hi st = (do
        writeAggregate i (M.aggregate A lo hi)
        (if lo ≠ hi then do
          composeInto (totalPolicy M sizes) z (2 * i + 1)
          composeInto (totalPolicy M sizes) z (2 * i + 2)
        else pure ())
        writeTag i M.identity) st := by
      unfold push
      rw [Effect.run_bind_ok (readTag_run hz),
        if_neg (show ¬ z = (totalPolicy M sizes).actionIdentity from hid),
        Effect.run_bind_ok (readAggregate_run ha), ← hagg]
      rfl
    -- the aggregate, then the children, then the tag
    have hsteps : Leaves size lo hi (do
        writeAggregate i (M.aggregate A lo hi)
        (if lo ≠ hi then do
          composeInto (totalPolicy M sizes) z (2 * i + 1)
          composeInto (totalPolicy M sizes) z (2 * i + 2)
        else pure ())
        writeTag i M.identity) st () fun st' => Pushed M S st' i lo hi A := by
      refine (writeAggregate_spec hn hf ho _).bind fun st₁ hf₁ _ ⟨ha₁, _, hs₁⟩ => ?_
      have hchildren : Leaves size lo hi (if lo ≠ hi then do
            composeInto (totalPolicy M sizes) z (2 * i + 1)
            composeInto (totalPolicy M sizes) z (2 * i + 2)
          else pure ()) st₁ () fun st' =>
          (lo < hi → Pending M S st' (2 * i + 1) lo (Segment.midpoint lo hi) A) ∧
            (lo < hi → Pending M S st' (2 * i + 2) (Segment.midpoint lo hi + 1) hi A) ∧
              Same st₁ st' i := by
        by_cases hne : lo = hi
        · rw [if_neg (not_not.mpr hne)]
          exact ⟨st₁, rfl, hf₁, .refl st₁, fun hlt => absurd hne hlt.ne,
            fun hlt => absurd hne hlt.ne, rfl, rfl⟩
        have hlt : lo < hi := lt_of_le_of_ne hle hne
        have hm' := Segment.midpoint_lt hlt
        rw [if_pos hne]
        refine (composeChildren_spec sizes hM hn hf₁ ho hlt
          ((hl hlt).child (.left ho hlt) hm ho (by omega) hs₁)
          ((hr hlt).child (.right ho hlt) hm' ho (by omega) hs₁) z).mono le_rfl le_rfl
          fun st' ⟨h1, h2, h3⟩ => ⟨fun _ => ?_, fun _ => ?_, h3⟩
        · exact h1.congr fun j h4 h5 => (hA j h4 (by omega)).symm
        · exact h2.congr fun j h4 h5 => (hA j (by omega) h5).symm
      refine hchildren.bind fun st₂ hf₂ _ ⟨hl₂, hr₂, hi₂⟩ => ?_
      refine (writeTag_spec hn hf₂ ho M.identity).mono le_rfl le_rfl
        fun st' ⟨hz', ha', hs'⟩ => ⟨hz', ?_, hreach, fun hlt => ?_, fun hlt => ?_⟩
      · rw [ha', hi₂.1, ha₁]
      · have hm' := Segment.midpoint_lt hlt
        exact (hl₂ hlt).child (.left ho hlt) hm ho (by omega) hs'
      · have hm' := Segment.midpoint_lt hlt
        exact (hr₂ hlt).child (.right ho hlt) hm' ho (by omega) hs'
    obtain ⟨st', h1, h2⟩ := hsteps
    exact ⟨st', hrun.trans h1, h2⟩

/-- What is done to both halves keeps the node above them. -/
theorem Keeps.halves (ho : HeapSlot size i lo hi) (hlt : lo < hi)
    (hl : Keeps size lo (Segment.midpoint lo hi) st st')
    (hr : Keeps size (Segment.midpoint lo hi + 1) hi st' st'') :
    Same st st'' i ∧ Keeps size lo hi st st'' := by
  have hm := Segment.le_midpoint lo hi
  have hm' := Segment.midpoint_lt hlt
  have h1 := hl i lo hi ho hlt.le (by omega)
  have h2 := hr i lo hi ho hlt.le (by omega)
  exact ⟨⟨h2.1.trans h1.1, h2.2.trans h1.2⟩, (hl.mono le_rfl hm'.le).trans (hr.mono (by omega) le_rfl)⟩

variable (sizes) in
/-- The build holds the array of its values below tags that are all the identity. -/
theorem build_spec (hM : M.Lawful S) (hn : 0 < size) {values : List X} :
    ∀ lo hi, lo ≤ hi → ∀ {i : ℕ} {aggregates : List X} {A : ℕ → X}, HeapSlot size i lo hi →
      aggregates.length = 4 * size → (∀ j, lo ≤ j → j ≤ hi → values[j]? = some (A j)) →
      M.AllReached S A lo hi → ∃ aggregates',
        build (totalPolicy M sizes) values i lo hi aggregates = .ok () aggregates' ∧
        aggregates'.length = 4 * size ∧
        Keeps size lo hi ⟨aggregates, List.replicate (4 * size) M.identity⟩
          ⟨aggregates', List.replicate (4 * size) M.identity⟩ ∧
        Pushed M S ⟨aggregates', List.replicate (4 * size) M.identity⟩ i lo hi A := by
  have htag : ∀ {i lo hi : ℕ}, HeapSlot size i lo hi →
      (List.replicate (4 * size) M.identity)[i]? = some M.identity := fun ho => by
    rw [List.getElem?_replicate, if_pos (ho.bound hn)]
  refine Segment.halving_induction ?_ ?_
  · intro m i aggregates A ho hlen hv hA
    have hslot : i < aggregates.length := by
      rw [hlen]
      exact ho.bound hn
    refine ⟨aggregates.set i (A m), ?_, by rw [List.length_set, hlen], .slot ho fun j hj =>
      ⟨List.getElem?_set_ne hj.symm, rfl⟩, htag ho, ?_, hA, fun h => absurd h (lt_irrefl m),
      fun h => absurd h (lt_irrefl m)⟩
    · rw [build, if_pos rfl, vectorAt_eq_ok.mpr (hv m le_rfl le_rfl),
        Effect.run_bind_ok (Effect.liftM_ok _ _)]
      exact writeSlot_run hslot
    · rw [hM.aggregate_single (hA m le_rfl le_rfl)]
      exact List.getElem?_set_self hslot
  · intro lo hi hlt ihl ihr i aggregates A ho hlen hv hA
    have hm := Segment.le_midpoint lo hi
    have hm' := Segment.midpoint_lt hlt
    have hol := HeapSlot.left ho hlt
    have hor := HeapSlot.right ho hlt
    obtain ⟨aggs₁, hx, hlen₁, hk₁, hl₁⟩ := ihl hol hlen (fun j h1 h2 => hv j h1 (by omega))
      (hA.left hlt)
    obtain ⟨aggs₂, hy, hlen₂, hk₂, hr₂⟩ := ihr hor hlen₁ (fun j h1 h2 => hv j (by omega) h2)
      hA.right
    obtain ⟨-, hk⟩ := Keeps.halves ho hlt hk₁ hk₂
    have hleft : aggs₂[2 * i + 1]? = some (M.aggregate A lo (Segment.midpoint lo hi)) :=
      (hk₂ _ _ _ hol hm (by omega)).1.trans hl₁.aggregate
    have hslot : i < aggs₂.length := by
      rw [hlen₂]
      exact ho.bound hn
    have hs : ∀ j, j ≠ i → Same ⟨aggs₂, List.replicate (4 * size) M.identity⟩
        ⟨aggs₂.set i (M.aggregate A lo hi), List.replicate (4 * size) M.identity⟩ j := fun j hj =>
      ⟨List.getElem?_set_ne hj.symm, rfl⟩
    refine ⟨aggs₂.set i (M.aggregate A lo hi), ?_, by rw [List.length_set, hlen₂],
      hk.trans (.slot ho hs), htag ho, List.getElem?_set_self hslot, hA, fun _ => ?_, fun _ => ?_⟩
    · rw [build, if_neg hlt.ne, if_pos hlt, Effect.run_bind_ok hx, Effect.run_bind_ok hy,
        Effect.run_bind_ok (readNode_run hleft), Effect.run_bind_ok (readNode_run hr₂.aggregate),
        hM.aggregate_split hlt hA]
      exact writeSlot_run hslot
    · exact ((hl₁.pending hM).keep hol hm hk₂ (.inl (by omega))).child hol hm ho (by omega) hs
    · exact (hr₂.pending hM).child hor hm' ho (by omega) hs

variable [DecidableEq F]

variable (sizes) in
/-- **One update.** The vectors hold the array the action makes on the range. -/
theorem update_spec (hM : M.Lawful S) (hn : 0 < size) (l r : ℕ) (f : F) :
    ∀ lo hi, lo ≤ hi → ∀ {i : ℕ} {st : Storage X F} {A : ℕ → X}, HeapSlot size i lo hi →
      Fits size st → Pending M S st i lo hi A →
      Leaves size lo hi (update (totalPolicy M sizes) i lo hi l r f) st () fun st' =>
        Pushed M S st' i lo hi (M.actOn A l r f) := by
  have hcovered : ∀ {lo hi i : ℕ} {st : Storage X F} {A : ℕ → X}, lo ≤ hi → HeapSlot size i lo hi →
      Fits size st → Pushed M S st i lo hi A → l ≤ lo ∧ hi ≤ r → Leaves size lo hi (do
        composeInto (totalPolicy M sizes) f i
        push (totalPolicy M sizes) i lo hi) st () fun st' =>
          Pushed M S st' i lo hi (M.actOn A l r f) := by
    intro lo hi i st A hle ho hf h hin
    refine (composeInto_spec sizes hM hn hf ho (h.pending hM) f).bind fun st₁ hf₁ _ ⟨h1, _⟩ => ?_
    refine (push_spec hM hn hf₁ ho hle h1).mono le_rfl le_rfl fun st' h2 => ?_
    exact h2.congr hle fun j h3 h4 =>
      (SegmentAction.actOn_of_inside (hin.1.trans h3) (h4.trans hin.2)).symm
  have hapart : ∀ {lo hi i : ℕ} {st : Storage X F} {A : ℕ → X}, lo ≤ hi → Fits size st →
      Pushed M S st i lo hi A → hi < l ∨ lo > r → Leaves size lo hi (pure ()) st () fun st' =>
        Pushed M S st' i lo hi (M.actOn A l r f) := by
    intro lo hi i st A hle hf h hout
    exact ⟨st, rfl, hf, .refl st, h.congr hle fun j h1 h2 =>
      (SegmentAction.actOn_of_apart (by omega)).symm⟩
  refine Segment.halving_induction ?_ ?_
  · intro m i st A ho hf h
    rw [update]
    refine (push_spec hM hn hf ho le_rfl h).bind fun st₁ hf₁ _ h1 => ?_
    by_cases hout : m < l ∨ m > r
    · rw [if_pos hout]
      exact hapart le_rfl hf₁ h1 hout
    have hin : l ≤ m ∧ m ≤ r := by omega
    rw [if_neg hout, if_pos hin]
    exact hcovered le_rfl ho hf₁ h1 hin
  · intro lo hi hlt ihl ihr i st A ho hf h
    have hm := Segment.le_midpoint lo hi
    have hm' := Segment.midpoint_lt hlt
    rw [update]
    refine (push_spec hM hn hf ho hlt.le h).bind fun st₁ hf₁ _ h1 => ?_
    by_cases hout : hi < l ∨ lo > r
    · rw [if_pos hout]
      exact hapart hlt.le hf₁ h1 hout
    rw [if_neg hout]
    by_cases hin : l ≤ lo ∧ hi ≤ r
    · rw [if_pos hin]
      exact hcovered hlt.le ho hf₁ h1 hin
    rw [if_neg hin, if_pos hlt]
    have hol := HeapSlot.left ho hlt
    have hor := HeapSlot.right ho hlt
    obtain ⟨st₂, hx, hf₂, hk₂, hl₂⟩ := ihl hol hf₁ (h1.left hlt)
    obtain ⟨st₃, hy, hf₃, hk₃, hr₃⟩ := ihr hor hf₂
      ((h1.right hlt).keep hor hm' hk₂ (.inr (by omega)))
    obtain ⟨hsame, hk⟩ := Keeps.halves ho hlt hk₂ hk₃
    have hleft : st₃.aggregates[2 * i + 1]? =
        some (M.aggregate (M.actOn A l r f) lo (Segment.midpoint lo hi)) :=
      (hk₃ _ _ _ hol hm (by omega)).1.trans hl₂.aggregate
    have hreach : M.AllReached S (M.actOn A l r f) lo hi := fun j h3 h4 =>
      (h1.reached j h3 h4).actOn
    obtain ⟨st₄, hw, hf₄, hk₄, ha₄, ht₄, hs₄⟩ := writeAggregate_spec hn hf₃ ho
      (M.aggregate (M.actOn A l r f) lo hi)
    refine ⟨st₄, ?_, hf₄, hk.trans hk₄, ?_, ha₄, hreach, fun _ => ?_, fun _ => ?_⟩
    · rw [Effect.run_bind_ok hx, Effect.run_bind_ok hy, Effect.run_bind_ok (readAggregate_run hleft),
        Effect.run_bind_ok (readAggregate_run hr₃.aggregate)]
      rw [hM.aggregate_split hlt hreach] at hw
      exact hw
    · rw [ht₄, hsame.2, h1.tag]
    · exact ((hl₂.pending hM).keep hol hm hk₃ (.inl (by omega))).child hol hm ho (by omega) hs₄
    · exact (hr₃.pending hM).child hor hm' ho (by omega) hs₄

variable (sizes) in
/-- **One query.** It answers with the part of the array inside the range; what it writes holds
the same array. -/
theorem query_spec (hM : M.Lawful S) (hn : 0 < size) (l r : ℕ) :
    ∀ lo hi, lo ≤ hi → ∀ {i : ℕ} {st : Storage X F} {A : ℕ → X}, HeapSlot size i lo hi →
      Fits size st → Pending M S st i lo hi A →
      Leaves size lo hi (query (totalPolicy M sizes) i lo hi l r) st
        (M.partAggregate A lo hi l r) fun st' => Pushed M S st' i lo hi A := by
  have hcovered : ∀ {lo hi i : ℕ} {st : Storage X F} {A : ℕ → X}, lo ≤ hi → Fits size st →
      Pushed M S st i lo hi A → l ≤ lo ∧ hi ≤ r →
      Leaves size lo hi (readAggregate i) st (M.partAggregate A lo hi l r) fun st' =>
        Pushed M S st' i lo hi A := by
    intro lo hi i st A hle hf h hin
    refine ⟨st, ?_, hf, .refl st, h⟩
    rw [SegmentAction.partAggregate_of_inside hle hin]
    exact readAggregate_run h.aggregate
  have hapart : ∀ {lo hi i : ℕ} {st : Storage X F} {A : ℕ → X}, lo ≤ hi → Fits size st →
      Pushed M S st i lo hi A → hi < l ∨ lo > r →
      Leaves size lo hi (pure M.empty) st (M.partAggregate A lo hi l r) fun st' =>
        Pushed M S st' i lo hi A := by
    intro lo hi i st A hle hf h hout
    rw [SegmentAction.partAggregate_of_apart hle hout]
    exact ⟨st, rfl, hf, .refl st, h⟩
  refine Segment.halving_induction ?_ ?_
  · intro m i st A ho hf h
    rw [query]
    refine (push_spec hM hn hf ho le_rfl h).bind fun st₁ hf₁ _ h1 => ?_
    by_cases hout : m < l ∨ m > r
    · rw [if_pos hout]
      exact hapart le_rfl hf₁ h1 hout
    have hin : l ≤ m ∧ m ≤ r := by omega
    rw [if_neg hout, if_pos hin]
    exact hcovered le_rfl hf₁ h1 hin
  · intro lo hi hlt ihl ihr i st A ho hf h
    have hm := Segment.le_midpoint lo hi
    have hm' := Segment.midpoint_lt hlt
    rw [query]
    refine (push_spec hM hn hf ho hlt.le h).bind fun st₁ hf₁ _ h1 => ?_
    by_cases hout : hi < l ∨ lo > r
    · rw [if_pos hout]
      exact hapart hlt.le hf₁ h1 hout
    rw [if_neg hout]
    by_cases hin : l ≤ lo ∧ hi ≤ r
    · rw [if_pos hin]
      exact hcovered hlt.le hf₁ h1 hin
    rw [if_neg hin, if_pos hlt]
    have hol := HeapSlot.left ho hlt
    have hor := HeapSlot.right ho hlt
    obtain ⟨st₂, hx, hf₂, hk₂, hl₂⟩ := ihl hol hf₁ (h1.left hlt)
    obtain ⟨st₃, hy, hf₃, hk₃, hr₃⟩ := ihr hor hf₂
      ((h1.right hlt).keep hor hm' hk₂ (.inr (by omega)))
    obtain ⟨hsame, hk⟩ := Keeps.halves ho hlt hk₂ hk₃
    refine ⟨st₃, ?_, hf₃, hk, hsame.2.trans h1.tag, hsame.1.trans h1.aggregate, h1.reached,
      fun _ => (hl₂.pending hM).keep hol hm hk₃ (.inl (by omega)), fun _ => hr₃.pending hM⟩
    rw [Effect.run_bind_ok hx, Effect.run_bind_ok hy, hM.partAggregate_split hlt h1.reached]
    rfl

end Pending

/-! ## Whole runs -/

/-- A call of a tree that is mutated by both its operations. -/
inductive Operation (F : Type) where
  | rangeApply (left right : ℕ) (action : F)
  | rangeAggregate (left right : ℕ)

/-- The updates among the calls. -/
def updatesOf (operations : List (Operation F)) : List (RangeAction F) :=
  operations.filterMap fun
    | .rangeApply left right action => some ⟨left, right, action⟩
    | .rangeAggregate _ _ => none

theorem updatesOf_concat {F : Type} (operations : List (Operation F)) (operation : Operation F) :
    updatesOf (operations ++ [operation]) = updatesOf operations ++ updatesOf [operation] :=
  List.filterMap_append

section Runs

variable [DecidableEq F] (P : Policy X F)

/-- The state after a call, whether it returns or throws. -/
def step (s : State X F) : Operation F → State X F
  | .rangeApply left right action => Effect.finalState (rangeApply P left right action s)
  | .rangeAggregate left right => Effect.finalState (rangeAggregate P left right s)

/-- The state after an initialization and calls. -/
def run (values : List X) (operations : List (Operation F)) : State X F :=
  operations.foldl (step P) (Effect.finalState (initializeFrom P values empty))

variable {M : SegmentAction X F} {S : Set X} {sizes : RecordSizes} {s : State X F} {size : ℕ}
  {A : ℕ → X} {l r : ℕ} {f : F}

variable (M S) in
/-- The state holds the array. -/
structure HoldsLatest (size : ℕ) (A : ℕ → X) (s : State X F) : Prop where
  arraySize : s.arraySize = size
  fits : Fits size s.toStorage
  pending : Pending M S s.toStorage 0 0 (size - 1) A

omit [DecidableEq F] in
/-- Arguments that are no range of the array are rejected by both operations. -/
theorem rejected {α : Type} (hsize : s.arraySize = size) (hin : ¬ (l ≤ r ∧ r < size))
    (x : EStateM Exception (State X F) α) : ∃ e, (do
        validateNonEmpty s.arraySize
        validateRange s.arraySize l r
        x : EStateM Exception (State X F) α) s = .error e s := by
  rw [hsize]
  rcases validateNonEmpty size with e | ⟨⟩
  · exact ⟨e, rfl⟩
  rcases hr : validateRange size l r with e | ⟨⟩
  · exact ⟨e, rfl⟩
  · exact absurd (validateRange_eq_ok.mp hr) hin

omit [DecidableEq F] in
/-- The others pass the checks. -/
theorem admitted {α : Type} (hsize : s.arraySize = size) (hlr : l ≤ r) (hr : r < size)
    (x : EStateM Exception (State X F) α) : (do
        validateNonEmpty s.arraySize
        validateRange s.arraySize l r
        x : EStateM Exception (State X F) α) s = x s := by
  rw [hsize, validateNonEmpty_eq_ok.mpr (by omega), validateRange_eq_ok.mpr ⟨hlr, hr⟩]
  rfl

/-- **One update.** -/
theorem rangeApply_spec (hM : M.Lawful S) (h : HoldsLatest M S size A s) (hlr : l ≤ r)
    (hr : r < size) : ∃ s', rangeApply (totalPolicy M sizes) l r f s = .ok () s' ∧
      HoldsLatest M S size (M.actOn A l r f) s' := by
  obtain ⟨st, hu, hf, -, hp⟩ := update_spec sizes hM (Nat.zero_lt_of_lt hr) l r f 0
    (size - 1) (Nat.zero_le _) .root h.fits h.pending
  refine ⟨⟨st, s.arraySize⟩, ?_, h.arraySize, hf, hp.pending hM⟩
  unfold rangeApply
  rw [Effect.run_bind_ok (Effect.run_get s), admitted h.arraySize hlr hr]
  rw [← h.arraySize] at hu
  exact Effect.zoom_ok hu

/-- **One query.** -/
theorem rangeAggregate_spec (hM : M.Lawful S) (h : HoldsLatest M S size A s) (hlr : l ≤ r)
    (hr : r < size) : ∃ s', rangeAggregate (totalPolicy M sizes) l r s =
      .ok (M.aggregate A l r) s' ∧ HoldsLatest M S size A s' := by
  obtain ⟨st, hq, hf, -, hp⟩ := query_spec sizes hM (Nat.zero_lt_of_lt hr) l r 0
    (size - 1) (Nat.zero_le _) .root h.fits h.pending
  refine ⟨⟨st, s.arraySize⟩, ?_, h.arraySize, hf, hp.pending hM⟩
  unfold rangeAggregate
  rw [Effect.run_bind_ok (Effect.run_get s), admitted h.arraySize hlr hr]
  rw [SegmentAction.partAggregate_of_contains (Nat.zero_le l) hlr (by omega), ← h.arraySize] at hq
  exact Effect.zoom_ok hq

omit [DecidableEq F] in
/-- An initialization with room holds its array. -/
theorem initialize_spec (hM : M.Lawful S) {values : List X} (hpos : 0 < values.length)
    (haggregates : 4 * values.length ≤ vectorMaxSize sizes.aggregateBytes)
    (hactions : 4 * values.length ≤ vectorMaxSize sizes.actionBytes) (hS : ∀ x ∈ values, x ∈ S) :
    ∃ s, initializeFrom (totalPolicy M sizes) values empty = .ok () s ∧
      HoldsLatest M S values.length (fun i => values.getD i M.empty) s := by
  obtain ⟨aggregates, hb, hlen, -, hp⟩ := build_spec sizes hM hpos 0 (values.length - 1)
    (Nat.zero_le _) .root
    (List.length_replicate : (List.replicate (4 * values.length) M.empty).length = _)
    (fun i _ hi => getElem?_getD M.empty (by omega)) (.getD hS hpos M.empty)
  have hmax : vectorMaxSize sizes.aggregateBytes ≤ sizeMax := by
    unfold vectorMaxSize sizeMax
    exact (Nat.div_le_self _ _).trans (by omega)
  have hcount : lazyStorageCount values.length = .ok (4 * values.length) :=
    checkedSizeMultiply_eq_ok.mpr ⟨rfl, by omega⟩
  refine ⟨⟨⟨aggregates, List.replicate (4 * values.length) M.identity⟩, values.length⟩, ?_, rfl,
    ⟨hlen, List.length_replicate ..⟩, hp.pending hM⟩
  have hne : values ≠ [] := List.length_pos_iff.mp hpos
  have hcheck : ∀ bytes, 4 * values.length ≤ vectorMaxSize bytes →
      checkVectorLength "cannot create std::vector larger than max_size()" bytes
        (4 * values.length) = .ok () := fun _ => checkVectorLength_eq_ok.mpr
  unfold initializeFrom
  rw [hcount, Effect.run_bind_ok (Effect.liftM_ok _ _),
    hcheck (totalPolicy M sizes).aggregateBytes haggregates,
    Effect.run_bind_ok (Effect.liftM_ok _ _), hcheck (totalPolicy M sizes).actionBytes hactions,
    Effect.run_bind_ok (Effect.liftM_ok _ _), if_pos hne]
  have hlocal : (do
        return (← Effect.onLocal (build (totalPolicy M sizes) values 0 0 (values.length - 1))
          (List.replicate (4 * values.length) M.empty)).2 :
        EStateM Exception (State X F) (List X)) empty = .ok aggregates empty := by
    rw [Effect.onLocal_ok hb]
    rfl
  exact Effect.run_bind_ok hlocal

/-- **One call.** Calls with a range of the array do what they are for; the others leave the state
as it was. -/
theorem step_spec (hM : M.Lawful S) (h : HoldsLatest M S size A s) (operation : Operation F) :
    HoldsLatest M S size (M.elements A (validUpdates size (updatesOf [operation])))
      (step (totalPolicy M sizes) s operation) := by
  cases operation with
  | rangeApply l r f =>
    have hlast : validUpdates size (updatesOf [.rangeApply l r f]) =
        if l ≤ r ∧ r < size then [⟨l, r, f⟩] else [] := validUpdates_concat size [] ⟨l, r, f⟩
    rw [hlast]
    by_cases hin : l ≤ r ∧ r < size
    · obtain ⟨s', hs', h'⟩ := rangeApply_spec (f := f) hM h hin.1 hin.2
      rw [if_pos hin, step, hs']
      exact h'
    · obtain ⟨e, he⟩ := rejected h.arraySize hin
        (onStorage (update (totalPolicy M sizes) 0 0 (s.arraySize - 1) l r f))
      have hs : rangeApply (totalPolicy M sizes) l r f s = .error e s := he
      rw [if_neg hin, step, hs]
      exact h
  | rangeAggregate l r =>
    by_cases hin : l ≤ r ∧ r < size
    · obtain ⟨s', hs', h'⟩ := rangeAggregate_spec hM h hin.1 hin.2
      rw [step, hs']
      exact h'
    · obtain ⟨e, he⟩ := rejected h.arraySize hin
        (onStorage (query (totalPolicy M sizes) 0 0 (s.arraySize - 1) l r))
      have hs : rangeAggregate (totalPolicy M sizes) l r s = .error e s := he
      rw [step, hs]
      exact h

/-- **Runs.** After every interleaving of updates and queries the tree holds the array that the
updates with a range of the array make, in their order. -/
theorem run_spec (hM : M.Lawful S) {values : List X} (hpos : 0 < values.length)
    (haggregates : 4 * values.length ≤ vectorMaxSize sizes.aggregateBytes)
    (hactions : 4 * values.length ≤ vectorMaxSize sizes.actionBytes) (hS : ∀ x ∈ values, x ∈ S)
    (operations : List (Operation F)) :
    HoldsLatest M S values.length (M.elements (fun i => values.getD i M.empty)
        (validUpdates values.length (updatesOf operations)))
      (run (totalPolicy M sizes) values operations) := by
  induction operations using List.reverseRecOn with
  | nil =>
    obtain ⟨s, hs, h⟩ := initialize_spec hM hpos haggregates hactions hS
    unfold run
    rw [hs]
    exact h
  | append_singleton operations operation ih =>
    have hupdates : validUpdates values.length (updatesOf (operations ++ [operation])) =
        validUpdates values.length (updatesOf operations) ++
          validUpdates values.length (updatesOf [operation]) := by
      rw [updatesOf_concat, validUpdates, List.filter_append]
      rfl
    rw [hupdates, SegmentAction.elements, List.foldl_append, run, List.foldl_append]
    exact step_spec hM ih operation

end Runs

end PushedLazyTree

end Valseg
