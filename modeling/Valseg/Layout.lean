import Valseg.CheckedTree

/-!
# Reading a tree out of an arena

The structures differ in how a node is found and read: at an arena index or at a computed slot,
as it is or as of a version. A `Layout` is one such way to read. The recursions that only read
(`query`, `materialize`, `validateUpdate`) are the same code over each of them and are given here
once; each structure has them under its own name.

`Stores` says which tree the nodes below an index hold. A stored tree is read exactly as the
checked operations read the tree (`query_eq`, `materialize_eq`, `validateUpdate_eq`), and it stays
stored as long as the nodes it owns are read the same (`Stores.frame`).
-/

namespace Valseg

open Segment (length)

/-- How a structure reads a node: its sum and tag, and the indices of its children when its
segment starts at `segmentLeft` and is halved after `middle`. -/
structure Layout where
  read : (nodeIndex : ℕ) → Except Exception (ValueType × ValueType)
  children : (nodeIndex segmentLeft middle : ℕ) → Except Exception (ℕ × ℕ)

namespace Layout

def query (L : Layout) (nodeIndex segmentLeft segmentRight queryLeft queryRight : ℕ)
    (inheritedLazy : ValueType) : Except Exception ValueType :=
  if segmentRight < queryLeft ∨ segmentLeft > queryRight then .ok 0
  else do
    let (sum, lazy) ← L.read nodeIndex
    if queryLeft ≤ segmentLeft ∧ segmentRight ≤ queryRight then do
      SumAddPolicy.apply inheritedLazy sum (← inclusiveLength segmentLeft segmentRight)
    else if segmentLeft < segmentRight then do
      let middle := Segment.midpoint segmentLeft segmentRight
      let nextLazy ← checkedAdd inheritedLazy lazy
      let (leftChild, rightChild) ← L.children nodeIndex segmentLeft middle
      let leftSum ← L.query leftChild segmentLeft middle queryLeft queryRight nextLazy
      let rightSum ← L.query rightChild (middle + 1) segmentRight queryLeft queryRight nextLazy
      checkedAdd leftSum rightSum
    else .error .undefined
termination_by segmentRight - segmentLeft
decreasing_by all_goals (simp only [Segment.midpoint] at *; omega)

def materialize (L : Layout) (nodeIndex segmentLeft segmentRight : ℕ) (inheritedLazy : ValueType)
    (values : List ValueType) : Except Exception (List ValueType) := do
  let (sum, lazy) ← L.read nodeIndex
  if segmentLeft = segmentRight then do
    return values ++ [← SumAddPolicy.apply inheritedLazy sum 1]
  else if segmentLeft < segmentRight then do
    let middle := Segment.midpoint segmentLeft segmentRight
    let nextLazy ← checkedAdd inheritedLazy lazy
    let (leftChild, rightChild) ← L.children nodeIndex segmentLeft middle
    let leftValues ← L.materialize leftChild segmentLeft middle nextLazy values
    L.materialize rightChild (middle + 1) segmentRight nextLazy leftValues
  else .error .undefined
termination_by segmentRight - segmentLeft
decreasing_by all_goals (simp only [Segment.midpoint] at *; omega)

def validateUpdate (L : Layout) (nodeIndex segmentLeft segmentRight queryLeft queryRight : ℕ)
    (value : ValueType) : Except Exception ValueType := do
  let (sum, lazy) ← L.read nodeIndex
  let length ← inclusiveLength segmentLeft segmentRight
  if queryLeft ≤ segmentLeft ∧ segmentRight ≤ queryRight then do
    let _ ← checkedAdd lazy value
    SumAddPolicy.apply value sum length
  else if segmentLeft < segmentRight then do
    let middle := Segment.midpoint segmentLeft segmentRight
    let (leftChild, rightChild) ← L.children nodeIndex segmentLeft middle
    let (oldLeft, _) ← L.read leftChild
    let (oldRight, _) ← L.read rightChild
    let leftSum ← (if queryLeft ≤ middle then
      L.validateUpdate leftChild segmentLeft middle queryLeft queryRight value else pure oldLeft)
    let rightSum ← (if queryRight > middle then
      L.validateUpdate rightChild (middle + 1) segmentRight queryLeft queryRight value
      else pure oldRight)
    SumAddPolicy.apply lazy (← checkedAdd leftSum rightSum) length
  else .error .undefined
termination_by segmentRight - segmentLeft
decreasing_by all_goals (simp only [Segment.midpoint] at *; omega)

/-! ## Stored trees -/

/-- The node at `i` and its descendants hold the tree `t` over `[lo, hi]`, each of them at an
index that belongs to its segment. -/
def Stores (L : Layout) (own : ℕ → ℕ → ℕ → Prop) : SumTree → ℕ → ℕ → ℕ → Prop
  | .leaf s z, i, lo, hi => lo = hi ∧ own i lo hi ∧ L.read i = .ok (s, z)
  | .node s z left right, i, lo, hi => lo < hi ∧ own i lo hi ∧ L.read i = .ok (s, z) ∧
      ∃ j k, L.children i lo (Segment.midpoint lo hi) = .ok (j, k) ∧
        L.Stores own left j lo (Segment.midpoint lo hi) ∧
          L.Stores own right k (Segment.midpoint lo hi + 1) hi

variable {L L' : Layout} {own own' : ℕ → ℕ → ℕ → Prop} {t : SumTree} {i j lo hi l r : ℕ}
  {value inherited : ValueType}

theorem Stores.spans (h : L.Stores own t i lo hi) : t.Spans lo hi := by
  induction t generalizing i lo hi with
  | leaf s z => exact h.1
  | node s z a b iha ihb =>
    obtain ⟨hlt, -, -, j, k, -, ha, hb⟩ := h
    exact ⟨hlt, iha ha, ihb hb⟩

theorem Stores.read (h : L.Stores own t i lo hi) : L.read i = .ok (t.sum, t.tag) := by
  cases t with
  | leaf s z => exact h.2.2
  | node s z a b => exact h.2.2.1

theorem Stores.owned (h : L.Stores own t i lo hi) : own i lo hi := by
  cases t with
  | leaf s z => exact h.2.1
  | node s z a b => exact h.2.1

/-- **Framing.** A tree stays stored when the nodes of its segments are read the same. -/
theorem Stores.frame (h : L.Stores own t i lo hi)
    (hf : ∀ j a b p, own j a b → lo ≤ a → a ≤ b → b ≤ hi → L.read j = .ok p →
      own' j a b ∧ L'.read j = .ok p ∧ ∀ q, L.children j a (Segment.midpoint a b) = .ok q →
        L'.children j a (Segment.midpoint a b) = .ok q) :
    L'.Stores own' t i lo hi := by
  induction t generalizing i lo hi with
  | leaf s z =>
    obtain ⟨hle, ho, hr⟩ := h
    obtain ⟨ho', hr', -⟩ := hf i lo hi _ ho le_rfl hle.le le_rfl hr
    exact ⟨hle, ho', hr'⟩
  | node s z a b iha ihb =>
    obtain ⟨hlt, ho, hr, j, k, hc, ha, hb⟩ := h
    obtain ⟨ho', hr', hc'⟩ := hf i lo hi _ ho le_rfl hlt.le le_rfl hr
    have h1 := Segment.le_midpoint lo hi
    have h2 := Segment.midpoint_lt hlt
    exact ⟨hlt, ho', hr', j, k, hc' _ hc,
      iha ha fun j a b p h3 h4 h5 h6 => hf j a b p h3 h4 h5 (by omega),
      ihb hb fun j a b p h3 h4 h5 h6 => hf j a b p h3 (by omega) h5 h6⟩

/-- More nodes may belong to segments. -/
theorem Stores.mono (h : L.Stores own t i lo hi) (ho : ∀ j a b, own j a b → own' j a b) :
    L.Stores own' t i lo hi :=
  h.frame fun j a b _ hj _ _ _ hp => ⟨ho j a b hj, hp, fun _ hq => hq⟩

/-- A node with the children of a stored root stores the tree with its own sum and tag. -/
theorem Stores.setRoot {j : ℕ} {s z : ValueType} (h : L.Stores own t i lo hi)
    (ho : own j lo hi) (hr : L.read j = .ok (s, z))
    (hc : ∀ q, L.children i lo (Segment.midpoint lo hi) = .ok q →
      L.children j lo (Segment.midpoint lo hi) = .ok q) :
    L.Stores own (t.setRoot s z) j lo hi := by
  cases t with
  | leaf s₀ z₀ => exact ⟨h.1, ho, hr⟩
  | node s₀ z₀ a b =>
    obtain ⟨hlt, -, -, x, y, hxy, ha, hb⟩ := h
    exact ⟨hlt, ho, hr, x, y, hc _ hxy, ha, hb⟩

/-! ## Writing in place -/

/-- Outside `[lo, hi]` every node is read the same. -/
def KeepsOutside (own : ℕ → ℕ → ℕ → Prop) (lo hi : ℕ) (L L' : Layout) : Prop :=
  ∀ j a b, own j a b → a ≤ b → ¬ (lo ≤ a ∧ b ≤ hi) → L'.read j = L.read j ∧
    L'.children j a (Segment.midpoint a b) = L.children j a (Segment.midpoint a b)

theorem KeepsOutside.refl (L : Layout) : KeepsOutside own lo hi L L := fun _ _ _ _ _ _ => ⟨rfl, rfl⟩

theorem KeepsOutside.trans {L'' : Layout} (h : KeepsOutside own lo hi L L')
    (h' : KeepsOutside own lo hi L' L'') : KeepsOutside own lo hi L L'' :=
  fun j a b ho hle hout =>
    ⟨(h' j a b ho hle hout).1.trans (h j a b ho hle hout).1,
      (h' j a b ho hle hout).2.trans (h j a b ho hle hout).2⟩

theorem KeepsOutside.mono {lo' hi' : ℕ} (h : KeepsOutside own lo hi L L') (h1 : lo' ≤ lo)
    (h2 : hi ≤ hi') : KeepsOutside own lo' hi' L L' :=
  fun j a b ho hle hout => h j a b ho hle fun hin => hout ⟨h1.trans hin.1, hin.2.trans h2⟩

/-- A tree apart from the segment stays stored. -/
theorem Stores.keep {lo' hi' : ℕ} (h : L.Stores own t i lo hi) (hk : KeepsOutside own lo' hi' L L')
    (hd : hi < lo' ∨ hi' < lo) : L'.Stores own t i lo hi := by
  refine h.frame fun j a b p ho h1 h2 h3 hp => ?_
  obtain ⟨hr, hc⟩ := hk j a b ho h2 (by omega)
  exact ⟨ho, hr.trans hp, fun q hq => hc.trans hq⟩

/-- One node is rewritten, to be read as `p`. -/
structure WritesAt (L L' : Layout) (i : ℕ) (p : ValueType × ValueType) : Prop where
  read : L'.read i = .ok p
  others : ∀ j, j ≠ i → L'.read j = L.read j ∧ ∀ a b, L'.children j a b = L.children j a b

/-- Each node belongs to one segment. -/
def Exclusive (own : ℕ → ℕ → ℕ → Prop) : Prop :=
  ∀ i a b c d, own i a b → own i c d → a = c ∧ b = d

section WritesAt

variable {p : ValueType × ValueType} {s z : ValueType} (hown : Exclusive own)

include hown in
/-- Where each node belongs to one segment, the write is inside the node's own. -/
theorem WritesAt.keeps (h : WritesAt L L' i p) (ho : own i lo hi) :
    KeepsOutside own lo hi L L' := by
  intro j a b hj _ hout
  have hne : j ≠ i := by
    rintro rfl
    obtain ⟨rfl, rfl⟩ := hown _ _ _ _ _ hj ho
    exact hout ⟨le_rfl, le_rfl⟩
  exact ⟨(h.others j hne).1, (h.others j hne).2 a _⟩

include hown in
/-- A subtree of a smaller segment stays stored. -/
theorem Stores.write_below {lo' hi' : ℕ} (ht : L.Stores own t i lo hi) (h : WritesAt L L' j p)
    (ho : own j lo' hi') (hsub : lo' < lo ∨ hi < hi') : L'.Stores own t i lo hi := by
  refine ht.frame fun k a b q hk h1 h2 h3 hq => ?_
  have hne : k ≠ j := by
    rintro rfl
    obtain ⟨rfl, rfl⟩ := hown _ _ _ _ _ hk ho
    omega
  obtain ⟨hr, hc⟩ := h.others k hne
  exact ⟨hk, hr.trans hq, fun q' hq' => (hc a _).trans hq'⟩

include hown in
/-- A root is written over the children of a stored one, in its place or next to it. -/
theorem Stores.write_root (ht : L.Stores own t i lo hi) (h : WritesAt L L' j (s, z))
    (ho : own j lo hi) (hc : ∀ q, L.children i lo (Segment.midpoint lo hi) = .ok q →
      L'.children j lo (Segment.midpoint lo hi) = .ok q) : L'.Stores own (t.setRoot s z) j lo hi := by
  cases t with
  | leaf s₀ z₀ => exact ⟨ht.1, ho, h.read⟩
  | node s₀ z₀ a b =>
    obtain ⟨hlt, -, -, c, d, hcd, ha, hb⟩ := ht
    have h1 := Segment.le_midpoint lo hi
    have h2 := Segment.midpoint_lt hlt
    exact ⟨hlt, ho, h.read, c, d, hc _ hcd, ha.write_below hown h ho (.inr h2),
      hb.write_below hown h ho (.inl (by omega))⟩

include hown in
/-- The root is rewritten over two stored children. -/
theorem Stores.write_node {a b : SumTree} {j k : ℕ} (hlt : lo < hi) (ho : own i lo hi)
    (ha : L.Stores own a j lo (Segment.midpoint lo hi))
    (hb : L.Stores own b k (Segment.midpoint lo hi + 1) hi)
    (h : WritesAt L L' i (s, z)) (hc : L'.children i lo (Segment.midpoint lo hi) = .ok (j, k)) :
    L'.Stores own (.node s z a b) i lo hi := by
  have h1 := Segment.le_midpoint lo hi
  have h2 := Segment.midpoint_lt hlt
  exact ⟨hlt, ho, h.read, j, k, hc, ha.write_below hown h ho (.inr h2),
    hb.write_below hown h ho (.inl (by omega))⟩

end WritesAt

/-- **Halves updated in place.** The root between them is read as before. -/
theorem Stores.updated_halves {L₁ L₂ : Layout} {a : SumTree} {k : ℕ} {s z : ValueType}
    (hlt : lo < hi) (ho : own i lo hi) (hr : L.read i = .ok (s, z))
    (hc : L.children i lo (Segment.midpoint lo hi) = .ok (j, k))
    (ka : KeepsOutside own lo (Segment.midpoint lo hi) L L₁)
    (kb : KeepsOutside own (Segment.midpoint lo hi + 1) hi L₁ L₂)
    (ha : L₁.Stores own a j lo (Segment.midpoint lo hi)) :
    L₂.read i = .ok (s, z) ∧ L₂.children i lo (Segment.midpoint lo hi) = .ok (j, k) ∧
      L₂.Stores own a j lo (Segment.midpoint lo hi) ∧ KeepsOutside own lo hi L L₂ := by
  have h1 := Segment.le_midpoint lo hi
  have h2 := Segment.midpoint_lt hlt
  obtain ⟨hra, hca⟩ := ka i lo hi ho hlt.le (by omega)
  obtain ⟨hrb, hcb⟩ := kb i lo hi ho hlt.le (by omega)
  exact ⟨(hrb.trans hra).trans hr, (hcb.trans hca).trans hc, ha.keep kb (.inl (by omega)),
    (ka.mono le_rfl (by omega)).trans (kb.mono (by omega) le_rfl)⟩

/-! ## Stored trees are read as trees -/

theorem lt_sizeMax (h : hi < maxLength) : hi < sizeMax := by
  unfold maxLength at h; unfold sizeMax; omega

theorem query_eq (hhi : hi < maxLength) (h : L.Stores own t i lo hi) :
    L.query i lo hi l r inherited = t.query lo hi l r inherited := by
  induction t generalizing i lo hi inherited with
  | leaf s z =>
    have hr := h.read
    have hle : lo = hi := h.1
    rw [query, SumTree.query]
    refine ite_congr rfl (fun _ => rfl) fun _ => ?_
    rw [hr, Effect.ok_bind, inclusiveLength_eq hle.le (lt_sizeMax hhi)]
    refine ite_congr rfl (fun _ => rfl) fun _ => ?_
    exact if_neg (by omega)
  | node s z a b iha ihb =>
    have hr := h.read
    obtain ⟨hlt, -, -, j, k, hc, ha, hb⟩ := h
    have hm := Segment.midpoint_lt hlt
    rw [query, SumTree.query]
    refine ite_congr rfl (fun _ => rfl) fun _ => ?_
    rw [hr, Effect.ok_bind, inclusiveLength_eq hlt.le (lt_sizeMax hhi)]
    refine ite_congr rfl (fun _ => rfl) fun _ => ?_
    rw [if_pos hlt]
    simp only [hc, Effect.ok_bind, TagTree.tag_node]
    refine bind_congr fun next => ?_
    rw [iha (by omega) ha, ihb hhi hb]

theorem materialize_eq {values : List ValueType} (h : L.Stores own t i lo hi) :
    L.materialize i lo hi inherited values = t.materialize inherited values := by
  induction t generalizing i lo hi inherited values with
  | leaf s z =>
    have hr := h.read
    have hle : lo = hi := h.1
    rw [materialize, SumTree.materialize, hr, Effect.ok_bind]
    exact if_pos hle
  | node s z a b iha ihb =>
    have hr := h.read
    obtain ⟨hlt, -, -, j, k, hc, ha, hb⟩ := h
    rw [materialize, SumTree.materialize, hr, Effect.ok_bind]
    simp only [if_neg hlt.ne, if_pos hlt, hc, Effect.ok_bind, TagTree.tag_node]
    refine bind_congr fun next => ?_
    rw [iha ha]
    exact bind_congr fun vs => ihb hb

theorem validateUpdate_eq (hhi : hi < maxLength) (h : L.Stores own t i lo hi) :
    L.validateUpdate i lo hi l r value = SumTree.validateUpdate l r value t lo hi := by
  induction t generalizing i lo hi with
  | leaf s z =>
    have hr := h.read
    have hle : lo = hi := h.1
    rw [validateUpdate, SumTree.validateUpdate, hr,
      inclusiveLength_eq hle.le (lt_sizeMax hhi)]
    refine ite_congr rfl (fun _ => rfl) fun _ => ?_
    exact if_neg (by omega)
  | node s z a b iha ihb =>
    have hr := h.read
    obtain ⟨hlt, -, -, j, k, hc, ha, hb⟩ := h
    have hm := Segment.midpoint_lt hlt
    rw [validateUpdate, SumTree.validateUpdate, hr,
      inclusiveLength_eq hlt.le (lt_sizeMax hhi)]
    refine ite_congr rfl (fun _ => rfl) fun _ => ?_
    rw [if_pos hlt]
    simp only [hc, Effect.ok_bind, TagTree.tag_node, ha.read, hb.read]
    rw [iha (by omega) ha, ihb hhi hb]

end Layout

end Valseg
