import Valseg.Arena
import Mathlib.Data.Nat.Log

/-!
# Trees in computed slots

Two structures keep one tree in a vector of fixed length and compute where the children of a node
are. A `SlotScheme` says which slot belongs to which segment; `heapScheme` puts the children of
slot `i` at `2 i + 1` and `2 i + 2`, and `preorderScheme` puts the left child right after its
parent and the right child after the left subtree. `buildSlots_spec` is the specification of the
build over either.
-/

namespace Valseg

open Segment (length)

/-- Where the children of a slot are, as a layout has them. -/
abbrev Children := (nodeIndex segmentLeft middle : ℕ) → Except Exception (ℕ × ℕ)

/-- The segments that the slots of a vector belong to. -/
structure SlotScheme (children : Children) (size capacity : ℕ) where
  own : ℕ → ℕ → ℕ → Prop
  exclusive : Layout.Exclusive own
  bound : ∀ {i a b : ℕ}, own i a b → i < capacity
  root : own 0 0 (size - 1)
  split : ∀ {i a b : ℕ}, own i a b → a < b → ∃ j k, children i a (Segment.midpoint a b) = .ok (j, k) ∧
    own j a (Segment.midpoint a b) ∧ own k (Segment.midpoint a b + 1) b

section Operations

variable {α : Type}

/-- `vector[index] = x`. -/
def writeSlot (index : ℕ) (x : α) : ArenaM α Unit := do
  if index < (← get).length then modify (·.set index x) else throw .undefined

theorem writeSlot_run {nodes : List α} {i : ℕ} {x : α} (h : i < nodes.length) :
    writeSlot i x nodes = .ok () (nodes.set i x) := by
  unfold writeSlot
  rw [Effect.run_bind_ok (Effect.run_get _), if_pos h]
  rfl

theorem writeSlot_set (i : ℕ) (x : α) :
    Effect.Within (fun nodes nodes' => nodes' = nodes ∨ nodes' = nodes.set i x)
      (writeSlot i x) := by
  intro nodes
  by_cases h : i < nodes.length
  · rw [writeSlot_run h]
    exact .inr rfl
  · unfold writeSlot
    rw [Effect.run_bind_ok (Effect.run_get _), if_neg h]
    exact .inl rfl

theorem writeSlot_ends (i : ℕ) (x : α) :
    Effect.Ends (fun _ nodes => nodes[i]? = some x) (writeSlot i x) := by
  intro nodes _ nodes' h
  unfold writeSlot at h
  rw [Effect.run_bind_ok (Effect.run_get _)] at h
  by_cases hi : i < nodes.length
  · rw [if_pos hi] at h
    cases h
    exact List.getElem?_set_self hi
  · rw [if_neg hi] at h
    cases h

theorem writeSlot_length (i : ℕ) (x : α) : Effect.Within (fun a b => b.length = a.length)
    (writeSlot i x) := by
  intro nodes
  rcases writeSlot_set i x nodes with h | h <;> rw [h]
  exact List.length_set

/-- Writing the image of a vector. -/
theorem writeSlot_map {β : Type} (g : α → β) (i : ℕ) (x : α) :
    Effect.Image (List.map g) id (writeSlot i x) (writeSlot i (g x)) := by
  intro xs
  unfold writeSlot
  rw [Effect.run_bind_ok (Effect.run_get _), Effect.run_bind_ok (Effect.run_get _), List.length_map]
  by_cases h : i < xs.length
  · rw [if_pos h, if_pos h, Effect.run_modify, Effect.run_modify, ← List.map_set]
    rfl
  · rw [if_neg h, if_neg h]
    rfl

/-- The layout of a vector of slots. -/
def slotLayout (fields : α → ValueType × ValueType) (children : Children) (nodes : List α) :
    Layout where
  read i := do return fields (← vectorAt nodes i)
  children := children

variable {fields : α → ValueType × ValueType} {children : Children} {nodes : List α} {i : ℕ}
  {x : α}

theorem slotLayout_read (h : nodes[i]? = some x) :
    (slotLayout fields children nodes).read i = .ok (fields x) := by
  show (vectorAt nodes i >>= fun x => pure (fields x)) = _
  rw [vectorAt_eq_ok.mpr h]
  rfl

/-- A slot that can be read is there. -/
theorem exists_of_slotLayout_read {p : ValueType × ValueType}
    (h : (slotLayout fields children nodes).read i = .ok p) :
    ∃ x, nodes[i]? = some x ∧ fields x = p := by
  obtain ⟨x, hx, hp⟩ := Effect.bind_eq_ok.mp h
  cases hp
  exact ⟨x, vectorAt_eq_ok.mp hx, rfl⟩

/-- Writing a slot rewrites its node. -/
theorem slotLayout_writesAt (h : i < nodes.length) :
    (slotLayout fields children nodes).WritesAt (slotLayout fields children (nodes.set i x)) i
      (fields x) := by
  refine ⟨slotLayout_read (by rw [List.getElem?_set_self h]), fun j hj => ⟨?_, fun _ _ => rfl⟩⟩
  show (vectorAt _ j >>= _) = (vectorAt _ j >>= _)
  unfold vectorAt
  rw [List.getElem?_set_ne hj.symm]

end Operations

/-! ## Building -/

section Build

variable {α : Type} (children : Children) (make : ValueType → α) (sumOf : α → ValueType)

/-- The build over `values[segmentLeft..segmentRight]` into the slots below `nodeIndex`. -/
def buildSlots (values : List ValueType) (nodeIndex segmentLeft segmentRight : ℕ) :
    ArenaM α Unit :=
  if segmentLeft = segmentRight then do
    let value ← vectorAt values segmentLeft
    writeSlot nodeIndex (make value)
  else if segmentLeft < segmentRight then do
    let middle := Segment.midpoint segmentLeft segmentRight
    let (leftIndex, rightIndex) ← children nodeIndex segmentLeft middle
    buildSlots values leftIndex segmentLeft middle
    buildSlots values rightIndex (middle + 1) segmentRight
    let leftNode ← readNode leftIndex
    let rightNode ← readNode rightIndex
    let sum ← checkedAdd (sumOf leftNode) (sumOf rightNode)
    writeSlot nodeIndex (make sum)
  else throw .undefined
termination_by segmentRight - segmentLeft
decreasing_by all_goals (simp only [Segment.midpoint] at *; omega)

variable {children make sumOf} {fields : α → ValueType × ValueType} {size capacity : ℕ}

/-- What a build leaves behind when the tree of the array is `t`. -/
structure BuiltSlots (S : SlotScheme children size capacity) (fields : α → ValueType × ValueType)
    (nodes nodes' : List α) (t : SumTree) (i lo hi : ℕ) : Prop where
  length : nodes'.length = nodes.length
  stores : (slotLayout fields children nodes').Stores S.own t i lo hi
  keeps : Layout.KeepsOutside S.own lo hi (slotLayout fields children nodes)
    (slotLayout fields children nodes')

/-- **Building.** The build returns where the tree of the array does, and stores that tree in
the slots of its segments; where the tree overflows, the build throws the same. -/
theorem buildSlots_spec (make : ValueType → α) (fields : α → ValueType × ValueType)
    (sumOf : α → ValueType) (S : SlotScheme children size capacity)
    (hmake : ∀ v, fields (make v) = (v, 0)) (hsum : ∀ x, sumOf x = (fields x).1)
    (values : List ValueType) :
    ∀ lo hi, lo ≤ hi → ∀ {i : ℕ} {nodes : List α}, S.own i lo hi → capacity ≤ nodes.length →
      (∃ t nodes', SumTree.build values lo hi = .ok t ∧
          buildSlots children make sumOf values i lo hi nodes = .ok () nodes' ∧
          BuiltSlots S fields nodes nodes' t i lo hi) ∨
        ∃ e nodes', SumTree.build values lo hi = .error e ∧
          buildSlots children make sumOf values i lo hi nodes = .error e nodes' := by
  refine Segment.halving_induction ?_ ?_
  · intro m i nodes ho hcap
    have hb := S.bound ho
    rw [buildSlots, if_pos rfl, SumTree.build, if_pos rfl]
    rcases hv : vectorAt values m with e | v
    · exact .inr ⟨e, nodes, rfl, Effect.run_bind_eq_error.mpr (.inl rfl)⟩
    · have hw : (slotLayout fields children nodes).WritesAt
          (slotLayout fields children (nodes.set i (make v))) i (fields (make v)) :=
        slotLayout_writesAt (by omega)
      refine .inl ⟨.leaf v 0, nodes.set i (make v), rfl, ?_, List.length_set .., ⟨rfl, ho, ?_⟩,
        hw.keeps S.exclusive ho⟩
      · rw [Effect.run_bind_ok (Effect.liftM_ok v nodes), writeSlot_run (by omega)]
      · rw [hw.read, hmake]
  · intro lo hi hlt ihl ihr i nodes ho hcap
    have hb := S.bound ho
    have hm := Segment.midpoint_lt hlt
    obtain ⟨j, k, hc, hoj, hok⟩ := S.split ho hlt
    rw [buildSlots, if_neg hlt.ne, if_pos hlt, SumTree.build, if_neg hlt.ne, if_pos hlt]
    simp only [hc]
    rw [Effect.run_bind_ok (Effect.liftM_ok _ nodes)]
    rcases ihl hoj hcap with ⟨a, nodesL, hta, hba, lenL, sa, ka⟩ | ⟨e, nodes', hta, hba⟩
    swap
    · exact .inr ⟨e, nodes', by rw [hta]; rfl, Effect.run_bind_error hba⟩
    rcases ihr hok (hcap.trans lenL.ge) with
      ⟨b, nodesR, htb, hbb, lenR, sb, kb⟩ | ⟨e, nodes', htb, hbb⟩
    swap
    · refine .inr ⟨e, nodes', by rw [hta, htb]; rfl, ?_⟩
      rw [Effect.run_bind_ok hba, Effect.run_bind_error hbb]
    have sa' := sa.keep kb (.inl (by omega))
    obtain ⟨na, hna, hfa⟩ := exists_of_slotLayout_read sa'.read
    obtain ⟨nb, hnb, hfb⟩ := exists_of_slotLayout_read sb.read
    rw [hta, htb, Effect.run_bind_ok hba, Effect.run_bind_ok hbb,
      Effect.run_bind_ok (readNode_run hna), Effect.run_bind_ok (readNode_run hnb), hsum, hsum,
      hfa, hfb]
    simp only [Effect.ok_bind]
    rcases checkedAdd a.sum b.sum with e | s
    · exact .inr ⟨e, _, rfl, Effect.run_bind_eq_error.mpr (.inl rfl)⟩
    have hw : (slotLayout fields children nodesR).WritesAt
        (slotLayout fields children (nodesR.set i (make s))) i (fields (make s)) :=
      slotLayout_writesAt (by omega)
    refine .inl ⟨.node s 0 a b, nodesR.set i (make s), rfl, ?_, ?_, ?_, ?_⟩
    · rw [Effect.run_bind_ok (Effect.liftM_ok s _), writeSlot_run (by omega)]
    · rw [List.length_set, lenR, lenL]
    · rw [hmake] at hw
      exact sa'.write_node S.exclusive hlt ho sb hw hc
    · exact ((ka.mono le_rfl hm.le).trans
        (kb.mono ((Segment.le_midpoint lo hi).trans (Nat.le_succ _)) le_rfl)).trans
          (hw.keeps S.exclusive ho)

/-- The build of a whole array in blank slots. -/
theorem buildSlots_local (make : ValueType → α) (fields : α → ValueType × ValueType)
    (sumOf : α → ValueType) (S : SlotScheme children size capacity)
    (hmake : ∀ v, fields (make v) = (v, 0)) (hsum : ∀ x, sumOf x = (fields x).1)
    (values : List ValueType) (blank : α) :
    (∃ t nodes, SumTree.build values 0 (size - 1) = .ok t ∧
        Effect.onLocal (buildSlots children make sumOf values 0 0 (size - 1))
          (List.replicate capacity blank) = .ok ((), nodes) ∧
        nodes.length = capacity ∧
        (slotLayout fields children nodes).Stores S.own t 0 0 (size - 1)) ∨
      ∃ e, SumTree.build values 0 (size - 1) = .error e ∧
        Effect.onLocal (buildSlots children make sumOf values 0 0 (size - 1))
          (List.replicate capacity blank) = .error e := by
  have hslots : capacity ≤ (List.replicate capacity blank).length :=
    List.length_replicate.ge
  rcases buildSlots_spec make fields sumOf S hmake hsum values 0 (size - 1) (Nat.zero_le _) S.root
    hslots with ⟨t, nodes, ht, hb, hlen, hst, -⟩ | ⟨e, nodes, ht, hb⟩
  · rw [List.length_replicate] at hlen
    exact .inl ⟨t, nodes, ht, Effect.onLocal_ok hb, hlen, hst⟩
  · exact .inr ⟨e, ht, Effect.onLocal_error hb⟩

end Build

/-! ## Updating in place -/

section InPlace

variable {σ : Type} (layoutOf : σ → Layout) (own : ℕ → ℕ → ℕ → Prop) (Fits : σ → Prop)

/-- The computation returns, and leaves a state of the same shape that stores the tree below the
node and keeps every node outside the segment. -/
def UpdatesTo (x : EStateM Exception σ Unit) (s : σ) (t : SumTree) (i lo hi : ℕ) : Prop :=
  ∃ s', x s = .ok () s' ∧ Fits s' ∧ (layoutOf s').Stores own t i lo hi ∧
    Layout.KeepsOutside own lo hi (layoutOf s) (layoutOf s')

variable {layoutOf own Fits} {s : σ} {t a b : SumTree} {i j k lo hi : ℕ}
  {x y : EStateM Exception σ Unit}

/-- The node of a covered segment is rewritten. -/
theorem UpdatesTo.root (hown : Layout.Exclusive own) (s' : σ) {sum tag : ValueType}
    (h : (layoutOf s).Stores own t i lo hi) (hx : x s = .ok () s') (hf : Fits s')
    (hw : (layoutOf s).WritesAt (layoutOf s') i (sum, tag))
    (hc : ∀ q, (layoutOf s).children i lo (Segment.midpoint lo hi) = .ok q →
      (layoutOf s').children i lo (Segment.midpoint lo hi) = .ok q) :
    UpdatesTo layoutOf own Fits x s (t.setRoot sum tag) i lo hi :=
  ⟨s', hx, hf, h.write_root hown hw h.owned hc, hw.keeps hown h.owned⟩

/-- Nothing is updated. -/
theorem UpdatesTo.refl (hf : Fits s) (h : (layoutOf s).Stores own t i lo hi) :
    UpdatesTo layoutOf own Fits (pure ()) s t i lo hi :=
  ⟨s, rfl, hf, h, .refl _⟩

/-- The update of one half, or the half left alone. -/
theorem UpdatesTo.half {p : Prop} [Decidable p] {u : Except Exception SumTree} (hf : Fits s)
    (h : (layoutOf s).Stores own a i lo hi)
    (hp : p → ∀ a', u = .ok a' → UpdatesTo layoutOf own Fits x s a' i lo hi)
    {a' : SumTree} (hu : (if p then u else pure a) = .ok a') :
    UpdatesTo layoutOf own Fits (if p then x else pure ()) s a' i lo hi := by
  rcases SumTree.half_eq_ok.mp hu with ⟨h1, hu⟩ | ⟨h1, rfl⟩
  · rw [if_pos h1]
    exact hp h1 a' hu
  · rw [if_neg h1]
    exact .refl hf h

/-- Both halves are updated, and then the node between them is rewritten. -/
theorem UpdatesTo.node (hown : Layout.Exclusive own) {f : EStateM Exception σ Unit}
    {sum tag w : ValueType} {b' : SumTree} (hlt : lo < hi) (ho : own i lo hi)
    (hr : (layoutOf s).read i = .ok (sum, tag))
    (hc : (layoutOf s).children i lo (Segment.midpoint lo hi) = .ok (j, k))
    (hb : (layoutOf s).Stores own b k (Segment.midpoint lo hi + 1) hi)
    (hx : UpdatesTo layoutOf own Fits x s a j lo (Segment.midpoint lo hi))
    (hy : ∀ s₁, Fits s₁ → (layoutOf s₁).Stores own b k (Segment.midpoint lo hi + 1) hi →
      UpdatesTo layoutOf own Fits y s₁ b' k (Segment.midpoint lo hi + 1) hi)
    (hf : ∀ s₂, Fits s₂ → (layoutOf s₂).read i = .ok (sum, tag) →
      (layoutOf s₂).read j = .ok (a.sum, a.tag) → (layoutOf s₂).read k = .ok (b'.sum, b'.tag) →
      ∃ s₃, f s₂ = .ok () s₃ ∧ Fits s₃ ∧ (layoutOf s₂).WritesAt (layoutOf s₃) i (w, tag) ∧
        (layoutOf s₃).children i lo (Segment.midpoint lo hi) =
          (layoutOf s₂).children i lo (Segment.midpoint lo hi)) :
    UpdatesTo layoutOf own Fits (do x; y; f) s (.node w tag a b') i lo hi := by
  have hm := Segment.midpoint_lt hlt
  obtain ⟨s₁, hx, fits₁, sa, ka⟩ := hx
  obtain ⟨s₂, hy, fits₂, sb, kb⟩ := hy s₁ fits₁ (hb.keep ka (.inr (by omega)))
  obtain ⟨hr₂, hc₂, sa₂, hk⟩ := Layout.Stores.updated_halves hlt ho hr hc ka kb sa
  obtain ⟨s₃, hz, fits₃, hw, hc₃⟩ := hf s₂ fits₂ hr₂ sa₂.read sb.read
  refine ⟨s₃, ?_, fits₃, sa₂.write_node hown hlt ho sb hw (hc₃.trans hc₂),
    hk.trans (hw.keeps hown ho)⟩
  rw [Effect.run_bind_ok hx, Effect.run_bind_ok hy, hz]

end InPlace

/-! ## The two schemes -/

/-- The children of slot `i` are at `2 i + 1` and `2 i + 2`. -/
def heapChildren : Children := fun node _ _ => .ok (2 * node + 1, 2 * node + 2)

/-- The slots of the segments of `[0, size - 1]` in a heap. -/
inductive HeapSlot (size : ℕ) : ℕ → ℕ → ℕ → Prop
  | root : HeapSlot size 0 0 (size - 1)
  | left {i a b : ℕ} (h : HeapSlot size i a b) (hlt : a < b) :
      HeapSlot size (2 * i + 1) a (Segment.midpoint a b)
  | right {i a b : ℕ} (h : HeapSlot size i a b) (hlt : a < b) :
      HeapSlot size (2 * i + 2) (Segment.midpoint a b + 1) b

namespace HeapSlot

variable {size i a b : ℕ}

/-- A slot has one parent, so it has one segment. -/
theorem exclusive : Layout.Exclusive (HeapSlot size) := by
  intro i a b c d h h'
  induction h generalizing c d with
  | root =>
    cases h' with
    | root => exact ⟨rfl, rfl⟩
  | @left i a b h hlt ih =>
    generalize hk : 2 * i + 1 = k at h'
    cases h' with
    | root => omega
    | @left i' _ _ h' hlt' =>
      obtain rfl : i = i' := by omega
      obtain ⟨rfl, rfl⟩ := ih _ _ h'
      exact ⟨rfl, rfl⟩
    | right h' hlt' => omega
  | @right i a b h hlt ih =>
    generalize hk : 2 * i + 2 = k at h'
    cases h' with
    | root => omega
    | left h' hlt' => omega
    | @right i' _ _ h' hlt' =>
      obtain rfl : i = i' := by omega
      obtain ⟨rfl, rfl⟩ := ih _ _ h'
      exact ⟨rfl, rfl⟩

/-- Below a slot the least power of two that holds its segment halves with every level. -/
theorem pow_clog_le (h : HeapSlot size i a b) :
    (i + 2) * 2 ^ Nat.clog 2 (length a b) ≤ 2 * 2 ^ Nat.clog 2 (length 0 (size - 1)) := by
  have half : ∀ {a b : ℕ}, a < b → Nat.clog 2 (length a b) =
      Nat.clog 2 (length a (Segment.midpoint a b)) + 1 := by
    intro a b hlt
    rw [Nat.clog_of_two_le (by omega) (by unfold Segment.length; omega)]
    congr 2
    unfold Segment.length Segment.midpoint; omega
  induction h with
  | root => exact le_rfl
  | @left i a b h hlt ih =>
    rw [half hlt, pow_succ] at ih
    refine (Nat.mul_le_mul_right _ (show 2 * i + 1 + 2 ≤ (i + 2) * 2 by omega)).trans ?_
    rwa [mul_assoc, mul_comm 2]
  | @right i a b h hlt ih =>
    have hle : 2 ^ Nat.clog 2 (length (Segment.midpoint a b + 1) b) ≤
        2 ^ Nat.clog 2 (length a (Segment.midpoint a b)) := by
      refine Nat.pow_le_pow_right (by omega) (Nat.clog_mono_right 2 ?_)
      unfold Segment.length Segment.midpoint; omega
    rw [half hlt, pow_succ] at ih
    refine (Nat.mul_le_mul (show 2 * i + 2 + 2 ≤ (i + 2) * 2 by omega) hle).trans ?_
    rwa [mul_assoc, mul_comm 2]

/-- Four slots for each index are enough. -/
theorem bound (hn : 0 < size) (h : HeapSlot size i a b) : i < 4 * size := by
  have key := h.pow_clog_le
  have hl : length 0 (size - 1) = size := by unfold Segment.length; omega
  rw [hl] at key
  have hpos : 0 < 2 ^ Nat.clog 2 (length a b) := Nat.pow_pos (by omega)
  have hle : i + 2 ≤ (i + 2) * 2 ^ Nat.clog 2 (length a b) := Nat.le_mul_of_pos_right _ hpos
  rcases Nat.eq_or_lt_of_le (show 1 ≤ size from hn) with rfl | hlt
  · simp at key; omega
  · have hpow := Nat.pow_pred_clog_lt_self (b := 2) (by omega) hlt
    have hclog : 0 < Nat.clog 2 size := Nat.clog_pos (by omega) hlt
    have hsplit : 2 ^ Nat.clog 2 size = 2 * 2 ^ (Nat.clog 2 size).pred := by
      rw [← pow_succ', ← Nat.succ_eq_add_one, Nat.succ_pred_eq_of_pos hclog]
    omega

end HeapSlot

/-- The slots of segments that are not inside `[lo, hi]` are as they were. -/
def KeepsSlots {F : Type} (size lo hi : ℕ) (tags tags' : List F) : Prop :=
  ∀ j a b, HeapSlot size j a b → a ≤ b → ¬ (lo ≤ a ∧ b ≤ hi) → tags'[j]? = tags[j]?

namespace KeepsSlots

variable {F : Type} {tags tags' tags'' : List F} {size lo hi k : ℕ}

/-- Writing the slot of a segment. -/
theorem set (ho : HeapSlot size k lo hi) (z : F) : KeepsSlots size lo hi tags (tags.set k z) := by
  intro j a b hj _ hout
  refine List.getElem?_set_ne ?_
  rintro rfl
  obtain ⟨rfl, rfl⟩ := HeapSlot.exclusive _ _ _ _ _ hj ho
  exact hout ⟨le_rfl, le_rfl⟩

theorem trans (h : KeepsSlots size lo hi tags tags') (h' : KeepsSlots size lo hi tags' tags'') :
    KeepsSlots size lo hi tags tags'' :=
  fun j a b hj hab hout => (h' j a b hj hab hout).trans (h j a b hj hab hout)

theorem mono {lo' hi' : ℕ} (h : KeepsSlots size lo hi tags tags') (h1 : lo' ≤ lo)
    (h2 : hi ≤ hi') : KeepsSlots size lo' hi' tags tags' :=
  fun j a b hj hab hout => h j a b hj hab (by omega)

end KeepsSlots

/-- The scheme of a heap with four slots for each index. -/
def heapScheme (size : ℕ) (hn : 0 < size) : SlotScheme heapChildren size (4 * size) where
  own := HeapSlot size
  exclusive := HeapSlot.exclusive
  bound := HeapSlot.bound hn
  root := .root
  split h hlt := ⟨_, _, rfl, .left h hlt, .right h hlt⟩

/-- The slot after the `2 m - 1` slots of a left half of `m` indices. -/
def preorderRightChild (nodeIndex segmentLeft middle : ℕ) : Except Exception ℕ := do
  checkedSizeAdd nodeIndex (← checkedSizeMultiply 2 (← inclusiveLength segmentLeft middle))

/-- The left child follows its parent. -/
def preorderChildren : Children := fun node segmentLeft middle => do
  return (node + 1, ← preorderRightChild node segmentLeft middle)

/-- The slots of the segments of `[lo, hi]` when its own slot is `base`. -/
inductive PreorderSlot : (base lo hi : ℕ) → ℕ → ℕ → ℕ → Prop
  | root {base lo hi : ℕ} : PreorderSlot base lo hi base lo hi
  | left {base lo hi i a b : ℕ} (hlt : lo < hi)
      (h : PreorderSlot (base + 1) lo (Segment.midpoint lo hi) i a b) : PreorderSlot base lo hi i a b
  | right {base lo hi i a b : ℕ} (hlt : lo < hi)
      (h : PreorderSlot (base + 2 * length lo (Segment.midpoint lo hi))
        (Segment.midpoint lo hi + 1) hi i a b) :
      PreorderSlot base lo hi i a b

namespace PreorderSlot

variable {base lo hi i a b : ℕ}

/-- The segments below one of `m` indices are in the `2 m - 1` slots that start at its own. -/
theorem bounds (h : PreorderSlot base lo hi i a b) (hle : lo ≤ hi) :
    a ≤ b ∧ b ≤ hi ∧ base ≤ i ∧ i + 2 * length a b ≤ base + 2 * length lo hi := by
  induction h with
  | root => exact ⟨hle, le_rfl, le_rfl, le_rfl⟩
  | @left base lo hi i a b hlt h ih =>
    have hm := Segment.midpoint_lt hlt
    obtain ⟨h1, h2, h3, h4⟩ := ih (Segment.le_midpoint lo hi)
    refine ⟨h1, by omega, by omega, ?_⟩
    unfold Segment.length at *
    omega
  | @right base lo hi i a b hlt h ih =>
    have hm := Segment.midpoint_lt hlt
    have hm' := Segment.le_midpoint lo hi
    obtain ⟨h1, h2, h3, h4⟩ := ih (by omega)
    refine ⟨h1, h2, by omega, ?_⟩
    unfold Segment.length at *
    omega

/-- The slots of two halves are apart, so a slot has one segment. -/
theorem exclusive (hle : lo ≤ hi) : Layout.Exclusive (PreorderSlot base lo hi) := by
  intro i a b c d h h'
  induction h generalizing c d with
  | root =>
    cases h' with
    | root => exact ⟨rfl, rfl⟩
    | left hlt h' =>
      have := (h'.bounds (Segment.le_midpoint _ _)).2.2.1
      omega
    | right hlt h' =>
      have := (h'.bounds (Segment.midpoint_lt hlt)).2.2.1
      unfold Segment.length at this
      omega
  | @left base lo hi i a b hlt h ih =>
    have hl := h.bounds (Segment.le_midpoint lo hi)
    cases h' with
    | root => omega
    | left _ h' => exact ih (Segment.le_midpoint lo hi) _ _ h'
    | right _ h' =>
      have hr := (h'.bounds (Segment.midpoint_lt hlt)).2.2.1
      unfold Segment.length at *
      omega
  | @right base lo hi i a b hlt h ih =>
    have hr := h.bounds (Segment.midpoint_lt hlt)
    cases h' with
    | root =>
      unfold Segment.length at *
      omega
    | left _ h' =>
      have hl := h'.bounds (Segment.le_midpoint lo hi)
      unfold Segment.length at *
      omega
    | right _ h' => exact ih (Segment.midpoint_lt hlt) _ _ h'

/-- The halves of a segment with a slot have theirs. -/
theorem split (h : PreorderSlot base lo hi i a b) (hab : a < b) :
    PreorderSlot base lo hi (i + 1) a (Segment.midpoint a b) ∧
      PreorderSlot base lo hi (i + 2 * length a (Segment.midpoint a b))
        (Segment.midpoint a b + 1) b := by
  induction h with
  | root => exact ⟨.left hab .root, .right hab .root⟩
  | left hlt h ih => exact ⟨.left hlt (ih hab).1, .left hlt (ih hab).2⟩
  | right hlt h ih => exact ⟨.right hlt (ih hab).1, .right hlt (ih hab).2⟩

end PreorderSlot

/-- The right child is computed where its slot is a `std::size_t`. -/
theorem preorderRightChild_of_le {i a b : ℕ} (hab : a ≤ b) (hk : i + 2 * length a b ≤ sizeMax) :
    preorderRightChild i a b = .ok (i + 2 * length a b) := by
  have hlen : length a b = b - a + 1 := rfl
  unfold preorderRightChild inclusiveLength
  rw [if_neg (by omega), (checkedSizeAdd_eq_ok (by omega)).mpr ⟨rfl, by omega⟩, ← hlen,
    Effect.ok_bind, checkedSizeMultiply_eq_ok.mpr ⟨rfl, by omega⟩, Effect.ok_bind,
    (checkedSizeAdd_eq_ok (by omega)).mpr ⟨rfl, hk⟩]

/-- The scheme of a vector of `2 n - 1` slots in preorder. -/
def preorderScheme (size : ℕ) (hn : 0 < size) (hsize : size ≤ maxLength) :
    SlotScheme preorderChildren size (2 * size - 1) where
  own := PreorderSlot 0 0 (size - 1)
  exclusive := PreorderSlot.exclusive (Nat.zero_le _)
  bound h := by
    obtain ⟨-, -, -, h4⟩ := h.bounds (Nat.zero_le _)
    unfold Segment.length at h4
    omega
  root := .root
  split {i a b} h hlt := by
    obtain ⟨-, h2, -, h4⟩ := h.bounds (Nat.zero_le _)
    unfold maxLength at hsize
    have hm := Segment.midpoint_lt hlt
    have hright := preorderRightChild_of_le (i := i) (Segment.le_midpoint a b)
      (by unfold Segment.length sizeMax at *; omega)
    refine ⟨i + 1, _, ?_, h.split hlt⟩
    unfold preorderChildren
    rw [hright]
    rfl

end Valseg
