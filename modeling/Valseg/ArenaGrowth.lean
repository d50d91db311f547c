import Valseg.CopyOnPushSegmentTree
import Valseg.PointOnlyPersistentSegmentTree
import Valseg.StructuralCounts

/-!
# Arena growth

What one update appends. Retained tags append one node for each visited segment, the two
structures without tags one for each segment that meets the range and one for each segment at
all, whatever the arena holds. A structure that pushes tags appends two more for every push, and
`PushCountingModel` makes the same pushes: `SameTags` says that it has the tags of the latest
version, and `CopyOnPushSegmentTree.update_follows` that both keep it so.
-/

namespace Valseg

section Growth

variable {Node α β : Type} {m n : ℕ}

/-- Whenever the computation returns, it has appended so many nodes. -/
def Grows (count : ℕ) (x : EStateM Exception (List Node) α) : Prop :=
  ∀ ⦃nodes a nodes'⦄, x nodes = .ok a nodes' → nodes'.length = nodes.length + count

namespace Grows

theorem pure (a : α) : Grows 0 (Pure.pure a : EStateM Exception (List Node) α) := by
  intro nodes b nodes' h
  cases h
  rfl

theorem throw (n : ℕ) (e : Exception) :
    Grows n (MonadExcept.throw e : EStateM Exception (List Node) α) := by
  intro nodes b nodes' h
  cases h

theorem lift (x : Except Exception α) : Grows 0 (liftM x : EStateM Exception (List Node) α) := by
  intro nodes b nodes' h
  rw [(Effect.run_liftM_eq_ok.mp h).2]
  rfl

theorem bind {x : EStateM Exception (List Node) α} {f : α → EStateM Exception (List Node) β}
    (hx : Grows m x) (hf : ∀ a, Grows n (f a)) : Grows (m + n) (x >>= f) := by
  intro nodes b nodes' h
  obtain ⟨a, nodes₁, h1, h2⟩ := Effect.run_bind_eq_ok.mp h
  rw [hf a h2, hx h1, Nat.add_assoc]

theorem ite {p : Prop} [Decidable p] {x y : EStateM Exception (List Node) α}
    (hx : p → Grows n x) (hy : ¬ p → Grows n y) : Grows n (if p then x else y) := by
  by_cases h : p
  · rw [if_pos h]
    exact hx h
  · rw [if_neg h]
    exact hy h

/-- A half that is left alone grows nothing. -/
theorem half {p : Prop} [Decidable p] {x : ArenaM Node ℕ} {i : ℕ} (hx : p → Grows n x) :
    Grows (if p then n else 0) (if p then x else Pure.pure i) := by
  by_cases h : p
  · rw [if_pos h, if_pos h]
    exact hx h
  · rw [if_neg h, if_neg h]
    exact .pure i

theorem pushBack (node : Node) : Grows 1 (pushBack node) := by
  intro nodes i nodes' h
  rw [pushBack_run] at h
  cases h
  exact List.length_append

theorem readNode (i : ℕ) : Grows 0 (readNode i : ArenaM Node Node) := by
  intro nodes node nodes' h
  obtain ⟨xs, nodes₁, h1, h2⟩ := Effect.run_bind_eq_ok.mp h
  cases h1
  rw [(Effect.run_liftM_eq_ok.mp h2).2]
  rfl

theorem cast {x : EStateM Exception (List Node) α} (hx : Grows m x) (h : m = n) : Grows n x :=
  h ▸ hx

end Grows

end Growth

/-- A build appends one node for each segment. -/
theorem buildArena_grows {Node : Type} {leaf : ValueType → Node} {inner : ℕ → ℕ → ValueType → Node}
    {sumOf : Node → ValueType} (values : List ValueType) : ∀ lo hi, lo ≤ hi →
      Grows (2 * (hi - lo) + 1) (buildArena leaf inner sumOf values lo hi) := by
  refine Segment.halving_induction (fun m => ?_) fun lo hi hlt ihl ihr => ?_
  · rw [buildArena, if_pos rfl, Nat.sub_self]
    exact ((Grows.lift _).bind fun _ => .pushBack _).cast rfl
  · have hm := Segment.le_midpoint lo hi
    have hm' := Segment.midpoint_lt hlt
    rw [buildArena, if_neg hlt.ne, if_pos hlt]
    refine (ihl.bind fun j => ihr.bind fun k => (Grows.readNode j).bind fun _ =>
      (Grows.readNode k).bind fun _ => (Grows.lift _).bind fun _ => .pushBack _).cast ?_
    omega

/-! ## Updates that append the same in every arena -/

/-- Retained tags. -/
theorem PersistentLazySegmentTree.update_grows (l r : ℕ) (value : ValueType) :
    ∀ lo hi, lo ≤ hi → ∀ i, Grows (Segment.visits lo hi l r) (update i lo hi l r value) := by
  refine Segment.halving_induction (fun m i => ?_) fun lo hi hlt ihl ihr i => ?_
  · rw [update]
    refine ((Grows.readNode i).bind fun node => (Grows.lift _).bind fun length =>
      Grows.ite (fun hin => ?_) fun _ => ?_).cast (by rw [zero_add, zero_add])
    · rw [Segment.visits_of_inside hin]
      exact ((Grows.lift _).bind fun _ => (Grows.lift _).bind fun _ => .pushBack _).cast rfl
    · rw [if_neg (lt_irrefl m)]
      exact .throw _ _
  · rw [update]
    refine ((Grows.readNode i).bind fun node => (Grows.lift _).bind fun length =>
      Grows.ite (fun hin => ?_) fun hin => ?_).cast (by rw [zero_add, zero_add])
    · rw [Segment.visits_of_inside hin]
      exact ((Grows.lift _).bind fun _ => (Grows.lift _).bind fun _ => .pushBack _).cast rfl
    · rw [if_pos hlt, Segment.visits_split hin hlt]
      refine ((Grows.half fun _ => ihl _).bind fun j => (Grows.half fun _ => ihr _).bind fun k =>
        (Grows.readNode j).bind fun _ => (Grows.readNode k).bind fun _ =>
          (Grows.lift _).bind fun _ => (Grows.lift _).bind fun _ => .pushBack _).cast ?_
      omega

/-- No tags, sharing what is outside the range. -/
theorem PointOnlyPersistentSegmentTree.pointOnlyUpdate_grows (l r : ℕ) (value : ValueType) :
    ∀ lo hi, lo ≤ hi → ∀ i, Grows (Segment.meets lo hi l r) (pointOnlyUpdate i lo hi l r value) := by
  refine Segment.halving_induction (fun m i => ?_) fun lo hi hlt ihl ihr i => ?_
  · rw [pointOnlyUpdate, Segment.meets_of_single]
    simp only [if_true]
    exact ((Grows.readNode i).bind fun _ => (Grows.lift _).bind fun _ => .pushBack _).cast rfl
  · rw [pointOnlyUpdate, Segment.meets_split hlt]
    simp only [if_neg hlt.ne, if_pos hlt]
    refine ((Grows.readNode i).bind fun _ => (Grows.half fun _ => ihl _).bind fun j =>
      (Grows.half fun _ => ihr _).bind fun k => (Grows.readNode j).bind fun _ =>
        (Grows.readNode k).bind fun _ => (Grows.lift _).bind fun _ => .pushBack _).cast ?_
    omega

/-- No tags, copying everything. -/
theorem FullCopyPersistentSegmentTree.fullCopyUpdate_grows (l r : ℕ) (value : ValueType) :
    ∀ lo hi, lo ≤ hi → ∀ i, Grows (2 * (hi - lo) + 1) (fullCopyUpdate i lo hi l r value) := by
  refine Segment.halving_induction (fun m i => ?_) fun lo hi hlt ihl ihr i => ?_
  · rw [fullCopyUpdate, Nat.sub_self]
    simp only [if_true]
    exact ((Grows.readNode i).bind fun _ =>
      (Grows.ite (fun _ => .lift _) fun _ => .pure _).bind fun _ => .pushBack _).cast rfl
  · have hm := Segment.le_midpoint lo hi
    have hm' := Segment.midpoint_lt hlt
    rw [fullCopyUpdate]
    simp only [if_neg hlt.ne, if_pos hlt]
    refine ((Grows.readNode i).bind fun _ => (ihl _).bind fun j => (ihr _).bind fun k =>
      (Grows.readNode j).bind fun _ => (Grows.readNode k).bind fun _ =>
        (Grows.lift _).bind fun _ => .pushBack _).cast ?_
    omega

/-! ## Updates that push tags -/

namespace CopyOnPushSegmentTree

section Pushing

variable {nodes nodes' : List Node} {tags tags' : List ValueType} {size i j k lo hi l r p : ℕ}
  {value z : ValueType}

/-- The model has the tags of the nodes below an index in the slots below another. -/
inductive SameTags (nodes : List Node) (tags : List ValueType) : (i slot lo hi : ℕ) → Prop
  | leaf {i slot lo : ℕ} {node : Node} (hn : nodes[i]? = some node)
      (ht : tags[slot]? = some node.lazy) : SameTags nodes tags i slot lo lo
  | inner {i slot lo hi : ℕ} {node : Node} (hlt : lo < hi) (hn : nodes[i]? = some node)
      (ht : tags[slot]? = some node.lazy)
      (hl : SameTags nodes tags node.leftChild (2 * slot + 1) lo (Segment.midpoint lo hi))
      (hr : SameTags nodes tags node.rightChild (2 * slot + 2) (Segment.midpoint lo hi + 1) hi) :
      SameTags nodes tags i slot lo hi

theorem SameTags.root (h : SameTags nodes tags i k lo hi) :
    ∃ node, nodes[i]? = some node ∧ tags[k]? = some node.lazy := by
  cases h with
  | leaf hn ht => exact ⟨_, hn, ht⟩
  | inner hlt hn ht hl hr => exact ⟨_, hn, ht⟩

/-- What is appended does not matter, and neither do the slots of other segments. -/
theorem SameTags.frame (h : SameTags nodes tags i k lo hi) (more : List Node)
    (ho : HeapSlot size k lo hi) (hle : lo ≤ hi)
    (hs : ∀ j a b, HeapSlot size j a b → a ≤ b → lo ≤ a → b ≤ hi → tags'[j]? = tags[j]?) :
    SameTags (nodes ++ more) tags' i k lo hi := by
  induction h with
  | @leaf i k lo node hn ht =>
    exact .leaf (getElem?_more more hn) ((hs k lo lo ho le_rfl le_rfl le_rfl).trans ht)
  | @inner i k lo hi node hlt hn ht hl hr ihl ihr =>
    have hm := Segment.le_midpoint lo hi
    have hm' := Segment.midpoint_lt hlt
    refine .inner hlt (getElem?_more more hn) ((hs k lo hi ho hle le_rfl le_rfl).trans ht) ?_ ?_
    · exact ihl (.left ho hlt) hm fun j a b hj hab h1 h2 => hs j a b hj hab h1 (by omega)
    · exact ihr (.right ho hlt) hm' fun j a b hj hab h1 h2 => hs j a b hj hab (by omega) h2

/-- Segments apart from what was written. -/
theorem SameTags.keep {lo' hi' : ℕ} (h : SameTags nodes tags i k lo hi) (more : List Node)
    (ho : HeapSlot size k lo hi) (hle : lo ≤ hi) (hk : KeepsSlots size lo' hi' tags tags')
    (hd : hi < lo' ∨ hi' < lo) : SameTags (nodes ++ more) tags' i k lo hi :=
  h.frame more ho hle fun j a b hj hab _ _ => hk j a b hj hab (by omega)

/-- The halves do not see what is written to the slot above them. -/
theorem SameTags.child {a b : ℕ} (h : SameTags nodes tags i j a b) (more : List Node)
    (hj : HeapSlot size j a b) (hab : a ≤ b) (ho : HeapSlot size k lo hi) (hlt : b - a < hi - lo)
    (z : ValueType) : SameTags (nodes ++ more) (tags.set k z) i j a b := by
  refine h.frame more hj hab fun m c d hm _ h1 h2 => List.getElem?_set_ne ?_
  rintro rfl
  obtain ⟨rfl, rfl⟩ := HeapSlot.exclusive _ _ _ _ _ hm ho
  omega

/-- A copy of a node with another tag. -/
theorem SameTags.copy {node new : Node} (h : SameTags nodes tags i k lo hi)
    (ho : HeapSlot size k lo hi) (hn : nodes[i]? = some node) (hz : k < tags.length)
    (hl : new.leftChild = node.leftChild) (hr : new.rightChild = node.rightChild) :
    SameTags (nodes ++ [new]) (tags.set k new.lazy) nodes.length k lo hi := by
  cases h with
  | leaf hn' ht => exact .leaf List.getElem?_concat_length (List.getElem?_set_self hz)
  | inner hlt hn' ht hleft hright =>
    obtain rfl := Option.some.inj (hn.symm.trans hn')
    have hm := Segment.le_midpoint lo hi
    have hm' := Segment.midpoint_lt hlt
    refine .inner hlt List.getElem?_concat_length (List.getElem?_set_self hz) ?_ ?_
    · rw [hl]
      exact hleft.child _ (.left ho hlt) hm ho (by omega) _
    · rw [hr]
      exact hright.child _ (.right ho hlt) hm' ho (by omega) _

/-- The arena has grown by so many nodes, the model has as many slots as before, with only slots
of segments inside `[lo, hi]` written, and the index it returned has the tags of the model. -/
structure Follows (size : ℕ) (nodes nodes' : List Node) (tags tags' : List ValueType)
    (grown i slot lo hi : ℕ) : Prop where
  appended : ∃ more, nodes' = nodes ++ more ∧ more.length = grown
  count : tags'.length = tags.length
  kept : KeepsSlots size lo hi tags tags'
  same : SameTags nodes' tags' i slot lo hi

/-- One tag composed on both sides. -/
theorem compose_follows {node new : Node} (h : SameTags nodes tags i k lo hi)
    (ho : HeapSlot size k lo hi) (hn : nodes[i]? = some node)
    (hl : new.leftChild = node.leftChild) (hr : new.rightChild = node.rightChild)
    (hz : checkedAdd node.lazy value = .ok new.lazy)
    (hm : PushCountingModel.composeInto sumAddPolicy value k tags = .ok () tags') :
    Follows size nodes (nodes ++ [new]) tags tags' 1 nodes.length k lo hi := by
  obtain ⟨node', hn', ht⟩ := h.root
  obtain rfl := Option.some.inj (hn.symm.trans hn')
  have hk := (List.getElem?_eq_some_iff.mp ht).1
  have hset : tags' = tags.set k new.lazy := by
    unfold PushCountingModel.composeInto at hm
    rw [Effect.run_bind_ok (readNode_run ht),
      show sumAddPolicy.compose value node.lazy = .ok new.lazy from
        (checkedAdd_comm _ _).trans hz, Effect.run_bind_ok (Effect.liftM_ok _ _),
      writeSlot_run hk] at hm
    cases hm
    rfl
  subst hset
  exact ⟨⟨[new], rfl, rfl⟩, List.length_set, .set ho _, h.copy ho hn hk hl hr⟩

/-- A copy of a node with one more tag is appended. -/
theorem append_follows {length : ℕ} {node : Node} (h : SameTags nodes tags i k lo hi)
    (ho : HeapSlot size k lo hi) (hn : nodes[i]? = some node)
    (hp : (do
      let sum ← SumAddPolicy.apply value node.sum length
      let lazy ← checkedAdd node.lazy value
      pushBack (⟨node.leftChild, node.rightChild, sum, lazy⟩ : Node) : ArenaM Node ℕ) nodes =
        .ok j nodes')
    (hm : PushCountingModel.composeInto sumAddPolicy value k tags = .ok () tags') :
    Follows size nodes nodes' tags tags' 1 j k lo hi := by
  obtain ⟨sum, -, hp⟩ := Effect.run_liftM_bind_eq_ok.mp hp
  obtain ⟨lazy, hz, hp⟩ := Effect.run_liftM_bind_eq_ok.mp hp
  rw [pushBack_run] at hp
  cases hp
  exact compose_follows h ho hn rfl rfl hz hm

/-- A child with a tag pushed into it. -/
theorem pushInto_follows {length : ℕ} (h : SameTags nodes tags i k lo hi)
    (ho : HeapSlot size k lo hi) (hp : pushInto i value length nodes = .ok j nodes')
    (hm : PushCountingModel.composeInto sumAddPolicy value k tags = .ok () tags') :
    Follows size nodes nodes' tags tags' 1 j k lo hi := by
  obtain ⟨node, hn, -⟩ := h.root
  unfold pushInto at hp
  rw [Effect.run_bind_ok (readNode_run hn)] at hp
  exact append_follows h ho hn hp hm

/-- What both do at a partially covered node before they descend: nothing, or one push. -/
theorem pushTag_follows {children : ℕ × ℕ} {node : Node} (ho : HeapSlot size k lo hi)
    (hlt : lo < hi) (ht : tags[k]? = some node.lazy)
    (hl : SameTags nodes tags node.leftChild (2 * k + 1) lo (Segment.midpoint lo hi))
    (hr : SameTags nodes tags node.rightChild (2 * k + 2) (Segment.midpoint lo hi + 1) hi)
    (hp : (if node.lazy ≠ 0 then do
        let leftChild ← pushInto node.leftChild node.lazy (← span lo (Segment.midpoint lo hi))
        let rightChild ←
          pushInto node.rightChild node.lazy (← span (Segment.midpoint lo hi + 1) hi)
        pure (leftChild, rightChild)
      else pure (node.leftChild, node.rightChild) : ArenaM Node (ℕ × ℕ)) nodes =
        .ok children nodes')
    (hm : PushCountingModel.pushTag sumAddPolicy k tags = .ok p tags') :
    (∃ more, nodes' = nodes ++ more ∧ more.length = 2 * p) ∧ tags'.length = tags.length ∧
      KeepsSlots size lo hi tags tags' ∧ tags'[k]? = some 0 ∧
      SameTags nodes' tags' children.1 (2 * k + 1) lo (Segment.midpoint lo hi) ∧
      SameTags nodes' tags' children.2 (2 * k + 2) (Segment.midpoint lo hi + 1) hi := by
  have h1 := Segment.le_midpoint lo hi
  have h2 := Segment.midpoint_lt hlt
  have hol := HeapSlot.left ho hlt
  have hor := HeapSlot.right ho hlt
  unfold PushCountingModel.pushTag at hm
  rw [Effect.run_bind_ok (readNode_run ht)] at hm
  by_cases hz : node.lazy = 0
  · rw [if_neg (not_not.mpr hz)] at hp
    rw [if_neg (show ¬ node.lazy ≠ sumAddPolicy.actionIdentity from not_not.mpr hz)] at hm
    cases hp
    cases hm
    exact ⟨⟨[], (List.append_nil _).symm, rfl⟩, rfl, fun _ _ _ _ _ _ => rfl, hz ▸ ht, hl, hr⟩
  rw [if_pos hz] at hp
  rw [if_pos (show node.lazy ≠ sumAddPolicy.actionIdentity from hz)] at hm
  obtain ⟨n₁, -, hp⟩ := Effect.run_liftM_bind_eq_ok.mp hp
  obtain ⟨j, nodes₁, hp1, hp⟩ := Effect.run_bind_eq_ok.mp hp
  obtain ⟨n₂, -, hp⟩ := Effect.run_liftM_bind_eq_ok.mp hp
  obtain ⟨j', nodes₂, hp2, hp⟩ := Effect.run_bind_eq_ok.mp hp
  cases hp
  obtain ⟨⟨⟩, tags₁, hm1, hm⟩ := Effect.run_bind_eq_ok.mp hm
  obtain ⟨⟨⟩, tags₂, hm2, hm⟩ := Effect.run_bind_eq_ok.mp hm
  obtain ⟨⟨⟩, tags₃, hm3, hm⟩ := Effect.run_bind_eq_ok.mp hm
  cases hm
  have hleft := pushInto_follows hl hol hp1 hm1
  obtain ⟨moreL, rfl, hlenL⟩ := hleft.appended
  have hright := pushInto_follows (hr.keep moreL hor h2 hleft.kept (.inr (by omega))) hor hp2 hm2
  obtain ⟨moreR, rfl, hlenR⟩ := hright.appended
  have hk : k < tags₂.length := by
    rw [hright.count, hleft.count]
    exact (List.getElem?_eq_some_iff.mp ht).1
  rw [writeSlot_run hk] at hm3
  cases hm3
  refine ⟨⟨moreL ++ moreR, List.append_assoc .., ?_⟩, ?_, ?_, List.getElem?_set_self hk, ?_, ?_⟩
  · rw [List.length_append, hlenL, hlenR]
  · rw [List.length_set, hright.count, hleft.count]
  · intro a b c hj hbc hout
    exact (KeepsSlots.set ho 0 a b c hj hbc hout).trans
      ((hright.kept a b c hj hbc (by omega)).trans (hleft.kept a b c hj hbc (by omega)))
  · have hleft' := hleft.same.keep moreR hol h1 hright.kept (.inl (by omega))
    have hset := hleft'.child [] hol h1 ho (by omega) 0
    rwa [List.append_nil] at hset
  · have hset := hright.same.child [] hor h2 ho (by omega) 0
    rwa [List.append_nil] at hset

/-- A half that is descended into on both sides, or left alone on both. -/
theorem half_follows {c : Prop} [Decidable c] {x : ArenaM Node ℕ} {y : ArenaM ValueType ℕ}
    {n q q' : ℕ} (h : SameTags nodes tags i k lo hi)
    (hx : c → ∀ {j d : ℕ}, x nodes = .ok j nodes' → y tags = .ok d tags' →
      Follows size nodes nodes' tags tags' (n + 2 * d) j k lo hi)
    (hp : (if c then x else pure i) nodes = .ok j nodes')
    (hm : (if c then do checkedSizeAdd q (← y) else pure q) tags = .ok q' tags') :
    ∃ d, q' = q + d ∧
      Follows size nodes nodes' tags tags' ((if c then n else 0) + 2 * d) j k lo hi := by
  by_cases hc : c
  · rw [if_pos hc] at hp hm
    obtain ⟨d, tags₁, hd, hm⟩ := Effect.run_bind_eq_ok.mp hm
    obtain ⟨hq, rfl⟩ := Effect.run_liftM_eq_ok.mp hm
    rw [if_pos hc]
    exact ⟨d, eq_of_checkedSizeAdd hq, hx hc hp hd⟩
  · rw [if_neg hc] at hp hm
    cases hp
    cases hm
    rw [if_neg hc]
    exact ⟨0, rfl, ⟨[], (List.append_nil _).symm, rfl⟩, rfl, fun _ _ _ _ _ _ => rfl, h⟩

/-- A covered segment, which is one node and no push. -/
theorem cover_follows {l r length : ℕ} {node : Node} (h : SameTags nodes tags i k lo hi)
    (ho : HeapSlot size k lo hi) (hn : nodes[i]? = some node) (hin : l ≤ lo ∧ hi ≤ r)
    (hu : (do
      let sum ← SumAddPolicy.apply value node.sum length
      let lazy ← checkedAdd node.lazy value
      pushBack (⟨node.leftChild, node.rightChild, sum, lazy⟩ : Node) : ArenaM Node ℕ) nodes =
        .ok j nodes')
    (hm : (do
      PushCountingModel.composeInto sumAddPolicy value k
      return 0) tags = .ok p tags') :
    Follows size nodes nodes' tags tags' (Segment.visits lo hi l r + 2 * p) j k lo hi := by
  obtain ⟨⟨⟩, tags₁, hcompose, hm⟩ := Effect.run_bind_eq_ok.mp hm
  cases hm
  rw [Segment.visits_of_inside hin]
  exact append_follows h ho hn hu hcompose

/-- **One update on both sides.** -/
theorem update_follows (l r : ℕ) (value : ValueType) : ∀ lo hi, lo ≤ hi →
    ∀ {nodes nodes' : List Node} {tags tags' : List ValueType} {i j k p : ℕ}, HeapSlot size k lo hi →
      SameTags nodes tags i k lo hi → update i lo hi l r value nodes = .ok j nodes' →
      PushCountingModel.update sumAddPolicy k lo hi l r value tags = .ok p tags' →
      Follows size nodes nodes' tags tags' (Segment.visits lo hi l r + 2 * p) j k lo hi := by
  refine Segment.halving_induction ?_ ?_
  · intro m nodes nodes' tags tags' i j k p ho h hu hm
    obtain ⟨node, hn, -⟩ := h.root
    rw [update, Effect.run_bind_ok (readNode_run hn)] at hu
    rw [PushCountingModel.update] at hm
    obtain ⟨length, -, hu⟩ := Effect.run_liftM_bind_eq_ok.mp hu
    by_cases hin : l ≤ m ∧ m ≤ r
    · rw [if_pos hin] at hu hm
      exact cover_follows h ho hn hin hu hm
    · rw [if_neg hin, if_neg (lt_irrefl m)] at hu
      cases hu
  · intro lo hi hlt ihl ihr nodes nodes' tags tags' i j k p ho h hu hm
    have hmid := Segment.le_midpoint lo hi
    have hmid' := Segment.midpoint_lt hlt
    have hol := HeapSlot.left ho hlt
    have hor := HeapSlot.right ho hlt
    obtain ⟨node, hn, -⟩ := h.root
    rw [update, Effect.run_bind_ok (readNode_run hn)] at hu
    rw [PushCountingModel.update] at hm
    obtain ⟨length, -, hu⟩ := Effect.run_liftM_bind_eq_ok.mp hu
    by_cases hin : l ≤ lo ∧ hi ≤ r
    · rw [if_pos hin] at hu hm
      exact cover_follows h ho hn hin hu hm
    rw [if_neg hin, if_pos hlt] at hu hm
    cases h with
    | leaf => exact absurd hlt (lt_irrefl _)
    | inner _ hn' ht hl hr =>
      obtain rfl := Option.some.inj (hn.symm.trans hn')
      obtain ⟨children, nodes₂, hpush, hu⟩ := Effect.run_bind_eq_ok.mp hu
      obtain ⟨q, tags₂, hmodel, hm⟩ := Effect.run_bind_eq_ok.mp hm
      obtain ⟨⟨more, rfl, hlen⟩, hcount, hkept, hzero, hl', hr'⟩ :=
        pushTag_follows ho hlt ht hl hr hpush hmodel
      obtain ⟨newLeft, nodes₃, hu1, hu⟩ := Effect.run_bind_eq_ok.mp hu
      obtain ⟨q', tags₃, hm1, hm⟩ := Effect.run_bind_eq_ok.mp hm
      obtain ⟨d, rfl, hleft⟩ := half_follows hl' (fun _ => ihl hol hl') hu1 hm1
      obtain ⟨moreL, rfl, hlenL⟩ := hleft.appended
      have hr'' := hr'.keep moreL hor hmid' hleft.kept (.inr (by omega))
      obtain ⟨newRight, nodes₄, hu2, hu⟩ := Effect.run_bind_eq_ok.mp hu
      obtain ⟨d', rfl, hright⟩ := half_follows hr'' (fun _ => ihr hor hr'') hu2 hm
      obtain ⟨moreR, rfl, hlenR⟩ := hright.appended
      have hleft' := hleft.same.keep moreR hol hmid hright.kept (.inl (by omega))
      obtain ⟨nl, hnl, -⟩ := hleft'.root
      obtain ⟨nr, hnr, -⟩ := hright.same.root
      rw [Effect.run_bind_ok (readNode_run hnl), Effect.run_bind_ok (readNode_run hnr)] at hu
      obtain ⟨sum, -, hu⟩ := Effect.run_liftM_bind_eq_ok.mp hu
      rw [pushBack_run] at hu
      cases hu
      refine ⟨⟨more ++ moreL ++ moreR ++ [⟨newLeft, newRight, sum, 0⟩], ?_, ?_⟩, ?_, ?_, ?_⟩
      · simp only [List.append_assoc]
      · rw [List.length_append, List.length_append, List.length_append, List.length_singleton, hlen,
          hlenL, hlenR, Segment.visits_split hin hlt]
        omega
      · rw [hright.count, hleft.count, hcount]
      · intro a b c hj hbc hout
        exact (hright.kept a b c hj hbc (by omega)).trans
          ((hleft.kept a b c hj hbc (by omega)).trans (hkept a b c hj hbc hout))
      · have hroot : tags'[k]? = some 0 :=
          (hright.kept k lo hi ho hlt.le (by omega)).trans
            ((hleft.kept k lo hi ho hlt.le (by omega)).trans hzero)
        refine .inner hlt List.getElem?_concat_length hroot ?_ ?_
        · exact hleft'.frame _ hol hmid fun _ _ _ _ _ _ _ => rfl
        · exact hright.same.frame _ hor hmid' fun _ _ _ _ _ _ _ => rfl

end Pushing

end CopyOnPushSegmentTree

end Valseg
