import Valseg.PolicyTrees
import Valseg.Lib.Throwing

/-!
# Shapes of arenas

The nodes of an arena do not store their segments: that the links from a root unfold to the
canonical partition is how each recursion pairs indices with bounds.

1. `Linked` says that children come before their parent, `Unfolds` that what is linked from a node
   is the canonical partition of a segment. Both stay when nodes are appended.
2. `KeepsLinks` is what a computation that appends does to such an arena; there is one rule for
   each way to put computations together, and `KeepsLinks.halves` for a recursion into two halves.
3. `buildArena_makes`: the builds make such an arena out of nothing.
4. `WellFormed` is the invariant of a tree in such an arena.
-/

namespace Valseg

open Effect (ThrowsOnly)

section Shapes

variable {Node : Type} (links : Node → ℕ × ℕ)

/-- Every node has no children, or two that come before it. -/
def Linked (nodes : List Node) : Prop := ∀ i node, nodes[i]? = some node →
  links node = (noNode, noNode) ∨ ((links node).1 < i ∧ (links node).2 < i)

/-- What is linked from a node is the canonical partition of a segment: no children at a single
index, and the two halves below any other segment. -/
inductive Unfolds (nodes : List Node) : ℕ → ℕ → ℕ → Prop
  | single {i lo : ℕ} {node : Node} (read : nodes[i]? = some node)
      (ends : links node = (noNode, noNode)) : Unfolds nodes i lo lo
  | halves {i lo hi : ℕ} {node : Node} (split : lo < hi) (read : nodes[i]? = some node)
      (left : Unfolds nodes (links node).1 lo (Segment.midpoint lo hi))
      (right : Unfolds nodes (links node).2 (Segment.midpoint lo hi + 1) hi) : Unfolds nodes i lo hi

variable {links} {nodes nodes' : List Node} {node new : Node} {i j k lo hi : ℕ}

theorem getElem?_grown {α : Type} {xs ys : List α} {x : α} (h : xs <+: ys)
    (hx : xs[i]? = some x) : ys[i]? = some x := by
  obtain ⟨more, rfl⟩ := h
  exact getElem?_more more hx

theorem Linked.nil : Linked links ([] : List Node) := by
  intro i node h
  simp at h

/-- Children of a new node come before it when they are in the arena. -/
theorem Linked.push (h : Linked links nodes) (hnew : links new = (noNode, noNode) ∨
    ((links new).1 < nodes.length ∧ (links new).2 < nodes.length)) :
    Linked links (nodes ++ [new]) := by
  intro i node hn
  rcases getElem?_push hn with ⟨-, hn⟩ | ⟨rfl, rfl⟩
  · exact h i node hn
  · exact hnew

namespace Unfolds

theorem le (h : Unfolds links nodes i lo hi) : lo ≤ hi := by
  cases h with
  | single => exact le_rfl
  | halves split => exact split.le

theorem exists_node (h : Unfolds links nodes i lo hi) : ∃ node, nodes[i]? = some node := by
  cases h with
  | single read => exact ⟨_, read⟩
  | halves _ read => exact ⟨_, read⟩

theorem lt_length (h : Unfolds links nodes i lo hi) : i < nodes.length := by
  obtain ⟨node, hn⟩ := h.exists_node
  exact (List.getElem?_eq_some_iff.mp hn).1

/-- The sentinel is the index of no node of an arena that can be indexed. -/
theorem ne_noNode (h : Unfolds links nodes i lo hi) (hroom : nodes.length ≤ noNode) :
    i ≠ noNode := by
  have hlt := h.lt_length
  omega

theorem ends (h : Unfolds links nodes i lo lo) (hn : nodes[i]? = some node) :
    links node = (noNode, noNode) := by
  cases h with
  | single read ends =>
    rw [read, Option.some.injEq] at hn
    rwa [← hn]
  | halves split => exact absurd split (lt_irrefl lo)

theorem children (h : Unfolds links nodes i lo hi) (hlt : lo < hi) (hn : nodes[i]? = some node) :
    Unfolds links nodes (links node).1 lo (Segment.midpoint lo hi) ∧
      Unfolds links nodes (links node).2 (Segment.midpoint lo hi + 1) hi := by
  cases h with
  | single => exact absurd hlt (lt_irrefl lo)
  | halves _ read left right =>
    rw [read, Option.some.injEq] at hn
    subst hn
    exact ⟨left, right⟩

/-- What is linked stays when nodes are appended. -/
theorem extend (h : Unfolds links nodes i lo hi) (hpre : nodes <+: nodes') :
    Unfolds links nodes' i lo hi := by
  induction h with
  | single read ends => exact .single (getElem?_grown hpre read) ends
  | halves split read _ _ ihl ihr => exact .halves split (getElem?_grown hpre read) ihl ihr

/-- A copy of a node has its segment. -/
theorem copy (h : Unfolds links nodes i lo hi) (hn : nodes[i]? = some node)
    (hnew : links new = links node) : Unfolds links (nodes ++ [new]) nodes.length lo hi := by
  have hpre : nodes <+: nodes ++ [new] := List.prefix_append _ _
  rcases h.le.eq_or_lt with rfl | hlt
  · exact .single List.getElem?_concat_length (hnew.trans (h.ends hn))
  · obtain ⟨left, right⟩ := h.children hlt hn
    refine .halves hlt List.getElem?_concat_length ?_ ?_
    · rw [hnew]
      exact left.extend hpre
    · rw [hnew]
      exact right.extend hpre

end Unfolds

end Shapes

/-! ## Computations that append -/

section Computations

variable {Node α β : Type} (links : Node → ℕ × ℕ) (Q : Exception → Prop)

/-- A computation on `nodes` that appends only. Where it returns the arena is linked and `R` holds
of it and the value, and what it throws satisfies `Q`. -/
def KeepsLinks (R : List Node → α → Prop) (nodes : List Node) :
    EStateM.Result Exception (List Node) α → Prop
  | .ok a nodes' => nodes <+: nodes' ∧ Linked links nodes' ∧ R nodes' a
  | .error e nodes' => nodes <+: nodes' ∧ Q e

variable {links Q} {R : List Node → α → Prop} {R' : List Node → β → Prop} {nodes : List Node}
  {node new : Node} {p : Prop} [Decidable p] {i j k lo hi : ℕ}

namespace KeepsLinks

theorem pure {a : α} (hl : Linked links nodes) (h : R nodes a) :
    KeepsLinks links Q R nodes ((Pure.pure a : EStateM Exception (List Node) α) nodes) :=
  ⟨List.prefix_rfl, hl, h⟩

theorem bind {x : EStateM Exception (List Node) α} {f : α → EStateM Exception (List Node) β}
    (hx : KeepsLinks links Q R nodes (x nodes))
    (hf : ∀ a nodes', nodes <+: nodes' → Linked links nodes' → R nodes' a →
      KeepsLinks links Q R' nodes' (f a nodes')) :
    KeepsLinks links Q R' nodes ((x >>= f) nodes) := by
  rcases h : x nodes with ⟨a, nodes₁⟩ | ⟨e, nodes₁⟩ <;> rw [h] at hx
  · obtain ⟨hpre, hl, ha⟩ := hx
    rw [Effect.run_bind_ok h]
    have hf := hf a nodes₁ hpre hl ha
    rcases hy : f a nodes₁ with ⟨b, nodes₂⟩ | ⟨e, nodes₂⟩ <;> rw [hy] at hf
    · exact ⟨hpre.trans hf.1, hf.2⟩
    · exact ⟨hpre.trans hf.1, hf.2⟩
  · rw [Effect.run_bind_error h]
    exact hx

/-- A pure computation before the rest. -/
theorem lift {x : Except Exception α} {f : α → EStateM Exception (List Node) β}
    (hx : ThrowsOnly Q x) (hf : ∀ a, KeepsLinks links Q R' nodes (f a nodes)) :
    KeepsLinks links Q R' nodes ((liftM x >>= f) nodes) := by
  rcases x with e | a
  · exact ⟨List.prefix_rfl, hx e rfl⟩
  · exact hf a

/-- A node is read before the rest. -/
theorem read {f : Node → EStateM Exception (List Node) β} (hn : nodes[i]? = some node)
    (hf : KeepsLinks links Q R' nodes (f node nodes)) :
    KeepsLinks links Q R' nodes ((readNode i >>= f) nodes) := by
  rw [Effect.run_bind_ok (readNode_run hn)]
  exact hf

theorem ite {x y : EStateM Exception (List Node) α} (hx : p → KeepsLinks links Q R nodes (x nodes))
    (hy : ¬ p → KeepsLinks links Q R nodes (y nodes)) :
    KeepsLinks links Q R nodes ((if p then x else y) nodes) := by
  by_cases h : p
  · rw [if_pos h]
    exact hx h
  · rw [if_neg h]
    exact hy h

end KeepsLinks

/-- The computation keeps the links and returns a node of the segment. -/
abbrev MakesSegment (links : Node → ℕ × ℕ) (Q : Exception → Prop) (lo hi : ℕ) :
    List Node → EStateM.Result Exception (List Node) ℕ → Prop :=
  KeepsLinks links Q fun nodes i => Unfolds links nodes i lo hi

namespace MakesSegment

/-- A node without children is appended. -/
theorem leaf (hl : Linked links nodes) (hnew : links new = (noNode, noNode)) :
    MakesSegment links Q lo lo nodes (pushBack new nodes) := by
  rw [pushBack_run]
  exact ⟨List.prefix_append _ _, hl.push (.inl hnew), .single List.getElem?_concat_length hnew⟩

/-- A copy of a node is appended. -/
theorem copy (hl : Linked links nodes) (hu : Unfolds links nodes i lo hi)
    (hn : nodes[i]? = some node) (hnew : links new = links node) :
    MakesSegment links Q lo hi nodes (pushBack new nodes) := by
  rw [pushBack_run]
  refine ⟨List.prefix_append _ _, hl.push ?_, hu.copy hn hnew⟩
  rcases hl i node hn with h | ⟨h1, h2⟩
  · exact .inl (hnew.trans h)
  · have hlt := hu.lt_length
    rw [hnew]
    exact .inr ⟨h1.trans hlt, h2.trans hlt⟩

/-- A node over two halves is appended. -/
theorem inner (hlt : lo < hi) (hl : Linked links nodes)
    (hj : Unfolds links nodes j lo (Segment.midpoint lo hi))
    (hk : Unfolds links nodes k (Segment.midpoint lo hi + 1) hi) (hnew : links new = (j, k)) :
    MakesSegment links Q lo hi nodes (pushBack new nodes) := by
  have hpre : nodes <+: nodes ++ [new] := List.prefix_append _ _
  rw [pushBack_run]
  refine ⟨hpre, hl.push (.inr ?_), .halves hlt List.getElem?_concat_length ?_ ?_⟩
  · rw [hnew]
    exact ⟨hj.lt_length, hk.lt_length⟩
  · rw [hnew]
    exact hj.extend hpre
  · rw [hnew]
    exact hk.extend hpre

/-- A half is descended into, or left alone. -/
theorem half {x : ArenaM Node ℕ} (hl : Linked links nodes) (hu : Unfolds links nodes i lo hi)
    (hx : p → MakesSegment links Q lo hi nodes (x nodes)) :
    MakesSegment links Q lo hi nodes ((if p then x else pure i) nodes) :=
  KeepsLinks.ite hx fun _ => KeepsLinks.pure hl hu

/-- **Two halves**, one after the other, and then the rest with both of them read. -/
theorem halves {x y : ArenaM Node ℕ} {f : ℕ → ℕ → Node → Node → ArenaM Node ℕ}
    (hx : MakesSegment links Q lo (Segment.midpoint lo hi) nodes (x nodes))
    (hy : ∀ nodes', nodes <+: nodes' → Linked links nodes' →
      MakesSegment links Q (Segment.midpoint lo hi + 1) hi nodes' (y nodes'))
    (hf : ∀ j k leftNode rightNode nodes', Linked links nodes' →
      Unfolds links nodes' j lo (Segment.midpoint lo hi) →
      Unfolds links nodes' k (Segment.midpoint lo hi + 1) hi →
      MakesSegment links Q lo hi nodes' (f j k leftNode rightNode nodes')) :
    MakesSegment links Q lo hi nodes ((do
      let newLeft ← x
      let newRight ← y
      let leftNode ← readNode newLeft
      let rightNode ← readNode newRight
      f newLeft newRight leftNode rightNode) nodes) := by
  refine KeepsLinks.bind hx fun j nodes₁ hpre₁ hl₁ hj =>
    KeepsLinks.bind (hy nodes₁ hpre₁ hl₁) fun k nodes₂ hpre₂ hl₂ hk => ?_
  have hj' := hj.extend hpre₂
  obtain ⟨leftNode, hleft⟩ := hj'.exists_node
  obtain ⟨rightNode, hright⟩ := hk.exists_node
  exact .read hleft (.read hright (hf j k leftNode rightNode nodes₂ hl₂ hj' hk))

end MakesSegment

end Computations

/-! ## What is thrown -/

section Thrown

variable {Aggregate Action : Type} {Q : Exception → Prop}

/-- The exception is thrown by an operation of the policy. -/
inductive Policy.Raises (P : Policy Aggregate Action) (e : Exception) : Prop
  | combine (left right : Aggregate) (h : P.combine left right = .error e)
  | compose (newer older : Action) (h : P.compose newer older = .error e)
  | apply (action : Action) (aggregate : Aggregate) (length : ℕ)
      (h : P.apply action aggregate length = .error e)

/-- Everything is thrown but an access past the end of a vector. -/
def InBounds (e : Exception) : Prop := e ≠ .undefined

theorem Exception.OutOfRoom.inBounds {e : Exception} (h : e.OutOfRoom) : InBounds e := by
  rintro rfl
  exact h

theorem checkedAdd_inBounds (a b : ValueType) : ThrowsOnly InBounds (checkedAdd a b) := by
  intro e h
  rw [(checkedAdd_error h).1]
  exact nofun

theorem inclusiveLength_inBounds (a b : ℕ) : ThrowsOnly InBounds (inclusiveLength a b) := by
  intro e h
  unfold inclusiveLength at h
  split_ifs at h
  · cases h
    exact nofun
  · exact (checkedSizeAdd_error h).inBounds

theorem apply_inBounds (action aggregate : ValueType) (length : ℕ) :
    ThrowsOnly InBounds (SumAddPolicy.apply action aggregate length) := by
  refine .bind (fun e h => ?_) fun _ _ => .bind (fun e h => ?_) fun _ _ => checkedAdd_inBounds _ _
  · unfold checkedLength at h
    split_ifs at h
    cases h
    exact nofun
  · rw [(checkedMultiply_error h).1]
    exact nofun

end Thrown

/-! ## The builds -/

section Builds

variable {Node Aggregate Action : Type} {links : Node → ℕ × ℕ} {Q : Exception → Prop}

/-- **The build.** It makes the canonical partition of the segment. -/
theorem Policy.buildArena_makes {P : Policy Aggregate Action} {leaf : Aggregate → Node}
    {inner : ℕ → ℕ → Aggregate → Node} {aggregateOf : Node → Aggregate} {values : List Aggregate}
    (hleaf : ∀ x, links (leaf x) = (noNode, noNode))
    (hinner : ∀ j k x, links (inner j k x) = (j, k))
    (hQ : ∀ left right, ThrowsOnly Q (P.combine left right)) :
    ∀ lo hi, lo ≤ hi → hi < values.length → ∀ {nodes : List Node}, Linked links nodes →
      MakesSegment links Q lo hi nodes
        (P.buildArena leaf inner aggregateOf values lo hi nodes) := by
  refine Segment.halving_induction ?_ ?_
  · intro i hi nodes hl
    rw [Policy.buildArena, if_pos rfl, vectorAt_eq_ok.mpr (List.getElem?_eq_getElem hi),
      Effect.run_bind_ok (Effect.liftM_ok _ _)]
    exact .leaf hl (hleaf _)
  · intro lo hi hlt ihl ihr hhi nodes hl
    have hm := Segment.midpoint_lt hlt
    rw [Policy.buildArena, if_neg hlt.ne, if_pos hlt]
    refine .halves (ihl (by omega) hl) (fun _ _ hl => ihr hhi hl)
      fun j k leftNode rightNode nodes' hl hj hk => ?_
    exact KeepsLinks.lift (hQ _ _) fun x => MakesSegment.inner hlt hl hj hk (hinner j k x)

/-- The build of the sums is the build of their policy. -/
theorem buildArena_eq (leaf : ValueType → Node) (inner : ℕ → ℕ → ValueType → Node)
    (sumOf : Node → ValueType) (values : List ValueType) (lo hi : ℕ) :
    buildArena leaf inner sumOf values lo hi =
      sumAddPolicy.buildArena leaf inner sumOf values lo hi := by
  induction hk : hi - lo using Nat.strong_induction_on generalizing lo hi with
  | _ k ih =>
    rw [buildArena, Policy.buildArena]
    refine ite_congr rfl (fun _ => rfl) fun _ => ite_congr rfl (fun hlt => ?_) fun _ => rfl
    have h1 := Segment.le_midpoint lo hi
    have h2 := Segment.midpoint_lt hlt
    simp only [ih _ (show Segment.midpoint lo hi - lo < k by omega) _ _ rfl,
      ih _ (show hi - (Segment.midpoint lo hi + 1) < k by omega) _ _ rfl]
    rfl

theorem buildArena_makes {leaf : ValueType → Node} {inner : ℕ → ℕ → ValueType → Node}
    {sumOf : Node → ValueType} {values : List ValueType} {lo hi : ℕ}
    (hleaf : ∀ x, links (leaf x) = (noNode, noNode))
    (hinner : ∀ j k x, links (inner j k x) = (j, k)) (hle : lo ≤ hi) (hhi : hi < values.length)
    {nodes : List Node} (hl : Linked links nodes) :
    MakesSegment links InBounds lo hi nodes (buildArena leaf inner sumOf values lo hi nodes) := by
  rw [buildArena_eq]
  exact Policy.buildArena_makes hleaf hinner checkedAdd_inBounds lo hi hle hhi hl

end Builds

/-! ## Trees -/

section Trees

variable {Node : Type} {links : Node → ℕ × ℕ} {nodes nodes' : List Node} {roots : List ℕ}
  {size root : ℕ}

/-- The arena, the roots and the size of a tree: the arena is linked, and every root of a tree with
elements unfolds to all of them. -/
structure WellFormed (links : Node → ℕ × ℕ) (nodes : List Node) (roots : List ℕ) (size : ℕ) :
    Prop where
  linked : Linked links nodes
  published : 0 < size → roots ≠ []
  unfolds : 0 < size → ∀ root ∈ roots, Unfolds links nodes root 0 (size - 1)

namespace WellFormed

theorem empty (roots : List ℕ) : WellFormed links [] roots 0 :=
  ⟨.nil, fun h => absurd h (lt_irrefl 0), fun h => absurd h (lt_irrefl 0)⟩

/-- One root. -/
theorem single (hl : Linked links nodes) (hu : Unfolds links nodes root 0 (size - 1)) :
    WellFormed links nodes [root] size := by
  refine ⟨hl, fun _ => List.cons_ne_nil _ _, fun _ r hr => ?_⟩
  rwa [List.mem_singleton.mp hr]

/-- One root more, in an arena with more nodes. -/
theorem publish (h : WellFormed links nodes roots size) (hpre : nodes <+: nodes')
    (hl : Linked links nodes') (hu : Unfolds links nodes' root 0 (size - 1)) :
    WellFormed links nodes' (roots ++ [root]) size := by
  refine ⟨hl, fun _ => by simp, fun hpos r hr => ?_⟩
  rcases List.mem_append.mp hr with hr | hr
  · exact (h.unfolds hpos r hr).extend hpre
  · rwa [List.mem_singleton.mp hr]

/-- A root that is there already. -/
theorem republish (h : WellFormed links nodes roots size) {v : ℕ} (hv : roots[v]? = some root) :
    WellFormed links nodes (roots ++ [root]) size := by
  refine ⟨h.linked, fun _ => by simp, fun hpos r hr => h.unfolds hpos r ?_⟩
  rcases List.mem_append.mp hr with hr | hr
  · exact hr
  · rw [List.mem_singleton.mp hr]
    exact List.mem_of_getElem? hv

end WellFormed

end Trees

end Valseg
