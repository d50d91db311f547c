import Valseg.Layout
import Valseg.Lib.Effect
import Mathlib.Logic.Relation

/-!
# Arenas

Five structures keep their nodes in a vector that only `push_back` makes longer, and name a node
by its index. This file has the operations on such an arena, the build they share up to the
fields of a node (`buildArena`), and its specification: the build appends one node for each
canonical segment, and the root it returns stores the tree of the array (`buildArena_spec`).
-/

namespace Valseg


/-- A computation on an arena. What it appended is still there when it throws. -/
abbrev ArenaM (Node : Type) := EStateM Exception (List Node)

/-- `static_cast<std::size_t>(-1)`, the index of no node. -/
def noNode : ℕ := sizeMax

section Operations

variable {Node : Type}

/-- Links lead from one node of the arena to another. -/
def LeadsTo (links : Node → ℕ → Prop) (nodes : List Node) : ℕ → ℕ → Prop :=
  Relation.ReflTransGen fun i child => ∃ node, nodes[i]? = some node ∧ links node child

/-- `arena.push_back(node); return arena.size() - 1;` -/
def pushBack (node : Node) : ArenaM Node ℕ := do
  modify (· ++ [node])
  return (← get).length - 1

/-- `arena[index]`. -/
def readNode (index : ℕ) : ArenaM Node Node := do vectorAt (← get) index

theorem pushBack_run (node : Node) (nodes : List Node) :
    pushBack node nodes = .ok nodes.length (nodes ++ [node]) := by
  unfold pushBack
  rw [Effect.run_bind_ok (Effect.run_modify _ _), Effect.run_bind_ok (Effect.run_get _),
    Effect.run_pure, List.length_append]
  rfl

theorem readNode_run {nodes : List Node} {i : ℕ} {node : Node} (h : nodes[i]? = some node) :
    readNode i nodes = .ok node nodes := by
  unfold readNode
  rw [Effect.run_bind_ok (Effect.run_get _), vectorAt_eq_ok.mpr h]
  rfl

/-- Reading leaves the arena as it is. -/
theorem readNode_state (i : ℕ) (nodes : List Node) :
    Effect.finalState (readNode i nodes) = nodes := by
  unfold readNode
  rw [Effect.run_bind_ok (Effect.run_get _)]
  cases vectorAt nodes i <;> rfl

/-- On an arena and on its image both operations do the same. -/
theorem readNode_map {Node' : Type} (g : Node → Node') (i : ℕ) :
    Effect.Image (List.map g) g (readNode i) (readNode i) := by
  intro nodes
  unfold readNode
  rw [Effect.run_bind_ok (Effect.run_get _), Effect.run_bind_ok (Effect.run_get _), vectorAt_map]
  cases vectorAt nodes i <;> rfl

theorem pushBack_map {Node' : Type} (g : Node → Node') (node : Node) :
    Effect.Image (List.map g) id (pushBack node) (pushBack (g node)) := by
  intro nodes
  rw [pushBack_run, pushBack_run]
  simp only [Effect.mapEnd, List.length_map, List.map_append, List.map_cons, List.map_nil, id]

/-- The computation only appends nodes, however it ends. -/
def Appends {α : Type} (x : EStateM Exception (List Node) α) : Prop :=
  Effect.Within (fun a b => a <+: b) x

namespace Appends

variable {α β : Type}

theorem lift (x : Except Exception α) :
    Appends (liftM x : EStateM Exception (List Node) α) :=
  Effect.Within.lift (fun _ => List.prefix_rfl) x

theorem pure (a : α) : Appends (Pure.pure a : EStateM Exception (List Node) α) :=
  Effect.Within.pure (fun _ => List.prefix_rfl) a

theorem throw (e : Exception) :
    Appends (MonadExcept.throw e : EStateM Exception (List Node) α) :=
  Effect.Within.throw (fun _ => List.prefix_rfl) e

theorem bind {x : EStateM Exception (List Node) α} {f : α → EStateM Exception (List Node) β}
    (hx : Appends x) (hf : ∀ a, Appends (f a)) : Appends (x >>= f) :=
  Effect.Within.bind (R := fun a b => a <+: b) List.IsPrefix.trans hx hf

theorem ite {p : Prop} [Decidable p] {x y : EStateM Exception (List Node) α}
    (hx : p → Appends x) (hy : ¬ p → Appends y) : Appends (if p then x else y) :=
  Effect.Within.ite hx hy

theorem pushBack (node : Node) : Appends (pushBack node) := by
  intro nodes
  rw [pushBack_run]
  exact List.prefix_append nodes [node]

theorem readNode (i : ℕ) : Appends (readNode i : ArenaM Node Node) :=
  Effect.Within.of_state (fun _ => List.prefix_rfl) (readNode_state i)

end Appends

end Operations

/-! ## Reading an arena -/

/-- How the fields of a node are read. -/
structure NodeReading (Node : Type) where
  state : Node → Except Exception (ValueType × ValueType)
  childrenOf : Node → Except Exception (ℕ × ℕ)

namespace NodeReading

variable {Node : Type} (R : NodeReading Node)

/-- The layout of an arena. -/
def on (nodes : List Node) : Layout where
  read i := do R.state (← vectorAt nodes i)
  children i _ _ := do R.childrenOf (← vectorAt nodes i)

variable {R} {nodes more : List Node} {own own' : ℕ → ℕ → ℕ → Prop} {t : SumTree} {i lo hi : ℕ}
  {node : Node}

theorem read_of_getElem? (h : nodes[i]? = some node) : (R.on nodes).read i = R.state node := by
  show (vectorAt nodes i >>= R.state) = _
  rw [vectorAt_eq_ok.mpr h]
  rfl

theorem children_of_getElem? {a b : ℕ} (h : nodes[i]? = some node) :
    (R.on nodes).children i a b = R.childrenOf node := by
  show (vectorAt nodes i >>= R.childrenOf) = _
  rw [vectorAt_eq_ok.mpr h]
  rfl

/-- A node that can be read is there. -/
theorem exists_of_read {p : ValueType × ValueType} (h : (R.on nodes).read i = .ok p) :
    ∃ node, nodes[i]? = some node ∧ R.state node = .ok p := by
  obtain ⟨node, hn, hs⟩ := Effect.bind_eq_ok.mp h
  exact ⟨node, vectorAt_eq_ok.mp hn, hs⟩

theorem exists_of_stores (h : (R.on nodes).Stores own t i lo hi) :
    ∃ node, nodes[i]? = some node ∧ R.state node = .ok (t.sum, t.tag) :=
  exists_of_read h.read

/-- **Appending.** A stored tree stays stored when nodes are appended. -/
theorem stores_append (more : List Node) (h : (R.on nodes).Stores own t i lo hi)
    (ho : ∀ j a b, own j a b → own' j a b) : (R.on (nodes ++ more)).Stores own' t i lo hi := by
  refine h.frame fun j a b p hj _ _ _ hp => ?_
  obtain ⟨node, hn, hs⟩ := exists_of_read hp
  have hn' : (nodes ++ more)[j]? = some node := by
    rw [List.getElem?_append_left (List.getElem?_eq_some_iff.mp hn).1]
    exact hn
  refine ⟨ho j a b hj, (read_of_getElem? hn').trans hs, fun q hq => ?_⟩
  rw [children_of_getElem? hn] at hq
  rw [children_of_getElem? hn', hq]

/-- A tree is stored in every reading that reads the nodes the same. -/
theorem stores_congr {R' : NodeReading Node} (hR : ∀ node ∈ nodes, R'.state node = R.state node ∧
      R'.childrenOf node = R.childrenOf node) (h : (R.on nodes).Stores own t i lo hi) :
    (R'.on nodes).Stores own t i lo hi := by
  refine h.frame fun j a b p hj _ _ _ hp => ?_
  obtain ⟨node, hn, hs⟩ := exists_of_read hp
  obtain ⟨h1, h2⟩ := hR node (List.mem_of_getElem? hn)
  refine ⟨hj, ?_, fun q hq => ?_⟩
  · rw [read_of_getElem? hn, h1, hs]
  · rw [children_of_getElem? hn] at hq ⊢
    rw [h2, hq]

/-- A node pushed over the children of a stored root. -/
theorem stores_push_setRoot {s z : ValueType} {old new : Node}
    (h : (R.on nodes).Stores own t i lo hi) (ho : own nodes.length lo hi)
    (hold : nodes[i]? = some old) (hs : R.state new = .ok (s, z))
    (hc : R.childrenOf new = R.childrenOf old) :
    (R.on (nodes ++ [new])).Stores own (t.setRoot s z) nodes.length lo hi := by
  have hold' : (nodes ++ [new])[i]? = some old := by
    rw [List.getElem?_append_left (List.getElem?_eq_some_iff.mp hold).1]
    exact hold
  refine (stores_append _ h fun _ _ _ h => h).setRoot ho ?_ fun q hq => ?_
  · rw [read_of_getElem? List.getElem?_concat_length, hs]
  · rw [children_of_getElem? hold'] at hq
    rw [children_of_getElem? List.getElem?_concat_length, hc, hq]

/-- A node pushed over two stored roots. -/
theorem stores_push_node {a b : SumTree} {j k : ℕ} {s z : ValueType} {new : Node} (hlt : lo < hi)
    (ha : (R.on nodes).Stores own a j lo (Segment.midpoint lo hi))
    (hb : (R.on nodes).Stores own b k (Segment.midpoint lo hi + 1) hi) (ho : own nodes.length lo hi)
    (hs : R.state new = .ok (s, z)) (hc : R.childrenOf new = .ok (j, k)) :
    (R.on (nodes ++ [new])).Stores own (.node s z a b) nodes.length lo hi := by
  refine ⟨hlt, ho, ?_, j, k, ?_, stores_append _ ha fun _ _ _ h => h,
    stores_append _ hb fun _ _ _ h => h⟩
  · rw [read_of_getElem? List.getElem?_concat_length, hs]
  · rw [children_of_getElem? List.getElem?_concat_length, hc]

end NodeReading

/-- Nodes that are never written to belong to whoever reads them. -/
def anyone : ℕ → ℕ → ℕ → Prop := fun _ _ _ => True

/-! ## Updates that append -/

section Mirrors

variable {Node : Type} (R : NodeReading Node)

/-- A computation that appends to `nodes` and returns a root that stores the tree `y` returns, or
throws what `y` throws. -/
def Mirrors (nodes : List Node) (x : EStateM.Result Exception (List Node) ℕ)
    (y : Except Exception SumTree) (lo hi : ℕ) : Prop :=
  (∃ t i more, y = .ok t ∧ x = .ok i (nodes ++ more) ∧
      (R.on (nodes ++ more)).Stores anyone t i lo hi) ∨
    ∃ e more, y = .error e ∧ x = .error e (nodes ++ more)

variable {R} {nodes : List Node} {lo hi i : ℕ} {t a b : SumTree}

theorem Mirrors.throw (e : Exception) :
    Mirrors R nodes (.error e nodes) (.error e) lo hi :=
  .inr ⟨e, [], rfl, by rw [List.append_nil]⟩

/-- A root that is left alone. -/
theorem Mirrors.return (h : (R.on nodes).Stores anyone t i lo hi) :
    Mirrors R nodes (.ok i nodes) (.ok t) lo hi :=
  .inl ⟨t, i, [], rfl, by rw [List.append_nil], by rw [List.append_nil]; exact h⟩

/-- Two computations, one for each half, and then a third. -/
theorem Mirrors.halves {x y : ArenaM Node ℕ} {f : ℕ → ℕ → ArenaM Node ℕ}
    {u v : Except Exception SumTree} {g : SumTree → SumTree → Except Exception SumTree}
    (hx : Mirrors R nodes (x nodes) u lo (Segment.midpoint lo hi))
    (hy : ∀ more, Mirrors R (nodes ++ more) (y (nodes ++ more)) v (Segment.midpoint lo hi + 1) hi)
    (hf : ∀ a b j k more, u = .ok a → v = .ok b →
      (R.on (nodes ++ more)).Stores anyone a j lo (Segment.midpoint lo hi) →
      (R.on (nodes ++ more)).Stores anyone b k (Segment.midpoint lo hi + 1) hi →
      Mirrors R (nodes ++ more) (f j k (nodes ++ more)) (g a b) lo hi) :
    Mirrors R nodes ((do f (← x) (← y)) nodes) (do g (← u) (← v)) lo hi := by
  rcases hx with ⟨a, j, moreL, hu, hx, ha⟩ | ⟨e, moreL, hu, hx⟩
  swap
  · exact .inr ⟨e, moreL, by rw [hu]; rfl, Effect.run_bind_error hx⟩
  rcases hy moreL with ⟨b, k, moreR, hv, hy, hb⟩ | ⟨e, moreR, hv, hy⟩
  swap
  · refine .inr ⟨e, moreL ++ moreR, by rw [hu, hv]; rfl, ?_⟩
    rw [Effect.run_bind_ok hx, Effect.run_bind_error hy, List.append_assoc]
  have ha' := NodeReading.stores_append moreR ha fun _ _ _ h => h
  rw [List.append_assoc] at ha' hb hy
  rw [hu, hv, Effect.run_bind_ok hx, Effect.run_bind_ok hy]
  rcases hf a b j k (moreL ++ moreR) hu hv ha' hb with ⟨t, i, more, hg, hr, hs⟩ | ⟨e, more, hg, hr⟩
  · rw [List.append_assoc] at hr hs
    exact .inl ⟨t, i, moreL ++ moreR ++ more, hg, by rw [hr], hs⟩
  · rw [List.append_assoc] at hr
    exact .inr ⟨e, moreL ++ moreR ++ more, hg, hr⟩

/-- The update of one half, or the half left alone. -/
theorem Mirrors.half {p : Prop} [Decidable p] {x : ArenaM Node ℕ} {u : Except Exception SumTree}
    (hp : p → Mirrors R nodes (x nodes) u lo hi) (hs : (R.on nodes).Stores anyone t i lo hi) :
    Mirrors R nodes ((if p then x else pure i) nodes) (if p then u else pure t) lo hi := by
  by_cases h : p
  · rw [if_pos h, if_pos h]
    exact hp h
  · rw [if_neg h, if_neg h]
    exact Mirrors.return hs

end Mirrors

/-- Each index belongs to the segment recorded for it. -/
def typed (types : List (ℕ × ℕ)) (i a b : ℕ) : Prop := types[i]? = some (a, b)

theorem typed_append {types : List (ℕ × ℕ)} (more : List (ℕ × ℕ)) {i a b : ℕ}
    (h : typed types i a b) :
    typed (types ++ more) i a b := by
  unfold typed at *
  rw [List.getElem?_append_left (List.getElem?_eq_some_iff.mp h).1]
  exact h

/-! ## Building -/

section Build

variable {Node : Type} (leaf : ValueType → Node) (inner : ℕ → ℕ → ValueType → Node)
  (sumOf : Node → ValueType)

/-- The build over `values[segmentLeft..segmentRight]`, for nodes made by `leaf` and `inner`. -/
def buildArena (values : List ValueType) (segmentLeft segmentRight : ℕ) : ArenaM Node ℕ :=
  if segmentLeft = segmentRight then do
    let value ← vectorAt values segmentLeft
    pushBack (leaf value)
  else if segmentLeft < segmentRight then do
    let middle := Segment.midpoint segmentLeft segmentRight
    let leftRoot ← buildArena values segmentLeft middle
    let rightRoot ← buildArena values (middle + 1) segmentRight
    let leftNode ← readNode leftRoot
    let rightNode ← readNode rightRoot
    let sum ← checkedAdd (sumOf leftNode) (sumOf rightNode)
    pushBack (inner leftRoot rightRoot sum)
  else throw .undefined
termination_by segmentRight - segmentLeft
decreasing_by all_goals (simp only [Segment.midpoint] at *; omega)

variable {leaf inner sumOf} {R : NodeReading Node}

/-- The nodes a build makes are read as it made them. -/
structure BuildReads (R : NodeReading Node) (leaf : ValueType → Node)
    (inner : ℕ → ℕ → ValueType → Node) (sumOf : Node → ValueType) : Prop where
  leaf_state : ∀ v, R.state (leaf v) = .ok (v, 0)
  inner_state : ∀ j k s, R.state (inner j k s) = .ok (s, 0)
  inner_children : ∀ j k s, R.childrenOf (inner j k s) = .ok (j, k)
  leaf_sum : ∀ v, sumOf (leaf v) = v
  inner_sum : ∀ j k s, sumOf (inner j k s) = s

/-- What a build leaves behind when the tree of the array is `t`. -/
structure Built (R : NodeReading Node) (leaf : ValueType → Node)
    (inner : ℕ → ℕ → ValueType → Node) (sumOf : Node → ValueType) (nodes more : List Node)
    (types segments : List (ℕ × ℕ)) (t : SumTree) (i lo hi : ℕ) : Prop where
  segments_length : segments.length = more.length
  made : ∀ node ∈ more, (∃ v, node = leaf v) ∨ ∃ j k s, node = inner j k s
  stores : (R.on (nodes ++ more)).Stores (typed (types ++ segments)) t i lo hi
  root : ∃ node, (nodes ++ more)[i]? = some node ∧ sumOf node = t.sum

/-- **Building.** The build returns where the tree of the array does, and stores that tree; where
the tree overflows, the build throws the same. -/
theorem buildArena_spec (hR : BuildReads R leaf inner sumOf) (values : List ValueType) :
    ∀ lo hi, lo ≤ hi → ∀ (nodes : List Node) (types : List (ℕ × ℕ)),
      types.length = nodes.length →
      (∃ t i more segments, SumTree.build values lo hi = .ok t ∧
          buildArena leaf inner sumOf values lo hi nodes = .ok i (nodes ++ more) ∧
          Built R leaf inner sumOf nodes more types segments t i lo hi) ∨
        ∃ e nodes', SumTree.build values lo hi = .error e ∧
          buildArena leaf inner sumOf values lo hi nodes = .error e nodes' := by
  refine Segment.halving_induction ?_ ?_
  · intro i nodes types hlen
    rw [buildArena, if_pos rfl, SumTree.build, if_pos rfl]
    rcases hv : vectorAt values i with e | v
    · exact .inr ⟨e, nodes, rfl, Effect.run_bind_eq_error.mpr (.inl rfl)⟩
    · refine .inl ⟨.leaf v 0, nodes.length, [leaf v], [(i, i)], rfl, ?_, rfl, ?_, ?_, ?_⟩
      · rw [Effect.run_bind_ok (Effect.liftM_ok v nodes), pushBack_run]
      · intro node hn
        exact .inl ⟨v, by simpa using hn⟩
      · refine ⟨rfl, ?_, ?_⟩
        · unfold typed
          rw [← hlen, List.getElem?_concat_length]
        · rw [NodeReading.read_of_getElem? List.getElem?_concat_length, hR.leaf_state]
      · exact ⟨_, List.getElem?_concat_length, hR.leaf_sum v⟩
  · intro lo hi hlt ihl ihr nodes types hlen
    rw [buildArena, if_neg hlt.ne, if_pos hlt, SumTree.build, if_neg hlt.ne, if_pos hlt]
    rcases ihl nodes types hlen with
      ⟨a, j, moreL, segL, hta, hba, ba⟩ | ⟨e, nodes', hta, hba⟩
    swap
    · rw [hta, Effect.run_bind_error hba]
      exact .inr ⟨e, nodes', rfl, rfl⟩
    rw [hta, Effect.run_bind_ok hba]
    rcases ihr (nodes ++ moreL) (types ++ segL)
        (by rw [List.length_append, List.length_append, hlen, ba.segments_length]) with
      ⟨b, k, moreR, segR, htb, hbb, bb⟩ | ⟨e, nodes', htb, hbb⟩
    swap
    · rw [Effect.ok_bind, htb, Effect.run_bind_error hbb]
      exact .inr ⟨e, nodes', rfl, rfl⟩
    have sa := NodeReading.stores_append moreR ba.stores
      fun _ _ _ h => typed_append segR h
    obtain ⟨na, hna, hsa⟩ := ba.root
    obtain ⟨nb, hnb, hsb⟩ := bb.root
    have hna' : (nodes ++ moreL ++ moreR)[j]? = some na := by
      rw [List.getElem?_append_left (List.getElem?_eq_some_iff.mp hna).1]
      exact hna
    rw [Effect.ok_bind, htb, Effect.run_bind_ok hbb, Effect.run_bind_ok (readNode_run hna'),
      Effect.run_bind_ok (readNode_run hnb), hsa, hsb, Effect.ok_bind]
    rcases hs : checkedAdd a.sum b.sum with e | s
    · exact .inr ⟨e, _, rfl, Effect.run_bind_eq_error.mpr (.inl rfl)⟩
    · refine .inl ⟨.node s 0 a b, (nodes ++ moreL ++ moreR).length,
        moreL ++ moreR ++ [inner j k s], segL ++ segR ++ [(lo, hi)], rfl, ?_, ?_, ?_, ?_, ?_⟩
      · rw [Effect.run_bind_ok (Effect.liftM_ok s _), pushBack_run]
        simp only [List.append_assoc]
      · simp only [List.length_append, ba.segments_length, bb.segments_length, List.length_cons,
          List.length_nil]
      · intro node hn
        simp only [List.mem_append, List.mem_singleton] at hn
        rcases hn with (hn | hn) | hn
        · exact ba.made node hn
        · exact bb.made node hn
        · exact .inr ⟨j, k, s, hn⟩
      · have hnodes : nodes ++ (moreL ++ moreR ++ [inner j k s]) =
            nodes ++ moreL ++ moreR ++ [inner j k s] := by simp only [List.append_assoc]
        have htypes : types ++ (segL ++ segR ++ [(lo, hi)]) =
            types ++ segL ++ segR ++ [(lo, hi)] := by simp only [List.append_assoc]
        have hlen' : (types ++ segL ++ segR).length = (nodes ++ moreL ++ moreR).length := by
          simp only [List.length_append, hlen, ba.segments_length, bb.segments_length]
        rw [hnodes, htypes]
        refine ⟨hlt, ?_, ?_, j, k, ?_, ?_, ?_⟩
        · unfold typed
          rw [← hlen', List.getElem?_concat_length]
        · rw [NodeReading.read_of_getElem? List.getElem?_concat_length, hR.inner_state]
        · rw [NodeReading.children_of_getElem? List.getElem?_concat_length, hR.inner_children]
        · exact NodeReading.stores_append _ sa fun _ _ _ h => typed_append _ h
        · exact NodeReading.stores_append _ bb.stores fun _ _ _ h => typed_append _ h
      · refine ⟨inner j k s, ?_, hR.inner_sum j k s⟩
        simp only [← List.append_assoc]
        exact List.getElem?_concat_length

/-- A build into an empty arena, with no owners. -/
theorem buildArena_stores (hR : BuildReads R leaf inner sumOf) (values : List ValueType)
    (lo hi : ℕ) (hle : lo ≤ hi) :
    (∃ t i nodes, SumTree.build values lo hi = .ok t ∧
        buildArena leaf inner sumOf values lo hi [] = .ok i nodes ∧
        (R.on nodes).Stores anyone t i lo hi) ∨
      ∃ e nodes, SumTree.build values lo hi = .error e ∧
        buildArena leaf inner sumOf values lo hi [] = .error e nodes := by
  rcases buildArena_spec hR values lo hi hle [] [] rfl with
    ⟨t, i, more, segments, ht, hb, built⟩ | ⟨e, nodes, ht, hb⟩
  · refine .inl ⟨t, i, more, ht, by rw [hb, List.nil_append], ?_⟩
    have hst : (R.on (([] ++ more) ++ [])).Stores anyone t i lo hi :=
      NodeReading.stores_append [] built.stores fun _ _ _ _ => trivial
    rwa [List.append_nil, List.nil_append] at hst
  · exact .inr ⟨e, nodes, ht, hb⟩

/-- Where it throws, the tree of the array throws the same. -/
theorem buildArena_error (hR : BuildReads R leaf inner sumOf) {values : List ValueType}
    {lo hi : ℕ} (hle : lo ≤ hi) {e : Exception} {nodes : List Node}
    (h : buildArena leaf inner sumOf values lo hi [] = .error e nodes) :
    SumTree.build values lo hi = .error e := by
  rcases buildArena_stores hR values lo hi hle with ⟨t, i, ns, -, hb, -⟩ | ⟨e', ns, ht, hb⟩ <;>
    rw [h] at hb <;> cases hb
  exact ht

end Build

/-! ## Initializing -/

section Reserved

variable {Node σ : Type} {n bytes : ℕ} {what : String} {build : ArenaM Node ℕ}
  {next : ℕ × List Node → EStateM Exception σ Unit} {s s' : σ} {u : Unit} {e : Exception}

/-- An initialization builds into a vector that it has reserved, and goes on with what it built. -/
theorem run_reserved_build_eq_ok (hn : 0 < n)
    (h : (do
      let nodeCount ← canonicalNodeCount n
      checkVectorLength what bytes nodeCount
      let built ← Effect.onLocal build []
      next built : EStateM Exception σ Unit) s = .ok u s') :
    n ≤ maxLength ∧ ∃ root nodes, build [] = .ok root nodes ∧ next (root, nodes) s = .ok u s' := by
  obtain ⟨nodeCount, h1, h⟩ := Effect.run_liftM_bind_eq_ok.mp h
  obtain ⟨⟨⟩, h2, h⟩ := Effect.run_liftM_bind_eq_ok.mp h
  obtain ⟨⟨root, nodes⟩, h3, h⟩ := Effect.run_liftM_bind_eq_ok.mp h
  have hcount := ((canonicalNodeCount_eq_ok hn).mp h1).1
  have hcap := checkVectorLength_eq_ok.mp h2
  have hmax : vectorMaxSize bytes ≤ maxLength := Nat.div_le_self _ _
  exact ⟨by omega, root, nodes, Effect.onLocal_eq_ok.mp h3, h⟩

/-- It throws for lack of room, or what the build or the rest of it throws. -/
theorem run_reserved_build_eq_error
    (h : (do
      let nodeCount ← canonicalNodeCount n
      checkVectorLength what bytes nodeCount
      let built ← Effect.onLocal build []
      next built : EStateM Exception σ Unit) s = .error e s') :
    e.OutOfRoom ∨ (∃ nodes, build [] = .error e nodes) ∨
      ∃ root nodes, build [] = .ok root nodes ∧ next (root, nodes) s = .error e s' := by
  rcases Effect.run_liftM_bind_eq_error.mp h with ⟨h1, -⟩ | ⟨nodeCount, -, h⟩
  · exact .inl (canonicalNodeCount_error h1)
  rcases Effect.run_liftM_bind_eq_error.mp h with ⟨h2, -⟩ | ⟨⟨⟩, -, h⟩
  · exact .inl (checkVectorLength_error h2)
  rcases Effect.run_liftM_bind_eq_error.mp h with ⟨h3, -⟩ | ⟨⟨root, nodes⟩, h3, h⟩
  · exact .inr (.inl (Effect.onLocal_eq_error.mp h3))
  · exact .inr (.inr ⟨root, nodes, Effect.onLocal_eq_ok.mp h3, h⟩)

end Reserved

end Valseg
