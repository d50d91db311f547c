import Valseg.Arena
import Valseg.Engine

/-!
# Arenas of stamped nodes

Two structures write to nodes that published versions reach: a node carries what several versions
made of it, each part stamped with its version, and a reader of a version ignores later stamps.
`Stamping` is what such a node has to do. Every node belongs to one segment, so an update of one
half of a segment leaves the nodes of the other half alone.

1. `Grown` is what an update does to an arena, `Recorded` how it writes the root of a segment, and
   `AmendsTo.halves` puts the updates of two halves and the write together.
2. `StoresAll` says that every version's root stores its tree in the reading of that version;
   `StoresAll.publish` adds the version an update made.
-/

namespace Valseg


/-- How stamped nodes are read as of a version. `recent v` are the nodes without a stamp after
`v`, and `amends v` relates a node to itself with more parts stamped `v`. -/
structure Stamping (Node : Type) where
  reading : ℕ → NodeReading Node
  recent : ℕ → Node → Prop
  amends : ℕ → Node → Node → Prop
  amends_refl : ∀ v node, amends v node node
  amends_trans : ∀ {v : ℕ} {a b c : Node}, amends v a b → amends v b c → amends v a c
  recent_mono : ∀ {v w : ℕ} {node : Node}, v ≤ w → recent v node → recent w node
  recent_state : ∀ {v w : ℕ} {node : Node}, v ≤ w → recent v node →
    (reading w).state node = (reading v).state node
  recent_children : ∀ {v w : ℕ} {node : Node}, v ≤ w → recent v node →
    (reading w).childrenOf node = (reading v).childrenOf node
  amends_state : ∀ {v w : ℕ} {a b : Node}, v < w → amends w a b →
    (reading v).state b = (reading v).state a
  amends_children : ∀ {v w : ℕ} {a b : Node}, v < w → amends w a b →
    (reading v).childrenOf b = (reading v).childrenOf a

theorem typed_exclusive (types : List (ℕ × ℕ)) : Layout.Exclusive (typed types) := by
  intro i a b c d h h'
  unfold typed at h h'
  rw [h, Option.some.injEq, Prod.mk.injEq] at h'
  exact h'

namespace Stamping

variable {Node : Type} (S : Stamping Node)

/-! ## What an update does to an arena -/

/-- The nodes that were there are amended, and they are the same outside the segment; the new ones
have segments, and no node has a later stamp. -/
structure Grown (v lo hi : ℕ) (nodes nodes' : List Node) (types more : List (ℕ × ℕ)) : Prop where
  length : (types ++ more).length = nodes'.length
  amends : ∀ (k : ℕ) (node : Node), nodes[k]? = some node →
    ∃ node', nodes'[k]? = some node' ∧ S.amends v node node'
  outside : ∀ (k a b : ℕ), typed types k a b → ¬ (lo ≤ a ∧ b ≤ hi) → nodes'[k]? = nodes[k]?
  recent : ∀ node ∈ nodes', S.recent v node

variable {S} {v lo hi i j : ℕ} {nodes nodes' nodes'' : List Node}
  {types more more' : List (ℕ × ℕ)} {t a b : SumTree} {node : Node} {s z : ValueType}

theorem Grown.refl (hlen : types.length = nodes.length) (hr : ∀ node ∈ nodes, S.recent v node) :
    S.Grown v lo hi nodes nodes types [] :=
  ⟨by rw [List.append_nil, hlen], fun _ node h => ⟨node, h, S.amends_refl v node⟩,
    fun _ _ _ _ _ => rfl, hr⟩

theorem Grown.trans (h : S.Grown v lo hi nodes nodes' types more)
    (h' : S.Grown v lo hi nodes' nodes'' (types ++ more) more') :
    S.Grown v lo hi nodes nodes'' types (more ++ more') := by
  refine ⟨by rw [← List.append_assoc, h'.length], fun k node hn => ?_, fun k a b hk hout => ?_,
    h'.recent⟩
  · obtain ⟨node', hn', ha⟩ := h.amends k node hn
    obtain ⟨node'', hn'', ha'⟩ := h'.amends k node' hn'
    exact ⟨node'', hn'', S.amends_trans ha ha'⟩
  · rw [h'.outside k a b (typed_append more hk) hout, h.outside k a b hk hout]

theorem Grown.mono {lo' hi' : ℕ} (h : S.Grown v lo hi nodes nodes' types more) (h1 : lo' ≤ lo)
    (h2 : hi ≤ hi') : S.Grown v lo' hi' nodes nodes' types more :=
  ⟨h.length, h.amends,
    fun k a b hk hout => h.outside k a b hk fun hin => hout ⟨h1.trans hin.1, hin.2.trans h2⟩,
    h.recent⟩

/-- A tree apart from the segment stays stored. -/
theorem Grown.keeps {lo' hi' : ℕ} {R : NodeReading Node}
    (h : S.Grown v lo' hi' nodes nodes' types more)
    (ht : (R.on nodes).Stores (typed types) t i lo hi) (hd : hi < lo' ∨ hi' < lo) :
    (R.on nodes').Stores (typed (types ++ more)) t i lo hi := by
  refine ht.frame fun k a b p hk h1 h2 h3 hp => ?_
  obtain ⟨node, hn, hs⟩ := NodeReading.exists_of_read hp
  have hn' : nodes'[k]? = some node := by rw [h.outside k a b hk (by omega), hn]
  refine ⟨typed_append more hk, (NodeReading.read_of_getElem? hn').trans hs, fun q hq => ?_⟩
  rw [NodeReading.children_of_getElem? hn] at hq
  rw [NodeReading.children_of_getElem? hn', hq]

/-- A tree of an earlier version stays stored. -/
theorem Grown.earlier {w lo' hi' : ℕ} (h : S.Grown v lo' hi' nodes nodes' types more) (hw : w < v)
    (ht : ((S.reading w).on nodes).Stores (typed types) t i lo hi) :
    ((S.reading w).on nodes').Stores (typed (types ++ more)) t i lo hi := by
  refine ht.frame fun k a b p hk h1 h2 h3 hp => ?_
  obtain ⟨node, hn, hs⟩ := NodeReading.exists_of_read hp
  obtain ⟨node', hn', ha⟩ := h.amends k node hn
  refine ⟨typed_append more hk, ?_, fun q hq => ?_⟩
  · rw [NodeReading.read_of_getElem? hn', S.amends_state hw ha, hs]
  · rw [NodeReading.children_of_getElem? hn] at hq
    rw [NodeReading.children_of_getElem? hn', S.amends_children hw ha, hq]

/-- A tree without later stamps is stored in later readings too. -/
theorem stores_later {w : ℕ} (hr : ∀ node ∈ nodes, S.recent v node) (hw : v ≤ w)
    (ht : ((S.reading v).on nodes).Stores (typed types) t i lo hi) :
    ((S.reading w).on nodes).Stores (typed types) t i lo hi :=
  NodeReading.stores_congr (fun _ hn => ⟨S.recent_state hw (hr _ hn), S.recent_children hw (hr _ hn)⟩)
    ht

/-! ## Writing a root -/

variable (S)

/-- The node of index `i` is amended to be read as the sum, tag and children, or a node that is
read so is pushed. -/
def Recorded (v : ℕ) (nodes nodes' : List Node) (i j : ℕ) (s z : ValueType)
    (c : Except Exception (ℕ × ℕ)) : Prop :=
  ∃ node', (S.reading v).state node' = .ok (s, z) ∧ (S.reading v).childrenOf node' = c ∧
    S.recent v node' ∧
      ((j = i ∧ nodes' = nodes.set i node' ∧ ∀ node, nodes[i]? = some node → S.amends v node node') ∨
        (j = nodes.length ∧ nodes' = nodes ++ [node']))

variable {S} {c : Except Exception (ℕ × ℕ)}

/-- Either way one node is written, and the arena has grown inside its segment. -/
theorem Recorded.grown (h : S.Recorded v nodes nodes' i j s z c) (ho : typed types i lo hi)
    (hlen : types.length = nodes.length) (hr : ∀ node ∈ nodes, S.recent v node) :
    ∃ more, S.Grown v lo hi nodes nodes' types more ∧ typed (types ++ more) j lo hi ∧
      Layout.WritesAt ((S.reading v).on nodes) ((S.reading v).on nodes') j (s, z) ∧
      ∀ a b, ((S.reading v).on nodes').children j a b = c := by
  obtain ⟨node', hs, hc, hrec, ⟨rfl, rfl, ha⟩ | ⟨rfl, rfl⟩⟩ := h
  · have hlt : j < nodes.length := by
      rw [← hlen]
      exact (List.getElem?_eq_some_iff.mp ho).1
    have hset : (nodes.set j node')[j]? = some node' := List.getElem?_set_self hlt
    refine ⟨[], ⟨by rw [List.append_nil, List.length_set, hlen], fun k node hn => ?_,
      fun k a b hk hout => ?_, fun node hn => ?_⟩, by rw [List.append_nil]; exact ho,
      ⟨by rw [NodeReading.read_of_getElem? hset, hs], fun k hk => ?_⟩,
      fun a b => by rw [NodeReading.children_of_getElem? hset, hc]⟩
    · by_cases hk : k = j
      · subst hk
        exact ⟨node', hset, ha node hn⟩
      · exact ⟨node, by rw [List.getElem?_set_ne (Ne.symm hk), hn], S.amends_refl v node⟩
    · refine List.getElem?_set_ne ?_
      rintro rfl
      obtain ⟨rfl, rfl⟩ := typed_exclusive types _ _ _ _ _ ho hk
      exact hout ⟨le_rfl, le_rfl⟩
    · rcases List.mem_or_eq_of_mem_set hn with hn | rfl
      · exact hr node hn
      · exact hrec
    · have hat : vectorAt (nodes.set j node') k = vectorAt nodes k := by
        unfold vectorAt
        rw [List.getElem?_set_ne (Ne.symm hk)]
      unfold NodeReading.on
      simp only [hat, implies_true, and_self]
  · have hpush : (nodes ++ [node'])[nodes.length]? = some node' := List.getElem?_concat_length
    refine ⟨[(lo, hi)], ⟨by rw [List.length_append, List.length_append, hlen]; rfl,
      fun k node hn => ?_, fun k a b hk hout => ?_, fun node hn => ?_⟩, ?_,
      ⟨by rw [NodeReading.read_of_getElem? hpush, hs], fun k hk => ?_⟩,
      fun a b => by rw [NodeReading.children_of_getElem? hpush, hc]⟩
    · refine ⟨node, ?_, S.amends_refl v node⟩
      rw [List.getElem?_append_left (List.getElem?_eq_some_iff.mp hn).1, hn]
    · have hlt := (List.getElem?_eq_some_iff.mp hk).1
      exact List.getElem?_append_left (by omega)
    · rcases List.mem_append.mp hn with hn | hn
      · exact hr node hn
      · rw [List.mem_singleton.mp hn]
        exact hrec
    · unfold typed
      rw [← hlen, List.getElem?_concat_length]
    · have hat : vectorAt (nodes ++ [node']) k = vectorAt nodes k := by
        unfold vectorAt
        rcases Nat.lt_or_ge k nodes.length with hlt | hge
        · rw [List.getElem?_append_left hlt]
        · rw [List.getElem?_eq_none (by rw [List.length_append, List.length_singleton]; omega),
            List.getElem?_eq_none hge]
      unfold NodeReading.on
      simp only [hat, implies_true, and_self]

/-- A root is written over the children it had. -/
theorem Recorded.cover (h : S.Recorded v nodes nodes' i j s z c)
    (hlen : types.length = nodes.length) (hr : ∀ node ∈ nodes, S.recent v node)
    (ht : ((S.reading v).on nodes).Stores (typed types) t i lo hi) (hn : nodes[i]? = some node)
    (hc : c = (S.reading v).childrenOf node) :
    ∃ more, S.Grown v lo hi nodes nodes' types more ∧
      ((S.reading v).on nodes').Stores (typed (types ++ more)) (t.setRoot s z) j lo hi := by
  obtain ⟨more, hg, ho, hw, hch⟩ := h.grown ht.owned hlen hr
  refine ⟨more, hg, ?_⟩
  refine (ht.mono fun _ _ _ => typed_append more).write_root (typed_exclusive _) hw ho fun q hq => ?_
  rw [hch, hc, ← hq, NodeReading.children_of_getElem? hn]

/-- A root is written over two stored halves. -/
theorem Recorded.halves {k l : ℕ} (h : S.Recorded v nodes nodes' i j s z (.ok (k, l)))
    (ho : typed types i lo hi) (hlen : types.length = nodes.length)
    (hr : ∀ node ∈ nodes, S.recent v node) (hlt : lo < hi)
    (ha : ((S.reading v).on nodes).Stores (typed types) a k lo (Segment.midpoint lo hi))
    (hb : ((S.reading v).on nodes).Stores (typed types) b l (Segment.midpoint lo hi + 1) hi) :
    ∃ more, S.Grown v lo hi nodes nodes' types more ∧
      ((S.reading v).on nodes').Stores (typed (types ++ more)) (.node s z a b) j lo hi := by
  obtain ⟨more, hg, ho', hw, hch⟩ := h.grown ho hlen hr
  refine ⟨more, hg, ?_⟩
  exact (ha.mono fun _ _ _ => typed_append more).write_node (typed_exclusive _) hlt ho'
    (hb.mono fun _ _ _ => typed_append more) hw (hch _ _)

/-! ## Updates -/

section Updates

variable {σ : Type} (S) (nodesOf : σ → List Node)

/-- A computation that grows the arena inside the segment and returns a root that stores the tree
`y` returns, or throws what `y` throws. -/
def AmendsTo (v : ℕ) (types : List (ℕ × ℕ)) (x : EStateM Exception σ ℕ) (s : σ)
    (y : Except Exception SumTree) (lo hi : ℕ) : Prop :=
  (∃ t j s' more, y = .ok t ∧ x s = .ok j s' ∧
      S.Grown v lo hi (nodesOf s) (nodesOf s') types more ∧
      ((S.reading v).on (nodesOf s')).Stores (typed (types ++ more)) t j lo hi) ∨
    ∃ e s', y = .error e ∧ x s = .error e s'

variable {S nodesOf} {s₀ : σ} {x y : EStateM Exception σ ℕ} {u w : Except Exception SumTree}

theorem AmendsTo.throw {e : Exception} (hx : x s₀ = .error e s₀) :
    S.AmendsTo nodesOf v types x s₀ (.error e) lo hi := .inr ⟨e, s₀, rfl, hx⟩

/-- The update of one half, or the half left alone. -/
theorem AmendsTo.half {p : Prop} [Decidable p] (hlen : types.length = (nodesOf s₀).length)
    (hr : ∀ node ∈ nodesOf s₀, S.recent v node)
    (hp : p → S.AmendsTo nodesOf v types x s₀ u lo hi)
    (hs : ((S.reading v).on (nodesOf s₀)).Stores (typed types) t i lo hi) :
    S.AmendsTo nodesOf v types (if p then x else pure i) s₀ (if p then u else pure t) lo hi := by
  by_cases h : p
  · rw [if_pos h, if_pos h]
    exact hp h
  · rw [if_neg h, if_neg h]
    exact .inl ⟨t, i, s₀, [], rfl, rfl, .refl hlen hr, by rw [List.append_nil]; exact hs⟩

/-- **Two halves and their root.** The root's node is as it was when it is written. -/
theorem AmendsTo.halves (nodesOf : σ → List Node) (s₀ : σ) {f : ℕ → ℕ → EStateM Exception σ ℕ}
    {g : SumTree → SumTree → Except Exception SumTree} {k : ℕ} (hlt : lo < hi)
    (ho : typed types i lo hi) (hn : (nodesOf s₀)[i]? = some node)
    (hb : ((S.reading v).on (nodesOf s₀)).Stores (typed types) b k (Segment.midpoint lo hi + 1) hi)
    (hx : S.AmendsTo nodesOf v types x s₀ u lo (Segment.midpoint lo hi))
    (hy : ∀ s₁ types₁, types₁.length = (nodesOf s₁).length → (∀ n ∈ nodesOf s₁, S.recent v n) →
      ((S.reading v).on (nodesOf s₁)).Stores (typed types₁) b k (Segment.midpoint lo hi + 1) hi →
      S.AmendsTo nodesOf v types₁ y s₁ w (Segment.midpoint lo hi + 1) hi)
    (hf : ∀ a' b' j' k' s₂ types₂, types₂.length = (nodesOf s₂).length →
      (∀ n ∈ nodesOf s₂, S.recent v n) → typed types₂ i lo hi → (nodesOf s₂)[i]? = some node →
      ((S.reading v).on (nodesOf s₂)).Stores (typed types₂) a' j' lo (Segment.midpoint lo hi) →
      ((S.reading v).on (nodesOf s₂)).Stores (typed types₂) b' k' (Segment.midpoint lo hi + 1) hi →
      S.AmendsTo nodesOf v types₂ (f j' k') s₂ (g a' b') lo hi) :
    S.AmendsTo nodesOf v types (do f (← x) (← y)) s₀ (do g (← u) (← w)) lo hi := by
  have h1 := Segment.le_midpoint lo hi
  have h2 := Segment.midpoint_lt hlt
  rcases hx with ⟨a', j', s₁, more, hu, hx, hg, ha'⟩ | ⟨e, s₁, hu, hx⟩
  swap
  · exact .inr ⟨e, s₁, by rw [hu]; rfl, Effect.run_bind_error hx⟩
  rcases hy s₁ (types ++ more) hg.length hg.recent (hg.keeps hb (.inr (by omega))) with
    ⟨b', k', s₂, more', hw, hy, hg', hb'⟩ | ⟨e, s₂, hw, hy⟩
  swap
  · refine .inr ⟨e, s₂, by rw [hu, hw]; rfl, ?_⟩
    rw [Effect.run_bind_ok hx, Effect.run_bind_error hy]
  have hgrown : S.Grown v lo hi (nodesOf s₀) (nodesOf s₂) types (more ++ more') :=
    (hg.mono le_rfl h2.le).trans (hg'.mono (by omega) le_rfl)
  have hn₂ : (nodesOf s₂)[i]? = some node := by
    rw [hg'.outside i lo hi (typed_append more ho) (by omega),
      hg.outside i lo hi ho (by omega), hn]
  have ha₂ := hg'.keeps ha' (.inl (by omega))
  rw [List.append_assoc] at ha₂ hb'
  rcases hf a' b' j' k' s₂ (types ++ (more ++ more')) hgrown.length hgrown.recent
    (typed_append _ ho) hn₂ ha₂ hb' with ⟨t, j, s₃, more'', hg₃, hx₃, hgrown', hst⟩ | ⟨e, s₃, hg₃, hx₃⟩
  · refine .inl ⟨t, j, s₃, more ++ more' ++ more'', by rw [hu, hw]; exact hg₃, ?_,
      hgrown.trans hgrown', ?_⟩
    · rw [Effect.run_bind_ok hx, Effect.run_bind_ok hy, hx₃]
    · rwa [List.append_assoc types] at hst
  · refine .inr ⟨e, s₃, by rw [hu, hw]; exact hg₃, ?_⟩
    rw [Effect.run_bind_ok hx, Effect.run_bind_ok hy, hx₃]

end Updates

/-! ## All versions -/

variable (S)

/-- In the reading of each version its root stores its tree. -/
def StoresTyped (size : ℕ) (nodes : List Node) (types : List (ℕ × ℕ)) (roots : List ℕ)
    (trees : List SumTree) : Prop :=
  ∀ (v : ℕ) (t : SumTree), trees[v]? = some t → ∃ root, roots[v]? = some root ∧
    ((S.reading v).on nodes).Stores (typed types) t root 0 (size - 1)

/-- Every version is stored, and no node has a later stamp than the latest. -/
structure StoresAll (size : ℕ) (nodes : List Node) (roots : List ℕ) (trees : List SumTree) :
    Prop where
  count : roots.length = trees.length
  recent : ∀ node ∈ nodes, S.recent (roots.length - 1) node
  stores : 0 < size → ∃ types, types.length = nodes.length ∧ S.StoresTyped size nodes types roots trees

variable {S} {size : ℕ} {roots : List ℕ} {trees : List SumTree}

/-- **Building.** A build stores the tree of the array as version 0. -/
theorem StoresAll.of_build {leaf : ValueType → Node} {inner : ℕ → ℕ → ValueType → Node}
    {sumOf : Node → ValueType} (hR : BuildReads (S.reading 0) leaf inner sumOf)
    (hleaf : ∀ x, S.recent 0 (leaf x)) (hinner : ∀ j k x, S.recent 0 (inner j k x))
    {values : List ValueType} {root : ℕ}
    (h : buildArena leaf inner sumOf values 0 (values.length - 1) [] = .ok root nodes) :
    ∃ t, SumTree.build values 0 (values.length - 1) = .ok t ∧
      S.StoresAll values.length nodes [root] [t] := by
  rcases buildArena_spec hR values 0 (values.length - 1) (Nat.zero_le _) [] [] rfl with
    ⟨t, i, more, segments, ht, hb, built⟩ | ⟨e, nodes', -, hb⟩ <;> rw [h] at hb <;> cases hb
  refine ⟨t, ht, rfl, fun node hnode => ?_,
    fun _ => ⟨segments, built.segments_length, fun v x hx => ?_⟩⟩
  · rcases built.made node hnode with ⟨x, rfl⟩ | ⟨j, k, x, rfl⟩
    · exact hleaf x
    · exact hinner j k x
  · rcases getElem?_push (show ([] ++ [t])[v]? = some x from hx) with ⟨hlt, -⟩ | ⟨rfl, rfl⟩
    · exact absurd hlt (Nat.not_lt_zero v)
    · exact ⟨root, rfl, built.stores⟩

/-- An empty array has no nodes. -/
theorem StoresAll.of_empty {root : ℕ} : S.StoresAll 0 [] [root] [t] :=
  ⟨rfl, fun _ hnode => (nomatch hnode), fun hn => absurd hn (lt_irrefl 0)⟩

/-- A query from the root of a version is the query of its tree. -/
theorem StoresAll.query_eq {l r : ℕ} (h : S.StoresAll size nodes roots trees)
    (hsize : size ≤ maxLength) (hn : 0 < size) (hv : v < trees.length) :
    (do ((S.reading v).on nodes).query (← vectorAt roots v) 0 (size - 1) l r 0) =
      (do (← vectorAt trees v).query 0 (size - 1) l r 0) := by
  obtain ⟨types, -, hst⟩ := h.stores hn
  have ht : trees[v]? = some trees[v] := List.getElem?_eq_getElem hv
  obtain ⟨root, hroot, hs⟩ := hst v _ ht
  rw [vectorAt_eq_ok.mpr ht, vectorAt_eq_ok.mpr hroot]
  exact Layout.query_eq (by omega) hs

/-- The latest tree, in the reading of the latest version and of the next. -/
theorem StoresAll.latest (h : S.StoresAll size nodes roots trees)
    (hst : S.StoresTyped size nodes types roots trees) (ht : trees[trees.length - 1]? = some t) :
    ∃ root, roots[roots.length - 1]? = some root ∧ ∀ w, roots.length - 1 ≤ w →
      ((S.reading w).on nodes).Stores (typed types) t root 0 (size - 1) := by
  obtain ⟨root, hroot, hs⟩ := hst _ t ht
  rw [← h.count] at hroot hs
  exact ⟨root, hroot, fun w hw => stores_later h.recent hw hs⟩

/-- **Publishing.** An update of the next version keeps every version before it. -/
theorem StoresAll.publish {root : ℕ} (h : S.StoresAll size nodes roots trees)
    (hst : S.StoresTyped size nodes types roots trees)
    (hg : S.Grown roots.length 0 (size - 1) nodes nodes' types more)
    (hs : ((S.reading roots.length).on nodes').Stores (typed (types ++ more)) t root 0 (size - 1)) :
    S.StoresAll size nodes' (roots ++ [root]) (trees ++ [t]) := by
  refine ⟨by rw [List.length_append, List.length_append, h.count]; rfl, ?_,
    fun _ => ⟨types ++ more, hg.length, fun w x hx => ?_⟩⟩
  · rw [List.length_append, List.length_singleton, Nat.add_sub_cancel]
    exact hg.recent
  · rcases getElem?_push hx with ⟨hlt, hx⟩ | ⟨rfl, rfl⟩
    · obtain ⟨old, hold, hsold⟩ := hst w x hx
      refine ⟨old, ?_, hg.earlier (h.count ▸ hlt) hsold⟩
      rw [List.getElem?_append_left (List.getElem?_eq_some_iff.mp hold).1, hold]
    · rw [← h.count]
      exact ⟨root, List.getElem?_concat_length, hs⟩

/-- A version that changes nothing has the latest root again. -/
theorem StoresAll.republish {root : ℕ} (h : S.StoresAll size nodes roots trees)
    (hroot : roots[roots.length - 1]? = some root) (ht : trees[trees.length - 1]? = some t) :
    S.StoresAll size nodes (roots ++ [root]) (trees ++ [t]) := by
  have hrecent : ∀ node ∈ nodes, S.recent roots.length node :=
    fun node hn => S.recent_mono (Nat.sub_le _ _) (h.recent node hn)
  refine ⟨by rw [List.length_append, List.length_append, h.count]; rfl, ?_, fun hn => ?_⟩
  · rw [List.length_append, List.length_singleton, Nat.add_sub_cancel]
    exact hrecent
  · obtain ⟨types, hlen, hst⟩ := h.stores hn
    obtain ⟨root', hroot', hs⟩ := h.latest hst ht
    rw [hroot, Option.some.injEq] at hroot'
    subst hroot'
    have hpub := h.publish hst (.refl hlen hrecent) (t := t)
      (by rw [List.append_nil]; exact hs _ (Nat.sub_le _ _))
    exact hpub.stores hn

variable (S)

/-- Nodes that are read the same as of every version. -/
def Alike (a b : Node) : Prop :=
  (∀ v, (S.reading v).state b = (S.reading v).state a ∧
    (S.reading v).childrenOf b = (S.reading v).childrenOf a) ∧ ∀ v, S.recent v a → S.recent v b

variable {S}

/-- An arena that is read the same stores the same. -/
theorem StoresAll.congr (h : S.StoresAll size nodes roots trees)
    (hlen : nodes'.length = nodes.length)
    (ha : ∀ (k : ℕ) (a : Node), nodes[k]? = some a → ∃ b, nodes'[k]? = some b ∧ S.Alike a b) :
    S.StoresAll size nodes' roots trees := by
  refine ⟨h.count, fun node hn => ?_, fun hsize => ?_⟩
  · obtain ⟨k, hk⟩ := List.mem_iff_getElem?.mp hn
    have hlt : k < nodes.length := hlen ▸ (List.getElem?_eq_some_iff.mp hk).1
    have hget := List.getElem?_eq_getElem hlt
    obtain ⟨b, hb, hab⟩ := ha k _ hget
    rw [hk, Option.some.injEq] at hb
    subst hb
    exact hab.2 _ (h.recent _ (List.mem_of_getElem? hget))
  · obtain ⟨types, htypes, hst⟩ := h.stores hsize
    refine ⟨types, htypes.trans hlen.symm, fun v t ht => ?_⟩
    obtain ⟨root, hroot, hs⟩ := hst v t ht
    refine ⟨root, hroot, hs.frame fun k a b p hk _ _ _ hp => ?_⟩
    obtain ⟨node, hn, hstate⟩ := NodeReading.exists_of_read hp
    obtain ⟨node', hn', halike⟩ := ha k node hn
    obtain ⟨h1, h2⟩ := halike.1 v
    refine ⟨hk, ?_, fun q hq => ?_⟩
    · rw [NodeReading.read_of_getElem? hn', h1, hstate]
    · rw [NodeReading.children_of_getElem? hn] at hq
      rw [NodeReading.children_of_getElem? hn', h2, hq]

end Stamping

end Valseg
