import Valseg.FatNodeSpace

/-!
# The stamps of fat nodes

What makes the stamp search of a fat node find a state: the states of a node are stamped in
strictly increasing order, and a node that a version reaches has a state that is not younger.

1. `update_stamped`: an update records at most one state in each node, since every node belongs
   to one segment; so the stamps of a node strictly increase.
2. `UnfoldsAt` says what is linked from a node as of a version; a stored tree unfolds
   (`unfoldsAt_of_stores`).
3. `fat_node_stamps` puts them together for all reachable states (`WellStamped`).
-/

namespace Valseg

namespace FatNodePersistentSegmentTree

/-- A node has one to three states, and their stamps strictly increase. -/
structure Stamped (node : Node) : Prop where
  pos : 1 ≤ node.count
  le : node.count ≤ historyCapacity
  increasing : node.states.Pairwise fun a b => a.version < b.version

/-- What is linked from a node as of a version is the canonical partition of a segment: on the way
every node was made by the version, and its state of the version is found. -/
inductive UnfoldsAt (nodes : List Node) (version : ℕ) : ℕ → ℕ → ℕ → Prop
  | single {i lo : ℕ} {node : Node} {state : Modification} (read : nodes[i]? = some node)
      (live : node.history[0].version ≤ version) (found : stateAt node version = .ok state) :
      UnfoldsAt nodes version i lo lo
  | halves {i lo hi : ℕ} {node : Node} {state : Modification} (split : lo < hi)
      (read : nodes[i]? = some node) (live : node.history[0].version ≤ version)
      (found : stateAt node version = .ok state)
      (left : UnfoldsAt nodes version state.leftChild lo (Segment.midpoint lo hi))
      (right : UnfoldsAt nodes version state.rightChild (Segment.midpoint lo hi + 1) hi) :
      UnfoldsAt nodes version i lo hi

/-! ## Recording -/

section Recording

variable {nodes nodes' : List Node} {types more : List (ℕ × ℕ)} {node : Node}
  {state : Modification} {t : SumTree} {v i j lo hi l r : ℕ} {value : ValueType}

theorem stamped_fresh (state : Modification) : Stamped (Node.fresh state) := by
  refine ⟨le_rfl, show 1 ≤ 3 by decide, ?_⟩
  rw [states_fresh]
  exact List.pairwise_singleton _ _

/-- No state of the node has the version yet. -/
def Before (v : ℕ) (node : Node) : Prop := ∀ state ∈ node.states, state.version < v

/-- A state with a new stamp keeps the order. -/
theorem record_stamped (hn : nodes[i]? = some node) (hb : Before v node) (hv : state.version = v)
    (hs : ∀ n ∈ nodes, Stamped n) (hx : record i state nodes = .ok j nodes') :
    ∀ n ∈ nodes', Stamped n := by
  intro n hmem
  unfold record at hx
  rw [Effect.run_bind_ok (readNode_run hn)] at hx
  have hold := hs node (List.mem_of_getElem? hn)
  by_cases hlt : node.count < historyCapacity
  · rw [dif_pos hlt,
      Effect.run_bind_ok (writeSlot_run (List.getElem?_eq_some_iff.mp hn).1)] at hx
    cases hx
    rcases List.mem_or_eq_of_mem_set hmem with hmem | rfl
    · exact hs n hmem
    · refine ⟨Nat.succ_pos _, hlt, ?_⟩
      rw [states_append state hlt, List.pairwise_append]
      refine ⟨hold.increasing, List.pairwise_singleton _ _, fun a ha b hb' => ?_⟩
      rw [List.mem_singleton.mp hb', hv]
      exact hb a ha
  · rw [dif_neg hlt, pushBack_run] at hx
    cases hx
    rcases List.mem_append.mp hmem with hmem | hmem
    · exact hs n hmem
    · rw [List.mem_singleton.mp hmem]
      exact stamped_fresh state

/-- The node belongs to the segment, and the version is not recorded in it. -/
def Pending (v : ℕ) (nodes : List Node) (types : List (ℕ × ℕ)) (k a b : ℕ) : Prop :=
  typed types k a b ∧ ∃ node, nodes[k]? = some node ∧ Before v node

/-- A tree apart from the segment that grew is pending as before. -/
theorem pending_keeps {w lo' hi' : ℕ} (hg : stamping.Grown w lo' hi' nodes nodes' types more)
    (h : ((readingAt v).on nodes).Stores (Pending v nodes types) t i lo hi)
    (hd : hi < lo' ∨ hi' < lo) :
    ((readingAt v).on nodes').Stores (Pending v nodes' (types ++ more)) t i lo hi := by
  refine h.frame fun k a b p hk h1 h2 h3 hp => ?_
  obtain ⟨ho, node, hn, hb⟩ := hk
  have hn' : nodes'[k]? = some node := by rw [hg.outside k a b ho (by omega), hn]
  refine ⟨⟨typed_append more ho, node, hn', hb⟩, ?_, fun q hq => ?_⟩
  · rw [NodeReading.read_of_getElem? hn] at hp
    rw [NodeReading.read_of_getElem? hn', hp]
  · rw [NodeReading.children_of_getElem? hn] at hq
    rw [NodeReading.children_of_getElem? hn', hq]

/-- A half that is descended into, or left alone. -/
theorem half_stamped {p : Prop} [Decidable p] {x : ArenaM Node ℕ} {u : Except Exception SumTree}
    (hlen : types.length = nodes.length) (hr : ∀ node ∈ nodes, Recent v node)
    (hs : ∀ n ∈ nodes, Stamped n) (hp : p → stamping.AmendsTo id v types x nodes u lo hi)
    (hx : p → ∀ {j nodes'}, x nodes = .ok j nodes' → ∀ n ∈ nodes', Stamped n)
    (h : (if p then x else pure i) nodes = .ok j nodes') :
    ∃ more, stamping.Grown v lo hi nodes nodes' types more ∧ ∀ n ∈ nodes', Stamped n := by
  by_cases h0 : p
  · rw [if_pos h0] at h
    rcases hp h0 with ⟨t', j', nodes₁, more, -, hrun, hg, -⟩ | ⟨e, nodes₁, -, hrun⟩ <;>
      rw [h] at hrun <;> cases hrun
    exact ⟨more, hg, hx h0 h⟩
  · rw [if_neg h0] at h
    cases h
    exact ⟨[], .refl hlen hr, hs⟩

/-- **One update.** It records one state in a node at most, and keeps the order of the stamps. -/
theorem update_stamped (value : ValueType) (hhi : hi < maxLength) (h1 : l ≤ hi) (h2 : lo ≤ r)
    (hlen : types.length = nodes.length) (hr : ∀ node ∈ nodes, Recent v node)
    (h : ((readingAt v).on nodes).Stores (Pending v nodes types) t i lo hi)
    (hs : ∀ n ∈ nodes, Stamped n) (hx : update i v lo hi l r value nodes = .ok j nodes') :
    ∀ n ∈ nodes', Stamped n := by
  have ofTyped : ∀ {nodes : List Node} {types : List (ℕ × ℕ)} {t : SumTree} {i lo hi : ℕ},
      ((readingAt v).on nodes).Stores (Pending v nodes types) t i lo hi →
        ((readingAt v).on nodes).Stores (typed types) t i lo hi :=
    fun h => h.mono fun _ _ _ hk => hk.1
  induction t generalizing i j lo hi nodes nodes' types with
  | leaf s z =>
    obtain ⟨hle, ⟨-, node, hn, hb⟩, -⟩ := h
    obtain ⟨state, -, ⟨-, s, z, hx⟩ | ⟨-, hlt, -⟩⟩ := update_eq_ok hn hx
    · exact record_stamped hn hb rfl hs hx
    · omega
  | node s z a b iha ihb =>
    obtain ⟨node, state, hn, -, hlast, hc, -⟩ := exists_state hr (ofTyped h)
    obtain ⟨hlt, ⟨ho, node', hn', hb⟩, -, j₀, k₀, hjk, ha, hbr⟩ := h
    obtain rfl := Option.some.inj (hn.symm.trans hn')
    rw [NodeReading.children_of_getElem? hn, hc] at hjk
    cases hjk
    have hm := Segment.le_midpoint lo hi
    have hm' := Segment.midpoint_lt hlt
    obtain ⟨state', hlast', ⟨-, s, z, hx⟩ | ⟨-, -, j₁, nodes₁, j₂, nodes₂, s, hx₁, hx₂, hx⟩⟩ :=
      update_eq_ok hn hx
    · exact record_stamped hn hb rfl hs hx
    obtain rfl := Except.ok.inj (hlast.symm.trans hlast')
    -- The node itself is as it was before the halves, so it has no state of the version.
    obtain ⟨more₁, hg₁, hs₁⟩ := half_stamped hlen hr hs
      (fun hl => update_amends value (by omega) hl h2 hlen hr (ofTyped ha))
      (fun hl _ _ hx => iha (by omega) hl h2 hlen hr ha hs hx) hx₁
    have hbr₁ := pending_keeps hg₁ hbr (.inr (by omega))
    obtain ⟨more₂, hg₂, hs₂⟩ := half_stamped hg₁.length hg₁.recent hs₁
      (fun hl => update_amends value hhi h1 hl hg₁.length hg₁.recent (ofTyped hbr₁))
      (fun hl _ _ hx => ihb hhi h1 hl hg₁.length hg₁.recent hbr₁ hs₁ hx) hx₂
    have hn₂ : nodes₂[i]? = some node := by
      rw [hg₂.outside i lo hi (typed_append more₁ ho) (by omega),
        hg₁.outside i lo hi ho (by omega), hn]
    exact record_stamped hn₂ hb rfl hs₂ hx

end Recording

/-! ## Reading a version -/

section Reading

variable {nodes : List Node} {node : Node} {state : Modification} {t : SumTree} {v i lo hi : ℕ}
  {own : ℕ → ℕ → ℕ → Prop}

/-- Where the search finds a state, the first one is not younger than the version. -/
theorem live_of_stateAt (h : stateAt node v = .ok state) : node.history[0].version ≤ v := by
  by_contra hlate
  have hfirst : node.history.toList[0]? = some node.history[0] := by simp
  have hnone : upperBound node.states v = 0 := by
    unfold upperBound
    rcases hs : node.states with _ | ⟨first, rest⟩
    · rfl
    · have hget : node.states[0]? = some first := by rw [hs]; rfl
      unfold Node.states at hget
      rw [List.getElem?_take] at hget
      split_ifs at hget
      rw [hfirst, Option.some.injEq] at hget
      rw [List.findIdx_cons, ← hget]
      simp [not_le.mp hlate]
  unfold stateAt at h
  rw [hnone] at h
  cases h

/-- A tree that is stored as of the version unfolds as of it. -/
theorem unfoldsAt_of_stores (h : ((readingAt v).on nodes).Stores own t i lo hi) :
    UnfoldsAt nodes v i lo hi := by
  induction t generalizing i lo hi with
  | leaf s z =>
    obtain ⟨node, hn, hs⟩ := NodeReading.exists_of_stores h
    obtain ⟨state, hfound, -⟩ := Effect.bind_eq_ok.mp hs
    obtain rfl : lo = hi := h.1
    exact .single hn (live_of_stateAt hfound) hfound
  | node s z a b iha ihb =>
    obtain ⟨node, hn, -⟩ := NodeReading.exists_of_stores h
    obtain ⟨hlt, -, -, j, k, hjk, ha, hb⟩ := h
    rw [NodeReading.children_of_getElem? hn] at hjk
    obtain ⟨state, hfound, hjk⟩ := Effect.bind_eq_ok.mp hjk
    cases hjk
    exact .halves hlt hn (live_of_stateAt hfound) hfound (iha ha) (ihb hb)

/-- What unfolds is a node of the arena. -/
theorem UnfoldsAt.lt_length (h : UnfoldsAt nodes v i lo hi) : i < nodes.length := by
  cases h with
  | single read => exact (List.getElem?_eq_some_iff.mp read).1
  | halves _ read => exact (List.getElem?_eq_some_iff.mp read).1

end Reading

/-! ## Reachable states -/

section Runs

variable {s s' : State} {l r : ℕ} {value : ValueType}

/-- Every node of the state has stamps that strictly increase. -/
def AllStamped (s : State) : Prop := ∀ node ∈ s.nodes, Stamped node

theorem initializeFrom_stamped (h : AllStamped s) (values : List ValueType) :
    AllStamped (Effect.finalState (initializeFrom values s)) := by
  rcases hx : initializeFrom values s with ⟨u, s'⟩ | ⟨e, s'⟩
  swap
  · rw [initializeFrom_atomic values _ _ _ hx]
    exact h
  unfold initializeFrom at hx
  by_cases h0 : values = []
  · simp only [if_pos h0] at hx
    cases hx
    intro node hnode
    cases hnode
  simp only [if_neg h0] at hx
  obtain ⟨-, root, nodes, hb, hx⟩ := run_reserved_build_eq_ok (List.length_pos_of_ne_nil h0) hx
  obtain ⟨height, -, hx⟩ := Effect.run_liftM_bind_eq_ok.mp hx
  cases hx
  intro node hnode
  rcases buildArena_spec build_reads values 0 (values.length - 1) (Nat.zero_le _) [] [] rfl with
    ⟨t, i, more, segments, -, hb', built⟩ | ⟨e, nodes', -, hb'⟩ <;>
    rw [build, hb'] at hb <;> cases hb
  rcases built.made node hnode with ⟨x, rfl⟩ | ⟨j, k, x, rfl⟩
  · exact stamped_fresh _
  · exact stamped_fresh _

theorem rangeAdd_stamped {m : VersionedTrees} {h : RangeAdds ℤ} (hs : StoresVersions s m)
    (hv : m.Valid .retaining h) (hall : AllStamped s) {x : ℕ}
    (hx : rangeAdd l r value s = .ok x s') : AllStamped s' := by
  obtain ⟨⟨hlr, hr⟩, root, hroot, ⟨-, rfl⟩ | ⟨-, newRoot, nodes, domain, hu, rfl⟩⟩ :=
    rangeAdd_eq_ok hx
  · exact hall
  have hsize := hs.size
  have hmax := hv.size_le
  obtain ⟨t, ht, -⟩ := hv.latest
  obtain ⟨types, hlen, hst⟩ := hs.all.stores (by omega)
  obtain ⟨root', hroot', hlatest⟩ := hs.all.latest hst ht
  rw [hroot, Option.some.injEq] at hroot'
  subst hroot'
  have hrecent : ∀ node ∈ s.nodes, Recent (s.roots.length - 1) node := hs.all.recent
  have hnext : ∀ node ∈ s.nodes, Recent s.roots.length node :=
    fun node hnode => stamping.recent_mono (Nat.sub_le _ _) (hrecent node hnode)
  have hpos : 0 < s.roots.length := by
    have hlt := (List.getElem?_eq_some_iff.mp hroot).1
    omega
  have hpending : ((readingAt s.roots.length).on s.nodes).Stores
      (Pending s.roots.length s.nodes types) t root 0 (m.size - 1) := by
    refine (hlatest _ (Nat.sub_le _ _)).frame fun k a b p hk _ _ _ hp => ?_
    obtain ⟨node, hn, -⟩ := NodeReading.exists_of_read hp
    refine ⟨⟨hk, node, hn, fun state hstate => ?_⟩, hp, fun q hq => hq⟩
    have hle := (hrecent node (List.mem_of_getElem? hn)).2 state hstate
    omega
  rw [hsize] at hu
  exact update_stamped value (by omega) (by omega) (Nat.zero_le r) hlen hnext hpending hall hu

/-- **Runs.** -/
theorem allStamped_run (calls : List (Call (List ValueType))) :
    AllStamped (engine.run calls).1 := by
  have key : ∀ p : State × Option (History (List ValueType)),
      simulation.Inv p ∧ AllStamped p.1 → ∀ c,
        simulation.Inv (engine.step p c) ∧ AllStamped (engine.step p c).1 := by
    rintro ⟨s, o⟩ ⟨hinv, hall⟩ c
    refine ⟨simulation.inv_step _ c hinv, ?_⟩
    cases c with
    | initializeFrom values =>
      rw [Engine.step_initialize_state]
      exact initializeFrom_stamped hall values
    | rangeAdd l r value =>
      rcases hinv with ⟨-, hfresh⟩ | ⟨h, m, -, -, hrel, hvalid⟩
      · obtain ⟨e, he⟩ := simulation.rangeAdd_fresh l r value hfresh
        rw [Engine.step_rangeAdd_error he]
        exact hall
      rcases hx : rangeAdd l r value s with ⟨x, s'⟩ | ⟨e, s'⟩
      · rw [Engine.step_rangeAdd_ok hx]
        exact rangeAdd_stamped hrel hvalid hall hx
      · rw [Engine.step_rangeAdd_error hx]
        rcases rangeAdd_outcome hrel hvalid l r value with ⟨m', s'', -, hadd, -⟩ | ⟨e', hadd, -⟩ <;>
          rw [hx] at hadd <;> cases hadd
        exact hall
  refine (Engine.runFrom_induction (P := fun p => simulation.Inv p ∧ AllStamped p.1)
    (fun p c hp => key p hp c) calls _ ⟨.inl ⟨rfl, simulation.empty⟩, fun node hnode => ?_⟩).2
  cases hnode

/-- The stamps of a state: every node has one to three states with strictly increasing stamps, the
root of every version unfolds as of the version, no node of it is at the index of the sentinel where
the arena can be indexed, and the latest version reads every node in its latest state. -/
structure WellStamped (s : State) : Prop where
  stamped : AllStamped s
  unfolds : ∀ v root, s.roots[v]? = some root → 0 < s.arraySize →
    UnfoldsAt s.nodes v root 0 (s.arraySize - 1)
  sentinel : s.nodes.length ≤ noNode → ∀ v i lo hi, UnfoldsAt s.nodes v i lo hi → i ≠ noNode
  latest : ∀ node ∈ s.nodes, 0 < versionCount s →
    stateAt node (versionCount s - 1) = latestState node

/-- **Stamps.** Every state that calls lead to is well stamped. -/
theorem fat_node_stamps (calls : List (Call (List ValueType))) :
    WellStamped (engine.run calls).1 := by
  refine ⟨allStamped_run calls, fun v root hroot hpos => ?_, fun hroom v i lo hi hu => ?_,
    fun node hnode hcount => ?_⟩
  · rcases simulation.inv_run calls with ⟨-, hfresh⟩ | ⟨h, m, -, -, hrel, hvalid⟩
    · have hnone : (engine.run calls).1.roots = [] := hfresh
      rw [hnone] at hroot
      cases hroot
    have hsize := hrel.size
    have hlt := (List.getElem?_eq_some_iff.mp hroot).1
    rw [hrel.all.count] at hlt
    obtain ⟨types, -, hst⟩ := hrel.all.stores (by omega)
    obtain ⟨root', hroot', hstored⟩ := hst v _ (List.getElem?_eq_getElem hlt)
    rw [hroot, Option.some.injEq] at hroot'
    subst hroot'
    rw [hsize]
    exact unfoldsAt_of_stores hstored
  · have hlt := hu.lt_length
    omega
  · rcases simulation.inv_run calls with ⟨-, hfresh⟩ | ⟨h, m, -, -, hrel, hvalid⟩
    · have hnone : (engine.run calls).1.roots = [] := hfresh
      unfold versionCount at hcount
      rw [hnone] at hcount
      exact absurd hcount (lt_irrefl 0)
    · exact stateAt_of_recent (hrel.all.recent node hnode) le_rfl

end Runs

end FatNodePersistentSegmentTree

end Valseg
