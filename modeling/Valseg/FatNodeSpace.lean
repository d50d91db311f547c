import Valseg.AllocatingFatNodes
import Valseg.ArenaGrowth
import Valseg.Lib.CanonicalSegments

/-!
# The space of fat nodes

The node that stands for a canonical segment changes each time its three slots are full. `Counted`
says how full it is by the number of updates that visited the segment: a build node starts with one
state, a visit fills one slot more, and the third visit makes a fresh node with one state again. So
an update appends one node for each segment it visits that was visited two, five, eight, … times
before (`update_counted`), and the arena has one node more than its `2 n - 1` for every third visit
of a segment (`fat_node_space`).
-/

namespace Valseg

namespace FatNodePersistentSegmentTree

def nodeCount (this : State) : ℕ := this.nodes.length

/-- The successful non-zero updates whose recursion visits the segment. -/
def visitCount (h : History (List ValueType)) (c : ℕ × ℕ) : ℕ :=
  h.adds.updates.countP fun u => u.amount ≠ 0 ∧ c ∈ Segment.visited 0 (h.size - 1) u.left u.right

/-! ## How full the nodes are -/

section Counted

variable {nodes nodes' nodes'' : List Node} {types types' more more' : List (ℕ × ℕ)}
  {m m' : ℕ × ℕ → ℕ} {i j lo hi l r version : ℕ} {value : ValueType}

/-- The nodes that stand for the segments below an index now, after the segments were visited so
often. -/
inductive Counted (nodes : List Node) (types : List (ℕ × ℕ)) (m : ℕ × ℕ → ℕ) : (i lo hi : ℕ) → Prop
  | leaf {i k : ℕ} {node : Node} (ho : typed types i k k) (hn : nodes[i]? = some node)
      (hc : node.count = m (k, k) % 3 + 1) : Counted nodes types m i k k
  | inner {i lo hi : ℕ} {node : Node} {state : Modification} (hlt : lo < hi)
      (ho : typed types i lo hi) (hn : nodes[i]? = some node)
      (hc : node.count = m (lo, hi) % 3 + 1) (hs : latestState node = .ok state)
      (hleft : Counted nodes types m state.leftChild lo (Segment.midpoint lo hi))
      (hright : Counted nodes types m state.rightChild (Segment.midpoint lo hi + 1) hi) :
      Counted nodes types m i lo hi

/-- The root of counted nodes. -/
theorem Counted.root (h : Counted nodes types m i lo hi) : lo ≤ hi ∧ typed types i lo hi ∧
    ∃ node, nodes[i]? = some node ∧ node.count = m (lo, hi) % 3 + 1 := by
  cases h with
  | leaf ho hn hc => exact ⟨le_rfl, ho, _, hn, hc⟩
  | inner hlt ho hn hc hs _ _ => exact ⟨hlt.le, ho, _, hn, hc⟩

/-- The arena grows, and keeps the nodes of the segments with the property. -/
structure Keeping (P : ℕ → ℕ → Prop) (nodes nodes' : List Node) (types more : List (ℕ × ℕ)) :
    Prop where
  length : (types ++ more).length = nodes'.length
  kept : ∀ k a b, typed types k a b → P a b → nodes'[k]? = nodes[k]?

theorem Keeping.trans {P : ℕ → ℕ → Prop} (h : Keeping P nodes nodes' types more)
    (h' : Keeping P nodes' nodes'' (types ++ more) more') :
    Keeping P nodes nodes'' types (more ++ more') :=
  ⟨by rw [← List.append_assoc, h'.length], fun k a b hk hp => by
    rw [h'.kept k a b (typed_append more hk) hp, h.kept k a b hk hp]⟩

theorem Keeping.mono {P Q : ℕ → ℕ → Prop} (h : Keeping P nodes nodes' types more)
    (hQ : ∀ a b, Q a b → P a b) : Keeping Q nodes nodes' types more :=
  ⟨h.length, fun k a b hk hq => h.kept k a b hk (hQ a b hq)⟩

/-- **Framing.** Kept nodes stay as full as the visits of their segments say. -/
theorem Counted.frame {P : ℕ → ℕ → Prop} (h : Counted nodes types m i lo hi)
    (hg : Keeping P nodes nodes' types more) (hP : ∀ a b, Segment.Canonical lo hi a b → P a b)
    (hm : ∀ a b, Segment.Canonical lo hi a b → m' (a, b) = m (a, b)) :
    Counted nodes' (types ++ more) m' i lo hi := by
  induction h with
  | @leaf i k node ho hn hc =>
    have hself : Segment.Canonical k k k k := .self le_rfl
    exact .leaf (typed_append more ho) ((hg.kept i k k ho (hP k k hself)).trans hn)
      (hm k k hself ▸ hc)
  | @inner i lo hi node state hlt ho hn hc hs _ _ ihl ihr =>
    have hself : Segment.Canonical lo hi lo hi := .self hlt.le
    exact .inner hlt (typed_append more ho) ((hg.kept i lo hi ho (hP lo hi hself)).trans hn)
      (hm lo hi hself ▸ hc) hs (ihl (fun a b hc => hP a b (.left hlt hc))
        fun a b hc => hm a b (.left hlt hc)) (ihr (fun a b hc => hP a b (.right hlt hc))
        fun a b hc => hm a b (.right hlt hc))

/-- One visit more of every segment of the set. -/
def bump (m : ℕ × ℕ → ℕ) (V : Finset (ℕ × ℕ)) (c : ℕ × ℕ) : ℕ := m c + if c ∈ V then 1 else 0

/-- The segments of the set whose nodes are full. -/
def full (m : ℕ × ℕ → ℕ) (V : Finset (ℕ × ℕ)) : ℕ := ∑ c ∈ V, if m c % 3 = 2 then 1 else 0

theorem full_half {p : Prop} [Decidable p] (V : Finset (ℕ × ℕ)) :
    full m (if p then V else ∅) = if p then full m V else 0 := by
  split_ifs <;> rfl

/-- **Recording.** A visit fills one slot more, and where there is none it takes a fresh node. -/
theorem record_counted {node : Node} {state : Modification} {k : ℕ}
    (hlen : types.length = nodes.length) (ho : typed types i lo hi) (hn : nodes[i]? = some node)
    (hc : node.count = k % 3 + 1) (hx : record i state nodes = .ok j nodes') :
    ∃ more node', Keeping (fun a b => ¬ (a = lo ∧ b = hi)) nodes nodes' types more ∧
      typed (types ++ more) j lo hi ∧ nodes'[j]? = some node' ∧ latestState node' = .ok state ∧
      node'.count = (k + 1) % 3 + 1 ∧
      nodes'.length = nodes.length + if k % 3 = 2 then 1 else 0 := by
  have hi' := (List.getElem?_eq_some_iff.mp hn).1
  unfold record at hx
  rw [Effect.run_bind_ok (readNode_run hn)] at hx
  by_cases hlt : node.count < historyCapacity
  · have hk : k % 3 ≠ 2 := by unfold historyCapacity at hlt; omega
    rw [dif_pos hlt, Effect.run_bind_ok (writeSlot_run hi')] at hx
    cases hx
    refine ⟨[], _, ⟨by rw [List.append_nil, List.length_set, hlen], fun k' a b hk' hne => ?_⟩,
      by rwa [List.append_nil], List.getElem?_set_self hi', ?_, ?_, ?_⟩
    · refine List.getElem?_set_ne ?_
      rintro rfl
      exact hne (typed_exclusive types _ _ _ _ _ hk' ho)
    · unfold latestState
      rw [if_neg (Nat.succ_ne_zero _), vectorAt_eq_ok, Nat.add_sub_cancel, Vector.toList_set,
        List.getElem?_set_self (by rw [Vector.length_toList]; exact hlt)]
    · show node.count + 1 = _
      omega
    · rw [List.length_set, if_neg hk, Nat.add_zero]
  · have hk : k % 3 = 2 := by unfold historyCapacity at hlt; omega
    rw [dif_neg hlt, pushBack_run] at hx
    cases hx
    refine ⟨[(lo, hi)], .fresh state, ⟨by rw [List.length_append, List.length_append, hlen]; rfl,
      fun k' a b hk' _ => ?_⟩, ?_, List.getElem?_concat_length, rfl, ?_, ?_⟩
    · have hlt' := (List.getElem?_eq_some_iff.mp hk').1
      exact List.getElem?_append_left (by omega)
    · unfold typed
      rw [← hlen, List.getElem?_concat_length]
    · show 1 = _
      omega
    · rw [List.length_append, if_pos hk]
      rfl

/-- The update of one half, or the half left alone. -/
theorem half_counted {p : Prop} [Decidable p] {V : Finset (ℕ × ℕ)} {x : ArenaM Node ℕ}
    (hlen : types.length = nodes.length) (h : Counted nodes types m i lo hi)
    (hp : p → ∀ {j nodes'}, x nodes = .ok j nodes' → ∃ more,
      Keeping (fun a b => ¬ (lo ≤ a ∧ b ≤ hi)) nodes nodes' types more ∧
      Counted nodes' (types ++ more) (bump m V) j lo hi ∧
      nodes'.length = nodes.length + full m V)
    (hx : (if p then x else pure i) nodes = .ok j nodes') : ∃ more,
      Keeping (fun a b => ¬ (lo ≤ a ∧ b ≤ hi)) nodes nodes' types more ∧
      Counted nodes' (types ++ more) (bump m (if p then V else ∅)) j lo hi ∧
      nodes'.length = nodes.length + full m (if p then V else ∅) := by
  by_cases h0 : p
  · rw [if_pos h0] at hx ⊢
    exact hp h0 hx
  · rw [if_neg h0] at hx ⊢
    cases hx
    have hkeep : Keeping (fun _ _ => True) nodes nodes types [] :=
      ⟨by rw [List.append_nil, hlen], fun _ _ _ _ _ => rfl⟩
    exact ⟨[], hkeep.mono fun _ _ _ => trivial, h.frame hkeep (fun _ _ _ => trivial) fun _ _ _ => rfl,
      rfl⟩

theorem readNode_eq_ok {node : Node} (h : readNode i nodes = .ok node nodes') : nodes' = nodes := by
  have hs := readNode_state i nodes
  rwa [h] at hs

/-- **What an update does.** One that returns has recorded a state in the node it starts at, with
the children of the latest state where the range covers the segment, and otherwise with what the
updates of the halves returned. -/
theorem update_eq_ok {node : Node} (hn : nodes[i]? = some node)
    (hx : update i version lo hi l r value nodes = .ok j nodes') :
    ∃ state, latestState node = .ok state ∧
      ((l ≤ lo ∧ hi ≤ r) ∧ (∃ s z,
          record i ⟨version, state.leftChild, state.rightChild, s, z⟩ nodes = .ok j nodes') ∨
        ¬ (l ≤ lo ∧ hi ≤ r) ∧ lo < hi ∧ ∃ left nodes₁ right nodes₂ s,
          (if l ≤ Segment.midpoint lo hi then
            update state.leftChild version lo (Segment.midpoint lo hi) l r value
            else pure state.leftChild) nodes = .ok left nodes₁ ∧
          (if r > Segment.midpoint lo hi then
            update state.rightChild version (Segment.midpoint lo hi + 1) hi l r value
            else pure state.rightChild) nodes₁ = .ok right nodes₂ ∧
          record i ⟨version, left, right, s, state.lazy⟩ nodes₂ = .ok j nodes') := by
  rw [update, Effect.run_bind_ok (readNode_run hn)] at hx
  obtain ⟨state, hs, hx⟩ := Effect.run_liftM_bind_eq_ok.mp hx
  obtain ⟨length, -, hx⟩ := Effect.run_liftM_bind_eq_ok.mp hx
  refine ⟨state, hs, ?_⟩
  by_cases hin : l ≤ lo ∧ hi ≤ r
  · rw [if_pos hin] at hx
    obtain ⟨s, -, hx⟩ := Effect.run_liftM_bind_eq_ok.mp hx
    obtain ⟨z, -, hx⟩ := Effect.run_liftM_bind_eq_ok.mp hx
    exact .inl ⟨hin, s, z, hx⟩
  rw [if_neg hin] at hx
  by_cases hlt : lo < hi
  swap
  · rw [if_neg hlt] at hx
    cases hx
  rw [if_pos hlt] at hx
  obtain ⟨j₁, nodes₁, h1, hx⟩ := Effect.run_bind_eq_ok.mp hx
  obtain ⟨j₂, nodes₂, h2, hx⟩ := Effect.run_bind_eq_ok.mp hx
  obtain ⟨left, s₁, h3, hx⟩ := Effect.run_bind_eq_ok.mp hx
  rw [readNode_eq_ok h3] at hx
  obtain ⟨leftState, -, hx⟩ := Effect.run_liftM_bind_eq_ok.mp hx
  obtain ⟨right, s₂, h4, hx⟩ := Effect.run_bind_eq_ok.mp hx
  rw [readNode_eq_ok h4] at hx
  obtain ⟨rightState, -, hx⟩ := Effect.run_liftM_bind_eq_ok.mp hx
  obtain ⟨childSum, -, hx⟩ := Effect.run_liftM_bind_eq_ok.mp hx
  obtain ⟨sum, -, hx⟩ := Effect.run_liftM_bind_eq_ok.mp hx
  exact .inr ⟨hin, hlt, j₁, nodes₁, j₂, nodes₂, sum, h1, h2, hx⟩

theorem Keeping.outside (h : Keeping (fun a b => ¬ (a = lo ∧ b = hi)) nodes nodes' types more) :
    Keeping (fun a b => ¬ (lo ≤ a ∧ b ≤ hi)) nodes nodes' types more :=
  h.mono fun _ _ hout heq => hout ⟨heq.1.ge, heq.2.le⟩

/-- A covered segment. -/
theorem cover_counted {node : Node} {state : Modification} {s z : ValueType}
    (hlen : types.length = nodes.length) (h : Counted nodes types m i lo hi)
    (hn : nodes[i]? = some node) (hs : latestState node = .ok state)
    (hx : record i ⟨version, state.leftChild, state.rightChild, s, z⟩ nodes = .ok j nodes') :
    ∃ more, Keeping (fun a b => ¬ (lo ≤ a ∧ b ≤ hi)) nodes nodes' types more ∧
      Counted nodes' (types ++ more) (bump m {(lo, hi)}) j lo hi ∧
      nodes'.length = nodes.length + full m {(lo, hi)} := by
  obtain ⟨hle, ho, old, hold, hcount⟩ := h.root
  rw [hn, Option.some.injEq] at hold
  subst hold
  obtain ⟨more, node', hkeep, ho', hn', hs', hc', hgrow⟩ := record_counted hlen ho hn hcount hx
  have hself : bump m {(lo, hi)} (lo, hi) = m (lo, hi) + 1 := by
    unfold bump
    rw [if_pos (Finset.mem_singleton_self _)]
  have hbelow : ∀ a b, ¬ (a = lo ∧ b = hi) → bump m {(lo, hi)} (a, b) = m (a, b) := by
    intro a b hne
    unfold bump
    rw [if_neg (by rwa [Finset.mem_singleton, Prod.mk.injEq]), Nat.add_zero]
  refine ⟨more, hkeep.outside, ?_, by rw [hgrow, full, Finset.sum_singleton]⟩
  rw [← hself] at hc'
  cases h with
  | leaf _ _ _ => exact .leaf ho' hn' hc'
  | inner hlt _ hn₀ _ hs₀ hleft hright =>
    rw [hn, Option.some.injEq] at hn₀
    subst hn₀
    rw [hs, Except.ok.injEq] at hs₀
    subst hs₀
    have hm := Segment.le_midpoint lo hi
    have hm' := Segment.midpoint_lt hlt
    have hl : ∀ a b, Segment.Canonical lo (Segment.midpoint lo hi) a b → ¬ (a = lo ∧ b = hi) :=
      fun a b hc => by have := hc.bounds; omega
    have hr : ∀ a b, Segment.Canonical (Segment.midpoint lo hi + 1) hi a b →
        ¬ (a = lo ∧ b = hi) := fun a b hc => by have := hc.bounds; omega
    exact .inner hlt ho' hn' hc' hs' (hleft.frame hkeep hl fun a b hc => hbelow a b (hl a b hc))
      (hright.frame hkeep hr fun a b hc => hbelow a b (hr a b hc))

/-- **One update.** Every segment it visits is visited once more, and the full nodes among theirs
are replaced. -/
theorem update_counted : ∀ lo hi, lo ≤ hi → ∀ {nodes types i j nodes'},
    types.length = nodes.length → Counted nodes types m i lo hi →
    update i version lo hi l r value nodes = .ok j nodes' → ∃ more,
      Keeping (fun a b => ¬ (lo ≤ a ∧ b ≤ hi)) nodes nodes' types more ∧
      Counted nodes' (types ++ more) (bump m (Segment.visited lo hi l r)) j lo hi ∧
      nodes'.length = nodes.length + full m (Segment.visited lo hi l r) := by
  refine Segment.halving_induction (fun k nodes types i j nodes' hlen h hx => ?_)
    fun lo hi hlt ihl ihr nodes types i j nodes' hlen h hx => ?_
  · obtain ⟨-, -, node, hn, -⟩ := h.root
    obtain ⟨state, hs, ⟨hin, s, z, hx⟩ | ⟨-, hlt, -⟩⟩ := update_eq_ok hn hx
    · rw [Segment.visited_of_inside hin]
      exact cover_counted hlen h hn hs hx
    · exact absurd hlt (lt_irrefl k)
  · have hm := Segment.le_midpoint lo hi
    have hm' := Segment.midpoint_lt hlt
    obtain ⟨-, -, node, hn, -⟩ := h.root
    obtain ⟨state, hs, ⟨hin, s, z, hx⟩ | ⟨hin, -, j₁, nodes₁, j₂, nodes₂, s, h1, h2, hx⟩⟩ :=
      update_eq_ok hn hx
    · rw [Segment.visited_of_inside hin]
      exact cover_counted hlen h hn hs hx
    cases h with
    | leaf _ _ _ => exact absurd hlt (lt_irrefl _)
    | @inner i lo hi node' state' _ ho hn' hcount hs' hleft hright =>
    obtain rfl := Option.some.inj (hn.symm.trans hn')
    obtain rfl := Except.ok.inj (hs.symm.trans hs')
    obtain ⟨more₁, hk₁, hc₁, hg₁⟩ := half_counted hlen hleft (fun _ => ihl hlen hleft) h1
    have hright₁ : Counted nodes₁ (types ++ more₁) m state.rightChild
        (Segment.midpoint lo hi + 1) hi :=
      hright.frame hk₁ (fun a b hc => by have := hc.bounds; omega) fun _ _ _ => rfl
    obtain ⟨more₂, hk₂, hc₂, hg₂⟩ := half_counted hk₁.length hright₁
      (fun _ => ihr hk₁.length hright₁) h2
    have hn₂ : nodes₂[i]? = some node := by
      rw [hk₂.kept i lo hi (typed_append more₁ ho) (by omega), hk₁.kept i lo hi ho (by omega), hn]
    obtain ⟨more₃, node', hk₃, ho', hn', hs', hc', hg₃⟩ := record_counted hk₂.length
      (typed_append more₂ (typed_append more₁ ho)) hn₂ hcount hx
    have hkeep : Keeping (fun a b => ¬ (lo ≤ a ∧ b ≤ hi)) nodes nodes' types
        (more₁ ++ (more₂ ++ more₃)) :=
      (hk₁.mono fun a b hout hsub => hout ⟨hsub.1, hsub.2.trans hm'.le⟩).trans
        ((hk₂.mono fun a b hout hsub => hout ⟨by omega, hsub.2⟩).trans hk₃.outside)
    have hself : bump m (Segment.visited lo hi l r) (lo, hi) = m (lo, hi) + 1 := by
      unfold bump
      rw [Segment.visited_split hin hlt, if_pos (Finset.mem_insert_self _ _)]
    refine ⟨_, hkeep, ?_, ?_⟩
    · rw [← hself] at hc'
      rw [← List.append_assoc, ← List.append_assoc]
      refine .inner hlt ho' hn' hc' hs' ?_ ?_
      · refine (hc₁.frame hk₂ (fun a b hc => ?_) fun _ _ _ => rfl).frame hk₃ (fun a b hc => ?_)
          fun a b hc => ?_
        · have := hc.bounds
          omega
        · have := hc.bounds
          omega
        · exact congrArg (m (a, b) + ·)
            (if_congr (Segment.mem_visited_left hin hlt hc) rfl rfl)
      · refine hc₂.frame hk₃ (fun a b hc => ?_) fun a b hc => ?_
        · have := hc.bounds
          omega
        · exact congrArg (m (a, b) + ·)
            (if_congr (Segment.mem_visited_right hin hlt hc) rfl rfl)
    · have hsplit : full m (Segment.visited lo hi l r) = _ := Segment.sum_visited _ hin hlt
      rw [hg₃, hg₂, hg₁, full_half, full_half, hsplit]
      unfold full
      omega

end Counted

/-! ## Whole runs -/

section Runs

variable {s s' : State} {h : History (List ValueType)} {l r x : ℕ} {value : ValueType}

/-- An addition that returns has published the latest root again, or the root of its update. -/
theorem rangeAdd_eq_ok (hx : rangeAdd l r value s = .ok x s') : (l ≤ r ∧ r < s.arraySize) ∧
    ∃ root, s.roots[s.roots.length - 1]? = some root ∧
      ((value = 0 ∧ s' = { s with roots := s.roots ++ [root] }) ∨
        (value ≠ 0 ∧ ∃ newRoot nodes domain,
          update root s.roots.length 0 (s.arraySize - 1) l r value s.nodes = .ok newRoot nodes ∧
            s' = { s with
              nodes := nodes, roots := s.roots ++ [newRoot], numericDomain := domain })) := by
  unfold rangeAdd at hx
  rw [Effect.run_bind_ok (Effect.run_get s)] at hx
  obtain ⟨-, -, hx⟩ := Effect.run_liftM_bind_eq_ok.mp hx
  obtain ⟨-, -, hx⟩ := Effect.run_liftM_bind_eq_ok.mp hx
  obtain ⟨⟨⟩, hrange, hx⟩ := Effect.run_liftM_bind_eq_ok.mp hx
  obtain ⟨root, hroot, hx⟩ := Effect.run_liftM_bind_eq_ok.mp hx
  refine ⟨validateRange_eq_ok.mp hrange, root, vectorAt_eq_ok.mp hroot, ?_⟩
  by_cases h0 : value = 0
  · rw [if_pos h0, Effect.run_bind_ok (Effect.run_modify _ s),
      Effect.run_bind_ok (Effect.run_get _)] at hx
    cases hx
    exact .inl ⟨h0, rfl⟩
  rw [if_neg h0] at hx
  obtain ⟨domain, -, hx⟩ := Effect.run_liftM_bind_eq_ok.mp hx
  obtain ⟨-, -, hx⟩ := Effect.run_liftM_bind_eq_ok.mp hx
  obtain ⟨-, -, hx⟩ := Effect.run_liftM_bind_eq_ok.mp hx
  rcases hu : update root s.roots.length 0 (s.arraySize - 1) l r value s.nodes with
    ⟨newRoot, nodes⟩ | ⟨e, nodes⟩
  · rw [Effect.run_bind_ok (Effect.zoom_ok hu), Effect.run_bind_ok (Effect.run_modify _ _)] at hx
    cases hx
    exact .inr ⟨h0, newRoot, nodes, domain, rfl, rfl⟩
  · rw [Effect.run_bind_error (Effect.zoom_error hu)] at hx
    cases hx

/-- A zero update visits nothing. -/
theorem visitCount_zero : visitCount (h.add ⟨l, r, 0⟩) = visitCount h := by
  funext c
  unfold visitCount History.add
  rw [RangeAdds.add_updates, List.countP_append, List.countP_singleton]
  simp

/-- Any other visits the segments its recursion enters. -/
theorem visitCount_add {amount : ℤ} (h0 : amount ≠ 0) : visitCount (h.add ⟨l, r, amount⟩) =
    bump (visitCount h) (Segment.visited 0 (h.size - 1) l r) := by
  funext c
  unfold visitCount bump History.add
  rw [RangeAdds.add_updates, List.countP_append, List.countP_singleton]
  simp [h0]

/-- Every third visit counts. -/
theorem sum_bump {m : ℕ × ℕ → ℕ} {S V : Finset (ℕ × ℕ)} (hV : V ⊆ S) :
    ∑ c ∈ S, bump m V c / 3 = ∑ c ∈ S, m c / 3 + full m V := by
  have hthird : ∀ c, bump m V c / 3 = m c / 3 + if c ∈ V then if m c % 3 = 2 then 1 else 0 else 0 := by
    intro c
    unfold bump
    split_ifs <;> omega
  rw [Finset.sum_congr rfl fun c _ => hthird c, Finset.sum_add_distrib, Finset.sum_ite_mem,
    Finset.inter_eq_right.mpr hV]
  rfl

/-- The nodes of the latest version are as full as the visits of the history say, and the arena
has one node for every third visit, besides those of the build. -/
structure Spaced (s : State) (h : History (List ValueType)) : Prop where
  size : s.arraySize = h.size
  counted : 0 < h.size → ∃ types root, types.length = s.nodes.length ∧
    s.roots[s.roots.length - 1]? = some root ∧
    Counted s.nodes types (visitCount h) root 0 (h.size - 1)
  space : 0 < h.size → s.nodes.length =
    2 * h.size - 1 + ∑ c ∈ Segment.canonicals 0 (h.size - 1), visitCount h c / 3

/-- Build nodes have one state. -/
theorem counted_of_stores {nodes : List Node} {types : List (ℕ × ℕ)} {t : SumTree} {i lo hi : ℕ}
    {m : ℕ × ℕ → ℕ} (hm : ∀ c, m c = 0) (hone : ∀ node ∈ nodes, node.count = 1)
    (h : (latestReading.on nodes).Stores (typed types) t i lo hi) : Counted nodes types m i lo hi := by
  have hcount : ∀ {k a b : ℕ} {node : Node}, nodes[k]? = some node →
      node.count = m (a, b) % 3 + 1 := fun hn => by rw [hm, hone _ (List.mem_of_getElem? hn)]
  induction t generalizing i lo hi with
  | leaf s z =>
    obtain ⟨node, hn, -⟩ := NodeReading.exists_of_stores h
    obtain ⟨rfl, ho, -⟩ := h
    exact .leaf ho hn (hcount hn)
  | node s z a b iha ihb =>
    obtain ⟨node, hn, -⟩ := NodeReading.exists_of_stores h
    obtain ⟨hlt, ho, -, j, k, hjk, ha, hb⟩ := h
    rw [NodeReading.children_of_getElem? hn] at hjk
    obtain ⟨state, hs, hjk⟩ := Effect.bind_eq_ok.mp hjk
    cases hjk
    exact .inner hlt ho hn (hcount hn) hs (iha ha) (ihb hb)

/-- **Building.** -/
theorem Spaced.initializeFrom {values : List ValueType} {u : Unit}
    (hx : initializeFrom values s = .ok u s') : Spaced s' (engine.start values) := by
  have hzero : ∀ c, visitCount (engine.start values) c = 0 := fun _ => rfl
  unfold FatNodePersistentSegmentTree.initializeFrom at hx
  by_cases h0 : values = []
  · simp only [if_pos h0] at hx
    cases hx
    subst h0
    exact ⟨rfl, fun hn => absurd hn (lt_irrefl 0), fun hn => absurd hn (lt_irrefl 0)⟩
  have hn : 0 < values.length := List.length_pos_of_ne_nil h0
  simp only [if_neg h0] at hx
  obtain ⟨count, -, hx⟩ := Effect.run_liftM_bind_eq_ok.mp hx
  obtain ⟨-, -, hx⟩ := Effect.run_liftM_bind_eq_ok.mp hx
  obtain ⟨⟨root, nodes⟩, hbuild, hx⟩ := Effect.run_liftM_bind_eq_ok.mp hx
  obtain ⟨height, -, hx⟩ := Effect.run_liftM_bind_eq_ok.mp hx
  cases hx
  have hb := Effect.onLocal_eq_ok.mp hbuild
  rcases buildArena_spec build_reads values 0 (values.length - 1) (Nat.zero_le _) [] [] rfl with
    ⟨t, i, more, segments, -, hb', built⟩ | ⟨e, nodes', -, hb'⟩ <;>
    rw [build, hb'] at hb <;> cases hb
  have hone : ∀ node ∈ [] ++ more, node.count = 1 := fun node hnode => by
    rcases built.made node hnode with ⟨v, rfl⟩ | ⟨j, k, v, rfl⟩ <;> rfl
  have hrecent : ∀ node ∈ [] ++ more, Recent 0 node := fun node hnode => by
    rcases built.made node hnode with ⟨v, rfl⟩ | ⟨j, k, v, rfl⟩ <;> exact recent_fresh le_rfl
  refine ⟨rfl, fun _ => ⟨segments, root, built.segments_length, rfl,
    counted_of_stores hzero hone (stores_latest hrecent built.stores)⟩, fun _ => ?_⟩
  rw [Finset.sum_eq_zero fun c _ => show visitCount (engine.start values) c / 3 = 0 by
    rw [hzero, Nat.zero_div]]
  have hlen := buildArena_grows values 0 (values.length - 1) (Nat.zero_le _) hb'
  rw [hlen]
  show 0 + (2 * (values.length - 1 - 0) + 1) = 2 * values.length - 1 + 0
  omega

/-- **One addition.** -/
theorem Spaced.rangeAdd (hs : Spaced s h)
    (hx : FatNodePersistentSegmentTree.rangeAdd l r value s = .ok x s') :
    Spaced s' (h.add ⟨l, r, value.toInt⟩) ∧
      s'.nodes.length ≤ s.nodes.length + Segment.visits 0 (h.size - 1) l r := by
  have hpush : ∀ root : ℕ,
      (s.roots ++ [root])[(s.roots ++ [root]).length - 1]? = some root := fun root => by
    rw [List.length_append, List.length_singleton, Nat.add_sub_cancel, List.getElem?_concat_length]
  obtain ⟨⟨hlr, hr⟩, root, hroot, ⟨h0, rfl⟩ | ⟨h0, newRoot, nodes, domain, hu, rfl⟩⟩ :=
    rangeAdd_eq_ok hx
  · refine ⟨⟨hs.size, fun hn => ?_, fun hn => ?_⟩, Nat.le_add_right _ _⟩ <;>
      rw [h0, Int64.toInt_zero, visitCount_zero]
    · obtain ⟨types, root', hlen, hroot', hc⟩ := hs.counted hn
      rw [hroot, Option.some.injEq] at hroot'
      subst hroot'
      exact ⟨types, root, hlen, hpush root, hc⟩
    · exact hs.space hn
  · have hn : 0 < h.size := hs.size ▸ Nat.zero_lt_of_lt hr
    have hne : value.toInt ≠ 0 := fun h => h0 (Int64.toInt_inj.mp (h.trans Int64.toInt_zero.symm))
    obtain ⟨types, root', hlen, hroot', hc⟩ := hs.counted hn
    rw [hroot, Option.some.injEq] at hroot'
    subst hroot'
    rw [hs.size] at hu hr
    obtain ⟨more, hkeep, hc', hgrow⟩ := update_counted 0 (h.size - 1) (Nat.zero_le _) hlen hc hu
    have hsub := Segment.visited_subset l r 0 (h.size - 1) (Nat.zero_le _)
    have hspace := hs.space hn
    refine ⟨⟨hs.size, fun _ => ?_, fun _ => ?_⟩, ?_⟩
    · rw [visitCount_add hne]
      exact ⟨types ++ more, newRoot, hkeep.length, hpush newRoot, hc'⟩
    · show nodes.length = 2 * h.size - 1 + ∑ c ∈ Segment.canonicals 0 (h.size - 1),
        visitCount (h.add ⟨l, r, value.toInt⟩) c / 3
      rw [visitCount_add hne, sum_bump hsub, ← Nat.add_assoc, ← hspace]
      exact hgrow
    · have hfull : full (visitCount h) (Segment.visited 0 (h.size - 1) l r) ≤
          (Segment.visited 0 (h.size - 1) l r).card := by
        rw [Finset.card_eq_sum_ones]
        exact Finset.sum_le_sum fun c _ => by split_ifs <;> omega
      rw [Segment.card_visited 0 (h.size - 1) (Nat.zero_le _) (by omega) (Nat.zero_le r)] at hfull
      show nodes.length ≤ _
      omega

/-- What every call keeps. -/
def Kept (p : State × Option (History (List ValueType))) : Prop :=
  (simulation.Inv p ∧ Measured p.1) ∧ ∀ h ∈ p.2, Spaced p.1 h

/-- **One call.** -/
theorem Kept.step {p : State × Option (History (List ValueType))} (hp : Kept p)
    (c : Call (List ValueType)) : Kept (engine.step p c) := by
  obtain ⟨⟨hinv, hmeasured⟩, hspaced⟩ := hp
  have hinv' := simulation.inv_step p c hinv
  obtain ⟨s, o⟩ := p
  cases c with
  | initializeFrom values =>
    have hm : Measured (Effect.finalState (engine.initializeFrom values s)) :=
      initializeFrom_measured hmeasured values
    rcases hi : engine.initializeFrom values s with ⟨u, s'⟩ | ⟨e, s'⟩ <;> rw [hi] at hm
    · rw [Engine.step_initialize_ok hi] at hinv' ⊢
      refine ⟨⟨hinv', hm⟩, ?_⟩
      rintro h ⟨⟩
      exact .initializeFrom hi
    · rw [Engine.step_initialize_error hi, simulation.initialize_error hi]
      exact ⟨⟨hinv, hmeasured⟩, hspaced⟩
  | rangeAdd l r value =>
    have hm : Measured (Effect.finalState (engine.rangeAdd l r value s)) :=
      rangeAdd_measured hmeasured l r value
    rcases hi : engine.rangeAdd l r value s with ⟨x, s'⟩ | ⟨e, s'⟩ <;> rw [hi] at hm
    · rw [Engine.step_rangeAdd_ok hi] at hinv' ⊢
      refine ⟨⟨hinv', hm⟩, fun h hh => ?_⟩
      obtain ⟨h', hh', rfl⟩ := Option.map_eq_some_iff.mp hh
      exact ((hspaced h' hh').rangeAdd hi).1
    · rw [Engine.step_rangeAdd_error hi,
        ← Allocating.Sound.rangeAdd_error ⟨⟨o, hinv⟩, hmeasured⟩ hi]
      exact ⟨⟨hinv, hmeasured⟩, hspaced⟩

/-- **Runs.** -/
theorem kept_run (calls : List (Call (List ValueType))) : Kept (engine.run calls) :=
  Engine.runFrom_induction (fun _ c hp => hp.step c) calls _
    ⟨⟨.inl ⟨rfl, simulation.empty⟩, fun h => absurd h (lt_irrefl 0)⟩, nofun⟩

/-- Once an addition is prepared there is room for all that the reservation promises, and in that
room its publication makes no request and moves no vector. -/
def PublishesInPlace (A : Allocation.Allocator) (s : Allocation.Allocated TreeVector State)
    (l r : ℕ) (value : ValueType) : Prop :=
  ∀ root domain t, Allocating.prepareUpdate A s.state root l r value s = .ok domain t →
    (nodeCount s.state + 4 * (Nat.clog 2 s.state.arraySize + 1) ≤ t.capacity .nodes ∧
      s.state.roots.length + 1 ≤ t.capacity .roots) ∧
    (∀ u, Allocating.publishUpdate A s.state root l r value domain t ≠ .error .badAlloc u) ∧
    (Effect.finalState (Allocating.publishUpdate A s.state root l r value domain t)).requests =
      t.requests ∧
    (Effect.finalState (Allocating.publishUpdate A s.state root l r value domain t)).capacity =
      t.capacity

/-- **The space of fat nodes.** The arena has one node for every third visit of a canonical
segment, besides those of the build; an update appends no more than the reservation promises; and
its publication happens in place. -/
theorem fat_node_space :
    (∀ s h, engine.Reachable s h → 0 < h.size →
      nodeCount s = 2 * h.size - 1 +
          ∑ c ∈ Segment.canonicals 0 (h.size - 1), visitCount h c / 3 ∧
        ∀ l r value x s', rangeAdd l r value s = .ok x s' →
          nodeCount s' ≤ nodeCount s + 4 * (Nat.clog 2 h.size + 1)) ∧
      ∀ A calls l r value, l ≤ r → r < (Allocating.engine.run A calls).state.arraySize →
        PublishesInPlace A (Allocating.engine.run A calls) l r value := by
  refine ⟨fun s h hr hn => ?_, fun A calls l r value h1 h2 root domain t hp => ?_⟩
  · obtain ⟨calls, hrun⟩ := hr
    have hspaced := (kept_run calls).2
    rw [hrun] at hspaced
    have hs := hspaced h rfl
    refine ⟨hs.space hn, fun l r value x s' hx => (hs.rangeAdd hx).2.trans ?_⟩
    obtain ⟨⟨hlr, hr⟩, -⟩ := rangeAdd_eq_ok hx
    have := Allocating.visits_le_reserved l r hlr (hs.size ▸ hr)
    exact Nat.add_le_add_left this _
  · have hmeasured := (Allocating.run_sound A calls).2 (Nat.zero_lt_of_lt h2)
    refine ⟨?_, Allocating.publishes_in_place A calls h1 h2 hp⟩
    rcases Allocating.prepareUpdate_cases A l r value root (Allocating.engine.run A calls) with
      ⟨f, u, hu, -⟩ | ⟨domain', u, hu, hreserved⟩ <;> rw [hu] at hp <;> cases hp
    rw [← hmeasured]
    exact hreserved.2

/-- Three elements, and three visits of the root. -/
abbrev threeVisits : List (Call (List ValueType)) :=
  [.initializeFrom [1, 2, 3], .rangeAdd 0 2 5, .rangeAdd 0 1 7, .rangeAdd 0 2 (-5)]

/-- No request fails, and a vector gets the room it asks for. -/
def exactAllocator : Allocation.Allocator where
  fails _ := false
  growth _ needed := needed
  le_growth _ _ := le_rfl

/-- The fresh node is the root's. -/
theorem fat_node_space_three : nodeCount (engine.run threeVisits).1 = 6 ∧
    PublishesInPlace exactAllocator (Allocating.engine.run exactAllocator threeVisits) 0 1 5 := by
  have hr : engine.Reachable (engine.run threeVisits).1
      (engine.historyOf [1, 2, 3] [⟨0, 2, 5⟩, ⟨0, 1, 7⟩, ⟨0, 2, -5⟩]) :=
    Engine.reachable_run (by decide +kernel)
  refine ⟨?_, fat_node_space.2 _ _ _ _ _ (by decide) (by decide +kernel)⟩
  rw [(fat_node_space.1 _ _ hr (by decide)).1]
  decide +kernel

end Runs

end FatNodePersistentSegmentTree

end Valseg
