import Valseg.CheckpointingSegmentTree
import Valseg.FatNodePersistentSegmentTree
import Valseg.LazySegmentTree

/-!
# Update preflights

Three structures write their updates in place and cannot undo one, so a read-only preflight runs
first. It reads children that the update will have overwritten when it reads them, and descends
under different conditions. In every reachable state the preflight predicts the update
(`preflights_predict`): it throws where the update throws, and it returns the sum that the update
leaves at the root.

`update_spec` and `update_amends` say what the updates do where the update of the stored tree
returns. The other half is here: where that throws, the update in place throws (`update_throws`).
-/

namespace Valseg

/-- The preflight predicts the update in the state; `rootSum` reads the root that the update
leaves. -/
structure Predicts {σ α : Type} (preflight : Except Exception ValueType)
    (update : EStateM Exception σ α) (s : σ) (rootSum : α → σ → Except Exception ValueType) :
    Prop where
  throws : (∃ e, preflight = .error e) ↔ ∃ e s', update s = .error e s'
  returns : ∀ w, preflight = .ok w → ∃ a s', update s = .ok a s' ∧ rootSum a s' = .ok w

/-- What decides the update of a tree predicts an update that ends as the tree's does. -/
theorem Predicts.of_decides {σ α : Type} {preflight : Except Exception ValueType}
    {x : Except Exception SumTree} {update : EStateM Exception σ α} {s : σ}
    {rootSum : α → σ → Except Exception ValueType} (h : SumTree.Decides preflight x)
    (hok : ∀ t', x = .ok t' → ∃ a s', update s = .ok a s' ∧ rootSum a s' = .ok t'.sum)
    (herr : ∀ e, x = .error e → ∃ e' s', update s = .error e' s') :
    Predicts preflight update s rootSum := by
  rcases h with ⟨t', hx, hy⟩ | ⟨⟨e, hx⟩, w, hy⟩
  · obtain ⟨a, s', hu, hsum⟩ := hok t' hx
    refine ⟨⟨?_, ?_⟩, fun w hw => ⟨a, s', hu, ?_⟩⟩
    · rintro ⟨e, he⟩
      rw [hy] at he
      cases he
    · rintro ⟨e, s'', he⟩
      rw [hu] at he
      cases he
    · rw [hy] at hw
      cases hw
      exact hsum
  · refine ⟨⟨fun _ => herr e hx, fun _ => ⟨_, hy⟩⟩, fun w hw => ?_⟩
    rw [hy] at hw
    cases hw

/-! ## Updates in place that throw -/

section InPlace

variable {σ : Type} {layoutOf : σ → Layout} {own : ℕ → ℕ → ℕ → Prop} {Fits : σ → Prop} {s : σ}
  {a b : SumTree} {i j k lo hi : ℕ} {x y f : EStateM Exception σ Unit}
  {u v : Except Exception SumTree} {e : Exception}

/-- The computation throws. -/
def Throws (x : EStateM Exception σ Unit) (s : σ) : Prop := ∃ e s', x s = .error e s'

/-- The computation makes the tree in place, or throws where there is none. -/
structure Follows (layoutOf : σ → Layout) (own : ℕ → ℕ → ℕ → Prop) (Fits : σ → Prop)
    (x : EStateM Exception σ Unit) (s : σ) (u : Except Exception SumTree) (i lo hi : ℕ) : Prop where
  updates : ∀ t', u = .ok t' → UpdatesTo layoutOf own Fits x s t' i lo hi
  throws : ∀ e, u = .error e → Throws x s

/-- One half, or the half left alone. -/
theorem Follows.half {p : Prop} [Decidable p] (hf : Fits s)
    (h : (layoutOf s).Stores own a i lo hi)
    (hp : p → Follows layoutOf own Fits x s u i lo hi) :
    Follows layoutOf own Fits (if p then x else pure ()) s (if p then u else pure a) i lo hi := by
  by_cases h1 : p
  · rw [if_pos h1, if_pos h1]
    exact hp h1
  · rw [if_neg h1, if_neg h1]
    refine ⟨fun t' hu => ?_, fun e hu => nomatch hu⟩
    cases hu
    exact .refl hf h

/-- **Halves.** The first half that throws ends the update, and after both halves the root is
rebuilt over them. -/
theorem throws_halves {g : SumTree → SumTree → Except Exception SumTree} {sum tag : ValueType}
    (hlt : lo < hi) (ho : own i lo hi) (hr : (layoutOf s).read i = .ok (sum, tag))
    (hc : (layoutOf s).children i lo (Segment.midpoint lo hi) = .ok (j, k))
    (hb : (layoutOf s).Stores own b k (Segment.midpoint lo hi + 1) hi)
    (hx : Follows layoutOf own Fits x s u j lo (Segment.midpoint lo hi))
    (hy : ∀ s₁, Fits s₁ → (layoutOf s₁).Stores own b k (Segment.midpoint lo hi + 1) hi →
      Follows layoutOf own Fits y s₁ v k (Segment.midpoint lo hi + 1) hi)
    (hg : ∀ s₂ a' b' e, (layoutOf s₂).read i = .ok (sum, tag) →
      (layoutOf s₂).read j = .ok (a'.sum, a'.tag) → (layoutOf s₂).read k = .ok (b'.sum, b'.tag) →
      g a' b' = .error e → Throws f s₂)
    (hu : (do let a' ← u; let b' ← v; g a' b') = .error e) : Throws (do x; y; f) s := by
  have hm := Segment.midpoint_lt hlt
  rcases Effect.bind_eq_error.mp hu with hu | ⟨a', hua, hu⟩
  · obtain ⟨e', s', hrun⟩ := hx.throws e hu
    exact ⟨e', s', Effect.run_bind_error hrun⟩
  obtain ⟨s₁, hrun₁, fits₁, sa, ka⟩ := hx.updates a' hua
  have hb₁ := hb.keep ka (.inr (by omega))
  rcases Effect.bind_eq_error.mp hu with hu | ⟨b', hub, hu⟩
  · obtain ⟨e', s', hrun⟩ := (hy s₁ fits₁ hb₁).throws e hu
    exact ⟨e', s', by rw [Effect.run_bind_ok hrun₁, Effect.run_bind_error hrun]⟩
  obtain ⟨s₂, hrun₂, fits₂, sb, kb⟩ := (hy s₁ fits₁ hb₁).updates b' hub
  obtain ⟨hr₂, -, sa₂, -⟩ := Layout.Stores.updated_halves hlt ho hr hc ka kb sa
  obtain ⟨e', s', hrun⟩ := hg s₂ a' b' e hr₂ sa₂.read sb.read hu
  exact ⟨e', s', by rw [Effect.run_bind_ok hrun₁, Effect.run_bind_ok hrun₂, hrun]⟩

end InPlace

namespace LazySegmentTree

variable {st : Storage} {t : SumTree} {size i lo hi l r : ℕ} {value : ValueType} {e : Exception}

/-- A covered segment. -/
theorem cover_throws (hn : 0 < size) (hf : Fits size st)
    (h : (layout st).Stores (HeapSlot size) t i lo hi) (hu : t.cover lo hi value = .error e) :
    Throws (do
      let sum ← SumAddPolicy.apply value (← readTree i) (Segment.length lo hi)
      writeTree i sum
      let tag ← checkedAdd (← readLazy i) value
      writeLazy i tag) st := by
  obtain ⟨hs, hz⟩ := layout_read.mp h.read
  have hlen : i < st.tree.length := by
    rw [hf.1]
    exact h.owned.bound hn
  rcases Effect.bind_eq_error.mp hu with hs' | ⟨sum, hs', hu⟩
  · refine ⟨e, st, ?_⟩
    rw [Effect.run_bind_ok (readTree_run hs), hs']
    rfl
  rcases Effect.bind_eq_error.mp hu with hz' | ⟨tag, -, hu⟩
  · have hz₁ : (⟨st.tree.set i sum, st.lazy⟩ : Storage).lazy[i]? = some t.tag := hz
    refine ⟨e, ⟨st.tree.set i sum, st.lazy⟩, ?_⟩
    rw [Effect.run_bind_ok (readTree_run hs), hs', Effect.run_bind_ok (Effect.liftM_ok _ _),
      Effect.run_bind_ok (writeTree_run hlen), Effect.run_bind_ok (readLazy_run hz₁), hz']
    rfl
  · cases hu

/-- **One update that throws.** -/
theorem update_throws (hn : 0 < size) (hhi : hi < maxLength) (h1 : l ≤ hi) (h2 : lo ≤ r)
    (hf : Fits size st) (h : (layout st).Stores (HeapSlot size) t i lo hi)
    (hu : SumTree.updateWith SumTree.rebuildFromChildren l r value t lo hi = .error e) :
    Throws (update i lo hi l r value) st := by
  induction t generalizing i lo hi st e with
  | leaf s z =>
    have hle : lo = hi := h.1
    have hin : l ≤ lo ∧ hi ≤ r := by omega
    rw [SumTree.updateWith, if_pos hin] at hu
    unfold Throws
    rw [update, inclusiveLength_eq hle.le (Layout.lt_sizeMax hhi),
      Effect.run_bind_ok (Effect.liftM_ok _ _), if_pos hin]
    exact cover_throws hn hf h hu
  | node s z a b iha ihb =>
    have hlt := h.1
    have hm := Segment.midpoint_lt hlt
    unfold Throws
    rw [update, inclusiveLength_eq hlt.le (Layout.lt_sizeMax hhi),
      Effect.run_bind_ok (Effect.liftM_ok _ _)]
    by_cases hin : l ≤ lo ∧ hi ≤ r
    · rw [SumTree.updateWith, if_pos hin] at hu
      rw [if_pos hin]
      exact cover_throws hn hf h hu
    rw [SumTree.updateWith, if_neg hin] at hu
    rw [if_neg hin, if_pos hlt]
    obtain ⟨-, ho, hread, j, k, hc, ha, hb⟩ := h
    have hjk := hc
    cases hjk
    refine throws_halves hlt ho hread hc hb
      (.half hf ha fun hl => ⟨fun _ => update_spec hn (by omega) hl h2 hf ha,
        fun _ => iha (by omega) hl h2 hf ha⟩)
      (fun st₁ hf₁ hb₁ => .half hf₁ hb₁ fun hl => ⟨fun _ => update_spec hn hhi h1 hl hf₁ hb₁,
        fun _ => ihb hhi h1 hl hf₁ hb₁⟩)
      (fun st₂ a' b' e' hr hrl hrr hg => ?_) hu
    have hz := (layout_read.mp hr).2
    have hl := (layout_read.mp hrl).1
    have hr' := (layout_read.mp hrr).1
    refine ⟨e', st₂, ?_⟩
    rw [Effect.run_bind_ok (readLazy_run hz), Effect.run_bind_ok (readTree_run hl),
      Effect.run_bind_ok (readTree_run hr')]
    rcases Effect.bind_eq_error.mp hg with hg | ⟨sum, -, hg⟩
    · rcases Effect.bind_eq_error.mp hg with hg | ⟨c, hcs, hg⟩
      · rw [hg]
        rfl
      · rw [hcs, Effect.run_bind_ok (Effect.liftM_ok _ _), hg]
        rfl
    · cases hg

/-- The preflight predicts the update of the latest tree. -/
theorem validateUpdate_predicts {s : State} {h : History (List ValueType)}
    (hr : engine.Reachable s h) (hlr : l ≤ r) (hrn : r < s.arraySize) :
    Predicts (validateUpdate s.toStorage 0 0 (s.arraySize - 1) l r value)
      (update 0 0 (s.arraySize - 1) l r value) s.toStorage fun _ st => vectorAt st.tree 0 := by
  obtain ⟨m, -, hs, hv, -⟩ := reaches hr
  obtain ⟨t, ht, -⟩ := hv.latest
  rw [hs.size] at hrn ⊢
  have hn : 0 < m.size := by omega
  have hst := hs.stores hn t ht
  have hsize := hv.size_le
  have hhi : m.size - 1 < maxLength := by omega
  have h1 : l ≤ m.size - 1 := by omega
  refine .of_decides (x := SumTree.updateWith SumTree.rebuildFromChildren l r value t 0
    (m.size - 1)) ?_ (fun t' hu => ?_) fun e hu =>
      update_throws hn hhi h1 (Nat.zero_le r) hs.fits hst hu
  · unfold validateUpdate
    rw [Layout.validateUpdate_eq hhi hst]
    exact SumTree.validateUpdate_decides hhi h1 (Nat.zero_le r) hst.spans
  · obtain ⟨st', hx, -, hst', -⟩ := update_spec hn hhi h1 (Nat.zero_le r) hs.fits hst hu
    exact ⟨(), st', hx, vectorAt_eq_ok.mpr (layout_read.mp hst'.read).1⟩

end LazySegmentTree

namespace FatNodePersistentSegmentTree

/-- The preflight predicts the update of the latest tree, which makes the next version. -/
theorem validateUpdate_predicts {s : State} {h : History (List ValueType)} {l r : ℕ}
    {value : ValueType} (hr : engine.Reachable s h) (hlr : l ≤ r) (hrn : r < s.arraySize) :
    ∃ root, vectorAt s.roots (s.roots.length - 1) = .ok root ∧
      Predicts (validateUpdate s.nodes root 0 (s.arraySize - 1) l r value)
        (update root s.roots.length 0 (s.arraySize - 1) l r value) s.nodes
        fun newRoot nodes => do return (← latestState (← vectorAt nodes newRoot)).sum := by
  obtain ⟨m, -, hs, hv, -⟩ := reaches hr
  obtain ⟨t, ht, -⟩ := hv.latest
  rw [hs.size] at hrn ⊢
  have hn : 0 < m.size := by omega
  obtain ⟨types, hlen, hall⟩ := hs.all.stores hn
  obtain ⟨root, hroot, hlatest⟩ := hs.all.latest hall ht
  have hsize := hv.size_le
  have hhi : m.size - 1 < maxLength := by omega
  have h1 : l ≤ m.size - 1 := by omega
  have hst := stores_latest hs.all.recent (hlatest _ le_rfl)
  have hrecent : ∀ node ∈ s.nodes, Recent s.roots.length node :=
    fun node hnode => stamping.recent_mono (Nat.sub_le _ _) (hs.all.recent node hnode)
  have hu := update_amends (l := l) (r := r) value hhi h1 (Nat.zero_le r) hlen hrecent
    (hlatest _ (Nat.sub_le _ _))
  refine ⟨root, vectorAt_eq_ok.mpr hroot, .of_decides (x := SumTree.updateWith
    SumTree.rebuildFromChildren l r value t 0 (m.size - 1)) ?_ (fun t' ht' => ?_) fun e he => ?_⟩
  · unfold validateUpdate
    rw [Layout.validateUpdate_eq hhi hst]
    exact SumTree.validateUpdate_decides hhi h1 (Nat.zero_le r) hst.spans
  · rcases hu with ⟨t'', j, nodes', more, hu, hx, hg, hst'⟩ | ⟨e, nodes', hu, -⟩ <;>
      rw [ht'] at hu <;> cases hu
    obtain ⟨node, state, hnode, -, hlast, -, hsum, -⟩ := exists_state hg.recent hst'
    have hat : vectorAt nodes' j = .ok node := vectorAt_eq_ok.mpr hnode
    refine ⟨j, nodes', hx, ?_⟩
    rw [hat, Effect.ok_bind, hlast, Effect.ok_bind, hsum]
    rfl
  · rcases hu with ⟨t'', j, nodes', more, hu, -⟩ | ⟨e', nodes', hu, hx⟩ <;> rw [he] at hu <;>
      cases hu
    exact ⟨e, nodes', hx⟩

end FatNodePersistentSegmentTree

namespace CheckpointingSegmentTree

variable {nodes : List Node} {t : SumTree} {size i lo hi l r : ℕ} {value : ValueType}
  {e : Exception}

/-- A covered segment. -/
theorem cover_throws (hn : 0 < size) (hlo : lo ≤ hi) (hhi : hi < maxLength) (hf : Fits size nodes)
    (h : (layout nodes).Stores (Slot size) t i lo hi) (hin : l ≤ lo ∧ hi ≤ r)
    (hu : t.cover lo hi value = .error e) : Throws (update i lo hi l r value) nodes := by
  obtain ⟨node, hnode, hs, hz⟩ := exists_node h
  have hlen : i < nodes.length := by
    rw [hf]
    exact slot_lt hn h.owned
  unfold Throws
  rw [update, if_neg (by omega), Effect.run_bind_ok (readNode_run hnode), if_pos hin,
    segmentLength, inclusiveLength_eq hlo (Layout.lt_sizeMax hhi),
    Effect.run_bind_ok (Effect.liftM_ok _ _), hs]
  rcases Effect.bind_eq_error.mp hu with hs' | ⟨sum, hs', hu⟩
  · refine ⟨e, nodes, ?_⟩
    rw [hs']
    rfl
  rcases Effect.bind_eq_error.mp hu with hz' | ⟨tag, -, hu⟩
  · refine ⟨e, nodes.set i ⟨sum, node.lazy⟩, ?_⟩
    rw [hs', Effect.run_bind_ok (Effect.liftM_ok _ _), Effect.run_bind_ok (writeSlot_run hlen),
      hz, hz']
    rfl
  · cases hu

/-- An update of a half that it is apart from does nothing, and so does none. -/
theorem follows_half {p : Prop} [Decidable p] (hf : Fits size nodes)
    (h : (layout nodes).Stores (Slot size) t i lo hi) (hp : ¬ p → hi < l ∨ lo > r)
    (hu : p → Follows layout (Slot size) (Fits size) (update i lo hi l r value) nodes
      (SumTree.updateWith SumTree.rebuildFromChildren l r value t lo hi) i lo hi) :
    Follows layout (Slot size) (Fits size) (update i lo hi l r value) nodes
      (if p then SumTree.updateWith SumTree.rebuildFromChildren l r value t lo hi else pure t)
      i lo hi := by
  have key := Follows.half hf h hu
  by_cases h1 : p
  · rwa [if_pos h1] at key
  · have hapart : update i lo hi l r value = pure () := update_apart (hp h1)
    rwa [if_neg h1, ← hapart] at key

/-- **One update that throws.** -/
theorem update_throws (hn : 0 < size) (hhi : hi < maxLength) (h1 : l ≤ hi) (h2 : lo ≤ r)
    (hf : Fits size nodes) (h : (layout nodes).Stores (Slot size) t i lo hi)
    (hu : SumTree.updateWith SumTree.rebuildFromChildren l r value t lo hi = .error e) :
    Throws (update i lo hi l r value) nodes := by
  induction t generalizing i lo hi nodes e with
  | leaf s z =>
    have hle : lo = hi := h.1
    have hin : l ≤ lo ∧ hi ≤ r := by omega
    rw [SumTree.updateWith, if_pos hin] at hu
    exact cover_throws hn hle.le hhi hf h hin hu
  | node s z a b iha ihb =>
    have hlt := h.1
    have hm := Segment.midpoint_lt hlt
    by_cases hin : l ≤ lo ∧ hi ≤ r
    · rw [SumTree.updateWith, if_pos hin] at hu
      exact cover_throws hn hlt.le hhi hf h hin hu
    obtain ⟨node, hnode, -, -⟩ := exists_node h
    obtain ⟨-, ho, hread, j, k, hc, ha, hb⟩ := h
    have hc' := hc
    obtain ⟨right, hright, hc'⟩ := Effect.bind_eq_ok.mp hc'
    cases hc'
    rw [SumTree.updateWith, if_neg hin] at hu
    unfold Throws
    rw [update, if_neg (by omega), Effect.run_bind_ok (readNode_run hnode), if_neg hin, if_pos hlt]
    simp only [rightChild, hright]
    rw [Effect.run_bind_ok (Effect.liftM_ok _ _)]
    refine throws_halves hlt ho hread hc hb
      (follows_half hf ha (fun hl => .inl (by omega)) fun hl =>
        ⟨fun _ => update_spec hn (by omega) hl h2 hf ha, fun _ => iha (by omega) hl h2 hf ha⟩)
      (fun nodes₁ hf₁ hb₁ => follows_half hf₁ hb₁ (fun hl => .inr (by omega)) fun hl =>
        ⟨fun _ => update_spec hn hhi h1 hl hf₁ hb₁, fun _ => ihb hhi h1 hl hf₁ hb₁⟩)
      (fun nodes₂ a' b' e' hr hrl hrr hg => ?_) hu
    obtain ⟨cur, hcur, hp⟩ := exists_of_slotLayout_read hr
    obtain ⟨nl, hnl, hpl⟩ := exists_of_slotLayout_read hrl
    obtain ⟨nr, hnr, hpr⟩ := exists_of_slotLayout_read hrr
    simp only [Prod.mk.injEq] at hp hpl hpr
    refine ⟨e', nodes₂, ?_⟩
    rw [Effect.run_bind_ok (readNode_run hcur), Effect.run_bind_ok (readNode_run hnl),
      Effect.run_bind_ok (readNode_run hnr), hpl.1, hpr.1]
    rcases Effect.bind_eq_error.mp hg with hg | ⟨sum, -, hg⟩
    · rcases Effect.bind_eq_error.mp hg with hg | ⟨c, hcs, hg⟩
      · rw [hg]
        rfl
      · rw [hcs, Effect.run_bind_ok (Effect.liftM_ok _ _), segmentLength,
          inclusiveLength_eq hlt.le (Layout.lt_sizeMax hhi),
          Effect.run_bind_ok (Effect.liftM_ok _ _), hp.2, hg]
        rfl
    · cases hg

/-- The state in which an addition with a checkpoint starts its second update: the event and the
copy of the live tree are pushed, and the first update has left the nodes. -/
def afterFirst (s : State) (version l r : ℕ) (value : ValueType) (nodes : List Node) : State :=
  { s with live := nodes, events := s.events ++ [⟨l, r, value⟩],
           checkpoints := s.checkpoints ++ [⟨version, s.live⟩] }

variable {s : State} {h : History (List ValueType × ℕ)}

variable (value) in
/-- The preflight predicts the update of the live tree. -/
theorem validateUpdate_predicts (hr : engine.Reachable s h) (hlr : l ≤ r) (hrn : r < s.arraySize) :
    Predicts (validateUpdate s.live 0 0 (s.arraySize - 1) l r value)
      (update 0 0 (s.arraySize - 1) l r value) s.live
      fun _ nodes => do return (← vectorAt nodes 0).sum := by
  obtain ⟨m, -, hs, hv⟩ := simulation.reaches hr
  obtain ⟨t, ht, -⟩ := hv.latest
  have hlive := hs.live t ht
  rw [hs.size] at hrn ⊢
  have hn : 0 < m.size := by omega
  have hst := hlive.stores hn
  have hsize := hv.size_le
  have hhi : m.size - 1 < maxLength := by omega
  have h1 : l ≤ m.size - 1 := by omega
  refine .of_decides (x := SumTree.updateWith SumTree.rebuildFromChildren l r value t 0
    (m.size - 1)) ?_ (fun t' hu => ?_) fun e hu =>
      update_throws hn hhi h1 (Nat.zero_le r) hlive.fits hst hu
  · unfold validateUpdate
    rw [Layout.validateUpdate_eq hhi hst]
    exact SumTree.validateUpdate_decides hhi h1 (Nat.zero_le r) hst.spans
  · obtain ⟨nodes', hx, -, hst', -⟩ := update_spec hn hhi h1 (Nat.zero_le r) hlive.fits hst hu
    obtain ⟨node, hnode, hsum, -⟩ := exists_node hst'
    refine ⟨(), nodes', hx, ?_⟩
    rw [vectorAt_eq_ok.mpr hnode, Effect.ok_bind, hsum]
    rfl

/-- The copy is updated to the same nodes as the live tree. -/
theorem updateBack_afterFirst (version : ℕ)
    (hu : update 0 0 (s.arraySize - 1) l r value s.live = .ok () nodes) :
    updateBack (update 0 0 (s.arraySize - 1) l r value) (afterFirst s version l r value nodes) =
      .ok () { afterFirst s version l r value nodes with
        checkpoints := s.checkpoints ++ [⟨version, nodes⟩] } :=
  (updateBack_run (s := afterFirst s version l r value nodes) rfl hu).trans rfl

end CheckpointingSegmentTree

/-- **Preflights predict updates**, in the three structures that update in place. In the
checkpointing tree one preflight stands for two updates, of the live tree and of its fresh copy. -/
theorem preflights_predict :
    (∀ s h, LazySegmentTree.engine.Reachable s h → ∀ l r value, l ≤ r → r < s.arraySize →
      Predicts (LazySegmentTree.validateUpdate s.toStorage 0 0 (s.arraySize - 1) l r value)
        (LazySegmentTree.update 0 0 (s.arraySize - 1) l r value) s.toStorage
        fun _ st => vectorAt st.tree 0) ∧
    (open FatNodePersistentSegmentTree in
      ∀ s h, engine.Reachable s h → ∀ l r value, l ≤ r → r < s.arraySize →
        ∃ root, vectorAt s.roots (s.roots.length - 1) = .ok root ∧
          Predicts (validateUpdate s.nodes root 0 (s.arraySize - 1) l r value)
            (update root s.roots.length 0 (s.arraySize - 1) l r value) s.nodes
            fun newRoot nodes => do return (← latestState (← vectorAt nodes newRoot)).sum) ∧
    open CheckpointingSegmentTree in
      ∀ s h, engine.Reachable s h → ∀ l r value, l ≤ r → r < s.arraySize →
        Predicts (validateUpdate s.live 0 0 (s.arraySize - 1) l r value)
          (update 0 0 (s.arraySize - 1) l r value) s.live
          (fun _ nodes => do return (← vectorAt nodes 0).sum) ∧
        ∀ w version, validateUpdate s.live 0 0 (s.arraySize - 1) l r value = .ok w →
          ∃ nodes s', update 0 0 (s.arraySize - 1) l r value s.live = .ok () nodes ∧
            updateBack (update 0 0 (s.arraySize - 1) l r value)
              (afterFirst s version l r value nodes) = .ok () s' := by
  refine ⟨fun s h hr l r value => LazySegmentTree.validateUpdate_predicts hr,
    fun s h hr l r value => FatNodePersistentSegmentTree.validateUpdate_predicts hr,
    fun s h hr l r value hlr hrn => ?_⟩
  have hp := CheckpointingSegmentTree.validateUpdate_predicts value hr hlr hrn
  refine ⟨hp, fun w version hw => ?_⟩
  obtain ⟨⟨⟩, nodes, hu, -⟩ := hp.returns w hw
  exact ⟨nodes, _, hu, CheckpointingSegmentTree.updateBack_afterFirst version hu⟩

/-- The last element is at an end of `long long`: the preflight throws, and so does the update,
which has written the other half by then. One below the end the preflight returns. -/
theorem preflights_predict_extremes :
    (∃ e st, LazySegmentTree.update 0 0 2 1 2 1 (LazySegmentTree.engine.run
        [.initializeFrom [0, 0, Int64.maxValue]]).1.toStorage = .error e st) ∧
      open CheckpointingSegmentTree in
      ∃ nodes s', update 0 0 2 2 2 1
          (engine.run [.initializeFrom ([0, 0, Int64.maxValue - 1], 1)]).1.live = .ok () nodes ∧
        updateBack (update 0 0 2 2 2 1) (afterFirst
          (engine.run [.initializeFrom ([0, 0, Int64.maxValue - 1], 1)]).1 1 2 2 1 nodes) =
            .ok () s' := by
  have hlazy : LazySegmentTree.engine.Reachable (LazySegmentTree.engine.run
      [.initializeFrom [0, 0, Int64.maxValue]]).1 (LazySegmentTree.engine.historyOf
        [0, 0, Int64.maxValue] []) := Engine.reachable_run (by decide +kernel)
  have hcheckpointing : CheckpointingSegmentTree.engine.Reachable
      (CheckpointingSegmentTree.engine.run
        [.initializeFrom ([0, 0, Int64.maxValue - 1], 1)]).1
      (CheckpointingSegmentTree.engine.historyOf ([0, 0, Int64.maxValue - 1], 1) []) :=
    Engine.reachable_run (by decide +kernel)
  have hthree : (LazySegmentTree.engine.run
      [.initializeFrom [0, 0, Int64.maxValue]]).1.arraySize = 3 := by decide +kernel
  have hthree' : (CheckpointingSegmentTree.engine.run
      [.initializeFrom ([0, 0, Int64.maxValue - 1], 1)]).1.arraySize = 3 := by decide +kernel
  have key := preflights_predict.1 _ _ hlazy 1 2 1
  have key' := preflights_predict.2.2 _ _ hcheckpointing 2 2 1
  rw [hthree] at key
  rw [hthree'] at key'
  exact ⟨(key (by decide) (by decide)).throws.mp
    ⟨.overflowError "policy addition is not representable", by decide +kernel⟩,
    (key' le_rfl (by decide)).2 Int64.maxValue 1 (by decide +kernel)⟩

end Valseg
