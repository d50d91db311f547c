import Valseg.CheckpointingSegmentTree

/-!
# The sums of a CheckpointingSegmentTree

The latest version is read from the live tree, an older one from the checkpoint at or before it
and a replay of the log. `PathFits` says that everything the path computes is representable, and
`rangeSum_cases` that a sum is returned, and exact, exactly then.

1. `threePaths` puts the schedule of the checkpoints, the sums and the failed additions together.
2. `laterSums` compares the outcomes for one version at two points of a run.
-/

namespace Valseg

open Segment (length addOn)

namespace CheckpointingSegmentTree

variable {s s' : State} {m : VersionedTrees} {h : History (List ValueType × ℕ)} {l r v : ℕ}
  {value : ValueType}

/-! ## Sums -/

/-- Every value the replay of the updates `i, …, v - 1` computes is representable: the delta's share
of the range, and the sum of the next version. -/
def ReplayFits (h : RangeAdds ℤ) (i v l r : ℕ) : Prop :=
  ∀ j, i ≤ j → j < v → ∀ u, h.updates[j]? = some u → max l u.left ≤ min r u.right →
    Representable (u.amount * length (max l u.left) (min r u.right)) ∧
      Representable (Segment.sum (h.array (j + 1)) l r)

/-- One turn of the loop. -/
def replayOne (left right : ℕ) (event : UpdateEvent) (sum : ValueType) :
    Except Exception ValueType :=
  if max left event.left ≤ min right event.right then do
    SumAddPolicy.apply event.value sum
      (← segmentLength (max left event.left) (min right event.right))
  else pure sum

theorem replay_succ {i : ℕ} {sum : ValueType} {event : UpdateEvent} (hi : i < v)
    (he : s.events[i]? = some event) :
    replay s v l r i sum = (do replay s v l r (i + 1) (← replayOne l r event sum)) := by
  rw [replay, if_pos hi, vectorAt_eq_ok.mpr he]
  rfl

/-- One turn makes the sum of the next version, where the delta's share and that sum are
representable. -/
theorem replayOne_cases {A : ℕ → ℤ} (event : UpdateEvent) {sum : ValueType} (hn : r < maxLength)
    (hsum : sum.toInt = Segment.sum A l r) :
    (∃ x, replayOne l r event sum = .ok x ∧
        x.toInt = Segment.sum (addOn A event.left event.right event.value.toInt) l r ∧
        (max l event.left ≤ min r event.right → Representable
          (event.value.toInt * length (max l event.left) (min r event.right)))) ∨
      (Overflows (replayOne l r event sum) ∧ max l event.left ≤ min r event.right ∧
        ¬ (Representable (event.value.toInt * length (max l event.left) (min r event.right)) ∧
          Representable (Segment.sum (addOn A event.left event.right event.value.toInt) l r))) := by
  unfold replayOne
  rw [Segment.sum_addOn, ← hsum]
  by_cases hover : max l event.left ≤ min r event.right
  · rw [if_pos hover, segmentLength, inclusiveLength_eq hover (Layout.lt_sizeMax (by omega)),
      Effect.ok_bind, Segment.partSum_const hover]
    have hlen : length (max l event.left) (min r event.right) ≤ maxLength :=
      SumTree.length_le (by omega)
    rcases happly : SumAddPolicy.apply event.value sum
        (length (max l event.left) (min r event.right)) with e | x
    · obtain ⟨⟨w, rfl⟩, hno⟩ := SumAddPolicy.apply_error hlen happly
      exact .inr ⟨⟨w, rfl⟩, hover, hno⟩
    · obtain ⟨h1, h2⟩ := (SumAddPolicy.apply_eq_ok hlen).mp happly
      exact .inl ⟨x, rfl, h2, fun _ => h1⟩
  · rw [if_neg hover, Segment.partSum_of_disjoint (not_le.mp hover), add_zero]
    exact .inl ⟨sum, rfl, rfl, fun h => absurd h hover⟩

/-- **Replaying.** From the sum of an earlier version a replay returns the sum of its version,
exactly when everything it computes is representable, and overflows otherwise. -/
theorem replay_cases {i : ℕ} {sum : ValueType} (hs : StoresVersions h s m) (hn : r < maxLength)
    (hi : i ≤ v) (hv : v ≤ h.adds.updates.length)
    (hsum : sum.toInt = Segment.sum (h.adds.array i) l r) :
    (∃ x, replay s v l r i sum = .ok x ∧ x.toInt = Segment.sum (h.adds.array v) l r ∧
        ReplayFits h.adds i v l r) ∨
      (Overflows (replay s v l r i sum) ∧ ¬ ReplayFits h.adds i v l r) := by
  induction hk : v - i generalizing i sum with
  | zero =>
    obtain rfl : i = v := by omega
    rw [replay, if_neg (lt_irrefl i)]
    exact .inl ⟨sum, rfl, hsum, fun j h1 h2 => by omega⟩
  | succ k ih =>
    have hlen := hs.events_length
    obtain ⟨event, he⟩ : ∃ event, s.events[i]? = some event :=
      ⟨_, List.getElem?_eq_getElem (by omega)⟩
    have hu : h.adds.updates[i]? = some ⟨event.left, event.right, event.value.toInt⟩ := by
      rw [← hs.events, List.getElem?_map, he]
      rfl
    rw [replay_succ (by omega) he]
    rcases replayOne_cases event hn hsum with ⟨x, hx, hexact, hshare⟩ | ⟨⟨w, hw⟩, hover, hno⟩
    swap
    · refine .inr ⟨⟨w, by rw [hw]; rfl⟩, fun hfits => hno ?_⟩
      rw [← RangeAdds.array_succ hu]
      exact hfits i le_rfl (by omega) _ hu hover
    rw [← RangeAdds.array_succ hu] at hexact
    have hsplit : ReplayFits h.adds i v l r ↔ ReplayFits h.adds (i + 1) v l r := by
      refine ⟨fun hfits j h1 h2 => hfits j (by omega) h2, fun hfits j h1 h2 u hj hover => ?_⟩
      rcases Nat.eq_or_lt_of_le h1 with rfl | h1
      · rw [hu, Option.some.injEq] at hj
        subst hj
        exact ⟨hshare hover, hexact ▸ representable_toInt x⟩
      · exact hfits j h1 h2 u hj hover
    rw [hx, Effect.ok_bind, hsplit]
    exact ih (by omega) hexact (by omega)

/-- The arguments of a sum that is returned. -/
theorem rangeSum_valid {x : ValueType} (hx : rangeSum s v l r = .ok x) :
    v ≤ s.events.length ∧ l ≤ r ∧ r < s.arraySize := by
  obtain ⟨⟨⟩, -, hx⟩ := Effect.bind_eq_ok.mp hx
  obtain ⟨⟨⟩, h2, hx⟩ := Effect.bind_eq_ok.mp hx
  obtain ⟨⟨⟩, -, hx⟩ := Effect.bind_eq_ok.mp hx
  obtain ⟨⟨⟩, h4, -⟩ := Effect.bind_eq_ok.mp hx
  obtain ⟨hlr, hr⟩ := validateRange_eq_ok.mp h4
  exact ⟨Nat.le_of_lt_succ (validateVersion_eq_ok.mp h2), hlr, hr⟩

/-- With valid arguments the sum is read from the live tree, or replayed from a checkpoint. -/
theorem rangeSum_eq (hc : 0 < s.checkpoints.length) (hv : v ≤ s.events.length) (hlr : l ≤ r)
    (hr : r < s.arraySize) : rangeSum s v l r =
      if v = s.events.length then query s.live 0 0 (s.arraySize - 1) l r 0
      else (do
        let base ← vectorAt s.checkpoints (v / s.interval)
        let sum ← query base.nodes 0 0 (s.arraySize - 1) l r 0
        replay s v l r base.version sum) := by
  unfold rangeSum
  rw [validateInitialized_eq_ok.mpr hc, validateVersion_eq_ok.mpr (Nat.lt_succ_of_le hv),
    validateNonEmpty_eq_ok.mpr (by omega), validateRange_eq_ok.mpr ⟨hlr, hr⟩]
  rfl

/-- The live tree is queried as the latest of the trees. -/
theorem rangeSum_live (hs : StoresVersions h s m) (hv : m.Valid .retaining h.adds) (hlr : l ≤ r)
    (hr : r < m.size) :
    rangeSum s s.events.length l r = m.rangeSum h.adds.updates.length l r := by
  obtain ⟨t, ht, -⟩ := hv.latest
  have hlen := hv.versions
  unfold RangeAdds.versionCount at hlen
  have ht' : m.trees[h.adds.updates.length]? = some t := by
    rwa [hlen, Nat.add_sub_cancel] at ht
  have hsize := hv.size_le
  rw [rangeSum_eq hs.checkpoints_pos le_rfl hlr (by rw [hs.size]; exact hr), if_pos rfl,
    VersionedTrees.rangeSum_eq_query ht' hlr hr, hs.size]
  exact Layout.query_eq (by omega) ((hs.live t ht).stores (by omega))

/-- Also where the arguments are invalid. -/
theorem rangeSum_latest (hs : StoresVersions h s m) (hv : m.Valid .retaining h.adds) (l r : ℕ) :
    rangeSum s s.events.length l r = m.rangeSum h.adds.updates.length l r := by
  have hlen := hv.versions
  unfold RangeAdds.versionCount at hlen
  by_cases hin : l ≤ r ∧ r < m.size
  · exact rangeSum_live hs hv hin.1 hin.2
  unfold rangeSum VersionedTrees.rangeSum
  rw [validateInitialized_eq_ok.mpr hs.checkpoints_pos,
    validateVersion_eq_ok.mpr (Nat.lt_succ_self _), validateInitialized_eq_ok.mpr (by omega),
    validateVersion_eq_ok.mpr (by omega), hs.size]
  refine bind_congr fun _ => bind_congr fun _ => bind_congr fun _ => ?_
  rcases h4 : validateRange m.size l r with e | ⟨⟩
  · rfl
  · exact absurd (validateRange_eq_ok.mp h4) hin

/-- Every value the path that serves a version computes is representable. -/
def PathFits (h : RangeAdds ℤ) (size interval v l r : ℕ) : Prop :=
  if v = h.updates.length then SumTree.QueryFits (h.array v) (h.covering v) 0 (size - 1) l r
  else SumTree.QueryFits (h.array (v / interval * interval)) (h.covering (v / interval * interval)) 0
      (size - 1) l r ∧ ReplayFits h (v / interval * interval) v l r

/-- **Sums**, whichever path serves them: one is returned, and exact, exactly when everything its
path computes is representable; otherwise it overflows. -/
theorem rangeSum_cases (hs : StoresVersions h s m) (hv : m.Valid .retaining h.adds)
    (hver : v ≤ h.adds.updates.length) (hlr : l ≤ r) (hr : r < m.size) :
    (∃ x, rangeSum s v l r = .ok x ∧ x.toInt = Segment.sum (h.adds.array v) l r ∧
        PathFits h.adds m.size h.argument.2 v l r) ∨
      (Overflows (rangeSum s v l r) ∧ ¬ PathFits h.adds m.size h.argument.2 v l r) := by
  have hsize := hv.size_le
  have hlen := hs.events_length
  have hcount : m.trees.length = h.adds.updates.length + 1 := hv.versions
  unfold PathFits
  by_cases hlatest : v = h.adds.updates.length
  · subst hlatest
    have hlive := rangeSum_live hs hv hlr hr
    rw [hlen] at hlive
    rw [if_pos rfl, hlive, ← hv.rangeSum_returns (Nat.lt_succ_self _) hlr hr]
    rcases hv.rangeSum_cases (Nat.lt_succ_self _) hlr hr with ⟨x, hx, hexact⟩ | hover
    · exact .inl ⟨x, hx, hexact, x, hx⟩
    · exact .inr ⟨hover, hover.not_returns⟩
  obtain ⟨c, hc, hcv⟩ := hs.exists_checkpoint (v := v) (by omega)
  have hbase := hs.version _ c hc
  rw [if_neg hlatest, ← hs.interval, ← hbase]
  obtain ⟨t, ht⟩ : ∃ t, m.trees[c.version]? = some t := ⟨_, List.getElem?_eq_getElem (by omega)⟩
  have hst := (hs.checkpoints _ c t hc ht).stores (by omega)
  have hquery : query c.nodes 0 0 (s.arraySize - 1) l r 0 = m.rangeSum c.version l r := by
    rw [VersionedTrees.rangeSum_eq_query ht hlr hr, hs.size]
    exact Layout.query_eq (by omega) hst
  have hcver : c.version < h.adds.versionCount := by
    unfold RangeAdds.versionCount
    omega
  rw [rangeSum_eq hs.checkpoints_pos (by omega) hlr (by rw [hs.size]; exact hr),
    if_neg (by omega), vectorAt_eq_ok.mpr hc, Effect.ok_bind, hquery,
    ← hv.rangeSum_returns hcver hlr hr]
  rcases hv.rangeSum_cases hcver hlr hr with ⟨sum, hsum, hexact⟩ | ⟨w, hw⟩
  · rw [hsum, Effect.ok_bind]
    rcases replay_cases hs (by omega) hcv hver hexact with ⟨x, hx, hx', hfits⟩ | ⟨hover, hno⟩
    · exact .inl ⟨x, hx, hx', ⟨sum, rfl⟩, hfits⟩
    · exact .inr ⟨hover, fun h => hno h.2⟩
  · rw [hw]
    exact .inr ⟨⟨w, rfl⟩, fun h => Overflows.not_returns ⟨w, rfl⟩ h.1⟩

/-- **Sums are exact.** -/
theorem rangeSum_exact {x : ValueType} (hs : StoresVersions h s m)
    (hv : m.Valid .retaining h.adds) (hx : rangeSum s v l r = .ok x) :
    x.toInt = Segment.sum (h.adds.array v) l r := by
  obtain ⟨hver, hlr, hr⟩ := rangeSum_valid hx
  rw [hs.size] at hr
  rcases rangeSum_cases hs hv (hs.events_length ▸ hver) hlr hr with ⟨y, hy, hexact, -⟩ | ⟨⟨w, hw⟩, -⟩
  · rw [hx, Except.ok.injEq] at hy
    exact hy ▸ hexact
  · rw [hx] at hw
    cases hw

/-- An element is returned, in every version. -/
theorem rangeSum_single {i : ℕ} (hs : StoresVersions h s m) (hv : m.Valid .retaining h.adds)
    (hver : v ≤ h.adds.updates.length) (hi : i < m.size) :
    ∃ x, rangeSum s v i i = .ok x ∧ x.toInt = h.adds.array v i := by
  have hsingle : ∀ w, w < h.adds.versionCount →
      SumTree.QueryFits (h.adds.array w) (h.adds.covering w) 0 (m.size - 1) i i := by
    intro w hw
    obtain ⟨x, hx, -⟩ := hv.rangeSum_single And.left hw hi
    exact (hv.rangeSum_returns hw le_rfl hi).mp ⟨x, hx⟩
  have hfits : PathFits h.adds m.size h.argument.2 v i i := by
    have hbase : v / h.argument.2 * h.argument.2 ≤ v := Nat.div_mul_le_self _ _
    unfold PathFits
    split_ifs with hlatest
    · exact hsingle v (Nat.lt_succ_of_le hver)
    refine ⟨hsingle _ (Nat.lt_succ_of_le (hbase.trans hver)), fun j _ hj u hu hover => ⟨?_, ?_⟩⟩
    · have hone : length (max i u.left) (min i u.right) = 1 := by
        unfold length
        omega
      have hamount : u ∈ s.events.map (fun e => (⟨e.left, e.right, e.value.toInt⟩ : RangeAdd ℤ)) :=
        hs.events ▸ List.mem_of_getElem? hu
      obtain ⟨event, -, rfl⟩ := List.mem_map.mp hamount
      rw [hone, Nat.cast_one, mul_one]
      exact representable_toInt _
    · rw [Segment.sum_single]
      have hlt : j + 1 < h.adds.versionCount := by
        unfold RangeAdds.versionCount
        omega
      exact (hv.fit (by omega) (j + 1) hlt).element (Nat.zero_le i) (by omega)
  rcases rangeSum_cases hs hv hver le_rfl hi with ⟨x, hx, hexact, -⟩ | ⟨-, hno⟩
  · exact ⟨x, hx, by rw [hexact, Segment.sum_single]⟩
  · exact absurd hfits hno

/-! ## Later states of a run -/

/-- What a state keeps while no initialization succeeds: all of it until the next version. -/
structure Extends (s s' : State) : Prop where
  events : s.events <+: s'.events
  checkpoints : s.checkpoints <+: s'.checkpoints
  interval : s'.interval = s.interval
  arraySize : s'.arraySize = s.arraySize
  same : s'.events.length = s.events.length → s' = s

theorem extends_published (s : State) (version l r : ℕ) (value : ValueType) (live : List Node)
    (domain : SumAddDomainGuard) : Extends s (published s version l r value live domain) := by
  refine ⟨List.prefix_append _ _, ?_, rfl, rfl, fun hlen => ?_⟩
  · simp only [published]
    split_ifs
    · exact List.prefix_append _ _
    · exact List.prefix_rfl
  · simp only [published, List.length_append, List.length_singleton] at hlen
    omega

theorem Extends.trans {s'' : State} (h : Extends s s') (h' : Extends s' s'') : Extends s s'' := by
  refine ⟨h.events.trans h'.events, h.checkpoints.trans h'.checkpoints,
    h'.interval.trans h.interval, h'.arraySize.trans h.arraySize, fun hlen => ?_⟩
  have h1 := h.events.length_le
  have h2 := h'.events.length_le
  obtain rfl := h'.same (by omega)
  exact h.same hlen

/-- **Steady runs.** -/
theorem steady {calls : List (Call (List ValueType × ℕ))} (hs : StoresVersions h s m)
    (hv : m.Valid .retaining h.adds) (hsteady : engine.Steady (s, some h) calls) :
    ∃ s' h' m', engine.runFrom (s, some h) calls = (s', some h') ∧
      (h.Extends h' ∧ Extends s s') ∧ StoresVersions h' s' m' ∧ m'.Valid .retaining h'.adds := by
  refine simulation.steady_induction (P := fun h' s' _ => h.Extends h' ∧ Extends s s') ?_ ?_
    ⟨.refl h, List.prefix_rfl, List.prefix_rfl, rfl, rfl, fun _ => rfl⟩ hs hv hsteady
  · rintro h₁ s₁ s₂ m₁ m₂ l r value x ⟨he, hx⟩ hrel hvalid hi -
    have hi' : rangeAdd l r value s₁ = .ok x s₂ := hi
    rcases rangeAdd_outcome hrel hvalid l r value with ⟨m', live, guard, -, hr, -⟩ | ⟨e, hr, -⟩ <;>
      rw [hr] at hi' <;> cases hi'
    exact ⟨he.trans (.add _ _), hx.trans (extends_published _ _ _ _ _ _ _)⟩
  · rintro h₁ s₁ s₂ m₁ l r value e hp hrel hvalid hi
    have hi' : rangeAdd l r value s₁ = .error e s₂ := hi
    rcases rangeAdd_outcome hrel hvalid l r value with ⟨m', live, guard, -, hr, -⟩ | ⟨e, hr, -⟩ <;>
      rw [hr] at hi' <;> cases hi'
    exact hp

/-- A replay reads the log up to its version only. -/
theorem replay_congr {i : ℕ} {sum : ValueType} (he : s.events <+: s'.events)
    (hv : v ≤ s.events.length) : replay s' v l r i sum = replay s v l r i sum := by
  induction hk : v - i generalizing i sum with
  | zero =>
    rw [replay, if_neg (by omega), replay, if_neg (by omega)]
  | succ k ih =>
    obtain ⟨rest, hrest⟩ := he
    have hat : vectorAt s'.events i = vectorAt s.events i := by
      unfold vectorAt
      rw [← hrest, List.getElem?_append_left (by omega)]
    rw [replay, if_pos (by omega), replay, if_pos (by omega), hat]
    exact bind_congr fun e => bind_congr fun sum' => ih (by omega)

/-- **Old outcomes stay.** What a version that is not the latest answers, a value or an
exception, it answers ever after. -/
theorem rangeSum_of_extends (hs : StoresVersions h s m) (hx : Extends s s')
    (hv : v < s.events.length) : rangeSum s' v l r = rangeSum s v l r := by
  have hle := hx.events.length_le
  have hcs := hx.checkpoints.length_le
  have hpos := hs.checkpoints_pos
  obtain ⟨c, hc, -⟩ := hs.exists_checkpoint hv.le
  obtain ⟨rest, hrest⟩ := hx.checkpoints
  have hat : vectorAt s'.checkpoints (v / s.interval) = .ok c := by
    rw [vectorAt_eq_ok, ← hrest,
      List.getElem?_append_left (List.getElem?_eq_some_iff.mp hc).1, hc]
  unfold rangeSum
  rw [validateInitialized_eq_ok.mpr hpos, validateInitialized_eq_ok.mpr (by omega),
    validateVersion_eq_ok.mpr (by omega), validateVersion_eq_ok.mpr (by omega), hx.arraySize,
    hx.interval, if_neg (by omega), if_neg (by omega), hat, vectorAt_eq_ok.mpr hc]
  simp only [Effect.ok_bind, replay_congr hx.events hv.le]

/-! ## Reachable states -/

section Reachable

variable {calls : List (Call (List ValueType × ℕ))}

/-- Checkpoints are at the multiples of the interval. -/
theorem StoresVersions.schedule (hs : StoresVersions h s m) : s.checkpoints.map Checkpoint.version =
    (List.range (h.adds.updates.length / h.argument.2 + 1)).map (· * h.argument.2) := by
  rw [← hs.interval, ← hs.events_length, ← hs.count]
  refine List.ext_getElem (by simp) fun j h1 _ => ?_
  rw [List.length_map] at h1
  simp only [List.getElem_map, List.getElem_range]
  exact hs.version j _ (List.getElem?_eq_getElem h1)

/-- The records after the updates: the live tree, the checkpoints and the log. -/
def recordCount (h : History (List ValueType × ℕ)) : ℕ :=
  (h.adds.updates.length / h.argument.2 + 2) * (2 * h.size - 1) + h.adds.updates.length

/-- They are counted where their number is a size. -/
theorem StoresVersions.nodeCount (hs : StoresVersions h s m) (hv : m.Valid .retaining h.adds)
    (hm : m.size = h.size) :
    (nodeCount s = .ok (recordCount h) ∧ recordCount h ≤ sizeMax) ∨
      (Overflows (nodeCount s) ∧ sizeMax < recordCount h) := by
  obtain ⟨t, ht, -⟩ := hv.latest
  have hlive : s.live.length = 2 * m.size - 1 := (hs.live t ht).fits
  have hcount : recordCount h = 2 * m.size - 1 + s.checkpoints.length * (2 * m.size - 1) +
      h.adds.updates.length := by
    rw [recordCount, hs.count, hs.interval, hs.events_length, hm]
    ring
  have hsize := hv.size_le
  have hlive' : 2 * m.size - 1 ≤ sizeMax := by
    unfold maxLength at hsize
    unfold sizeMax
    omega
  unfold CheckpointingSegmentTree.nodeCount
  rw [hlive, hs.events_length, hcount]
  rcases checkedSizeMultiply_cases s.checkpoints.length (2 * m.size - 1) with
    ⟨h1, -⟩ | ⟨⟨w, h1⟩, hlt⟩
  swap
  · exact .inr ⟨⟨w, by rw [h1]; rfl⟩, by omega⟩
  rw [h1, Effect.ok_bind]
  rcases checkedSizeAdd_cases (s.checkpoints.length * (2 * m.size - 1)) hlive' with
    ⟨h2, hle⟩ | ⟨⟨w, h2⟩, hlt⟩
  swap
  · exact .inr ⟨⟨w, by rw [h2]; rfl⟩, by omega⟩
  rw [h2, Effect.ok_bind]
  exact checkedSizeAdd_cases h.adds.updates.length hle

/-- The checkpoint is the live tree of a state that the calls go through when its version is the
latest, and no initialization succeeds after that. -/
def SnapshotOf (calls : List (Call (List ValueType × ℕ))) (c : Checkpoint) : Prop :=
  ∃ pre post s₀ h₀, calls = pre ++ post ∧ engine.run pre = (s₀, some h₀) ∧
    engine.Steady (s₀, some h₀) post ∧ h₀.adds.updates.length = c.version ∧ s₀.live = c.nodes

theorem SnapshotOf.last {c : Checkpoint} (hrun : engine.run calls = (s, some h))
    (hver : h.adds.updates.length = c.version) (hlive : s.live = c.nodes) : SnapshotOf calls c :=
  ⟨calls, [], s, h, (List.append_nil _).symm, hrun, trivial, hver, hlive⟩

theorem SnapshotOf.snoc {c : Checkpoint} {call : Call (List ValueType × ℕ)}
    (hc : SnapshotOf calls c) (hcall : engine.Steady (engine.run calls) [call]) :
    SnapshotOf (calls ++ [call]) c := by
  obtain ⟨pre, post, s₀, h₀, rfl, hpre, hpost, hver, hlive⟩ := hc
  refine ⟨pre, post ++ [call], s₀, h₀, List.append_assoc .., hpre, hpost.append ?_, hver, hlive⟩
  rw [← hpre, Engine.run, ← Engine.runFrom_append]
  exact hcall

/-- The only checkpoint of a new start, or the last one of a state on the schedule. -/
theorem StoresVersions.last_checkpoint {c : Checkpoint} (hs : StoresVersions h s m)
    (hd : s.interval ∣ s.events.length) (hc : s.checkpoints[s.events.length / s.interval]? = some c) :
    h.adds.updates.length = c.version ∧ s.live = c.nodes := by
  rw [hs.current hd, Option.some.injEq] at hc
  subst hc
  exact ⟨hs.events_length.symm, rfl⟩

/-- Every checkpoint is such a snapshot. -/
theorem snapshots : ∀ {s : State} {h : History (List ValueType × ℕ)},
    engine.run calls = (s, some h) → ∀ c ∈ s.checkpoints, SnapshotOf calls c := by
  induction calls using List.reverseRecOn with
  | nil => exact fun hrun => by cases hrun
  | append_singleton calls call ih =>
    intro s h hrun c hc
    have hstep : engine.step (engine.run calls) call = (s, some h) := by
      rw [← hrun, Engine.run, Engine.run, Engine.runFrom_append]
      rfl
    obtain ⟨j, hj⟩ := List.mem_iff_getElem?.mp hc
    obtain ⟨m, -, hs, -⟩ := simulation.reaches ⟨_, hrun⟩
    rcases hrun₁ : engine.run calls with ⟨s₁, o⟩
    rw [hrun₁] at hstep
    cases call with
    | initializeFrom a =>
      rcases hi : engine.initializeFrom a s₁ with ⟨u, s₂⟩ | ⟨e, s₂⟩
      · rw [Engine.step_initialize_ok hi] at hstep
        cases hstep
        have hzero : s.events.length = 0 := hs.events_length
        have hcount := hs.count
        have hlt := (List.getElem?_eq_some_iff.mp hj).1
        rw [hzero, Nat.zero_div] at hcount
        obtain rfl : j = 0 := by omega
        obtain ⟨hver, hlive⟩ := hs.last_checkpoint (by rw [hzero]; exact dvd_zero _)
          (by rw [hzero, Nat.zero_div]; exact hj)
        exact .last hrun hver hlive
      · obtain rfl := simulation.initialize_error hi
        rw [Engine.step_initialize_error hi] at hstep
        cases hstep
        refine (ih hrun₁ c hc).snoc (Engine.steady_single ?_)
        rintro a ⟨⟩
        rw [hrun₁]
        exact ⟨e, _, hi⟩
    | rangeAdd l r value =>
      rcases o with _ | h₁
      · obtain ⟨e, he⟩ := simulation.rangeAdd_fresh l r value (simulation.fresh_of_run hrun₁)
        rw [Engine.step_rangeAdd_error he] at hstep
        cases hstep
      obtain ⟨m₁, -, hs₁, hv₁⟩ := simulation.reaches ⟨_, hrun₁⟩
      have old : c ∈ s₁.checkpoints → SnapshotOf (calls ++ [.rangeAdd l r value]) c := fun hc₁ =>
        (ih hrun₁ c hc₁).snoc (Engine.steady_single fun a ha => by cases ha)
      rcases rangeAdd_outcome hs₁ hv₁ l r value with ⟨m', live, guard, -, hr, -⟩ | ⟨e, hr, -⟩
      · rw [Engine.step_rangeAdd_ok hr] at hstep
        cases hstep
        simp only [published] at hc
        split_ifs at hc with hd
        · rcases List.mem_append.mp hc with hc | hc
          · exact old hc
          · obtain rfl := List.mem_singleton.mp hc
            refine .last hrun ?_ rfl
            show (h₁.adds.updates ++ [_]).length = s₁.events.length + 1
            rw [List.length_append, hs₁.events_length]
            rfl
        · exact old hc
      · rw [Engine.step_rangeAdd_error hr] at hstep
        cases hstep
        exact old hc

/-- On the schedule, the checkpoint of the latest version is the live tree, and it stays. -/
theorem snapshot_of_steady {post : List (Call (List ValueType × ℕ))}
    {h' : History (List ValueType × ℕ)} (hs : StoresVersions h s m)
    (hv : m.Valid .retaining h.adds) (hsteady : engine.Steady (s, some h) post)
    (hrun : engine.runFrom (s, some h) post = (s', some h'))
    (hd : h.argument.2 ∣ h.adds.updates.length) :
    s'.checkpoints[h.adds.updates.length / h.argument.2]? =
      some ⟨h.adds.updates.length, s.live⟩ := by
  obtain ⟨s₁, h₁, m₁, hrun₁, ⟨-, hx⟩, -, -⟩ := steady hs hv hsteady
  rw [hrun] at hrun₁
  cases hrun₁
  rw [← hs.interval, ← hs.events_length] at hd ⊢
  have hcur := hs.current hd
  obtain ⟨rest, hrest⟩ := hx.checkpoints
  rw [← hrest, List.getElem?_append_left (List.getElem?_eq_some_iff.mp hcur).1, hcur]

/-- **Three paths.** After a run the checkpoints are at the multiples of the interval and hold
the live tree as it was at their versions, whichever path serves a sum it is that of its version,
the records are counted, and an addition that throws leaves the state as it was. -/
theorem threePaths (hrun : engine.run calls = (s, some h)) :
    (0 < h.argument.2 ∧ s.checkpoints.map Checkpoint.version =
        (List.range (h.adds.updates.length / h.argument.2 + 1)).map (· * h.argument.2)) ∧
      ((∀ c ∈ s.checkpoints, SnapshotOf calls c) ∧
        ∀ pre post s₀ h₀, calls = pre ++ post → engine.run pre = (s₀, some h₀) →
          engine.Steady (s₀, some h₀) post → h.argument.2 ∣ h₀.adds.updates.length →
            s.checkpoints[h₀.adds.updates.length / h.argument.2]? =
              some ⟨h₀.adds.updates.length, s₀.live⟩) ∧
      (∀ v l r x, rangeSum s v l r = .ok x → x.toInt = Segment.sum (h.adds.array v) l r) ∧
      ((nodeCount s = .ok (recordCount h) ∧ recordCount h ≤ sizeMax) ∨
        (Overflows (nodeCount s) ∧ sizeMax < recordCount h)) ∧
      ∀ l r value e s', rangeAdd l r value s = .error e s' → s' = s := by
  obtain ⟨m, hsize, hs, hv⟩ := simulation.reaches ⟨_, hrun⟩
  refine ⟨⟨hs.interval ▸ hs.interval_pos, hs.schedule⟩, ⟨snapshots hrun, ?_⟩,
    fun v l r x hx => rangeSum_exact hs hv hx, hs.nodeCount hv hsize, fun l r value e s' he => ?_⟩
  · rintro pre post s₀ h₀ rfl hpre hsteady hd
    obtain ⟨m₀, -, hs₀, hv₀⟩ := simulation.reaches ⟨_, hpre⟩
    have hpost : engine.runFrom (s₀, some h₀) post = (s, some h) := by
      rw [← hrun, Engine.run, Engine.runFrom_append, ← Engine.run, hpre]
    obtain ⟨s₁, h₁, m₁, hrun₁, ⟨hext, -⟩, -, -⟩ := steady hs₀ hv₀ hsteady
    rw [hpost] at hrun₁
    cases hrun₁
    rw [hext.argument] at hd ⊢
    exact snapshot_of_steady hs₀ hv₀ hsteady hpost hd
  · rcases rangeAdd_outcome hs hv l r value with ⟨m', live, guard, -, hr, -⟩ | ⟨e, hr, -⟩ <;>
      rw [hr] at he <;> cases he
    rfl

/-- Two updates of three elements with a checkpoint at every other version. -/
abbrev threeCalls : List (Call (List ValueType × ℕ)) :=
  [.initializeFrom ([1, 2, 3], 2), .rangeAdd 0 1 5, .rangeAdd 2 2 0]

theorem threePaths_three : nodeCount (engine.run threeCalls).1 = .ok 17 := by
  have hrun : engine.run threeCalls = ((engine.run threeCalls).1,
      some (engine.historyOf ([1, 2, 3], 2) [⟨0, 1, 5⟩, ⟨2, 2, 0⟩])) :=
    Engine.run_eq_historyOf (by decide +kernel)
  rcases (threePaths hrun).2.2.2.1 with ⟨h1, -⟩ | ⟨-, h2⟩
  · exact h1
  · exact absurd h2 (by decide)

end Reachable

/-! ## The same version, later -/

section Later

variable {calls more : List (Call (List ValueType × ℕ))}

/-- **Later sums.** While no initialization succeeds, a sum that was returned is returned later,
exactly when everything the later path computes is representable, and overflows otherwise; as long
as its version is the latest, and once its version is not, every outcome stays. -/
theorem laterSums (hrun : engine.run calls = (s, some h)) (hsteady : engine.Steady (s, some h) more)
    (hv : v ≤ h.adds.updates.length) (hlr : l ≤ r) (hn : r < h.size) :
    ∃ s' h', engine.runFrom (s, some h) more = (s', some h') ∧
      (∀ x, rangeSum s v l r = .ok x →
        (rangeSum s' v l r = .ok x ∧ PathFits h'.adds h.size h.argument.2 v l r) ∨
          (Overflows (rangeSum s' v l r) ∧ ¬ PathFits h'.adds h.size h.argument.2 v l r)) ∧
      (h'.adds.updates.length = v → rangeSum s' v l r = rangeSum s v l r) ∧
      (v < h.adds.updates.length → rangeSum s' v l r = rangeSum s v l r) := by
  obtain ⟨m, hsize, hs, hvalid⟩ := simulation.reaches ⟨_, hrun⟩
  obtain ⟨s', h', m', hrun', ⟨hext, hx⟩, hs', hvalid'⟩ := steady hs hvalid hsteady
  have hlen := hs.events_length
  have hlen' := hs'.events_length
  have hle := hx.events.length_le
  have hver : v < h.adds.versionCount := Nat.lt_succ_of_le hv
  refine ⟨s', h', hrun', fun x hsum => ?_, fun hlatest => ?_, fun hold => ?_⟩
  · have hsize' : m'.size = h.size := by rw [← hs'.size, hx.arraySize, hs.size, hsize]
    rw [← hext.argument, ← hsize']
    rcases rangeSum_cases hs' hvalid' (v := v) (by omega) hlr (by omega) with
      ⟨y, hy, hexact, hfits⟩ | hover
    · have hxy : x.toInt = y.toInt := by
        rw [rangeSum_exact hs hvalid hsum, hexact, hext.array hver]
      rw [Int64.toInt_inj.mp hxy]
      exact .inl ⟨hy, hfits⟩
    · exact .inr hover
  · rw [hx.same (by omega)]
  · exact rangeSum_of_extends hs hx (by omega)

/-- Two elements whose sum is returned from the live tree of version 1 only. -/
def spentArray : List ValueType :=
  [-Int64.maxValue, Int64.maxValue, Int64.maxValue, -Int64.maxValue]

/-- Version 1 takes one of them back. -/
def spentCalls : List (Call (List ValueType × ℕ)) :=
  [.initializeFrom (spentArray, 10), .rangeAdd 1 1 (-Int64.maxValue)]

theorem spentCalls_run : engine.run spentCalls = ((engine.run spentCalls).1,
    some (engine.historyOf (spentArray, 10) [⟨1, 1, -(2 ^ 63 - 1)⟩])) :=
  Engine.run_eq_historyOf (by decide +kernel)

/-- An addition of nothing makes version 2. -/
theorem spentCalls_steady : engine.Steady ((engine.run spentCalls).1,
    some (engine.historyOf (spentArray, 10) [⟨1, 1, -(2 ^ 63 - 1)⟩])) [.rangeAdd 0 0 0] :=
  Engine.steady_single fun a ha => by cases ha

/-- The sum of version 1 is returned after it, or its path does not fit. -/
theorem laterSums_spent : ∃ s' h', engine.runFrom ((engine.run spentCalls).1,
    some (engine.historyOf (spentArray, 10) [⟨1, 1, -(2 ^ 63 - 1)⟩])) [.rangeAdd 0 0 0] =
      (s', some h') ∧
        ((rangeSum s' 1 1 2 = .ok Int64.maxValue ∧ PathFits h'.adds 4 10 1 1 2) ∨
          (Overflows (rangeSum s' 1 1 2) ∧ ¬ PathFits h'.adds 4 10 1 1 2)) := by
  have hsum : rangeSum (engine.run spentCalls).1 1 1 2 = .ok Int64.maxValue := by decide +kernel
  obtain ⟨s', h', hrun, hret, -⟩ := laterSums spentCalls_run spentCalls_steady (v := 1) (l := 1)
    (r := 2) (by decide) (by decide) (by decide)
  exact ⟨s', h', hrun, hret _ hsum⟩

/-- A returned sum does not always stay: from version 2 on, version 1 is replayed from a
checkpoint whose own sum is not representable. -/
theorem laterSums_fail : ¬ ∀ calls more s h, engine.run calls = (s, some h) →
    engine.Steady (s, some h) more → ∀ v l r x, v ≤ h.adds.updates.length → l ≤ r → r < h.size →
      rangeSum s v l r = .ok x → rangeSum (engine.runFrom (s, some h) more).1 v l r = .ok x := by
  intro hall
  have hlater := hall _ _ _ _ spentCalls_run spentCalls_steady 1 1 2 Int64.maxValue (by decide)
    (by decide) (by decide) (by decide +kernel)
  rw [← spentCalls_run] at hlater
  revert hlater
  decide +kernel

end Later

end CheckpointingSegmentTree

end Valseg
