import Valseg.SmallRuns
import Valseg.BruteForceArray
import Valseg.CopyOnPushSegmentTree
import Valseg.BufferedPathCopyingSegmentTree
import Valseg.RetainedEngines

/-!
# Runs in which nothing throws

On small values every operation with valid arguments returns, and its sums are exact, in all nine
structures (`flawless_runs`). Each of them reads a different part of the same trees: the roots of
an arena, the latest version, stamped states and buffered deltas, a checkpoint and a replay; the
brute-force array adds up its elements from left to right.
-/

namespace Valseg

open Segment (length addOn)

variable {values : List ValueType} {adds : List (RangeAdd ValueType)}

/-- A path-copying tree throws in an addition only what the versioned trees throw. -/
theorem PathCopying.Refines.answers {Node Domain : Type} {P : PathCopying Node Domain}
    {D : Discipline} (R : P.Refines D) (a : List ValueType) :
    R.simulation.Answers a False where
  opening hi := PathCopying.Refines.initialize_error R hi
  answer {h s s' m l r value e} hs hv hi := by
    have hi' : P.rangeAdd l r value s = .error e s' := hi
    rcases PathCopying.Refines.rangeAdd_outcome hs hv l r value with
      ⟨m', s'', -, hr, -⟩ | ⟨e', hm, -⟩
    · rw [hr] at hi'
      cases hi'
    · exact .inr ⟨e', hm⟩

/-- In a path-copying tree that reads the stored trees, nothing throws. -/
theorem PathCopying.Refines.flawless {Node Domain : Type} {P : PathCopying Node Domain}
    {D : Discipline} (R : P.Refines D) (hD : D.Gentle) (hs : SmallValues values adds)
    (hroom : ¬ OutOfRoom (P.engine.opening values))
    {rangeSum : PathCopyingTree Node Domain → (version left right : ℕ) → Except Exception ValueType}
    (hsum : ∀ {s m} {h : RangeAdds ℤ}, R.StoresTrees s m → m.Valid D h →
      ∀ v l r, rangeSum s v l r = m.rangeSum v l r) :
    Flawless P.engine (SumsOfAll values adds (fun s => .ok s.roots.length) rangeSum) values adds :=
  Simulation.flawless (R.answers values) hD hroom hs (fun h => h.elim) fun _ hk _ hst =>
    hst.sumsOfAll hk hs (fun hrel => hrel.roots) fun hrel hvalid => hsum hrel hvalid

theorem PersistentLazySegmentTree.flawless (hs : SmallValues values adds)
    (hroom : ¬ OutOfRoom (engine.opening values)) :
    Flawless engine (SumsOfAll values adds (fun s => .ok (versionCount s)) rangeSum) values adds :=
  refines.flawless Discipline.retaining_gentle hs hroom fun hrel hvalid _ _ _ =>
    rangeSum_eq hrel hvalid.size_le

theorem CopyOnPushSegmentTree.flawless (hs : SmallValues values adds)
    (hroom : ¬ OutOfRoom (engine.opening values)) :
    Flawless engine (SumsOfAll values adds (fun s => .ok (versionCount s)) rangeSum) values adds :=
  refines.flawless Discipline.pushing_gentle hs hroom fun hrel hvalid _ _ _ =>
    rangeSum_eq (h := ⟨values, 0, _⟩) hrel hvalid

theorem FullCopyPersistentSegmentTree.flawless (hs : SmallValues values adds)
    (hroom : ¬ OutOfRoom (engine.opening values)) :
    Flawless engine (SumsOfAll values adds (fun s => .ok (versionCount s)) rangeSum) values adds :=
  refines.flawless Discipline.copying_gentle hs hroom fun hrel hvalid _ _ _ =>
    rangeSum_eq (h := ⟨values, 0, _⟩) hrel hvalid

theorem PointOnlyPersistentSegmentTree.flawless (hs : SmallValues values adds)
    (hroom : ¬ OutOfRoom (engine.opening values)) :
    Flawless engine (SumsOfAll values adds (fun s => .ok (versionCount s)) rangeSum) values adds :=
  refines.flawless Discipline.sharing_gentle hs hroom fun hrel hvalid _ _ _ =>
    rangeSum_eq (h := ⟨values, 0, _⟩) hrel hvalid.copying

/-! ## Stamped nodes -/

theorem BufferedPathCopyingSegmentTree.answers (a : List ValueType) :
    simulation.Answers a False where
  opening hi := initialize_error hi
  answer {h s s' m l r value e} hs hv hi := by
    have hi' : rangeAdd l r value s = .error e s' := hi
    rcases rangeAdd_outcome hs hv l r value with ⟨m', s'', -, hr, -⟩ | ⟨e', s'', hm, -, -⟩
    · rw [hr] at hi'
      cases hi'
    · exact .inr ⟨e', hm⟩

theorem BufferedPathCopyingSegmentTree.flawless (hs : SmallValues values adds)
    (hroom : ¬ OutOfRoom (engine.opening values)) :
    Flawless engine (SumsOfAll values adds (fun s => .ok (versionCount s)) rangeSum) values adds :=
  Simulation.flawless (answers values) Discipline.absorbing_gentle hroom hs (fun h => h.elim)
    fun _ hk _ hst => hst.sumsOfAll hk hs (fun hrel => StoresVersions.all hrel |>.count)
      fun hrel hvalid _ _ _ => rangeSum_eq hrel hvalid.size_le

theorem FatNodePersistentSegmentTree.answers (a : List ValueType) : simulation.Answers a True where
  opening hi := initialize_error hi
  answer {h s s' m l r value e} hs hv hi := by
    have hi' : rangeAdd l r value s = .error e s' := hi
    rcases rangeAdd_outcome hs hv l r value with
      ⟨m', s'', -, hr, -⟩ | ⟨e', hr, hout | ⟨e'', -, hm⟩⟩ <;> rw [hr] at hi' <;> cases hi'
    · exact .inl ⟨trivial, hout⟩
    · exact .inr ⟨e'', hm⟩

theorem FatNodePersistentSegmentTree.flawless (hs : SmallValues values adds)
    (hroom : ¬ OutOfRoom (engine.opening values)) (hrooms : engine.HasRoom values adds) :
    Flawless engine (SumsOfAll values adds (fun s => .ok (versionCount s)) rangeSum) values adds :=
  Simulation.flawless (answers values) Discipline.retaining_gentle hroom hs (fun _ => hrooms)
    fun _ hk _ hst => hst.sumsOfAll hk hs (fun hrel => StoresVersions.all hrel |>.count)
      fun hrel hvalid _ _ _ => rangeSum_eq hrel hvalid.size_le

/-! ## The latest version -/

theorem LazySegmentTree.answers (a : List ValueType) : simulation.Answers a False where
  opening hi := initialize_error hi
  answer {h s s' m l r value e} hs hv hi := by
    have hi' : rangeAdd l r value s = .error e s' := hi
    rcases rangeAdd_outcome hs hv l r value with ⟨m', s'', -, hr, -⟩ | ⟨e', e'', -, hm, -⟩
    · rw [hr] at hi'
      cases hi'
    · exact .inr ⟨e', hm⟩

theorem LazySegmentTree.flawless (hs : SmallValues values adds)
    (hroom : ¬ OutOfRoom (engine.opening values)) :
    Flawless engine (SumsOfLatest values adds rangeSum) values adds := by
  refine Simulation.flawless (answers values) Discipline.retaining_gentle hroom hs
    (fun h => h.elim) fun k hk s hst l r hlr hr => ?_
  obtain ⟨m, hrel, hvalid, hsize, hl⟩ := hst
  have hlen : (versionsOf values (adds.take k)).updates.length = k := by
    unfold versionsOf
    rw [List.length_map, List.length_take, min_eq_left hk]
  have hver : k < (versionsOf values (adds.take k)).versionCount := by
    unfold RangeAdds.versionCount
    omega
  have hsum : rangeSum s l r = m.rangeSum k l r := by
    have := rangeSum_eq (l := l) (r := r)
      (h := ⟨values, values.length, versionsOf values (adds.take k)⟩) hrel hvalid
    rwa [show (versionsOf values (adds.take k)).updates.length = k from hlen] at this
  have hat : (versionsOf values (adds.take k)).array k = (versionsOf values adds).array k :=
    versionsOf_take le_rfl
  rw [hsum, ← hat]
  exact hvalid.rangeSum_of_load hl hver hlr (hsize ▸ hr) (hsize ▸ (hs.take k).smallOn)

/-! ## Checkpoints and replays -/

namespace CheckpointingSegmentTree

variable {k : ℕ}

theorem answers (values : List ValueType) (hk : 0 < k) : simulation.Answers (values, k) True where
  opening hi := initialize_error hk hi
  answer {h s s' m l r value e} hs hv hi := by
    have hi' : rangeAdd l r value s = .error e s' := hi
    rcases rangeAdd_outcome hs hv l r value with
      ⟨m', live, guard, -, hr, -⟩ | ⟨e', hr, hout | ⟨e'', -, hm⟩⟩ <;> rw [hr] at hi' <;> cases hi'
    · exact .inl ⟨trivial, hout⟩
    · exact .inr ⟨e'', hm⟩

variable {s : State} {h : History (List ValueType × ℕ)} {m : VersionedTrees} {b v l r : ℕ}

/-- Everything the replay of a small run computes is representable. -/
theorem replayFits_of_load {i : ℕ} (hv : m.Valid .retaining h.adds) (hl : m.LoadedBy b)
    (hamount : ∀ u ∈ h.adds.updates, u.amount.natAbs ≤ b) (hver : v ≤ h.adds.updates.length)
    (hlr : l ≤ r) (hr : r < m.size) (hb : SmallOn b 0 (m.size - 1)) :
    ReplayFits h.adds i v l r := by
  intro j _ hj u hu hover
  have hlen : length (max l u.left) (min r u.right) ≤ length 0 (m.size - 1) := by
    unfold Segment.length
    omega
  refine ⟨hb.mul (hamount u (List.mem_of_getElem? hu)) hlen, ?_⟩
  have hpart : SmallOn b l r :=
    (Nat.mul_le_mul_left b (by unfold Segment.length; omega)).trans hb
  have hlt : j + 1 < h.adds.versionCount := by
    unfold RangeAdds.versionCount
    omega
  exact hpart.sum hlr fun i _ hi => hv.natAbs_array_le hl hlt (by omega)

/-- Whichever path serves a version, everything it computes is representable. -/
theorem pathFits_of_load (hv : m.Valid .retaining h.adds) (hl : m.LoadedBy b)
    (hamount : ∀ u ∈ h.adds.updates, u.amount.natAbs ≤ b) (hver : v ≤ h.adds.updates.length)
    (hlr : l ≤ r) (hr : r < m.size) (hb : SmallOn b 0 (m.size - 1)) :
    PathFits h.adds m.size h.argument.2 v l r := by
  have hquery : ∀ w, w ≤ h.adds.updates.length →
      SumTree.QueryFits (h.adds.array w) (h.adds.covering w) 0 (m.size - 1) l r := by
    intro w hw
    obtain ⟨x, hx, -⟩ := hv.rangeSum_of_load hl (Nat.lt_succ_of_le hw) hlr hr hb
    exact (hv.rangeSum_returns (Nat.lt_succ_of_le hw) hlr hr).mp ⟨x, hx⟩
  unfold PathFits
  split_ifs
  · exact hquery v hver
  · exact ⟨hquery _ ((Nat.div_mul_le_self v _).trans hver),
      replayFits_of_load hv hl hamount hver hlr hr hb⟩

theorem flawless (hk : 0 < k) (hs : SmallValues values adds)
    (hroom : ¬ OutOfRoom (engine.opening (values, k)))
    (hrooms : engine.HasRoom (values, k) adds) :
    Flawless engine (SumsOfAll values adds versionCount rangeSum) (values, k) adds := by
  refine Simulation.flawless (answers values hk) Discipline.retaining_gentle hroom hs
    (fun _ => hrooms) fun j hj s hst => ?_
  obtain ⟨m, hrel, hvalid, hsize, hl⟩ := hst
  have hst : StoresVersions (Simulation.historyAfter engine (values, k) (adds.take j)) s m := hrel
  have hlen : (versionsOf values (adds.take j)).updates.length = j := by
    unfold versionsOf
    rw [List.length_map, List.length_take, min_eq_left hj]
  have hevents : s.events.length = j := hst.events_length.trans hlen
  refine ⟨?_, fun v hv l r hlr hr => ?_⟩
  · have hcount : versionCount s = checkedSizeAdd s.events.length 1 :=
      if_neg (List.ne_nil_of_length_pos hst.checkpoints_pos)
    rcases (counts_cases s).1 with ⟨c, hc⟩ | hout
    · rw [hcount] at hc
      exact .inl (by rw [hcount, hc, eq_of_checkedSizeAdd hc, hevents])
    · exact .inr hout
  · have hamount : ∀ u ∈ (versionsOf values (adds.take j)).updates,
        u.amount.natAbs ≤ largest values + spread (adds.take j) := by
      intro u hu
      obtain ⟨w, hw, rfl⟩ := List.mem_map.mp hu
      exact (natAbs_le_spread hw).trans (Nat.le_add_left _ _)
    have hver : v ≤ (versionsOf values (adds.take j)).updates.length := by omega
    have hfits := pathFits_of_load
      (h := Simulation.historyAfter engine (values, k) (adds.take j)) hvalid hl hamount hver hlr
      (hsize ▸ hr) (hsize ▸ (hs.take j).smallOn)
    rw [← versionsOf_take hv]
    rcases rangeSum_cases hst hvalid hver hlr (hsize ▸ hr) with ⟨x, hx, hexact, -⟩ | ⟨-, hno⟩
    · exact ⟨x, hx, hexact⟩
    · exact absurd hfits hno

end CheckpointingSegmentTree

/-! ## Sums from left to right -/

namespace BruteForceArray

/-- The loop adds up the elements, where their magnitudes leave room for it. -/
theorem sumFrom_of_small {xs : List ValueType} {b right : ℕ}
    (hb : ∀ i ≤ right, (leafArray xs i).natAbs ≤ b) (hr : right < xs.length) :
    ∀ (n index : ℕ) (sum : ValueType), right + 1 - index = n →
      sum.toInt.natAbs + b * n ≤ 2 ^ 63 - 1 →
      ∃ x, sumFrom xs index right sum = .ok x ∧
        x.toInt = sum.toInt + ∑ i ∈ Finset.Ico index (right + 1), leafArray xs i := by
  intro n
  induction n with
  | zero =>
    intro index sum hn _
    refine ⟨sum, by rw [sumFrom, if_neg (by omega)], ?_⟩
    rw [Finset.Ico_eq_empty (by omega), Finset.sum_empty, add_zero]
  | succ n ih =>
    intro index sum hn hsmall
    obtain ⟨x, hx⟩ : ∃ x, xs[index]? = some x := ⟨_, List.getElem?_eq_getElem (by omega)⟩
    have hxs := leafArray_of_getElem? hx
    have hxb := hb index (by omega)
    rw [hxs] at hxb
    rw [Nat.mul_succ] at hsmall
    have hfit : Representable (sum.toInt + x.toInt) := by
      unfold Representable
      omega
    obtain ⟨next, hnext, hnexts⟩ := checkedAdd_of_representable hfit
    obtain ⟨y, hy, hys⟩ := ih (index + 1) next (by omega) (by omega)
    refine ⟨y, ?_, ?_⟩
    · rw [sumFrom, if_pos (by omega), vectorAt_eq_ok.mpr hx, Effect.ok_bind, hnext, Effect.ok_bind,
        hy]
    · rw [hys, hnexts, Finset.sum_eq_sum_Ico_succ_bot (show index < right + 1 by omega), hxs]
      ring

/-- A sum of a stored version. -/
theorem rangeSum_of_small {s : State} {n b v l r : ℕ} {h : RangeAdds ℤ} (hs : StoresArrays s n h)
    (hv : v < h.versionCount) (hlr : l ≤ r) (hr : r < n)
    (hb : ∀ i < n, (h.array v i).natAbs ≤ b) (hsmall : SmallOn b 0 (n - 1)) :
    ∃ x, rangeSum s v l r = .ok x ∧ x.toInt = Segment.sum (h.array v) l r := by
  have hlt : v < s.versions.length := hs.count ▸ hv
  obtain ⟨xs, hget⟩ : ∃ xs, s.versions[v]? = some xs := ⟨_, List.getElem?_eq_getElem hlt⟩
  obtain ⟨hlen, hat⟩ := hs.holds v xs hget
  have hcount : b * (r + 1 - l) ≤ 2 ^ 63 - 1 :=
    (Nat.mul_le_mul_left b (by unfold Segment.length; omega)).trans hsmall
  have hxs : ∀ i ≤ r, (leafArray xs i).natAbs ≤ b := fun i hi => by
    rw [hat i (by omega)]
    exact hb i (by omega)
  obtain ⟨x, hx, hexact⟩ := sumFrom_of_small hxs (hlen ▸ hr) _ l 0 rfl
    (by rw [Int64.toInt_zero, Int.natAbs_zero, Nat.zero_add]; exact hcount)
  refine ⟨x, ?_, ?_⟩
  · unfold rangeSum
    rw [validateVersion_eq_ok.mpr hlt, vectorAt_eq_ok.mpr hget]
    simp only [Effect.ok_bind, hlen, validateRange_eq_ok.mpr ⟨hlr, hr⟩]
    exact hx
  · have hIco : Finset.Ico l (r + 1) = Finset.Icc l r := by
      ext i
      simp only [Finset.mem_Ico, Finset.mem_Icc]
      omega
    rw [hexact, Int64.toInt_zero, zero_add, hIco]
    refine Finset.sum_congr rfl fun i hi => ?_
    rw [Finset.mem_Icc] at hi
    exact hat i (by omega)

/-- The elements of every version of a small run. -/
theorem natAbs_versionsOf_le (values : List ValueType) (adds : List (RangeAdd ValueType)) (v : ℕ)
    {i : ℕ} (hi : i < values.length) :
    ((versionsOf values adds).array v i).natAbs ≤ largest values + spread adds := by
  have hat : values[i]? = some values[i] := List.getElem?_eq_getElem hi
  have hinit : (leafArray values i).natAbs ≤ largest values := by
    rw [leafArray_of_getElem? hat]
    exact natAbs_le_largest (List.getElem_mem hi)
  have hspread : (((versionsOf values adds).updates.take v).map fun u => u.amount.natAbs).sum ≤
      spread adds := by
    refine le_trans (le_of_eq ?_) (show spread (adds.take v) ≤ spread adds from spread_take_le v)
    unfold versionsOf spread
    rw [← List.map_take, List.map_map]
    rfl
  exact ((versionsOf values adds).natAbs_array_le v i).trans (Nat.add_le_add hinit hspread)

/-- **Runs.** The vectors are the versions of the array. -/
theorem run_small (hs : SmallValues values adds) : Returns (engine.opening values) ∧
    StoresArrays (engine.after values adds) values.length (versionsOf values adds) ∧
      ∀ u, SmallValues values (adds ++ [u]) → Returns (engine.answer (engine.after values adds) u) ∧
        StoresArrays (engine.after values (adds ++ [u])) values.length
          (versionsOf values (adds ++ [u])) := by
  have step : ∀ {adds : List (RangeAdd ValueType)} (u : RangeAdd ValueType),
      StoresArrays (engine.after values adds) values.length (versionsOf values adds) →
      SmallValues values (adds ++ [u]) → Returns (engine.answer (engine.after values adds) u) ∧
        StoresArrays (engine.after values (adds ++ [u])) values.length
          (versionsOf values (adds ++ [u])) := by
    intro adds u hst hsu
    obtain ⟨hlr, hr⟩ := hsu.valid u (List.mem_append_right _ (List.mem_singleton.mpr rfl))
    have hadd : (versionsOf values adds).add ⟨u.left, u.right, u.amount.toInt⟩ =
        versionsOf values (adds ++ [u]) := by
      unfold versionsOf
      rw [List.map_append]
      rfl
    have hfit : CanonicalFit (addOn (versionsOf values adds).latest u.left u.right u.amount.toInt) 0
        (values.length - 1) := by
      rw [← RangeAdds.add_latest (u := ⟨u.left, u.right, u.amount.toInt⟩), hadd]
      have hn := hsu.nonempty
      exact hsu.smallOn.canonicalFit fun i _ hi => natAbs_versionsOf_le values _ _ (by omega)
    rcases rangeAdd_cases u.amount hst hlr hr with ⟨s', hs', hst', -⟩ | ⟨w, -, hno⟩
    · refine ⟨Engine.returns_answer (E := engine) hs', ?_⟩
      rw [Engine.after_concat, (Engine.answer_ok (E := engine) hs').2, ← hadd]
      exact hst'
    · exact absurd hfit hno
  have hopen : ∃ s', initializeFrom values engine.empty = .ok () s' ∧
      StoresArrays s' values.length (versionsOf values []) := by
    have hn := hs.nonempty
    rcases initialize_cases (s := engine.empty) hn with ⟨s', hi, hst, -⟩ | ⟨w, -, hno⟩
    · exact ⟨s', hi, hst⟩
    · refine absurd ((hs.take 0).smallOn.canonicalFit fun i _ hi => ?_) hno
      exact natAbs_versionsOf_le values (adds.take 0) 0 (by omega)
  obtain ⟨s', hi, hst⟩ := hopen
  have hafter : StoresArrays (engine.after values adds) values.length (versionsOf values adds) := by
    induction adds using List.reverseRecOn with
    | nil =>
      show StoresArrays (Effect.finalState (initializeFrom values engine.empty)) _ _
      rw [hi]
      exact hst
    | append_singleton adds u ih =>
      have hinit := hs.take adds.length
      rw [List.take_left] at hinit
      exact (step u (ih hinit) hs).2
  exact ⟨Engine.returns_opening (E := engine) hi, hafter, fun u => step u hafter⟩

theorem flawless (hs : SmallValues values adds) : Flawless engine
    (SumsOfAll values adds (fun s => .ok (versionCount s)) rangeSum) values adds := by
  refine ⟨(run_small hs).1, fun k hk => ?_, fun k hk => ⟨.inl ?_, fun v hv l r hlr hr => ?_⟩⟩
  · have htake : adds.take k ++ [adds[k]] = adds.take (k + 1) := List.take_append_getElem hk
    exact ((run_small (hs.take k)).2.2 adds[k] (htake ▸ hs.take (k + 1))).1
  · have hcount := (run_small (hs.take k)).2.1.count
    unfold RangeAdds.versionCount versionsOf at hcount
    rw [List.length_map, List.length_take, min_eq_left hk] at hcount
    exact congrArg Except.ok hcount
  · have hver : v < (versionsOf values (adds.take k)).versionCount := by
      unfold RangeAdds.versionCount versionsOf
      rw [List.length_map, List.length_take, min_eq_left hk]
      omega
    rw [← versionsOf_take hv]
    exact rangeSum_of_small (run_small (hs.take k)).2.1 hver hlr hr
      (fun i hi => natAbs_versionsOf_le values _ v hi) (hs.take k).smallOn

end BruteForceArray

/-- **Small values.** On a small run every operation with valid arguments returns, as long as no
container runs out of room, and the sums of every version are exact, those of the latest one in the
mutable tree. -/
theorem flawless_runs {k : ℕ} (hs : SmallValues values adds) (hk : 0 < k) :
    Flawless BruteForceArray.engine (SumsOfAll values adds
        (fun s => .ok (BruteForceArray.versionCount s)) BruteForceArray.rangeSum) values adds ∧
      (¬ OutOfRoom (LazySegmentTree.engine.opening values) →
        Flawless LazySegmentTree.engine (SumsOfLatest values adds LazySegmentTree.rangeSum)
          values adds) ∧
      (¬ OutOfRoom (PersistentLazySegmentTree.engine.opening values) →
        Flawless PersistentLazySegmentTree.engine (SumsOfAll values adds
          (fun s => .ok (PersistentLazySegmentTree.versionCount s))
          PersistentLazySegmentTree.rangeSum) values adds) ∧
      (¬ OutOfRoom (FullCopyPersistentSegmentTree.engine.opening values) →
        Flawless FullCopyPersistentSegmentTree.engine (SumsOfAll values adds
          (fun s => .ok (FullCopyPersistentSegmentTree.versionCount s))
          FullCopyPersistentSegmentTree.rangeSum) values adds) ∧
      (¬ OutOfRoom (PointOnlyPersistentSegmentTree.engine.opening values) →
        Flawless PointOnlyPersistentSegmentTree.engine (SumsOfAll values adds
          (fun s => .ok (PointOnlyPersistentSegmentTree.versionCount s))
          PointOnlyPersistentSegmentTree.rangeSum) values adds) ∧
      (¬ OutOfRoom (CheckpointingSegmentTree.engine.opening (values, k)) →
        CheckpointingSegmentTree.engine.HasRoom (values, k) adds →
          Flawless CheckpointingSegmentTree.engine (SumsOfAll values adds
            CheckpointingSegmentTree.versionCount CheckpointingSegmentTree.rangeSum)
            (values, k) adds ∧
          ∀ s, Returns (CheckpointingSegmentTree.nodeCount s) ∨
            OutOfRoom (CheckpointingSegmentTree.nodeCount s)) ∧
      (¬ OutOfRoom (BufferedPathCopyingSegmentTree.engine.opening values) →
        Flawless BufferedPathCopyingSegmentTree.engine (SumsOfAll values adds
          (fun s => .ok (BufferedPathCopyingSegmentTree.versionCount s))
          BufferedPathCopyingSegmentTree.rangeSum) values adds) ∧
      (¬ OutOfRoom (FatNodePersistentSegmentTree.engine.opening values) →
        FatNodePersistentSegmentTree.engine.HasRoom values adds →
          Flawless FatNodePersistentSegmentTree.engine (SumsOfAll values adds
            (fun s => .ok (FatNodePersistentSegmentTree.versionCount s))
            FatNodePersistentSegmentTree.rangeSum) values adds) ∧
      (¬ OutOfRoom (CopyOnPushSegmentTree.engine.opening values) →
        Flawless CopyOnPushSegmentTree.engine (SumsOfAll values adds
          (fun s => .ok (CopyOnPushSegmentTree.versionCount s)) CopyOnPushSegmentTree.rangeSum)
          values adds) :=
  ⟨BruteForceArray.flawless hs, LazySegmentTree.flawless hs, PersistentLazySegmentTree.flawless hs,
    FullCopyPersistentSegmentTree.flawless hs, PointOnlyPersistentSegmentTree.flawless hs,
    fun hroom hrooms => ⟨CheckpointingSegmentTree.flawless hk hs hroom hrooms, fun s =>
      (CheckpointingSegmentTree.counts_cases s).2⟩,
    BufferedPathCopyingSegmentTree.flawless hs, FatNodePersistentSegmentTree.flawless hs,
    CopyOnPushSegmentTree.flawless hs⟩

/-- Three elements and additions whose magnitudes, times three, reach `2 ^ 63 - 1`. -/
abbrev brimmingAdds : List (RangeAdd ValueType) :=
  [⟨0, 2, 3074457345618258594⟩, ⟨1, 2, 0⟩, ⟨0, 1, -3⟩]

theorem flawless_runs_brimming : ∃ x, CheckpointingSegmentTree.rangeSum
    (CheckpointingSegmentTree.engine.after ([3, -4, 5], 2) (brimmingAdds.take 3)) 1 0 2 = .ok x ∧
      x.toInt = Segment.sum ((versionsOf [3, -4, 5] brimmingAdds).array 1) 0 2 := by
  have hs : SmallValues [3, -4, 5] brimmingAdds := ⟨by decide, by decide, by decide +kernel⟩
  have hrun := (flawless_runs hs (show 0 < 2 by decide)).2.2.2.2.2.1 (by decide +kernel)
    (by decide +kernel)
  exact (hrun.1.sums 3 le_rfl).2 1 (by decide) 0 2 (by decide) (by decide)

end Valseg
