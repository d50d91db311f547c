import Valseg.SafeCounts
import Valseg.Traces

/-!
# Replays of accepted traces

A stream that `loadTrace` accepts passes every check of a structure that replays it, in either
order (`accepted_trace_safe`): what ends a replay is a lack of room, or an overflow in the build, in
an update or in a query. `Careful` is what a structure guarantees where its arguments are valid, and
`EndedBy` says which call ended a replay.
-/

namespace Valseg

open Effect (ThrowsOnly)

/-- Nothing but `std::overflow_error` is thrown. -/
abbrev OnlyOverflows {α : Type} (x : Except Exception α) : Prop :=
  ThrowsOnly (fun e => e.kind = .overflowError) x

theorem Overflows.only {α : Type} {x : Except Exception α} (h : Overflows x) : OnlyOverflows x := by
  obtain ⟨what, rfl⟩ := h
  intro e he
  cases he
  rfl

theorem throwsOnly_room {α : Type} {x : Except Exception α} (h : Returns x ∨ OutOfRoom x) :
    ThrowsOnly Exception.OutOfRoom x := by
  intro e he
  subst he
  rcases h with ⟨a, ha⟩ | h
  · cases ha
  · exact h

theorem checkedAdd_only (a b : ValueType) : OnlyOverflows (checkedAdd a b) := by
  intro e he
  obtain ⟨rfl, -⟩ := checkedAdd_error he
  rfl

/-! ## The versioned trees -/

theorem SumTree.materialize_only (t : SumTree) : ∀ (inherited : ValueType) (values : List ValueType),
    OnlyOverflows (t.materialize inherited values) := by
  induction t with
  | leaf s z =>
    intro inherited values
    refine ThrowsOnly.bind (fun e he => ?_) fun _ _ => .ok _
    obtain ⟨⟨what, rfl⟩, -⟩ := SumAddPolicy.apply_error (by decide) he
    rfl
  | node s z left right ihl ihr =>
    intro inherited values
    exact (checkedAdd_only inherited z).bind fun next _ =>
      (ihl next values).bind fun _ _ => ihr next _

namespace VersionedTrees

variable {D : Discipline} {h : RangeAdds ℤ} {m : VersionedTrees} {l r v : ℕ} {value : ValueType}
  {t : SumTree}

theorem initializeFrom_only (values : List ValueType) :
    OnlyOverflows (VersionedTrees.initializeFrom values) := by
  unfold VersionedTrees.initializeFrom
  refine .ite (fun _ => .ok _) fun h0 => ThrowsOnly.bind ?_ fun _ _ => .ok _
  have hlen : 0 < values.length := List.length_pos_of_ne_nil h0
  rcases SumTree.build_spec values 0 (values.length - 1) (by omega) (by omega) with
    ⟨t, ht, -⟩ | ⟨hover, -⟩
  · rw [ht]
    exact .ok t
  · exact hover.only

theorem Valid.preflight_only (hv : Valid D h m) (hlr : l ≤ r) (hr : r < m.size)
    (ht : m.trees[m.trees.length - 1]? = some t) :
    OnlyOverflows (D.preflight m.guard m.size l r value t) := by
  obtain ⟨t', ht', hlatest⟩ := hv.latest
  rw [ht, Option.some.injEq] at ht'
  subst ht'
  unfold Discipline.preflight SumAddDomainGuard.validateRangeAdd
  refine .ite (fun _ => .ite (fun _ => .ok _) fun _ => ?_) fun _ => .ok _
  refine (t.materialize_only 0 []).bind fun leaves hleaves => ?_
  have hn : 0 < m.size := by omega
  have hholds := SumTree.materialize_holds hn (hlatest hn).1 hleaves
  rw [if_neg (not_not.mpr hholds.1)]
  rcases fallback_spec (v := value) hholds hlr hr with
    ⟨ys, h1, h2, -⟩ | ⟨h1 | ⟨ys, h1, h2⟩, -⟩
  · rw [h1, Effect.ok_bind, h2]
    exact .ok _
  · exact h1.only.bind fun ys hys => absurd ⟨ys, hys⟩ h1.not_returns
  · rw [h1, Effect.ok_bind]
    exact h2.only.bind fun _ _ => .ok _

/-- **Additions** with valid arguments. -/
theorem Valid.rangeAdd_only (hv : Valid D h m) (hlr : l ≤ r) (hr : r < m.size) :
    OnlyOverflows (m.rangeAdd D l r value) := by
  obtain ⟨t, ht, -⟩ := hv.latest
  have hsize := hv.size_le
  rw [rangeAdd_eq_update hlr hr ht]
  refine .ite (fun _ => .ok _) fun _ => (hv.preflight_only hlr hr ht).bind fun b _ => ?_
  refine ThrowsOnly.bind (fun e he => ?_) fun _ _ => .ok _
  have hspans := (hv.represents (by omega) _ t ht).spans
  obtain ⟨what, rfl⟩ := D.update_error (by omega) hlr (by omega) hspans he
  rfl

/-- **Sums** with valid arguments. -/
theorem Valid.rangeSum_only (hv : Valid D h m) (hver : v < h.versionCount) (hlr : l ≤ r)
    (hr : r < m.size) : OnlyOverflows (m.rangeSum v l r) := by
  rcases hv.rangeSum_cases hver hlr hr with ⟨x, hx, -⟩ | hover
  · rw [hx]
    exact .ok x
  · exact hover.only

end VersionedTrees

namespace Bench

namespace PersistentAdapter

variable {ι σ : Type} {A : PersistentAdapter ι σ} {initial : List ValueType}
  {updates : List (RangeAdd ℤ)} {s s' : σ} {l r v : ℕ} {value : ValueType} {e : Exception}

/-! ## Structures that check their arguments -/

/-- There is no room, or a sum or a tag is not representable. -/
def RoomOrOverflow (e : Exception) : Prop := e.OutOfRoom ∨ e.kind = .overflowError

/-- What a structure throws where the arguments are valid. -/
structure Careful (A : PersistentAdapter ι σ) : Prop where
  build : ∀ {values : List ValueType} {s : σ} {e : Exception},
    A.build values A.tree.empty = .error e s → RoomOrOverflow e
  update : ∀ {s s' : σ} {h : History ι} {l r : ℕ} {value : ValueType} {e : Exception},
    A.tree.Reachable s h → l ≤ r → r < h.size → A.tree.rangeAdd l r value s = .error e s' →
      RoomOrOverflow e
  query : ∀ {s : σ} {h : History ι} {v l r : ℕ}, A.tree.Reachable s h →
    v ≤ h.adds.updates.length → l ≤ r → r < h.size → OnlyOverflows (A.rangeSum s v l r)
  nodes : ∀ s, ThrowsOnly Exception.OutOfRoom (A.nodes s)
  bytes : ∀ s, ThrowsOnly Exception.OutOfRoom (A.bytes s)
  versions : ∀ s, ThrowsOnly Exception.OutOfRoom (A.versions s)

variable {D : Discipline}

/-- A structure that stores versioned trees throws only what they throw, or for lack of room. -/
theorem Careful.of_trees (S : Simulation A.tree D)
    (hbuild : ∀ {values : List ValueType} {s : σ} {e : Exception},
      A.build values A.tree.empty = .error e s →
        e.OutOfRoom ∨ VersionedTrees.initializeFrom values = .error e)
    (hupdate : ∀ {s s' : σ} {h : History ι} {m : VersionedTrees} {l r : ℕ} {value : ValueType}
      {e : Exception}, S.Rel h s m → m.Valid D h.adds → A.tree.rangeAdd l r value s = .error e s' →
        e.OutOfRoom ∨ ∃ e', e.kind = e'.kind ∧ m.rangeAdd D l r value = .error e')
    (hquery : ∀ {s : σ} {h : History ι} {m : VersionedTrees} {v l r : ℕ}, S.Rel h s m →
      m.Valid D h.adds → v ≤ h.adds.updates.length → l ≤ r → r < m.size →
        OnlyOverflows (A.rangeSum s v l r))
    (hnodes : ∀ s, ThrowsOnly Exception.OutOfRoom (A.nodes s))
    (hbytes : ∀ s, ThrowsOnly Exception.OutOfRoom (A.bytes s))
    (hversions : ∀ s, ThrowsOnly Exception.OutOfRoom (A.versions s)) : A.Careful where
  build he := by
    rcases hbuild he with hroom | hm
    · exact .inl hroom
    · exact .inr (VersionedTrees.initializeFrom_only _ _ hm)
  update hr hlr hrn he := by
    obtain ⟨m, hsize, hrel, hv⟩ := S.reaches hr
    rcases hupdate hrel hv he with hroom | ⟨e', hkind, hm⟩
    · exact .inl hroom
    · exact .inr (hkind.trans (hv.rangeAdd_only hlr (hsize ▸ hrn) _ hm))
  query hr hver hlr hrn := by
    obtain ⟨m, hsize, hrel, hv⟩ := S.reaches hr
    exact hquery hrel hv hver hlr (hsize ▸ hrn)
  nodes := hnodes
  bytes := hbytes
  versions := hversions

/-- The path-copying trees read the trees they store. -/
theorem careful_of_refines {Node Domain : Type} {P : PathCopying Node Domain} (R : P.Refines D)
    {rangeSum : PathCopyingTree Node Domain → (version left right : ℕ) → Except Exception ValueType}
    (hsum : ∀ {s m} {h : History (List ValueType)}, R.StoresTrees s m → m.Valid D h.adds →
      ∀ v l r, rangeSum s v l r = m.rangeSum v l r)
    (nodes versions : PathCopyingTree Node Domain → ℕ) (bytes : PathCopyingTree Node Domain → UInt64) :
    Careful (⟨P.engine, id, rangeSum, fun tree => .ok (nodes tree), fun tree => .ok (versions tree),
      fun tree => .ok (bytes tree)⟩ : PersistentAdapter _ _) := by
  refine .of_trees R.simulation (fun he => PathCopying.Refines.initialize_error R he) ?_ ?_
    (fun _ => .ok _) (fun _ => .ok _) fun _ => .ok _
  · intro s s' h m l r value e hrel hv he
    have he' : P.rangeAdd l r value s = .error e s' := he
    rcases PathCopying.Refines.rangeAdd_outcome hrel hv l r value with
      ⟨m', s'', -, hx, -⟩ | ⟨e', hm, hx⟩ <;> rw [hx] at he' <;> cases he'
    exact .inr ⟨e, rfl, hm⟩
  · intro s h m v l r hrel hv hver hlr hr
    show OnlyOverflows (rangeSum s v l r)
    rw [hsum hrel hv]
    exact hv.rangeSum_only (Nat.lt_succ_of_le hver) hlr hr

end PersistentAdapter

open PersistentAdapter (Careful)

theorem bufferedCareful (interval : ℕ) :
    (PersistentStructure.buffered.adapter interval).Careful := by
  refine .of_trees BufferedPathCopyingSegmentTree.simulation
    (fun he => BufferedPathCopyingSegmentTree.initialize_error he) ?_ ?_
    (fun _ => .ok _) (fun _ => .ok _) fun _ => .ok _
  · intro s s' h m l r value e hrel hv he
    have he' : BufferedPathCopyingSegmentTree.rangeAdd l r value s = .error e s' := he
    rcases BufferedPathCopyingSegmentTree.rangeAdd_outcome hrel hv l r value with
      ⟨m', s'', -, hx, -⟩ | ⟨e', s'', hm, hx, -⟩ <;> rw [hx] at he' <;> cases he'
    exact .inr ⟨e, rfl, hm⟩
  · intro s h m v l r hrel hv hver hlr hr
    show OnlyOverflows (BufferedPathCopyingSegmentTree.rangeSum s v l r)
    rw [BufferedPathCopyingSegmentTree.rangeSum_eq hrel hv.size_le]
    exact hv.rangeSum_only (Nat.lt_succ_of_le hver) hlr hr

theorem fatNodeCareful (interval : ℕ) : (PersistentStructure.fatNode.adapter interval).Careful := by
  refine .of_trees FatNodePersistentSegmentTree.simulation
    (fun he => FatNodePersistentSegmentTree.initialize_error he) ?_ ?_
    (fun _ => .ok _) (fun _ => .ok _) fun _ => .ok _
  · intro s s' h m l r value e hrel hv he
    have he' : FatNodePersistentSegmentTree.rangeAdd l r value s = .error e s' := he
    rcases FatNodePersistentSegmentTree.rangeAdd_outcome hrel hv l r value with
      ⟨m', s'', -, hx, -⟩ | ⟨e', hx, hthrows⟩ <;> rw [hx] at he' <;> cases he'
    exact hthrows
  · intro s h m v l r hrel hv hver hlr hr
    show OnlyOverflows (FatNodePersistentSegmentTree.rangeSum s v l r)
    rw [FatNodePersistentSegmentTree.rangeSum_eq hrel hv.size_le]
    exact hv.rangeSum_only (Nat.lt_succ_of_le hver) hlr hr

theorem checkpointingCareful {interval : ℕ} (hk : 1 ≤ interval) :
    (PersistentStructure.checkpointing.adapter interval).Careful := by
  have hnodes : ∀ s, ThrowsOnly Exception.OutOfRoom (CheckpointingSegmentTree.nodeCount s) :=
    fun s => throwsOnly_room (CheckpointingSegmentTree.counts_cases s).2
  refine .of_trees CheckpointingSegmentTree.simulation
    (fun he => CheckpointingSegmentTree.initialize_error hk he) ?_ ?_ hnodes
    (fun s => (hnodes s).bind fun _ _ => .ok _)
    fun s => throwsOnly_room (CheckpointingSegmentTree.counts_cases s).1
  · intro s s' h m l r value e hrel hv he
    have he' : CheckpointingSegmentTree.rangeAdd l r value s = .error e s' := he
    rcases CheckpointingSegmentTree.rangeAdd_outcome hrel hv l r value with
      ⟨m', live, guard, -, hx, -⟩ | ⟨e', hx, hthrows⟩ <;> rw [hx] at he' <;> cases he'
    exact hthrows
  · intro s h m v l r hrel hv hver hlr hr
    show OnlyOverflows (CheckpointingSegmentTree.rangeSum s v l r)
    rcases CheckpointingSegmentTree.rangeSum_cases hrel hv hver hlr hr with
      ⟨x, hx, -⟩ | ⟨hover, -⟩
    · rw [hx]
      exact .ok x
    · exact hover.only

/-- **The seven structures.** -/
theorem PersistentStructure.careful {interval : ℕ} (hk : 1 ≤ interval) :
    ∀ which : PersistentStructure, (which.adapter interval).Careful
  | persistent => PersistentAdapter.careful_of_refines PersistentLazySegmentTree.refines
      (fun hrel hv _ _ _ => PersistentLazySegmentTree.rangeSum_eq hrel hv.size_le) _ _ _
  | copyOnPush => PersistentAdapter.careful_of_refines CopyOnPushSegmentTree.refines
      (fun hrel hv _ _ _ => CopyOnPushSegmentTree.rangeSum_eq hrel hv) _ _ _
  | fullCopy => PersistentAdapter.careful_of_refines FullCopyPersistentSegmentTree.refines
      (fun hrel hv _ _ _ => FullCopyPersistentSegmentTree.rangeSum_eq hrel hv) _ _ _
  | pointOnly => PersistentAdapter.careful_of_refines PointOnlyPersistentSegmentTree.refines
      (fun hrel hv _ _ _ => PointOnlyPersistentSegmentTree.rangeSum_eq hrel hv.copying) _ _ _
  | checkpointing => checkpointingCareful hk
  | buffered => bufferedCareful interval
  | fatNode => fatNodeCareful interval

/-! ## The loops -/

namespace PersistentAdapter

variable {ι σ : Type} {A : PersistentAdapter ι σ} {initial : List ValueType}
  {all done stream : List Operation} {op : Operation} {s s' : σ} {e : Exception}

/-- What ends a replay that does not return. An update is that of an operation of the stream, after
the updates before it; a query is one of the stream, of a version that is there. -/
inductive EndedBy (A : PersistentAdapter ι σ) (initial : List ValueType) (all : List Operation)
    (e : Exception) : Prop
  | noRoom (hroom : e.OutOfRoom)
  | build {s : σ} (he : A.build initial A.tree.empty = .error e s) (hkind : e.kind = .overflowError)
  | update {done rest : List Operation} {op : Operation} {s s' : σ} (hall : all = done ++ op :: rest)
      (hu : op.isUpdate = true) (hs : A.Holds initial (additions done) s)
      (he : A.update op.left op.right op.delta s = .error e s') (hkind : e.kind = .overflowError)
  | query {done : List Operation} {op : Operation} {s : σ} (hdone : done <+: all) (hop : op ∈ all)
      (hu : ¬ op.isUpdate = true) (hs : A.Holds initial (additions done) s)
      (hver : op.version ≤ updateCount done)
      (he : A.query s op.version op.left op.right = .error e) (hkind : e.kind = .overflowError)

/-- None of the checks of arguments ends one. -/
theorem EndedBy.exceeds (h : A.EndedBy initial all e) : e.Exceeds := by
  cases h with
  | noRoom hroom => exact hroom.exceeds
  | build _ hkind => exact .inl hkind
  | update _ _ _ _ hkind => exact .inl hkind
  | query _ _ _ _ _ _ hkind => exact .inl hkind

theorem additions_append (stream more : List Operation) :
    additions (stream ++ more) = additions stream ++ additions more := by
  unfold additions
  rw [List.filter_append, List.map_append]

theorem additions_length (stream : List Operation) :
    (additions stream).length = updateCount stream := by
  unfold additions updateCount
  rw [List.length_map]

/-- What a valid stream says of one of its operations. -/
theorem valid_at {rest : List Operation}
    (hvalid : ValidFrom initial.length 0 (done ++ op :: rest)) : op.left ≤ op.right ∧
      op.right < initial.length ∧ (¬ op.isUpdate = true → op.version ≤ updateCount done) := by
  obtain ⟨-, hlr, hr, hop⟩ := (validFrom_append (op :: rest)).mp hvalid
  refine ⟨hlr, hr, fun hu => ?_⟩
  rw [if_neg hu, Nat.zero_add] at hop
  exact hop.1

/-- The updates before an operation and its own. -/
theorem Holds.update_of (h : A.Holds initial (additions done) s) (hu : op.isUpdate = true)
    (hx : A.update op.left op.right op.delta s = .ok () s') :
    A.Holds initial (additions (done ++ [op])) s' := by
  rw [additions_append, additions_update hu, additions_nil]
  exact h.update hx

theorem Holds.query_of (h : A.Holds initial (additions done) s) (hu : ¬ op.isUpdate = true) :
    A.Holds initial (additions (done ++ [op])) s := by
  rw [additions_append, additions_query hu, additions_nil, List.append_nil]
  exact h

variable (hA : A.Exact) (hC : A.Careful)

include hA hC in
/-- An update of a valid stream. -/
theorem EndedBy.of_update {rest : List Operation} (hvalid : ValidFrom initial.length 0 all)
    (hall : all = done ++ op :: rest) (hu : op.isUpdate = true)
    (hs : A.Holds initial (additions done) s)
    (he : A.update op.left op.right op.delta s = .error e s') : A.EndedBy initial all e := by
  obtain ⟨hlr, hr, -⟩ := valid_at (hall ▸ hvalid)
  have hsize : op.right < (A.tree.historyOf (A.argument initial) (additions done)).size := by
    unfold Engine.historyOf
    rw [hA.values]
    exact hr
  have hx : A.tree.rangeAdd op.left op.right op.delta s = .error e s' := by
    rcases Effect.run_bind_eq_error.mp he with hx | ⟨version, t, -, hx⟩
    · exact hx
    · cases hx
  rcases hC.update hs hlr hsize hx with hroom | hkind
  · exact .noRoom hroom
  · exact .update hall hu hs he hkind

include hA hC in
/-- A query of a valid stream, of a state that may have later versions. -/
theorem EndedBy.of_query {before rest : List Operation} (hvalid : ValidFrom initial.length 0 all)
    (hall : all = before ++ op :: rest) (hu : ¬ op.isUpdate = true) (hdone : done <+: all)
    (hcount : updateCount before ≤ updateCount done) (hs : A.Holds initial (additions done) s)
    (he : A.query s op.version op.left op.right = .error e) : A.EndedBy initial all e := by
  obtain ⟨hlr, hr, hver⟩ := valid_at (hall ▸ hvalid)
  have hsize : op.right < (A.tree.historyOf (A.argument initial) (additions done)).size := by
    unfold Engine.historyOf
    rw [hA.values]
    exact hr
  have hlatest : op.version ≤ updateCount done := (hver hu).trans hcount
  have hop : op ∈ all := by
    rw [hall]
    exact List.mem_append_right _ List.mem_cons_self
  refine .query hdone hop hu hs hlatest he (hC.query hs ?_ hlr hsize e he)
  show op.version ≤ (additions done).length
  rw [additions_length]
  exact hlatest

variable {clock : ℕ → ℤ} {capBytes : UInt64} {index streamSize timeEvery : ℕ}
  {result result' : TrialResult} {m m' : Measured σ}

/-- An operation leaves the updates so far. -/
theorem Holds.operation {timed : Prop} [Decidable timed]
    (hm : A.Holds initial (additions done) m.tree)
    (h : A.writing.replayOperation clock timed op result m = .ok result' m') :
    A.Holds initial (additions (done ++ [op])) m'.tree := by
  have hop : ∃ result₁, A.writing.Performs op result m.tree result₁ m'.tree :=
    ⟨_, Adapter.replayOperation_eq_ok result'.samples h⟩
  rcases hop with ⟨-, ⟨hu, hx⟩ | ⟨hu, hx⟩⟩
  · exact hm.update_of hu hx
  · obtain ⟨-, htree⟩ := run_get_bind_eq_ok.mp hx
    rw [htree]
    exact hm.query_of hu

include hC in
/-- A memory reading fails for lack of room. -/
theorem sample_error {due : Prop} [Decidable due] {bytes : UInt64}
    (h : A.writing.sample due index bytes result m = .error e m') : e.OutOfRoom := by
  unfold Adapter.sample at h
  split_ifs at h
  · rcases run_bind_reading_eq_error.mp h with ⟨h1, -⟩ | ⟨versions, -, h⟩
    · exact hC.versions _ e h1
    rcases run_bind_reading_eq_error.mp h with ⟨h2, -⟩ | ⟨nodes, -, h⟩
    · exact hC.nodes _ e h2
    · cases h
  · cases h

include hA hC in
theorem replayOperation_error {timed : Prop} [Decidable timed] {rest : List Operation}
    (hvalid : ValidFrom initial.length 0 all) (hall : all = done ++ op :: rest)
    (hm : A.Holds initial (additions done) m.tree)
    (h : A.writing.replayOperation clock timed op result m = .error e m') : A.EndedBy initial all e := by
  unfold Adapter.replayOperation at h
  by_cases hu : op.isUpdate = true
  · rw [if_pos hu] at h
    rcases Effect.run_bind_eq_error.mp h with h1 | ⟨x, m₁, -, h⟩
    · obtain ⟨t, ht⟩ := bracketed_eq_error h1
      exact .of_update hA hC hvalid hall hu hm ht
    · cases h
  · rw [if_neg hu] at h
    rcases Effect.run_bind_eq_error.mp h with h1 | ⟨x, m₁, -, h⟩
    · obtain ⟨t, ht⟩ := bracketed_eq_error h1
      have hdone : done <+: all := ⟨op :: rest, hall.symm⟩
      exact .of_query hA hC hvalid hall hu hdone le_rfl hm (run_get_bind_eq_error.mp ht).1
    · cases h

include hA hC in
/-- **The interleaved loop.** -/
theorem interleaved_error (hvalid : ValidFrom initial.length 0 all) (hall : all = done ++ stream)
    (hm : A.Holds initial (additions done) m.tree)
    (hrun : A.writing.interleaved clock capBytes streamSize timeEvery stream index result m =
      .error e m') : A.EndedBy initial all e := by
  induction stream generalizing done index result m with
  | nil => cases hrun
  | cons op stream ih =>
    rw [Adapter.interleaved] at hrun
    rcases Effect.run_bind_eq_error.mp hrun with h1 | ⟨result₁, m₁, h1, hrun⟩
    · exact replayOperation_error hA hC hvalid hall hm h1
    rcases run_bind_reading_eq_error.mp hrun with ⟨h2, -⟩ | ⟨bytes, -, hrun⟩
    · exact .noRoom (hC.bytes _ e h2)
    rcases Effect.run_bind_eq_error.mp hrun with h3 | ⟨result₂, m₂, h3, hrest⟩
    · exact .noRoom (sample_error hC h3)
    obtain ⟨rfl, -⟩ := Adapter.sample_eq_ok h3
    by_cases hcap : bytes > capBytes
    · rw [if_pos hcap] at hrest
      cases hrest
    rw [if_neg hcap] at hrest
    exact ih (by rw [hall, List.append_assoc, List.singleton_append]) (hm.operation h1) hrest

include hA hC in
/-- **The loop over the updates.** -/
theorem updateBatch_error (hvalid : ValidFrom initial.length 0 all) (hall : all = done ++ stream)
    (hm : A.Holds initial (additions done) m.tree)
    (hrun : A.writing.updateBatch capBytes stream result m = .error e m') : A.EndedBy initial all e := by
  induction stream generalizing done result m with
  | nil => cases hrun
  | cons op stream ih =>
    have hnext : all = done ++ [op] ++ stream := by
      rw [hall, List.append_assoc, List.singleton_append]
    rw [Adapter.updateBatch] at hrun
    by_cases hu : op.isUpdate = true
    · rw [if_pos hu] at hrun
      rcases run_bind_calling_eq_error.mp hrun with ⟨t, hx, -⟩ | ⟨⟨⟩, t, hx, hrun⟩
      · exact .of_update hA hC hvalid hall hu hm hx
      rcases run_bind_reading_eq_error.mp hrun with ⟨h2, -⟩ | ⟨bytes, -, hrun⟩
      · exact .noRoom (hC.bytes _ e h2)
      by_cases hcap : bytes > capBytes
      · rw [if_pos hcap] at hrun
        cases hrun
      rw [if_neg hcap] at hrun
      have hm' : A.Holds initial (additions (done ++ [op])) t := hm.update_of hu hx
      exact ih hnext hm' hrun
    · rw [if_neg hu] at hrun
      exact ih hnext (hm.query_of hu) hrun

include hA hC in
/-- **The loop over the queries**, where every update is made. -/
theorem queryBatch_error (hvalid : ValidFrom initial.length 0 all) (hall : all = done ++ stream)
    (hrun : A.writing.queryBatch capBytes stream result m = .error e m')
    (hm : A.Holds initial (additions all) m.tree) : A.EndedBy initial all e := by
  induction stream generalizing done result m with
  | nil => cases hrun
  | cons op stream ih =>
    have hnext : all = done ++ [op] ++ stream := by
      rw [hall, List.append_assoc, List.singleton_append]
    rw [Adapter.queryBatch] at hrun
    by_cases hu : op.isUpdate = true
    · rw [if_pos hu] at hrun
      exact ih hnext hrun hm
    · rw [if_neg hu] at hrun
      rcases run_bind_reading_eq_error.mp hrun with ⟨hx, -⟩ | ⟨answer, -, hrun⟩
      · have hcount : updateCount done ≤ updateCount all := by
          rw [← additions_length, ← additions_length, hall, additions_append, List.length_append]
          exact Nat.le_add_right _ _
        exact .of_query hA hC hvalid hall hu List.prefix_rfl hcount hm hx
      rcases run_bind_reading_eq_error.mp hrun with ⟨h2, -⟩ | ⟨bytes, -, hrun⟩
      · exact .noRoom (hC.bytes _ e h2)
      by_cases hcap : bytes > capBytes
      · rw [if_pos hcap] at hrun
        cases hrun
      rw [if_neg hcap] at hrun
      exact ih hnext hrun hm

/-! ## The trials -/

include hC in
theorem EndedBy.of_build (he : A.build initial A.tree.empty = .error e s) :
    A.EndedBy initial all e := by
  rcases hC.build he with hroom | hkind
  · exact .noRoom hroom
  · exact .build he hkind

include hA hC in
/-- **An interleaved trial** that throws. -/
theorem runTrial_error (hvalid : ValidFrom initial.length 0 stream)
    (hrun : A.runTrial clock capBytes initial stream timeEvery A.start = .error e m') :
    A.EndedBy initial stream e := by
  unfold runTrial Adapter.runTrial at hrun
  rw [run_bind_now] at hrun
  rcases run_bind_calling_eq_error.mp hrun with ⟨t, hb, -⟩ | ⟨⟨⟩, t, hb, hrun⟩
  · exact .of_build hC hb
  have hstart : A.Holds initial (additions []) t := .build hb
  have hall : stream = [] ++ stream := rfl
  rw [run_bind_nanosSince] at hrun
  rcases run_bind_reading_eq_error.mp hrun with ⟨h1, -⟩ | ⟨buildNodes, -, hrun⟩
  · exact .noRoom (hC.nodes _ e h1)
  rcases Effect.run_bind_eq_error.mp hrun with h2 | ⟨result, m₁, -, hrun⟩
  · exact interleaved_error hA hC hvalid hall hstart h2
  rcases run_bind_reading_eq_error.mp hrun with ⟨h3, -⟩ | ⟨nodes, -, hrun⟩
  · exact .noRoom (hC.nodes _ e h3)
  rcases run_bind_reading_eq_error.mp hrun with ⟨h4, -⟩ | ⟨bytes, -, hrun⟩
  · exact .noRoom (hC.bytes _ e h4)
  · cases hrun

include hA hC in
/-- **A batch trial** that throws. -/
theorem runBatchTrial_error (hvalid : ValidFrom initial.length 0 stream)
    (hrun : A.runBatchTrial clock capBytes initial stream A.start = .error e m') :
    A.EndedBy initial stream e := by
  unfold runBatchTrial Adapter.runBatchTrial at hrun
  rw [run_bind_now] at hrun
  rcases run_bind_calling_eq_error.mp hrun with ⟨t, hb, -⟩ | ⟨⟨⟩, t, hb, hrun⟩
  · exact .of_build hC hb
  have hstart : A.Holds initial (additions []) t := .build hb
  have hall : stream = [] ++ stream := rfl
  rw [run_bind_nanosSince] at hrun
  rcases run_bind_reading_eq_error.mp hrun with ⟨h1, -⟩ | ⟨buildNodes, -, hrun⟩
  · exact .noRoom (hC.nodes _ e h1)
  rw [run_bind_now] at hrun
  rcases Effect.run_bind_eq_error.mp hrun with h2 | ⟨⟨result, capped⟩, m₁, hupdates, hrun⟩
  · exact updateBatch_error hA hC hvalid hall hstart h2
  simp only [run_bind_nanosSince] at hrun
  rcases Effect.run_bind_eq_error.mp hrun with h3 | ⟨result₁, m₂, -, hrun⟩
  · cases capped with
    | true => cases h3
    | false =>
      have hfrom : ValidFrom initial.length ([] : List (RangeAdd ℤ)).length stream := hvalid
      obtain ⟨hm, -⟩ := (hA.answering initial).updateBatch_answers hfrom (by exact hstart) hupdates
      rw [if_neg Bool.false_ne_true, run_bind_now] at h3
      rcases Effect.run_bind_eq_error.mp h3 with h4 | ⟨result₂, m₃, -, h4⟩
      · exact queryBatch_error hA hC hvalid hall h4 hm
      · cases h4
  rcases run_bind_reading_eq_error.mp hrun with ⟨h5, -⟩ | ⟨nodes, -, hrun⟩
  · exact .noRoom (hC.nodes _ e h5)
  rcases run_bind_reading_eq_error.mp hrun with ⟨h6, -⟩ | ⟨bytes, -, hrun⟩
  · exact .noRoom (hC.bytes _ e h6)
  · cases hrun

end PersistentAdapter

/-- **Accepted traces replay safely.** The counts of the stream only exceed what is representable,
and what ends a replay in either order is a lack of room, or an overflow in the build of the array,
in an update or in a query. -/
theorem accepted_trace_safe {path : String} {file : Option (List Char)} {stream : List Operation}
    {n : ℕ} (h : loadTrace path file 0 = .ok (stream, n)) :
    (∀ interval e, structuralCounts stream n interval = .error e → e.Exceeds) ∧
      ∀ (which : PersistentStructure) (interval : ℕ), 1 ≤ interval →
        ∀ (initial : List ValueType), initial.length = n →
          ∀ (clock : ℕ → ℤ) (capBytes : UInt64) (timeEvery : ℕ) (e : Exception) s,
            ((which.adapter interval).runTrial clock capBytes initial stream timeEvery
                (which.adapter interval).start = .error e s ∨
              (which.adapter interval).runBatchTrial clock capBytes initial stream
                (which.adapter interval).start = .error e s) →
              e.Exceeds ∧ (which.adapter interval).EndedBy initial stream e := by
  obtain ⟨hpos, -, hvalid⟩ := loadTrace_valid h
  refine ⟨fun interval => structuralCounts_exceeds hpos hvalid interval, ?_⟩
  rintro which interval hk initial rfl clock capBytes timeEvery e s hrun
  have hexact := PersistentStructure.exact interval which
  have hcareful := PersistentStructure.careful hk which
  have hended : (which.adapter interval).EndedBy initial stream e := by
    rcases hrun with hrun | hrun
    · exact PersistentAdapter.runTrial_error hexact hcareful hvalid hrun
    · exact PersistentAdapter.runBatchTrial_error hexact hcareful hvalid hrun
  exact ⟨hended.exceeds, hended⟩

/-- A trace of one update and one query. -/
abbrev steepTrace : List Char := "n,4\nu,0,0,0\nq,1,2,0\n".toList

abbrev steepStream : List Operation := [⟨true, 0, 0, 0, 0⟩, ⟨false, 1, 2, 0, 0⟩]

/-- An array in the domain, with a sum that is not representable in its middle. -/
abbrev steepArray : List ValueType :=
  [-9223372036854775807, 9223372036854775807, 9223372036854775807, -9223372036854775807]

/-- A batch trial that its query ends. -/
theorem accepted_trace_safe_steep :
    (∀ interval e, structuralCounts steepStream 4 interval = .error e → e.Exceeds) ∧
      ∃ e s, (PersistentStructure.fatNode.adapter 1).runBatchTrial 0 1000 steepArray steepStream
          (PersistentStructure.fatNode.adapter 1).start = .error e s ∧
        e.Exceeds ∧ (PersistentStructure.fatNode.adapter 1).EndedBy steepArray steepStream e := by
  have hload : loadTrace "steep" (some steepTrace) 0 = .ok (steepStream, 4) := by decide +kernel
  have hrun : Effect.outcome ((PersistentStructure.fatNode.adapter 1).runBatchTrial 0 1000
      steepArray steepStream (PersistentStructure.fatNode.adapter 1).start) =
        .error (.overflowError "policy addition is not representable") := by decide +kernel
  obtain ⟨s, hs⟩ := Effect.outcome_eq_error.mp hrun
  obtain ⟨hcounts, hreplays⟩ := accepted_trace_safe hload
  exact ⟨hcounts, _, s, hs, hreplays .fatNode 1 le_rfl steepArray rfl 0 1000 0 _ s (.inr hs)⟩

/-- A trace of an addition of zero over two elements. -/
abbrev idleTrace : List Char := "# idle\nn,2\nu,0,1,0\n".toList

/-- An array whose build overflows is not replayed at all: neither an update nor a query of the
stream ends the trial. -/
theorem idle_trace_overflows :
    loadTrace "idle" (some idleTrace) 0 = .ok ([⟨true, 0, 1, 0, 0⟩], 2) ∧
      ∃ what s s' s'',
        (PersistentStructure.persistent.adapter 1).build [Int64.maxValue, 1]
          (PersistentStructure.persistent.adapter 1).tree.empty = .error (.overflowError what) s ∧
        (PersistentStructure.persistent.adapter 1).runTrial (fun _ => 0) 1000 [Int64.maxValue, 1]
          [⟨true, 0, 1, 0, 0⟩] 1 (PersistentStructure.persistent.adapter 1).start =
            .error (.overflowError what) s' ∧
        (PersistentStructure.persistent.adapter 1).runBatchTrial (fun _ => 0) 1000
          [Int64.maxValue, 1] [⟨true, 0, 1, 0, 0⟩]
          (PersistentStructure.persistent.adapter 1).start = .error (.overflowError what) s'' ∧
        ¬ (Exception.overflowError what).OutOfRoom := by
  have hbuild : Effect.outcome ((PersistentStructure.persistent.adapter 1).build
      [Int64.maxValue, 1] (PersistentStructure.persistent.adapter 1).tree.empty) =
        .error (.overflowError "policy addition is not representable") := by decide +kernel
  have htrial : Effect.outcome ((PersistentStructure.persistent.adapter 1).runTrial (fun _ => 0)
      1000 [Int64.maxValue, 1] [⟨true, 0, 1, 0, 0⟩] 1
      (PersistentStructure.persistent.adapter 1).start) =
        .error (.overflowError "policy addition is not representable") := by decide +kernel
  have hbatch : Effect.outcome ((PersistentStructure.persistent.adapter 1).runBatchTrial
      (fun _ => 0) 1000 [Int64.maxValue, 1] [⟨true, 0, 1, 0, 0⟩]
      (PersistentStructure.persistent.adapter 1).start) =
        .error (.overflowError "policy addition is not representable") := by decide +kernel
  obtain ⟨s, hs⟩ := Effect.outcome_eq_error.mp hbuild
  obtain ⟨s', hs'⟩ := Effect.outcome_eq_error.mp htrial
  obtain ⟨s'', hs''⟩ := Effect.outcome_eq_error.mp hbatch
  exact ⟨by decide +kernel, _, s, s', s'', hs, hs', hs'', by decide⟩

end Bench

end Valseg
