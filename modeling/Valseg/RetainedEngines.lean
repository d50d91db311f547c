import Valseg.PersistentLazySegmentTree
import Valseg.LazySegmentTree
import Valseg.FatNodePersistentSegmentTree
import Valseg.CheckpointedSums

/-!
# The four structures that retain tags

The same additions issued to the path-copying tree, the mutable tree, the fat nodes and the
checkpointed log. They store the trees of one sequence of versions (`StoreSame`), in an arena, in
two heap-indexed vectors, in stamped states and in a preorder vector, and one addition publishes
the same tree in all four (`StoreSame.step`). So they accept the same additions, throw exceptions
of the same class, and read the same sums (`engines_equal`). The two that count nodes or versions
in advance can also run out of room, far beyond any address space.
-/

namespace Valseg

namespace RetainedEngines

/-- The four outcomes are of one kind: all return, or all throw exceptions of one class. -/
structure Alike {α β γ δ : Type} (persistent : Except Exception α) (mutable : Except Exception β)
    (fatNode : Except Exception γ) (checkpointing : Except Exception δ) : Prop where
  mutable : kindOf mutable = kindOf persistent
  fatNode : kindOf fatNode = kindOf persistent
  checkpointing : kindOf checkpointing = kindOf persistent

/-- The four states store the trees of one history. -/
structure StoreSame (p : PersistentLazySegmentTree.State) (z : LazySegmentTree.State)
    (f : FatNodePersistentSegmentTree.State) (c : CheckpointingSegmentTree.State)
    (h : History (List ValueType)) (m : VersionedTrees) : Prop where
  persistent : PersistentLazySegmentTree.refines.StoresTrees p m
  mutable : LazySegmentTree.StoresLatest z m
  fatNode : FatNodePersistentSegmentTree.StoresVersions f m
  checkpointing : ∃ k, CheckpointingSegmentTree.StoresVersions
    ⟨(h.argument, k), h.size, h.adds⟩ c m
  valid : m.Valid .retaining h.adds

/-- No state has a version. -/
structure AllFresh (p : PersistentLazySegmentTree.State) (z : LazySegmentTree.State)
    (f : FatNodePersistentSegmentTree.State) (c : CheckpointingSegmentTree.State) : Prop where
  persistent : p.roots = []
  mutable : z.arraySize = 0
  fatNode : f.roots = []
  checkpointing : c.checkpoints = []

section Step

variable {p : PersistentLazySegmentTree.State} {z : LazySegmentTree.State}
  {f : FatNodePersistentSegmentTree.State} {c : CheckpointingSegmentTree.State}
  {h : History (List ValueType)} {m : VersionedTrees} {u : RangeAdd ValueType}

/-- How an addition ends, given what the versioned trees do: they return and the structure stores
what they return, or it throws an exception of their class and changes nothing. -/
def Follows {ι ρ σ : Type} (E : Engine ι ρ σ) (s : σ) (m : VersionedTrees)
    (u : RangeAdd ValueType) (Stores : σ → VersionedTrees → Prop) : Prop :=
  (∃ m', m.rangeAdd .retaining u.left u.right u.amount = .ok m' ∧ kindOf (E.answer s u) = none ∧
      Stores (E.next s u) m') ∨
    ∃ e, m.rangeAdd .retaining u.left u.right u.amount = .error e ∧
      kindOf (E.answer s u) = some e.kind ∧ E.next s u = s

section Follows

variable {ι ρ σ : Type} {E : Engine ι ρ σ} {s s' : σ} {m' : VersionedTrees} {x : ρ}
  {e e' : Exception} {Stores : σ → VersionedTrees → Prop}

theorem Follows.returns (hm : m.rangeAdd .retaining u.left u.right u.amount = .ok m')
    (hx : E.rangeAdd u.left u.right u.amount s = .ok x s') (hs : Stores s' m') :
    Follows E s m u Stores :=
  .inl ⟨m', hm, by rw [(Engine.answer_ok hx).1]; rfl, by rw [(Engine.answer_ok hx).2]; exact hs⟩

theorem Follows.throws (hm : m.rangeAdd .retaining u.left u.right u.amount = .error e)
    (hx : E.rangeAdd u.left u.right u.amount s = .error e' s) (hk : e'.kind = e.kind) :
    Follows E s m u Stores :=
  .inr ⟨e, hm, by rw [(Engine.answer_error hx).1, ← hk]; rfl, (Engine.answer_error hx).2⟩

theorem outOfRoom_answer (hx : E.rangeAdd u.left u.right u.amount s = .error e s')
    (he : e.OutOfRoom) : OutOfRoom (E.answer s u) := by
  rw [(Engine.answer_error hx).1]
  exact he

end Follows

theorem persistent_follows (hs : StoreSame p z f c h m) (u : RangeAdd ValueType) :
    Follows PersistentLazySegmentTree.engine p m u
      PersistentLazySegmentTree.refines.StoresTrees := by
  rcases PathCopying.Refines.rangeAdd_outcome hs.persistent hs.valid u.left u.right u.amount with
    ⟨m', p', hm, hx, hs'⟩ | ⟨e, hm, hx⟩
  · exact .returns hm hx hs'
  · exact .throws hm hx rfl

theorem mutable_follows (hs : StoreSame p z f c h m) (u : RangeAdd ValueType) :
    Follows LazySegmentTree.engine z m u LazySegmentTree.StoresLatest := by
  rcases LazySegmentTree.rangeAdd_outcome hs.mutable hs.valid u.left u.right u.amount with
    ⟨m', z', hm, hx, hs'⟩ | ⟨e, e', hk, hm, hx⟩
  · exact .returns hm hx hs'
  · exact .throws hm hx hk

theorem fatNode_follows (hs : StoreSame p z f c h m)
    (hroom : ¬ OutOfRoom (FatNodePersistentSegmentTree.engine.answer f u)) :
    Follows FatNodePersistentSegmentTree.engine f m u
      FatNodePersistentSegmentTree.StoresVersions := by
  rcases FatNodePersistentSegmentTree.rangeAdd_outcome hs.fatNode hs.valid u.left u.right
    u.amount with ⟨m', f', hm, hx, hs'⟩ | ⟨e, hx, hout | ⟨e', hk, hm⟩⟩
  · exact .returns hm hx hs'
  · exact absurd (outOfRoom_answer hx hout) hroom
  · exact .throws hm hx hk

theorem checkpointing_follows (hs : StoreSame p z f c h m)
    (hroom : ¬ OutOfRoom (CheckpointingSegmentTree.engine.answer c u)) :
    Follows CheckpointingSegmentTree.engine c m u fun c' m' =>
      ∃ k, CheckpointingSegmentTree.StoresVersions
        ⟨(h.argument, k), h.size, h.adds.add ⟨u.left, u.right, u.amount.toInt⟩⟩ c' m' := by
  obtain ⟨k, hc⟩ := hs.checkpointing
  rcases CheckpointingSegmentTree.rangeAdd_outcome hc hs.valid u.left u.right u.amount with
    ⟨m', live, guard, hm, hx, hs'⟩ | ⟨e, hx, hout | ⟨e', hk, hm⟩⟩
  · exact .returns hm hx ⟨k, hs'⟩
  · exact absurd (outOfRoom_answer hx hout) hroom
  · exact .throws hm hx hk

/-- **One addition.** With room it ends the same way in all four, which store the same trees
again. -/
theorem StoreSame.step (hs : StoreSame p z f c h m)
    (hf : ¬ OutOfRoom (FatNodePersistentSegmentTree.engine.answer f u))
    (hc : ¬ OutOfRoom (CheckpointingSegmentTree.engine.answer c u)) :
    Alike (PersistentLazySegmentTree.engine.answer p u) (LazySegmentTree.engine.answer z u)
        (FatNodePersistentSegmentTree.engine.answer f u)
        (CheckpointingSegmentTree.engine.answer c u) ∧
      ∃ h' m', StoreSame (PersistentLazySegmentTree.engine.next p u)
        (LazySegmentTree.engine.next z u) (FatNodePersistentSegmentTree.engine.next f u)
        (CheckpointingSegmentTree.engine.next c u) h' m' := by
  have hp := persistent_follows hs u
  have hz := mutable_follows hs u
  have hf := fatNode_follows hs hf
  have hc := checkpointing_follows hs hc
  unfold Follows at hp hz hf hc
  rcases hm : m.rangeAdd .retaining u.left u.right u.amount with e | m' <;>
    rw [hm] at hp hz hf hc
  · simp only [Except.error.injEq, reduceCtorEq, false_and, exists_false, false_or,
      exists_eq_left'] at hp hz hf hc
    obtain ⟨hp, hp'⟩ := hp
    obtain ⟨hz, hz'⟩ := hz
    obtain ⟨hf, hf'⟩ := hf
    obtain ⟨hc, hc'⟩ := hc
    refine ⟨⟨hz.trans hp.symm, hf.trans hp.symm, hc.trans hp.symm⟩, h, m, ?_⟩
    rw [hp', hz', hf', hc']
    exact hs
  · simp only [Except.ok.injEq, reduceCtorEq, false_and, exists_false, or_false,
      exists_eq_left'] at hp hz hf hc
    obtain ⟨hp, hp'⟩ := hp
    obtain ⟨hz, hz'⟩ := hz
    obtain ⟨hf, hf'⟩ := hf
    obtain ⟨hc, hc'⟩ := hc
    exact ⟨⟨hz.trans hp.symm, hf.trans hp.symm, hc.trans hp.symm⟩,
      h.add ⟨u.left, u.right, u.amount.toInt⟩, m', hp', hz', hf', hc', (hs.valid.rangeAdd hm).2.2⟩

/-- Without versions every addition throws a `std::runtime_error` and changes nothing. -/
theorem AllFresh.step (hs : AllFresh p z f c) (u : RangeAdd ValueType) :
    Alike (PersistentLazySegmentTree.engine.answer p u) (LazySegmentTree.engine.answer z u)
        (FatNodePersistentSegmentTree.engine.answer f u)
        (CheckpointingSegmentTree.engine.answer c u) ∧
      AllFresh (PersistentLazySegmentTree.engine.next p u)
        (LazySegmentTree.engine.next z u) (FatNodePersistentSegmentTree.engine.next f u)
        (CheckpointingSegmentTree.engine.next c u) := by
  have hp : PersistentLazySegmentTree.engine.rangeAdd u.left u.right u.amount p =
      .error (.runtimeError "Tree has no versions.") p :=
    PathCopying.rangeAdd_not_admitted (by unfold PathCopying.admitted; rw [hs.persistent]; rfl)
  have hz : LazySegmentTree.engine.rangeAdd u.left u.right u.amount z =
      .error (.runtimeError "Tree is empty.") z := LazySegmentTree.rangeAdd_empty hs.mutable ..
  have hf : FatNodePersistentSegmentTree.engine.rangeAdd u.left u.right u.amount f =
      .error (.runtimeError "Tree has no versions.") f :=
    FatNodePersistentSegmentTree.rangeAdd_fresh hs.fatNode ..
  have hc : CheckpointingSegmentTree.engine.rangeAdd u.left u.right u.amount c =
      .error (.runtimeError "Tree has no versions.") c :=
    CheckpointingSegmentTree.rangeAdd_not_admitted
      (by unfold CheckpointingSegmentTree.admitted; rw [hs.checkpointing]; rfl)
  simp only [Engine.answer, Engine.next, hp, hz, hf, hc, Effect.outcome_error,
    Effect.finalState_error]
  exact ⟨⟨rfl, rfl, rfl⟩, hs⟩

end Step

/-! ## Whole runs -/

/-- The four states after the same run. -/
def Same (p : PersistentLazySegmentTree.State) (z : LazySegmentTree.State)
    (f : FatNodePersistentSegmentTree.State) (c : CheckpointingSegmentTree.State) : Prop :=
  AllFresh p z f c ∨ ∃ h m, StoreSame p z f c h m

/-- What the opening of a run does, given what the tree of the array does. -/
def Opens {ι ρ σ : Type} (E : Engine ι ρ σ) (a : ι) (values : List ValueType)
    (Stores : σ → VersionedTrees → Prop) : Prop :=
  (∃ m, VersionedTrees.initializeFrom values = .ok m ∧ kindOf (E.opening a) = none ∧
      Stores (E.after a []) m) ∨
    ∃ e, VersionedTrees.initializeFrom values = .error e ∧ kindOf (E.opening a) = some e.kind ∧
      E.after a [] = E.empty

/-- Where room is left, a structure opens as the tree of the array does. -/
theorem opens {ι ρ σ : Type} {E : Engine ι ρ σ} {a : ι} {values : List ValueType}
    {Stores : σ → VersionedTrees → Prop} (hroom : ¬ OutOfRoom (E.opening a))
    (hok : ∀ {u s'}, E.initializeFrom a E.empty = .ok u s' →
      ∃ m, VersionedTrees.initializeFrom values = .ok m ∧ Stores s' m)
    (herr : ∀ {e s'}, E.initializeFrom a E.empty = .error e s' →
      s' = E.empty ∧ (e.OutOfRoom ∨ VersionedTrees.initializeFrom values = .error e)) :
    Opens E a values Stores := by
  unfold Engine.opening at hroom
  unfold Opens Engine.opening Engine.after
  rcases hi : E.initializeFrom a E.empty with ⟨u, s'⟩ | ⟨e, s'⟩
  · obtain ⟨m, hm, hs⟩ := hok hi
    exact .inl ⟨m, hm, rfl, hs⟩
  · obtain ⟨hs, hout | hm⟩ := herr hi
    · rw [hi] at hroom
      exact absurd hout hroom
    · exact .inr ⟨e, hm, rfl, hs⟩

section Runs

variable {values : List ValueType} {k : ℕ} {adds : List (RangeAdd ValueType)}

/-- None of the four openings ends for lack of room. -/
structure OpensWithRoom (values : List ValueType) (k : ℕ) : Prop where
  persistent : ¬ OutOfRoom (PersistentLazySegmentTree.engine.opening values)
  mutable : ¬ OutOfRoom (LazySegmentTree.engine.opening values)
  fatNode : ¬ OutOfRoom (FatNodePersistentSegmentTree.engine.opening values)
  checkpointing : ¬ OutOfRoom (CheckpointingSegmentTree.engine.opening (values, k))

/-- **Opening.** The four initializations are alike. -/
theorem openings_alike (hk : 0 < k) (hroom : OpensWithRoom values k) :
    Alike (PersistentLazySegmentTree.engine.opening values)
        (LazySegmentTree.engine.opening values)
        (FatNodePersistentSegmentTree.engine.opening values)
        (CheckpointingSegmentTree.engine.opening (values, k)) ∧
      Same (PersistentLazySegmentTree.engine.after values [])
        (LazySegmentTree.engine.after values [])
        (FatNodePersistentSegmentTree.engine.after values [])
        (CheckpointingSegmentTree.engine.after (values, k) []) := by
  have hp : Opens PersistentLazySegmentTree.engine values values
      PersistentLazySegmentTree.refines.StoresTrees :=
    opens hroom.persistent (fun hi => (PathCopying.Refines.initialize_outcome hi).2)
      fun hi => ⟨PathCopying.initializeFrom_atomic _ _ _ _ hi,
        PathCopying.Refines.initialize_error PersistentLazySegmentTree.refines hi⟩
  have hz : Opens LazySegmentTree.engine values values LazySegmentTree.StoresLatest :=
    opens hroom.mutable (fun hi => (LazySegmentTree.initialize_outcome hi).2)
      fun hi => ⟨LazySegmentTree.initializeFrom_atomic _ _ _ _ hi,
        LazySegmentTree.initialize_error hi⟩
  have hf : Opens FatNodePersistentSegmentTree.engine values values
      FatNodePersistentSegmentTree.StoresVersions :=
    opens hroom.fatNode (fun hi => (FatNodePersistentSegmentTree.initialize_outcome hi).2)
      fun hi => ⟨FatNodePersistentSegmentTree.initializeFrom_atomic _ _ _ _ hi,
        FatNodePersistentSegmentTree.initialize_error hi⟩
  have hc : Opens CheckpointingSegmentTree.engine (values, k) values
      (CheckpointingSegmentTree.StoresVersions
        (CheckpointingSegmentTree.engine.start (values, k))) :=
    opens hroom.checkpointing (fun hi => (CheckpointingSegmentTree.initialize_outcome hi).2)
      fun hi => ⟨CheckpointingSegmentTree.initializeFrom_atomic _ _ _ _ _ hi,
        CheckpointingSegmentTree.initialize_error hk hi⟩
  unfold Opens at hp hz hf hc
  rcases hm : VersionedTrees.initializeFrom values with e | m <;> rw [hm] at hp hz hf hc
  · simp only [Except.error.injEq, reduceCtorEq, false_and, exists_false, false_or,
      exists_eq_left'] at hp hz hf hc
    obtain ⟨hp, hp'⟩ := hp
    obtain ⟨hz, hz'⟩ := hz
    obtain ⟨hf, hf'⟩ := hf
    obtain ⟨hc, hc'⟩ := hc
    refine ⟨⟨hz.trans hp.symm, hf.trans hp.symm, hc.trans hp.symm⟩, .inl ?_⟩
    rw [hp', hz', hf', hc']
    exact ⟨rfl, rfl, rfl, rfl⟩
  · simp only [Except.ok.injEq, reduceCtorEq, false_and, exists_false, or_false,
      exists_eq_left'] at hp hz hf hc
    obtain ⟨hp, hp'⟩ := hp
    obtain ⟨hz, hz'⟩ := hz
    obtain ⟨hf, hf'⟩ := hf
    obtain ⟨hc, hc'⟩ := hc
    have hlen : values.length ≤ maxLength := by
      rcases hi : LazySegmentTree.initializeFrom values LazySegmentTree.engine.empty with
        ⟨u, s'⟩ | ⟨e, s'⟩
      · exact (LazySegmentTree.initialize_outcome hi).1
      · have hi' : LazySegmentTree.engine.initializeFrom values LazySegmentTree.engine.empty =
            .error e s' := hi
        rw [Engine.opening, hi'] at hz
        cases hz
    exact ⟨⟨hz.trans hp.symm, hf.trans hp.symm, hc.trans hp.symm⟩,
      .inr ⟨LazySegmentTree.engine.start values, m, hp', hz', hf', ⟨k, hc'⟩,
        (VersionedTrees.Valid.initializeFrom hlen hm).2⟩⟩

/-- What a run leaves behind, with room at every addition. -/
theorem run_same (hk : 0 < k) (hroom : OpensWithRoom values k)
    (hf : FatNodePersistentSegmentTree.engine.HasRoom values adds)
    (hc : CheckpointingSegmentTree.engine.HasRoom (values, k) adds) :
    Same (PersistentLazySegmentTree.engine.after values adds)
      (LazySegmentTree.engine.after values adds)
      (FatNodePersistentSegmentTree.engine.after values adds)
      (CheckpointingSegmentTree.engine.after (values, k) adds) := by
  induction adds using List.reverseRecOn with
  | nil => exact (openings_alike hk hroom).2
  | append_singleton adds u ih =>
    obtain ⟨hf, hfu⟩ := hf.concat
    obtain ⟨hc, hcu⟩ := hc.concat
    simp only [Engine.after_concat]
    rcases ih hf hc with hs | ⟨h, m, hs⟩
    · exact .inl (hs.step u).2
    · exact .inr (hs.step hfu hcu).2

/-- The sums of the latest version are the same in all four, and those of every version in the
two structures that keep them all as trees. -/
structure SumsSame (p : PersistentLazySegmentTree.State) (z : LazySegmentTree.State)
    (f : FatNodePersistentSegmentTree.State) (c : CheckpointingSegmentTree.State) : Prop where
  latest : ∀ v l r, v + 1 = PersistentLazySegmentTree.versionCount p →
    LazySegmentTree.rangeSum z l r = PersistentLazySegmentTree.rangeSum p v l r ∧
      FatNodePersistentSegmentTree.rangeSum f v l r = PersistentLazySegmentTree.rangeSum p v l r ∧
        v = c.events.length ∧
          CheckpointingSegmentTree.rangeSum c v l r = PersistentLazySegmentTree.rangeSum p v l r
  versions : ∀ v l r,
    FatNodePersistentSegmentTree.rangeSum f v l r = PersistentLazySegmentTree.rangeSum p v l r

theorem Same.sums {p : PersistentLazySegmentTree.State} {z : LazySegmentTree.State}
    {f : FatNodePersistentSegmentTree.State} {c : CheckpointingSegmentTree.State}
    (hs : Same p z f c) : SumsSame p z f c := by
  rcases hs with hs | ⟨h, m, hs⟩
  · refine ⟨fun v l r hv => ?_, fun v l r => ?_⟩
    · unfold PersistentLazySegmentTree.versionCount at hv
      rw [hs.persistent] at hv
      exact absurd hv (Nat.succ_ne_zero v)
    · unfold FatNodePersistentSegmentTree.rangeSum PersistentLazySegmentTree.rangeSum
      rw [hs.persistent, hs.fatNode]
      rfl
  · obtain ⟨k, hc⟩ := hs.checkpointing
    have hsize := hs.valid.size_le
    have hlen := hs.valid.versions
    unfold RangeAdds.versionCount at hlen
    have versions : ∀ v l r, FatNodePersistentSegmentTree.rangeSum f v l r =
        PersistentLazySegmentTree.rangeSum p v l r := fun v l r => by
      rw [PersistentLazySegmentTree.rangeSum_eq hs.persistent hsize,
        FatNodePersistentSegmentTree.rangeSum_eq hs.fatNode hsize]
    refine ⟨fun v l r hv => ?_, versions⟩
    obtain rfl : v = h.adds.updates.length := by
      have hroots : PersistentLazySegmentTree.versionCount p = m.trees.length :=
        hs.persistent.roots
      omega
    have hevents : c.events.length = h.adds.updates.length := hc.events_length
    refine ⟨?_, versions _ l r, hevents.symm, ?_⟩
    · rw [LazySegmentTree.rangeSum_eq hs.mutable hs.valid,
        PersistentLazySegmentTree.rangeSum_eq hs.persistent hsize]
    · rw [← hevents, CheckpointingSegmentTree.rangeSum_latest hc hs.valid, hevents,
        PersistentLazySegmentTree.rangeSum_eq hs.persistent hsize]

/-- **The four structures are observationally equal.** As long as no container runs out of room,
they open alike, answer every next addition alike, and read the same sums, overflows included. -/
theorem engines_equal (hk : 0 < k) (hroom : OpensWithRoom values k)
    (hf : FatNodePersistentSegmentTree.engine.HasRoom values adds)
    (hc : CheckpointingSegmentTree.engine.HasRoom (values, k) adds) :
    Alike (PersistentLazySegmentTree.engine.opening values)
        (LazySegmentTree.engine.opening values)
        (FatNodePersistentSegmentTree.engine.opening values)
        (CheckpointingSegmentTree.engine.opening (values, k)) ∧
      (∀ u, OutOfRoom (FatNodePersistentSegmentTree.engine.answer
            (FatNodePersistentSegmentTree.engine.after values adds) u) ∨
          OutOfRoom (CheckpointingSegmentTree.engine.answer
            (CheckpointingSegmentTree.engine.after (values, k) adds) u) ∨
          Alike
            (PersistentLazySegmentTree.engine.answer
              (PersistentLazySegmentTree.engine.after values adds) u)
            (LazySegmentTree.engine.answer (LazySegmentTree.engine.after values adds) u)
            (FatNodePersistentSegmentTree.engine.answer
              (FatNodePersistentSegmentTree.engine.after values adds) u)
            (CheckpointingSegmentTree.engine.answer
              (CheckpointingSegmentTree.engine.after (values, k) adds) u)) ∧
        SumsSame (PersistentLazySegmentTree.engine.after values adds)
          (LazySegmentTree.engine.after values adds)
          (FatNodePersistentSegmentTree.engine.after values adds)
          (CheckpointingSegmentTree.engine.after (values, k) adds) := by
  have hsame := run_same hk hroom hf hc
  refine ⟨(openings_alike hk hroom).1, fun u => ?_, hsame.sums⟩
  by_cases hfu : OutOfRoom (FatNodePersistentSegmentTree.engine.answer
    (FatNodePersistentSegmentTree.engine.after values adds) u)
  · exact .inl hfu
  by_cases hcu : OutOfRoom (CheckpointingSegmentTree.engine.answer
    (CheckpointingSegmentTree.engine.after (values, k) adds) u)
  · exact .inr (.inl hcu)
  rcases hsame with hs | ⟨h, m, hs⟩
  · exact .inr (.inr (hs.step u).1)
  · exact .inr (.inr (hs.step hfu hcu).1)

end Runs

/-- Two additions that return and two that throw, one for its range and one for its amount. -/
abbrev mixedAdds : List (RangeAdd ValueType) :=
  [⟨0, 1, 5⟩, ⟨2, 3, 1⟩, ⟨0, 2, Int64.maxValue⟩, ⟨1, 2, -7⟩]

theorem engines_equal_mixed : LazySegmentTree.rangeSum
    (LazySegmentTree.engine.after [1, 2, 3] mixedAdds) 0 2 = .ok 2 := by
  have hf : FatNodePersistentSegmentTree.engine.HasRoom [1, 2, 3] mixedAdds := by decide +kernel
  have hc : CheckpointingSegmentTree.engine.HasRoom ([1, 2, 3], 2) mixedAdds := by decide +kernel
  have h := (engines_equal (by decide)
    ⟨by decide +kernel, by decide +kernel, by decide +kernel, by decide +kernel⟩ hf hc).2.2.latest
      2 0 2 (by decide +kernel)
  rw [h.1]
  decide +kernel

end RetainedEngines

end Valseg
