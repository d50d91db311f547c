import Valseg.LazySegmentTree
import Valseg.CheckpointedSums
import Valseg.FatNodePersistentSegmentTree
import Valseg.PersistentLazySegmentTree
import Valseg.CopyOnPushSegmentTree

/-!
# The guards of the structures that retain tags

Five structures hand a traversal of their latest leaves to the guard. In every reachable state the
traversal returns these leaves, so the guard decides exactly whether the proposed array is in the
domain; every published version is in it, and its elements are returned (`guards_exact`).
-/

namespace Valseg

namespace PathCopying

variable {Node : Type} {P : PathCopying Node SumAddDomainGuard} {D : Discipline} {R : P.Refines D}
  {s : PathCopyingTree Node SumAddDomainGuard} {m : VersionedTrees} {h : RangeAdds ℤ}

/-- The traversal that a path-copying tree hands to its guard. -/
def materializeLatest (R : NodeReading Node) (this : PathCopyingTree Node SumAddDomainGuard)
    (values : List ValueType) : Except Exception (List ValueType) := do
  let latestRoot ← vectorAt this.roots (this.roots.length - 1)
  (R.on this.nodes).materialize latestRoot 0 (this.arraySize - 1) 0 values

/-- It traverses the latest tree. -/
theorem materializeLatest_eq (hs : R.StoresTrees s m) (hn : 0 < m.size) {t : SumTree}
    (ht : m.trees[m.trees.length - 1]? = some t) (values : List ValueType) :
    materializeLatest R.reading s values = t.materialize 0 values := by
  obtain ⟨root, hroot, hst⟩ := hs.stores hn _ t ht
  unfold materializeLatest
  rw [hs.roots, vectorAt_eq_ok.mpr hroot, Effect.ok_bind, hs.size]
  exact Layout.materialize_eq hst

end PathCopying

namespace PersistentLazySegmentTree

variable {s : State} {h : History (List ValueType)}

theorem domainExact (hr : engine.Reachable s h) (hn : 0 < h.size) :
    DomainExact h.adds h.size (· < h.adds.versionCount) s.numericDomain
      (PathCopying.materializeLatest reading s) (rangeSum s) := by
  obtain ⟨m, hsize, hrel, hvalid, hsum⟩ := reaches hr
  obtain hdomain : s.numericDomain = m.guard := hrel.domain
  rw [← hsize] at hn ⊢
  rw [hdomain]
  exact hvalid.domainExact And.left rfl hn
    (fun t ht values => PathCopying.materializeLatest_eq hrel hn ht values) (fun _ hv => hv)
    (Nat.lt_succ_self _) fun v l r _ _ _ => hsum v l r

end PersistentLazySegmentTree

namespace CopyOnPushSegmentTree

variable {s : State} {h : History (List ValueType)}

theorem domainExact (hr : engine.Reachable s h) (hn : 0 < h.size) :
    DomainExact h.adds h.size (· < h.adds.versionCount) s.numericDomain
      (PathCopying.materializeLatest reading s) (rangeSum s) := by
  obtain ⟨m, hsize, hrel, hvalid, hsum⟩ := reaches hr
  obtain hdomain : s.numericDomain = m.guard := hrel.domain
  rw [← hsize] at hn ⊢
  rw [hdomain]
  exact hvalid.domainExact id rfl hn
    (fun t ht values => PathCopying.materializeLatest_eq hrel hn ht values) (fun _ hv => hv)
    (Nat.lt_succ_self _) fun v l r _ _ _ => hsum v l r

end CopyOnPushSegmentTree

namespace FatNodePersistentSegmentTree

variable {s : State} {h : History (List ValueType)}

/-- The traversal that the tree hands to its guard. -/
def materializeLatest (this : State) (values : List ValueType) :
    Except Exception (List ValueType) := do
  let latestRoot ← vectorAt this.roots (this.roots.length - 1)
  materialize this.nodes latestRoot 0 (this.arraySize - 1) 0 values

theorem domainExact (hr : engine.Reachable s h) (hn : 0 < h.size) :
    DomainExact h.adds h.size (· < h.adds.versionCount) s.numericDomain (materializeLatest s)
      (rangeSum s) := by
  obtain ⟨m, hsize, hrel, hvalid, hsum⟩ := reaches hr
  rw [← hsize] at hn ⊢
  rw [hrel.domain]
  refine hvalid.domainExact And.left rfl hn (fun t ht values => ?_) (fun _ hv => hv)
    (Nat.lt_succ_self _) fun v l r _ _ _ => hsum v l r
  obtain ⟨types, -, hst⟩ := hrel.all.stores hn
  obtain ⟨root, hroot, hlatest⟩ := hrel.all.latest hst ht
  unfold materializeLatest
  rw [vectorAt_eq_ok.mpr hroot, Effect.ok_bind, hrel.size]
  exact Layout.materialize_eq (stores_latest hrel.all.recent (hlatest _ le_rfl))

end FatNodePersistentSegmentTree

namespace LazySegmentTree

variable {s : State} {h : History (List ValueType)}

/-- The tree has its latest version only. -/
theorem domainExact (hr : engine.Reachable s h) (hn : 0 < h.size) :
    DomainExact h.adds h.size (· = h.adds.updates.length) s.numericDomain
      (materialize s.toStorage 0 0 (s.arraySize - 1) 0) (fun _ => rangeSum s) := by
  obtain ⟨m, hsize, hrel, hvalid, hsum⟩ := reaches hr
  rw [← hsize] at hn ⊢
  rw [hrel.domain, hrel.size]
  exact hvalid.domainExact And.left rfl hn
    (fun t ht values => Layout.materialize_eq (hrel.stores hn t ht))
    (fun _ hv => hv ▸ Nat.lt_succ_self _) rfl fun v l r hv _ _ => hv ▸ hsum l r

end LazySegmentTree

namespace CheckpointingSegmentTree

variable {s : State} {h : History (List ValueType × ℕ)}

theorem domainExact (hr : engine.Reachable s h) (hn : 0 < h.size) :
    DomainExact h.adds h.size (· < h.adds.versionCount) s.numericDomain
      (materialize s.live 0 0 (s.arraySize - 1) 0) (rangeSum s) := by
  obtain ⟨m, hsize, hrel, hvalid⟩ := simulation.reaches hr
  rw [← hsize] at hn ⊢
  rw [hrel.domain, hrel.size]
  have hlive : DomainExact h.adds m.size (· = h.adds.updates.length) m.guard
      (materialize s.live 0 0 (m.size - 1) 0) (rangeSum s) := hvalid.domainExact And.left rfl hn
    (fun t ht values => Layout.materialize_eq ((hrel.live t ht).stores hn))
    (fun _ hv => hv ▸ Nat.lt_succ_self _) rfl fun v l r hv hlr hr => by
      rw [hv, ← rangeSum_live hrel hvalid hlr hr, hrel.events_length]
  exact ⟨hlive.guard, hlive.fit, fun v hv i hi =>
    rangeSum_single hrel hvalid (Nat.le_of_lt_succ hv) hi, hlive.whole⟩

end CheckpointingSegmentTree

/-- **Exact guards.** -/
theorem guards_exact :
    (∀ s h, PersistentLazySegmentTree.engine.Reachable s h → 0 < h.size →
      DomainExact h.adds h.size (· < h.adds.versionCount) s.numericDomain
        (PathCopying.materializeLatest PersistentLazySegmentTree.reading s)
        (PersistentLazySegmentTree.rangeSum s)) ∧
    (∀ s h, LazySegmentTree.engine.Reachable s h → 0 < h.size →
      DomainExact h.adds h.size (· = h.adds.updates.length) s.numericDomain
        (LazySegmentTree.materialize s.toStorage 0 0 (s.arraySize - 1) 0)
        (fun _ => LazySegmentTree.rangeSum s)) ∧
    (∀ s h, FatNodePersistentSegmentTree.engine.Reachable s h → 0 < h.size →
      DomainExact h.adds h.size (· < h.adds.versionCount) s.numericDomain
        (FatNodePersistentSegmentTree.materializeLatest s)
        (FatNodePersistentSegmentTree.rangeSum s)) ∧
    (∀ s h, CheckpointingSegmentTree.engine.Reachable s h → 0 < h.size →
      DomainExact h.adds h.size (· < h.adds.versionCount) s.numericDomain
        (CheckpointingSegmentTree.materialize s.live 0 0 (s.arraySize - 1) 0)
        (CheckpointingSegmentTree.rangeSum s)) ∧
    ∀ s h, CopyOnPushSegmentTree.engine.Reachable s h → 0 < h.size →
      DomainExact h.adds h.size (· < h.adds.versionCount) s.numericDomain
        (PathCopying.materializeLatest CopyOnPushSegmentTree.reading s)
        (CopyOnPushSegmentTree.rangeSum s) :=
  ⟨fun _ _ => PersistentLazySegmentTree.domainExact, fun _ _ => LazySegmentTree.domainExact,
    fun _ _ => FatNodePersistentSegmentTree.domainExact,
    fun _ _ => CheckpointingSegmentTree.domainExact,
    fun _ _ => CopyOnPushSegmentTree.domainExact⟩

/-- Elements at both ends of `long long`. -/
theorem guards_exact_extremes :
    ∃ x, PersistentLazySegmentTree.rangeSum (PersistentLazySegmentTree.engine.run
        [.initializeFrom [Int64.maxValue, -Int64.maxValue], .rangeAdd 1 1 1]).1 1 0 0 = .ok x ∧
      x.toInt = (PersistentLazySegmentTree.engine.historyOf
        [Int64.maxValue, -Int64.maxValue] [⟨1, 1, 1⟩]).adds.array 1 0 :=
  (guards_exact.1 _ _ (Engine.reachable_run (by decide +kernel)) (by decide)).single 1 (by decide) 0
    (by decide)

end Valseg
