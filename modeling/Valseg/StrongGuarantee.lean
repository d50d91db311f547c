import Valseg.AllocatingBuffers
import Valseg.AllocatingCheckpoints
import Valseg.AllocatingFatNodes
import Valseg.AllocatingPathCopying

/-!
# The strong guarantee

Every structure leaves its published state as it was when an addition throws, whichever request
for memory fails and wherever (`strong_guarantee`); and a fat-node addition makes all of its
requests before it appends its first state.
-/

namespace Valseg

open Allocation

/-- **The strong guarantee** of the six structures. A buffered node is the same up to what its
buffer holds past its entries. -/
theorem strong_guarantee :
    PersistentLazySegmentTree.Allocating.engine.Strong Eq ∧
      FullCopyPersistentSegmentTree.Allocating.engine.Strong Eq ∧
      PointOnlyPersistentSegmentTree.Allocating.engine.Strong Eq ∧
      BufferedPathCopyingSegmentTree.Allocating.engine.Strong
        BufferedPathCopyingSegmentTree.Restored ∧
      CheckpointingSegmentTree.Allocating.engine.Strong Eq ∧
      FatNodePersistentSegmentTree.Allocating.engine.Strong Eq ∧
      open FatNodePersistentSegmentTree.Allocating in
      ∀ A calls l r root value domain t, l ≤ r → r < (engine.run A calls).state.arraySize →
        prepareUpdate A (engine.run A calls).state root l r value (engine.run A calls) =
          .ok domain t →
        (∀ u, publishUpdate A (engine.run A calls).state root l r value domain t ≠
            .error .badAlloc u) ∧
          (Effect.finalState (publishUpdate A (engine.run A calls).state root l r value domain
            t)).requests = t.requests ∧
          (Effect.finalState (publishUpdate A (engine.run A calls).state root l r value domain
            t)).capacity = t.capacity :=
  ⟨PersistentLazySegmentTree.Allocating.parts.strong fun _ _ _ _ _ _ =>
      PersistentLazySegmentTree.update_appends _ _ _ _ _ _,
    FullCopyPersistentSegmentTree.Allocating.parts.strong fun _ _ _ _ _ _ =>
      FullCopyPersistentSegmentTree.fullCopyUpdate_appends _ _ _ _ _ _,
    PointOnlyPersistentSegmentTree.Allocating.parts.strong fun _ _ _ _ _ _ =>
      PointOnlyPersistentSegmentTree.pointOnlyUpdate_appends _ _ _ _ _ _,
    BufferedPathCopyingSegmentTree.Allocating.strong, CheckpointingSegmentTree.Allocating.strong,
    FatNodePersistentSegmentTree.Allocating.strong,
    fun A calls _ _ _ _ _ _ h1 h2 hp =>
      FatNodePersistentSegmentTree.Allocating.publishes_in_place A calls h1 h2 hp⟩

/-- The fifth request fails, and no other. -/
def fifthFails : Allocator where
  fails request := request = 4
  growth _ needed := needed
  le_growth _ _ := le_rfl

/-- Three elements. -/
abbrev threeElements : List (Call (List ValueType)) := [.initializeFrom [1, 2, 3]]

/-- The request fails at the push of the root, after a complete update. In a fat node the fourth
request is the last one. -/
theorem strong_guarantee_fifth :
    (∃ s', PersistentLazySegmentTree.Allocating.engine.rangeAdd fifthFails 0 1 5
        (PersistentLazySegmentTree.Allocating.engine.run fifthFails threeElements) =
          .error .badAlloc s' ∧
        (PersistentLazySegmentTree.Allocating.engine.run fifthFails threeElements).state =
          s'.state) ∧
      open FatNodePersistentSegmentTree.Allocating in
      ∃ domain t, prepareUpdate fifthFails (engine.run fifthFails threeElements).state 4 0 1 5
          (engine.run fifthFails threeElements) = .ok domain t ∧
        ∀ u, publishUpdate fifthFails (engine.run fifthFails threeElements).state 4 0 1 5 domain t ≠
          .error .badAlloc u := by
  obtain ⟨s', hs'⟩ := Effect.outcome_eq_error.mp
    (show Effect.outcome (PersistentLazySegmentTree.Allocating.engine.rangeAdd fifthFails 0 1 5
      (PersistentLazySegmentTree.Allocating.engine.run fifthFails threeElements)) =
        .error .badAlloc by decide +kernel)
  refine ⟨⟨s', hs', strong_guarantee.1 fifthFails threeElements 0 1 5 .badAlloc s' hs'⟩, ?_⟩
  open FatNodePersistentSegmentTree.Allocating in
  obtain ⟨t, ht⟩ := Effect.outcome_eq_ok.mp
    (show Effect.outcome (prepareUpdate fifthFails (engine.run fifthFails threeElements).state 4 0 1
      5 (engine.run fifthFails threeElements)) = .ok ⟨8⟩ by decide +kernel)
  exact ⟨⟨8⟩, t, ht, (strong_guarantee.2.2.2.2.2.2 fifthFails threeElements 0 1 4 5 ⟨8⟩ t
    (by decide) (by decide +kernel) ht).1⟩

end Valseg
