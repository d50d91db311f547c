import Valseg.FullCopyPersistentSegmentTree
import Valseg.PersistentLazySegmentTree

/-!
# The common numeric domain

`PersistentLazySegmentTree` and `FullCopyPersistentSegmentTree` given the same calls. After the
same history the full copy admits exactly the arrays of the domain, and the lazy tree those of
them whose update stores and computes representable values only (`admits_iff`). So the two agree
on a whole run exactly when every update the full copy admits along it is such an update
(`runs_agree_iff`).
-/

namespace Valseg

namespace CommonDomain

open Segment (addOn)

/-- The structure returns from the addition. -/
abbrev LazyAdmits (s : PersistentLazySegmentTree.State) (l r : ℕ) (value : ValueType) : Prop :=
  Returns (Effect.outcome (PersistentLazySegmentTree.rangeAdd l r value s))

/-- The structure returns from the addition. -/
abbrev FullCopyAdmits (s : FullCopyPersistentSegmentTree.State) (l r : ℕ) (value : ValueType) :
    Prop := Returns (Effect.outcome (FullCopyPersistentSegmentTree.rangeAdd l r value s))

/-- Every value the lazy update stores or computes is representable. -/
def LazyFits (h : History (List ValueType)) (l r : ℕ) (value : ValueType) : Prop :=
  value = 0 ∨ SumTree.UpdateFits h.adds.latest (h.adds.covering h.adds.updates.length) l r
    value.toInt 0 0 (h.size - 1)

variable {s : PersistentLazySegmentTree.State} {s' : FullCopyPersistentSegmentTree.State}
  {h : History (List ValueType)} {l r : ℕ} {value : ValueType}

theorem fullCopyAdmits_iff (hr : FullCopyPersistentSegmentTree.engine.Reachable s' h) :
    (FullCopyAdmits s' l r value ↔ (l ≤ r ∧ r < h.size) ∧
        (value = 0 ∨ CanonicalFit (addOn h.adds.latest l r value.toInt) 0 (h.size - 1))) ∧
      (l ≤ r → r < h.size → ¬ FullCopyAdmits s' l r value →
        Overflows (Effect.outcome (FullCopyPersistentSegmentTree.rangeAdd l r value s'))) := by
  obtain ⟨m, hsize, hrel, hvalid, -⟩ := FullCopyPersistentSegmentTree.reaches hr
  obtain ⟨hret, hover⟩ := PathCopying.Refines.rangeAdd_returns_iff hrel hvalid l r value
  rw [← hsize]
  constructor
  · refine hret.trans ⟨fun hm => ?_, fun hm => ?_⟩
    · obtain ⟨hlr, hn⟩ := VersionedTrees.rangeAdd_valid hm
      exact ⟨⟨hlr, hn⟩, (hvalid.rangeAdd_copying hlr hn).1.mp hm⟩
    · exact (hvalid.rangeAdd_copying hm.1.1 hm.1.2).1.mpr hm.2
  · intro hlr hn hno
    exact hover ((hvalid.rangeAdd_copying hlr hn).2 fun hm => hno (hret.mpr hm))

theorem lazyAdmits_iff (hr : PersistentLazySegmentTree.engine.Reachable s h) :
    (LazyAdmits s l r value ↔ (l ≤ r ∧ r < h.size) ∧
        (value = 0 ∨ CanonicalFit (addOn h.adds.latest l r value.toInt) 0 (h.size - 1)) ∧
          LazyFits h l r value) ∧
      (l ≤ r → r < h.size → ¬ LazyAdmits s l r value →
        Overflows (Effect.outcome (PersistentLazySegmentTree.rangeAdd l r value s))) := by
  obtain ⟨m, hsize, hrel, hvalid, -⟩ := PersistentLazySegmentTree.reaches hr
  obtain ⟨hret, hover⟩ := PathCopying.Refines.rangeAdd_returns_iff hrel hvalid l r value
  unfold LazyFits
  rw [← hsize, ← or_and_left]
  constructor
  · refine hret.trans ⟨fun hm => ?_, fun hm => ?_⟩
    · obtain ⟨hlr, hn⟩ := VersionedTrees.rangeAdd_valid hm
      exact ⟨⟨hlr, hn⟩, (hvalid.rangeAdd_retaining hlr hn).1.mp hm⟩
    · exact (hvalid.rangeAdd_retaining hm.1.1 hm.1.2).1.mpr hm.2
  · intro hlr hn hno
    exact hover ((hvalid.rangeAdd_retaining hlr hn).2 fun hm => hno (hret.mpr hm))

/-- **The same history.** The lazy tree admits what the full copy admits and its own update can
compute; with valid arguments, what either rejects overflows. -/
theorem admits_iff (l r : ℕ) (value : ValueType) (hr : PersistentLazySegmentTree.engine.Reachable s h)
    (hr' : FullCopyPersistentSegmentTree.engine.Reachable s' h) :
    LazyAdmits s l r value ↔ FullCopyAdmits s' l r value ∧ LazyFits h l r value := by
  rw [(lazyAdmits_iff hr).1, (fullCopyAdmits_iff hr').1, and_assoc (a := _ ∧ _)]

/-! ## The same calls -/

/-- The calls of a sequence of additions. -/
def callsOf (adds : List (RangeAdd ValueType)) : List (Call (List ValueType)) :=
  adds.map fun u => .rangeAdd u.left u.right u.amount

/-- Along the run of the full copy, every addition it admits fits the lazy update. -/
def AllFit (p : FullCopyPersistentSegmentTree.State × Option (History (List ValueType))) :
    List (RangeAdd ValueType) → Prop
  | [] => True
  | u :: adds => (∀ h ∈ p.2, FullCopyAdmits p.1 u.left u.right u.amount →
      LazyFits h u.left u.right u.amount) ∧
    AllFit (FullCopyPersistentSegmentTree.engine.step p (.rangeAdd u.left u.right u.amount)) adds

/-- A history with one more addition is another history. -/
theorem add_ne (h : History (List ValueType)) (u : RangeAdd ℤ) : h.add u ≠ h := by
  intro he
  have hlen := congrArg (fun h => h.adds.updates.length) he
  simp only [History.add, RangeAdds.add_updates, List.length_append, List.length_singleton] at hlen
  omega

/-- **One call.** The histories stay the same exactly when an admitted addition fits. -/
theorem step_agree (l r : ℕ) (value : ValueType) (hr : PersistentLazySegmentTree.engine.Reachable s h)
    (hr' : FullCopyPersistentSegmentTree.engine.Reachable s' h) :
    ((FullCopyAdmits s' l r value → LazyFits h l r value) ∧ ∃ t t' h',
        PersistentLazySegmentTree.engine.step (s, some h) (.rangeAdd l r value) = (t, some h') ∧
        FullCopyPersistentSegmentTree.engine.step (s', some h) (.rangeAdd l r value) =
          (t', some h')) ∨
      (¬ (FullCopyAdmits s' l r value → LazyFits h l r value) ∧
        (PersistentLazySegmentTree.engine.step (s, some h) (.rangeAdd l r value)).2 ≠
          (FullCopyPersistentSegmentTree.engine.step (s', some h) (.rangeAdd l r value)).2) := by
  have key := admits_iff l r value hr hr'
  by_cases hf : FullCopyAdmits s' l r value
  · obtain ⟨t', ht'⟩ := Engine.step_returns (E := FullCopyPersistentSegmentTree.engine) (h := h) hf
    by_cases hl : LazyAdmits s l r value
    · obtain ⟨t, ht⟩ := Engine.step_returns (E := PersistentLazySegmentTree.engine) (h := h) hl
      exact .inl ⟨fun _ => (key.mp hl).2, t, t', _, ht, ht'⟩
    · obtain ⟨t, ht⟩ := Engine.step_throws (E := PersistentLazySegmentTree.engine) (h := h) hl
      refine .inr ⟨fun hfit => hl (key.mpr ⟨hf, hfit hf⟩), ?_⟩
      rw [ht, ht']
      exact fun he => add_ne h _ (Option.some.inj he).symm
  · obtain ⟨t', ht'⟩ := Engine.step_throws (E := FullCopyPersistentSegmentTree.engine) (h := h) hf
    obtain ⟨t, ht⟩ := Engine.step_throws (E := PersistentLazySegmentTree.engine) (h := h)
      fun hl => hf (key.mp hl).1
    exact .inl ⟨fun h => absurd h hf, t, t', h, ht, ht'⟩

theorem runs_agree (adds : List (RangeAdd ValueType)) :
    ∀ {s s' h}, PersistentLazySegmentTree.engine.Reachable s h →
      FullCopyPersistentSegmentTree.engine.Reachable s' h →
      ((∀ k, (PersistentLazySegmentTree.engine.runFrom (s, some h) (callsOf (adds.take k))).2 =
          (FullCopyPersistentSegmentTree.engine.runFrom (s', some h) (callsOf (adds.take k))).2) ↔
        AllFit (s', some h) adds) := by
  induction adds with
  | nil => exact fun _ _ => iff_of_true (fun k => by rw [List.take_nil]; rfl) trivial
  | cons u adds ih =>
    intro s s' h hr hr'
    have split : ∀ {F : ℕ → Prop}, F 0 → ((∀ k, F k) ↔ F 1 ∧ ∀ k, F (k + 1)) := fun h0 =>
      ⟨fun hall => ⟨hall 1, fun k => hall _⟩, fun hall k => by cases k with
        | zero => exact h0
        | succ k => exact hall.2 k⟩
    have one : ∀ {ρ σ : Type} (E : Engine (List ValueType) ρ σ) (p : σ × _),
        E.runFrom p (callsOf ((u :: adds).take 1)) =
          E.step p (.rangeAdd u.left u.right u.amount) := fun _ _ => rfl
    have more : ∀ {ρ σ : Type} (E : Engine (List ValueType) ρ σ) (p : σ × _) (k : ℕ),
        E.runFrom p (callsOf ((u :: adds).take (k + 1))) =
          E.runFrom (E.step p (.rangeAdd u.left u.right u.amount)) (callsOf (adds.take k)) :=
      fun _ _ _ => rfl
    refine Iff.trans (split ?_) ?_
    · rfl
    simp only [one, more, AllFit]
    rcases step_agree u.left u.right u.amount hr hr' with
      ⟨hfit, t, t', h', ht, ht'⟩ | ⟨hfit, hne⟩
    · have key := ih (hr.step ht) (hr'.step ht')
      rw [← ht, ← ht'] at key
      refine (and_iff_right (by rw [ht, ht'])).trans (key.trans ?_)
      exact (and_iff_right fun h'' hh => by cases hh; exact hfit).symm
    · exact iff_of_false (fun hall => hne hall.1) fun hall => hfit (hall.1 h rfl)

/-- Over an array both accept, the histories agree exactly when every addition the full copy
admits on the way fits the lazy update. -/
theorem runs_agree_of_accepted {values : List ValueType}
    (hl : Effect.outcome (PersistentLazySegmentTree.initializeFrom values
      PersistentLazySegmentTree.engine.empty) = .ok ())
    (hf : Effect.outcome (FullCopyPersistentSegmentTree.initializeFrom values
      FullCopyPersistentSegmentTree.engine.empty) = .ok ()) (adds : List (RangeAdd ValueType)) :
    (∀ k, (PersistentLazySegmentTree.engine.run
          (.initializeFrom values :: callsOf (adds.take k))).2 =
        (FullCopyPersistentSegmentTree.engine.run
          (.initializeFrom values :: callsOf (adds.take k))).2) ↔
      AllFit (FullCopyPersistentSegmentTree.engine.run [.initializeFrom values]) adds := by
  obtain ⟨t, ht⟩ := Effect.outcome_eq_ok.mp hl
  obtain ⟨t', ht'⟩ := Effect.outcome_eq_ok.mp hf
  have hstart : PersistentLazySegmentTree.engine.run [.initializeFrom values] =
      (t, some (PersistentLazySegmentTree.engine.start values)) := Engine.step_initialize_ok ht
  have hstart' : FullCopyPersistentSegmentTree.engine.run [.initializeFrom values] =
      (t', some (PersistentLazySegmentTree.engine.start values)) := Engine.step_initialize_ok ht'
  rw [hstart', ← runs_agree adds ⟨_, hstart⟩ ⟨_, hstart'⟩, ← hstart, ← hstart']
  rfl

/-- **The common domain.** Given the same calls on an array both accept: the full copy admits
exactly the arrays of the domain; after the same history the lazy tree admits exactly the
additions that the full copy admits and its own update can compute, so the runs agree exactly as
long as the admitted additions fit; and what either rejects with valid arguments overflows. -/
theorem common_domain {values : List ValueType}
    (hl : Effect.outcome (PersistentLazySegmentTree.initializeFrom values
      PersistentLazySegmentTree.engine.empty) = .ok ())
    (hf : Effect.outcome (FullCopyPersistentSegmentTree.initializeFrom values
      FullCopyPersistentSegmentTree.engine.empty) = .ok ()) :
    (∀ adds, (∀ k, (PersistentLazySegmentTree.engine.run
          (.initializeFrom values :: callsOf (adds.take k))).2 =
        (FullCopyPersistentSegmentTree.engine.run
          (.initializeFrom values :: callsOf (adds.take k))).2) ↔
        AllFit (FullCopyPersistentSegmentTree.engine.run [.initializeFrom values]) adds) ∧
      (∀ s s' h l r value, PersistentLazySegmentTree.engine.Reachable s h →
        FullCopyPersistentSegmentTree.engine.Reachable s' h →
          (FullCopyAdmits s' l r value ↔ (l ≤ r ∧ r < h.size) ∧ (value = 0 ∨
            CanonicalFit (addOn h.adds.latest l r value.toInt) 0 (h.size - 1))) ∧
          (LazyAdmits s l r value ↔ FullCopyAdmits s' l r value ∧ LazyFits h l r value)) ∧
        ∀ s s' h l r value, PersistentLazySegmentTree.engine.Reachable s h →
          FullCopyPersistentSegmentTree.engine.Reachable s' h → l ≤ r → r < h.size →
          (LazyAdmits s l r value ∨
            Overflows (Effect.outcome (PersistentLazySegmentTree.rangeAdd l r value s))) ∧
          (FullCopyAdmits s' l r value ∨
            Overflows (Effect.outcome (FullCopyPersistentSegmentTree.rangeAdd l r value s'))) := by
  refine ⟨runs_agree_of_accepted hl hf, fun s s' h l r value hr hr' => ?_,
    fun s s' h l r value hr hr' hlr hn => ⟨?_, ?_⟩⟩
  · exact ⟨(fullCopyAdmits_iff hr').1, admits_iff l r value hr hr'⟩
  · by_cases ha : LazyAdmits s l r value
    · exact .inl ha
    · exact .inr ((lazyAdmits_iff hr).2 hlr hn ha)
  · by_cases ha : FullCopyAdmits s' l r value
    · exact .inl ha
    · exact .inr ((fullCopyAdmits_iff hr').2 hlr hn ha)

/-- Two elements of `-2^62`, and an addition of `2^63 - 1` to both. -/
def farApart : List ValueType := [-4611686018427387904, -4611686018427387904]

/-- The addition the lazy update cannot compute: twice the delta is not representable. -/
def farAdd : RangeAdd ValueType := ⟨0, 1, Int64.maxValue⟩

theorem farApart_accepted : Effect.outcome (PersistentLazySegmentTree.initializeFrom farApart
      PersistentLazySegmentTree.engine.empty) = .ok () ∧
    Effect.outcome (FullCopyPersistentSegmentTree.initializeFrom farApart
      FullCopyPersistentSegmentTree.engine.empty) = .ok () := by decide +kernel

theorem farApart_histories : (FullCopyPersistentSegmentTree.engine.run
      (.initializeFrom farApart :: callsOf [farAdd])).2 ≠
    (PersistentLazySegmentTree.engine.run (.initializeFrom farApart :: callsOf [farAdd])).2 := by
  intro hsame
  have hlen := congrArg (Option.map fun h => h.adds.updates.length) hsame
  revert hlen
  decide +kernel

/-- The full copy publishes a version of it, and the lazy tree does not. -/
theorem common_domain_fails : ¬ ∀ values : List ValueType, 0 < values.length →
    Effect.outcome (PersistentLazySegmentTree.initializeFrom values
      PersistentLazySegmentTree.engine.empty) = .ok () →
    Effect.outcome (FullCopyPersistentSegmentTree.initializeFrom values
      FullCopyPersistentSegmentTree.engine.empty) = .ok () →
    ∀ (adds : List (RangeAdd ValueType)) (k : ℕ), (PersistentLazySegmentTree.engine.run
        (.initializeFrom values :: callsOf (adds.take k))).2 =
      (FullCopyPersistentSegmentTree.engine.run
        (.initializeFrom values :: callsOf (adds.take k))).2 := fun hall =>
  farApart_histories
    (hall farApart (by decide) farApart_accepted.1 farApart_accepted.2 [farAdd] 1).symm

/-- It does not fit the lazy update. -/
theorem common_domain_farApart : ¬ AllFit
    (FullCopyPersistentSegmentTree.engine.run [.initializeFrom farApart]) [farAdd] := fun hfit =>
  farApart_histories (((common_domain farApart_accepted.1 farApart_accepted.2).1 [farAdd]).mpr
    hfit 1).symm

end CommonDomain

end Valseg
