import Valseg.PointOnlyPersistentSegmentTree
import Valseg.BruteForceArray
import Valseg.CommonDomain

/-!
# The structures without tags

The same additions issued to the full copies, to the copies of the met nodes and to the brute-force
array. The two trees publish the versioned trees of `Discipline.copying` and the array publishes
the versions themselves (`StoreSame`). All three accept an addition exactly when the updated array
is in the domain, so their histories are the same (`one_domain`).
-/

namespace Valseg

open Segment (addOn)
open CommonDomain (callsOf)

namespace UntaggedEngines

/-- The node at `i` and every node below it holds the sum of its segment. -/
inductive NodesExact (nodes : List FullCopyPersistentSegmentTree.Node) (A : ℕ → ℤ) :
    ℕ → ℕ → ℕ → Prop
  | leaf {i lo : ℕ} {node : FullCopyPersistentSegmentTree.Node} (hn : nodes[i]? = some node)
      (hs : node.sum.toInt = Segment.sum A lo lo) : NodesExact nodes A i lo lo
  | inner {i lo hi : ℕ} {node : FullCopyPersistentSegmentTree.Node} (hlt : lo < hi)
      (hn : nodes[i]? = some node) (hs : node.sum.toInt = Segment.sum A lo hi)
      (hleft : NodesExact nodes A node.leftChild lo (Segment.midpoint lo hi))
      (hright : NodesExact nodes A node.rightChild (Segment.midpoint lo hi + 1) hi) :
      NodesExact nodes A i lo hi

/-- A stored tree without tags holds the sums of its array. -/
theorem nodesExact_of_stores {nodes : List FullCopyPersistentSegmentTree.Node} {t : SumTree}
    {A : ℕ → ℤ} {i lo hi : ℕ}
    (h : (FullCopyPersistentSegmentTree.reading.on nodes).Stores anyone t i lo hi)
    (hrep : t.Represents Int64.toInt lo hi A) (hu : t.Untagged lo hi) :
    NodesExact nodes A i lo hi := by
  induction t generalizing i lo hi with
  | leaf s z =>
    obtain ⟨node, hn, hs⟩ := FullCopyPersistentSegmentTree.exists_node h
    obtain rfl : lo = hi := hrep.1
    exact .leaf hn (by rw [hs, hrep.sum_eq])
  | node s z a b iha ihb =>
    obtain ⟨node, hn, hs⟩ := FullCopyPersistentSegmentTree.exists_node h
    obtain ⟨har, hau, hbr, hbu⟩ := SumTree.untagged_halves hrep hu
    obtain ⟨hlt, -, -, j, k, hc, ha, hb⟩ := h
    rw [NodeReading.children_of_getElem? hn] at hc
    cases hc
    exact .inner hlt hn (by rw [hs, hrep.sum_eq]) (iha ha har hau) (ihb hb hbr hbu)

variable {p : FullCopyPersistentSegmentTree.State} {q : PointOnlyPersistentSegmentTree.State}
  {b : BruteForceArray.State} {h : History (List ValueType)}

/-- The three states store the versions of one history. -/
def StoreSame (p : FullCopyPersistentSegmentTree.State)
    (q : PointOnlyPersistentSegmentTree.State) (b : BruteForceArray.State)
    (h : History (List ValueType)) : Prop :=
  ∃ m : VersionedTrees, FullCopyPersistentSegmentTree.refines.StoresTrees p m ∧
    PointOnlyPersistentSegmentTree.refines.StoresTrees q m ∧
    BruteForceArray.StoresArrays b h.size h.adds ∧ m.size = h.size ∧ m.Valid .copying h.adds

/-- The next addition returns in all three, or throws in all three and changes nothing. -/
structure AnswersAlike (p : FullCopyPersistentSegmentTree.State)
    (q : PointOnlyPersistentSegmentTree.State) (b : BruteForceArray.State)
    (u : RangeAdd ValueType) : Prop where
  fullCopy : Returns (FullCopyPersistentSegmentTree.engine.answer p u) ↔
    Returns (BruteForceArray.engine.answer b u)
  pointOnly : Returns (PointOnlyPersistentSegmentTree.engine.answer q u) ↔
    Returns (BruteForceArray.engine.answer b u)
  unchanged : ¬ Returns (BruteForceArray.engine.answer b u) →
    FullCopyPersistentSegmentTree.engine.next p u = p ∧
      PointOnlyPersistentSegmentTree.engine.next q u = q ∧ BruteForceArray.engine.next b u = b

theorem alike_of_error {u : RangeAdd ValueType} {e e' e'' : Exception}
    (hp : FullCopyPersistentSegmentTree.rangeAdd u.left u.right u.amount p = .error e p)
    (hq : PointOnlyPersistentSegmentTree.rangeAdd u.left u.right u.amount q = .error e' q)
    (hb : BruteForceArray.rangeAddLatest u.left u.right u.amount b = .error e'' b) :
    AnswersAlike p q b u :=
  have hb' := Engine.not_returns_answer (E := BruteForceArray.engine) hb
  ⟨iff_of_false (Engine.not_returns_answer (E := FullCopyPersistentSegmentTree.engine) hp) hb',
    iff_of_false (Engine.not_returns_answer (E := PointOnlyPersistentSegmentTree.engine) hq) hb',
    fun _ => ⟨(Engine.answer_error (E := FullCopyPersistentSegmentTree.engine) hp).2,
      (Engine.answer_error (E := PointOnlyPersistentSegmentTree.engine) hq).2,
      (Engine.answer_error (E := BruteForceArray.engine) hb).2⟩⟩

/-- An addition whose array is in the domain, of zero or not. -/
theorem rangeAdd_returns_iff {m : VersionedTrees} {l r : ℕ} (value : ValueType)
    (hv : m.Valid .copying h.adds) (hlr : l ≤ r) (hr : r < m.size) :
    Returns (m.rangeAdd .copying l r value) ↔
      CanonicalFit (addOn h.adds.latest l r value.toInt) 0 (m.size - 1) := by
  rw [(hv.rangeAdd_copying hlr hr).1]
  refine ⟨fun h1 => h1.elim (fun h0 => ?_) id, .inr⟩
  rw [h0, Int64.toInt_zero, VersionedTrees.addOn_zero]
  exact hv.fit (by omega) _ (Nat.lt_succ_self _)

/-- **One addition.** -/
theorem StoreSame.step (hs : StoreSame p q b h) (u : RangeAdd ValueType) :
    (∃ x y z p' q' b', FullCopyPersistentSegmentTree.rangeAdd u.left u.right u.amount p = .ok x p' ∧
        PointOnlyPersistentSegmentTree.rangeAdd u.left u.right u.amount q = .ok y q' ∧
        BruteForceArray.rangeAddLatest u.left u.right u.amount b = .ok z b' ∧
        StoreSame p' q' b' (h.add ⟨u.left, u.right, u.amount.toInt⟩) ∧
        CanonicalFit (addOn h.adds.latest u.left u.right u.amount.toInt) 0 (h.size - 1)) ∨
      ∃ e e' e'', FullCopyPersistentSegmentTree.rangeAdd u.left u.right u.amount p = .error e p ∧
        PointOnlyPersistentSegmentTree.rangeAdd u.left u.right u.amount q = .error e' q ∧
        BruteForceArray.rangeAddLatest u.left u.right u.amount b = .error e'' b ∧
        ¬ (u.left ≤ u.right ∧ u.right < h.size ∧
          CanonicalFit (addOn h.adds.latest u.left u.right u.amount.toInt) 0 (h.size - 1)) := by
  obtain ⟨m, hp, hq, hb, hsize, hv⟩ := hs
  have hpo := PathCopying.Refines.rangeAdd_outcome hp hv u.left u.right u.amount
  have hqo := PathCopying.Refines.rangeAdd_outcome hq hv.sharing u.left u.right u.amount
  rw [hv.rangeAdd_sharing] at hqo
  by_cases hin : u.left ≤ u.right ∧ u.right < h.size
  · obtain ⟨hlr, hr⟩ := hin
    have key := rangeAdd_returns_iff u.amount hv hlr (hsize ▸ hr)
    rw [hsize] at key
    rcases BruteForceArray.rangeAdd_cases u.amount hb hlr hr with
      ⟨b', hb', hb'', hf⟩ | ⟨w, hb', hf⟩
    · obtain ⟨m', hm⟩ := key.mpr hf
      rw [hm] at hpo hqo
      rcases hpo with ⟨m₁, p', hm₁, hp', hp''⟩ | ⟨e, hm₁, -⟩ <;> cases hm₁
      rcases hqo with ⟨m₂, q', hm₂, hq', hq''⟩ | ⟨e, hm₂, -⟩ <;> cases hm₂
      obtain ⟨hsize', -, hv'⟩ := hv.rangeAdd hm
      exact .inl ⟨_, _, _, p', q', b', hp', hq', hb',
        ⟨m', hp'', hq'', hb'', hsize'.trans hsize, hv'⟩, hf⟩
    · rcases hm : m.rangeAdd .copying u.left u.right u.amount with e | m' <;> rw [hm] at hpo hqo
      · rcases hpo with ⟨m₁, p', hm₁, -⟩ | ⟨e₁, hm₁, hp'⟩ <;> cases hm₁
        rcases hqo with ⟨m₂, q', hm₂, -⟩ | ⟨e₂, hm₂, hq'⟩ <;> cases hm₂
        exact .inr ⟨e, e, _, hp', hq', hb', fun hin => hf hin.2.2⟩
      · exact absurd (key.mp ⟨m', hm⟩) hf
  · obtain ⟨e'', hb'⟩ := BruteForceArray.rangeAdd_invalid _ u.amount (.inr ⟨hb, hin⟩)
    rcases hm : m.rangeAdd .copying u.left u.right u.amount with e | m' <;> rw [hm] at hpo hqo
    · rcases hpo with ⟨m₁, p', hm₁, -⟩ | ⟨e₁, hm₁, hp'⟩ <;> cases hm₁
      rcases hqo with ⟨m₂, q', hm₂, -⟩ | ⟨e₂, hm₂, hq'⟩ <;> cases hm₂
      exact .inr ⟨e, e, e'', hp', hq', hb', fun h' => hin ⟨h'.1, h'.2.1⟩⟩
    · have hvalid := VersionedTrees.rangeAdd_valid ⟨m', hm⟩
      rw [hsize] at hvalid
      exact absurd hvalid hin

/-! ## Whole runs -/

/-- An initialization with room returns exactly on the arrays of the domain, and all three store
the array then. -/
theorem open_same {values : List ValueType} (hn : 0 < values.length)
    (hroom : ¬ OutOfRoom (FullCopyPersistentSegmentTree.engine.opening values)) :
    (∃ p q b, FullCopyPersistentSegmentTree.initializeFrom values
          FullCopyPersistentSegmentTree.engine.empty = .ok () p ∧
        PointOnlyPersistentSegmentTree.initializeFrom values
          PointOnlyPersistentSegmentTree.engine.empty = .ok () q ∧
        BruteForceArray.initializeFrom values BruteForceArray.engine.empty = .ok () b ∧
        StoreSame p q b ⟨values, values.length, ⟨leafArray values, []⟩⟩ ∧
        CanonicalFit (leafArray values) 0 (values.length - 1)) ∨
      ∃ e e' e'', FullCopyPersistentSegmentTree.initializeFrom values
          FullCopyPersistentSegmentTree.engine.empty =
            .error e FullCopyPersistentSegmentTree.engine.empty ∧
        PointOnlyPersistentSegmentTree.initializeFrom values
          PointOnlyPersistentSegmentTree.engine.empty =
            .error e' PointOnlyPersistentSegmentTree.engine.empty ∧
        BruteForceArray.initializeFrom values BruteForceArray.engine.empty =
          .error e'' BruteForceArray.engine.empty ∧
        ¬ CanonicalFit (leafArray values) 0 (values.length - 1) := by
  have hsame : PointOnlyPersistentSegmentTree.initializeFrom values
      PointOnlyPersistentSegmentTree.engine.empty = FullCopyPersistentSegmentTree.initializeFrom
        values FullCopyPersistentSegmentTree.engine.empty := rfl
  have h0 : values ≠ [] := List.ne_nil_of_length_pos hn
  have hbuild := SumTree.build_spec values 0 (values.length - 1) (Nat.zero_le _) (by omega)
  rcases hp : FullCopyPersistentSegmentTree.initializeFrom values
    FullCopyPersistentSegmentTree.engine.empty with ⟨u, p⟩ | ⟨e, p⟩
  · rw [hp] at hsame
    obtain ⟨hlen, m, hm, hst⟩ := PathCopying.Refines.initialize_outcome
      (R := FullCopyPersistentSegmentTree.refines) hp
    obtain ⟨-, m', hm', hst'⟩ := PathCopying.Refines.initialize_outcome
      (R := PointOnlyPersistentSegmentTree.refines) hsame
    rw [hm] at hm'
    cases hm'
    obtain ⟨hsize, hvalid⟩ := VersionedTrees.Valid.initializeFrom (D := .copying) hlen hm
    rw [VersionedTrees.initializeFrom, if_neg h0] at hm
    obtain ⟨t, ht, -⟩ := Effect.bind_eq_ok.mp hm
    rcases hbuild with ⟨t', -, -, -, -, -, hfit⟩ | ⟨⟨w, hw⟩, -⟩
    · rcases BruteForceArray.initialize_cases (s := BruteForceArray.engine.empty) hn with
        ⟨b, hb, hb', -⟩ | ⟨w, -, hf⟩
      · exact .inl ⟨p, p, b, rfl, hsame, hb, ⟨m, hst, hst', hb', hsize, hvalid⟩, hfit⟩
      · exact absurd hfit hf
    · rw [ht] at hw
      cases hw
  · obtain rfl := PathCopying.initializeFrom_atomic values _ _ _ hp
    rw [hp] at hsame
    rcases PathCopying.Refines.initialize_error FullCopyPersistentSegmentTree.refines hp with
      hout | hm
    · refine absurd ?_ hroom
      have hp' : FullCopyPersistentSegmentTree.engine.initializeFrom values
        FullCopyPersistentSegmentTree.engine.empty = .error e _ := hp
      rw [Engine.opening, hp']
      exact hout
    rcases hbuild with ⟨t, ht, -⟩ | ⟨-, hf⟩
    · rw [VersionedTrees.initializeFrom, if_neg h0, ht] at hm
      cases hm
    · rcases BruteForceArray.initialize_cases (s := BruteForceArray.engine.empty) hn with
        ⟨b, -, -, hfit⟩ | ⟨w, hb, -⟩
      · exact absurd hfit hf
      · exact .inr ⟨e, e, _, rfl, hsame, hb, hf⟩

/-- What the three hold after a run with the history. -/
structure OneDomain (p : FullCopyPersistentSegmentTree.State)
    (q : PointOnlyPersistentSegmentTree.State) (b : BruteForceArray.State)
    (h : History (List ValueType)) : Prop where
  accepts : ∀ u : RangeAdd ValueType, u.left ≤ u.right → u.right < h.size →
    (Returns (BruteForceArray.engine.answer b u) ↔
      CanonicalFit (addOn h.adds.latest u.left u.right u.amount.toInt) 0 (h.size - 1))
  versions : FullCopyPersistentSegmentTree.versionCount p = h.adds.versionCount ∧
    PointOnlyPersistentSegmentTree.versionCount q = h.adds.versionCount ∧
      BruteForceArray.versionCount b = h.adds.versionCount
  arrays : ∀ v xs, b.versions[v]? = some xs → Holds xs h.size (h.adds.array v)
  fullCopy : ∀ v < h.adds.versionCount, ∃ root, p.roots[v]? = some root ∧
    NodesExact p.nodes (h.adds.array v) root 0 (h.size - 1)
  pointOnly : ∀ v < h.adds.versionCount, ∃ root, q.roots[v]? = some root ∧
    NodesExact q.nodes (h.adds.array v) root 0 (h.size - 1)
  sums : ∀ v l r, PointOnlyPersistentSegmentTree.rangeSum q v l r =
    FullCopyPersistentSegmentTree.rangeSum p v l r

theorem StoreSame.oneDomain (hs : StoreSame p q b h) (hn : 0 < h.size) : OneDomain p q b h := by
  obtain ⟨m, hp, hq, hb, hsize, hv⟩ := hs
  have exact_at : ∀ {nodes : List FullCopyPersistentSegmentTree.Node} {roots : List ℕ},
      (∀ (v : ℕ) (t : SumTree), m.trees[v]? = some t → ∃ root, roots[v]? = some root ∧
        (FullCopyPersistentSegmentTree.reading.on nodes).Stores anyone t root 0 (m.size - 1)) →
      ∀ v < h.adds.versionCount, ∃ root, roots[v]? = some root ∧
        NodesExact nodes (h.adds.array v) root 0 (h.size - 1) := by
    intro nodes roots hst v hlt
    have ht : m.trees[v]? = some _ := List.getElem?_eq_getElem (hv.versions ▸ hlt)
    obtain ⟨root, hroot, hst⟩ := hst v _ ht
    refine ⟨root, hroot, ?_⟩
    rw [← hsize]
    exact nodesExact_of_stores hst (hv.represents (by omega) v _ ht) (hv.keeps (by omega) v _ ht)
  refine ⟨fun u hlr hr => ?_, ⟨hp.roots.trans hv.versions, hq.roots.trans hv.versions, hb.count⟩,
    hb.holds, exact_at (hp.stores (by omega)), exact_at (hq.stores (by omega)), fun v l r => ?_⟩
  · rcases BruteForceArray.rangeAdd_cases u.amount hb hlr hr with
      ⟨b', hb', -, hf⟩ | ⟨w, hb', hf⟩
    · exact iff_of_true (Engine.returns_answer (E := BruteForceArray.engine) hb') hf
    · exact iff_of_false (Engine.not_returns_answer (E := BruteForceArray.engine) hb') hf
  · rw [PointOnlyPersistentSegmentTree.rangeSum_eq hq hv,
      FullCopyPersistentSegmentTree.rangeSum_eq hp hv]

/-- Answers of additions that return, or throw and change nothing. -/
theorem StoreSame.alike (hs : StoreSame p q b h) (u : RangeAdd ValueType) :
    AnswersAlike p q b u := by
  rcases hs.step u with
    ⟨x, y, z, p', q', b', hp, hq, hb, -, -⟩ | ⟨e, e', e'', hp, hq, hb, -⟩
  · have hp := Engine.returns_answer (E := FullCopyPersistentSegmentTree.engine) hp
    have hq := Engine.returns_answer (E := PointOnlyPersistentSegmentTree.engine) hq
    have hb := Engine.returns_answer (E := BruteForceArray.engine) hb
    exact ⟨iff_of_true hp hb, iff_of_true hq hb, fun h => absurd hb h⟩
  · exact alike_of_error hp hq hb

/-- What a run of the three leaves behind: nothing, or the versions of one history. -/
def Runs (p : FullCopyPersistentSegmentTree.State × Option (History (List ValueType)))
    (q : PointOnlyPersistentSegmentTree.State × Option (History (List ValueType)))
    (b : BruteForceArray.State × Option (History (List ValueType))) : Prop :=
  (p = (FullCopyPersistentSegmentTree.engine.empty, none) ∧
      q = (PointOnlyPersistentSegmentTree.engine.empty, none) ∧
      b = (BruteForceArray.engine.empty, none)) ∨
    ∃ h, p.2 = some h ∧ q.2 = some h ∧ b.2 = some h ∧ 0 < h.size ∧ StoreSame p.1 q.1 b.1 h

/-- Additions lead from such states to such states. -/
theorem Runs.additions (adds : List (RangeAdd ValueType)) : ∀ {p q b}, Runs p q b →
    Runs (FullCopyPersistentSegmentTree.engine.runFrom p (callsOf adds))
      (PointOnlyPersistentSegmentTree.engine.runFrom q (callsOf adds))
      (BruteForceArray.engine.runFrom b (callsOf adds)) := by
  induction adds with
  | nil => exact fun h => h
  | cons u adds ih =>
    intro p q b hruns
    refine ih ?_
    rcases hruns with ⟨rfl, rfl, rfl⟩ | ⟨h, hp, hq, hb, hn, hs⟩
    · exact .inl ⟨rfl, rfl, rfl⟩
    · obtain ⟨p, o⟩ := p
      obtain ⟨q, o'⟩ := q
      obtain ⟨b, o''⟩ := b
      obtain rfl : o = some h := hp
      obtain rfl : o' = some h := hq
      obtain rfl : o'' = some h := hb
      rcases hs.step u with
        ⟨x, y, z, p', q', b', hp, hq, hb, hs', -⟩ | ⟨e, e', e'', hp, hq, hb, -⟩
      · rw [Engine.step_rangeAdd_ok (E := FullCopyPersistentSegmentTree.engine) hp,
          Engine.step_rangeAdd_ok (E := PointOnlyPersistentSegmentTree.engine) hq,
          Engine.step_rangeAdd_ok (E := BruteForceArray.engine) hb]
        exact .inr ⟨_, rfl, rfl, rfl, hn, hs'⟩
      · rw [Engine.step_rangeAdd_error (E := FullCopyPersistentSegmentTree.engine) hp,
          Engine.step_rangeAdd_error (E := PointOnlyPersistentSegmentTree.engine) hq,
          Engine.step_rangeAdd_error (E := BruteForceArray.engine) hb]
        exact .inr ⟨h, rfl, rfl, rfl, hn, hs⟩

/-- Without versions all three reject every addition. -/
theorem alike_empty (u : RangeAdd ValueType) :
    AnswersAlike FullCopyPersistentSegmentTree.engine.empty
      PointOnlyPersistentSegmentTree.engine.empty BruteForceArray.engine.empty u := by
  obtain ⟨e, hb⟩ := BruteForceArray.rangeAdd_invalid (s := BruteForceArray.engine.empty)
    (h := ⟨leafArray [], []⟩) (l := u.left) (r := u.right) 0 u.amount (.inl rfl)
  exact alike_of_error rfl rfl hb

/-- The calls of a run. -/
abbrev runCalls (values : List ValueType) (adds : List (RangeAdd ValueType)) :
    List (Call (List ValueType)) := .initializeFrom values :: callsOf adds

theorem run_runCalls {ρ σ : Type} (E : Engine (List ValueType) ρ σ) (values : List ValueType)
    (adds : List (RangeAdd ValueType)) : E.run (runCalls values adds) =
      E.runFrom (E.step (E.empty, none) (.initializeFrom values)) (callsOf adds) := rfl

/-- **One domain, and it is the logical one.** With room the three initializations return exactly
on the arrays of the domain. After any additions the three have the same history, and the next
addition ends the same way in all three; with a history it returns exactly when its array is in
the domain, the nodes of every version are exact, and the two trees read the same sums. -/
theorem one_domain {values : List ValueType} (adds : List (RangeAdd ValueType))
    (hn : 0 < values.length)
    (hroom : ¬ OutOfRoom (FullCopyPersistentSegmentTree.engine.opening values)) :
    ((Returns (FullCopyPersistentSegmentTree.engine.opening values) ↔
          CanonicalFit (leafArray values) 0 (values.length - 1)) ∧
        (Returns (PointOnlyPersistentSegmentTree.engine.opening values) ↔
          CanonicalFit (leafArray values) 0 (values.length - 1)) ∧
        (Returns (BruteForceArray.engine.opening values) ↔
          CanonicalFit (leafArray values) 0 (values.length - 1))) ∧
      ((FullCopyPersistentSegmentTree.engine.run (runCalls values adds)).2 =
          (BruteForceArray.engine.run (runCalls values adds)).2 ∧
        (PointOnlyPersistentSegmentTree.engine.run (runCalls values adds)).2 =
          (BruteForceArray.engine.run (runCalls values adds)).2) ∧
      (∀ u, AnswersAlike (FullCopyPersistentSegmentTree.engine.run (runCalls values adds)).1
        (PointOnlyPersistentSegmentTree.engine.run (runCalls values adds)).1
        (BruteForceArray.engine.run (runCalls values adds)).1 u) ∧
      ∀ h, (BruteForceArray.engine.run (runCalls values adds)).2 = some h →
        OneDomain (FullCopyPersistentSegmentTree.engine.run (runCalls values adds)).1
          (PointOnlyPersistentSegmentTree.engine.run (runCalls values adds)).1
          (BruteForceArray.engine.run (runCalls values adds)).1 h := by
  have hopen := open_same hn hroom
  have hruns : Runs (FullCopyPersistentSegmentTree.engine.run (runCalls values adds))
      (PointOnlyPersistentSegmentTree.engine.run (runCalls values adds))
      (BruteForceArray.engine.run (runCalls values adds)) := by
    simp only [run_runCalls]
    refine Runs.additions adds ?_
    rcases hopen with ⟨p, q, b, hp, hq, hb, hs, -⟩ | ⟨e, e', e'', hp, hq, hb, -⟩
    · rw [Engine.step_initialize_ok (E := FullCopyPersistentSegmentTree.engine) hp,
        Engine.step_initialize_ok (E := PointOnlyPersistentSegmentTree.engine) hq,
        Engine.step_initialize_ok (E := BruteForceArray.engine) hb]
      exact .inr ⟨⟨values, values.length, ⟨leafArray values, []⟩⟩, rfl, rfl, rfl, hn, hs⟩
    · rw [Engine.step_initialize_error (E := FullCopyPersistentSegmentTree.engine) hp,
        Engine.step_initialize_error (E := PointOnlyPersistentSegmentTree.engine) hq,
        Engine.step_initialize_error (E := BruteForceArray.engine) hb]
      exact .inl ⟨rfl, rfl, rfl⟩
  refine ⟨?_, ?_⟩
  · rcases hopen with ⟨p, q, b, hp, hq, hb, -, hf⟩ | ⟨e, e', e'', hp, hq, hb, hf⟩
    · exact ⟨iff_of_true (Engine.returns_opening (E := FullCopyPersistentSegmentTree.engine) hp) hf,
        iff_of_true (Engine.returns_opening (E := PointOnlyPersistentSegmentTree.engine) hq) hf,
        iff_of_true (Engine.returns_opening (E := BruteForceArray.engine) hb) hf⟩
    · exact ⟨iff_of_false
          (Engine.not_returns_opening (E := FullCopyPersistentSegmentTree.engine) hp) hf,
        iff_of_false
          (Engine.not_returns_opening (E := PointOnlyPersistentSegmentTree.engine) hq) hf,
        iff_of_false (Engine.not_returns_opening (E := BruteForceArray.engine) hb) hf⟩
  · rcases hruns with ⟨hp, hq, hb⟩ | ⟨h, hp, hq, hb, hn', hs⟩
    · rw [hp, hq, hb]
      exact ⟨⟨rfl, rfl⟩, alike_empty, fun h hh => nomatch hh⟩
    · refine ⟨⟨hp.trans hb.symm, hq.trans hb.symm⟩, hs.alike, fun h' hh => ?_⟩
      obtain rfl : h = h' := Option.some.inj (hb.symm.trans hh)
      exact hs.oneDomain hn'

/-- An addition past the domain between two inside it. -/
abbrev pastAdds : List (RangeAdd ValueType) := [⟨0, 1, 5⟩, ⟨1, 2, Int64.maxValue⟩, ⟨2, 2, -7⟩]

theorem one_domain_past : (FullCopyPersistentSegmentTree.engine.run
    (runCalls [1, 2, 3] pastAdds)).2.map (fun h => h.adds.updates) =
      some [⟨0, 1, 5⟩, ⟨2, 2, -7⟩] := by
  have h := (one_domain pastAdds (show 0 < [1, 2, 3].length by decide) (by decide +kernel)).2.1
  rw [h.1]
  decide +kernel

end UntaggedEngines

end Valseg
