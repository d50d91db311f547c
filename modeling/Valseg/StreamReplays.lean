import Valseg.ArenaGrowth
import Valseg.CheckpointedSums

/-!
# Replayed streams

A stream of operations on a structure, and what it was predicted to cost. Each relation here
between a structure and the totals counted so far is kept by one operation on both sides, and
`runUpdates_tracks` and `replayStream_tracks` make statements about whole streams out of it.
-/

namespace Valseg

namespace Bench

section Updates

variable {σ : Type} {rangeAdd : (left right : ℕ) → ValueType → EStateM Exception σ ℕ}
  {size interval : ℕ} {s s' : σ} {c c' : Counting} {stream : List Operation} {op : Operation}

/-- The updates of a stream, in their order. Queries do not write. -/
def runUpdates (rangeAdd : (left right : ℕ) → ValueType → EStateM Exception σ ℕ) :
    List Operation → EStateM Exception σ Unit
  | [] => pure ()
  | op :: stream =>
    if op.isUpdate then do
      let _ ← rangeAdd op.left op.right op.delta
      runUpdates rangeAdd stream
    else runUpdates rangeAdd stream

/-- What both sides of one operation keep, both sides of a stream keep. -/
theorem runUpdates_tracks (Rel : σ → Counting → Prop)
    (hupdate : ∀ {op s s' c c' x}, op.isUpdate = true → Rel s c →
      rangeAdd op.left op.right op.delta s = .ok x s' →
      countOperation size interval c op = .ok c' → Rel s' c')
    (hquery : ∀ {op s c c'}, Rel s c → AddsQuery size interval c c' op → Rel s c')
    (h : Rel s c) (hrun : runUpdates rangeAdd stream s = .ok () s')
    (hcount : stream.foldlM (countOperation size interval) c = .ok c') : Rel s' c' := by
  induction stream generalizing s c with
  | nil =>
    cases hrun
    cases hcount
    exact h
  | cons op stream ih =>
    rw [List.foldlM_cons] at hcount
    obtain ⟨c₁, h1, hcount⟩ := Effect.bind_eq_ok.mp hcount
    rw [runUpdates] at hrun
    by_cases hu : op.isUpdate = true
    · rw [if_pos hu] at hrun
      obtain ⟨x, s₁, h2, hrun⟩ := Effect.run_bind_eq_ok.mp hrun
      exact ih (hupdate hu h h2 h1) hrun hcount
    · rw [if_neg hu] at hrun
      exact ih (hquery h (countOperation_query (Bool.eq_false_iff.mpr hu) h1)) hrun hcount

/-- The totals start at zero, and the model of the tags with the identity everywhere. -/
theorem structuralCounts_eq_ok {counts : StructuralCounts}
    (h : structuralCounts stream size interval = .ok counts) : 0 < size ∧ ∃ c,
      stream.foldlM (countOperation size interval)
        ⟨{}, ⟨size, List.replicate (4 * size) 0⟩, 0⟩ = .ok c ∧ c.counts = counts := by
  unfold structuralCounts at h
  obtain ⟨⟨⟩, h1, h⟩ := Effect.bind_eq_ok.mp h
  obtain ⟨model, h2, h⟩ := Effect.bind_eq_ok.mp h
  obtain ⟨c, h3, h⟩ := Effect.bind_eq_ok.mp h
  cases h
  unfold PushCountingModel.ofSize at h2
  obtain ⟨⟨⟩, -, h2⟩ := Effect.bind_eq_ok.mp h2
  obtain ⟨count, h4, h2⟩ := Effect.bind_eq_ok.mp h2
  obtain ⟨⟨⟩, -, h2⟩ := Effect.bind_eq_ok.mp h2
  obtain ⟨rfl, -⟩ := checkedSizeMultiply_eq_ok.mp h4
  cases h2
  refine ⟨Nat.pos_of_ne_zero fun h0 => ?_, c, h3, rfl⟩
  rw [if_pos h0] at h1
  cases h1

end Updates

/-! ## Structures whose updates append the same in every arena -/

section Growth

variable {Node Domain : Type} {P : PathCopying Node Domain} {size interval : ℕ}
  {stream : List Operation} {counts : StructuralCounts} {values : List ValueType}
  {s₀ s : PathCopyingTree Node Domain}

/-- So far the arena has grown by the total. -/
structure Tracks (n base : ℕ) (total : StructuralCounts → ℕ) (s : PathCopyingTree Node Domain)
    (c : Counting) : Prop where
  size : s.arraySize = n
  nodes : PathCopying.nodeCount s = base + total c.counts

/-- The arena grows by the total that every update adds its own growth to. -/
theorem nodeCount_runUpdates (total : StructuralCounts → ℕ) (growth : (l r : ℕ) → ℕ)
    (hgrows : ∀ i l r value, Grows (growth l r) (P.update i 0 (values.length - 1) l r value))
    (hupdate : ∀ {c c' op}, AddsUpdate values.length c c' op →
      total c'.counts = total c.counts + growth op.left op.right)
    (hzero : ∀ counts n, total { counts with updates := n } = total counts)
    (hquery : ∀ {c c' op}, AddsQuery values.length interval c c' op →
      total c'.counts = total c.counts) (hempty : total {} = 0)
    (hcounts : structuralCounts stream values.length interval = .ok counts)
    (hinit : P.initializeFrom values P.empty = .ok () s₀)
    (hrun : runUpdates P.rangeAdd stream s₀ = .ok () s) :
    PathCopying.nodeCount s = PathCopying.nodeCount s₀ + total counts := by
  obtain ⟨hpos, c, hcount, rfl⟩ := structuralCounts_eq_ok hcounts
  obtain ⟨root, nodes, -, rfl⟩ :=
    PathCopying.initializeFrom_eq_ok (List.ne_nil_of_length_pos hpos) hinit
  refine (runUpdates_tracks (Tracks values.length nodes.length total) (fun hu h hadd hc => ?_)
    (fun h hc => ⟨h.size, by rw [h.nodes, hquery hc]⟩) ⟨rfl, by rw [hempty]; rfl⟩ hrun
    hcount).nodes
  obtain ⟨hsize, hnodes⟩ := h
  obtain ⟨root, -, ⟨h0, rfl⟩ | ⟨h0, newRoot, more, domain, hup, rfl⟩⟩ :=
    PathCopying.rangeAdd_eq_ok hadd
  · obtain ⟨-, -, rfl⟩ := countOperation_zero hu h0 hc
    refine ⟨hsize, ?_⟩
    rw [hzero]
    exact hnodes
  · have hadds := countOperation_update hu h0 hc
    rw [hsize] at hup
    refine ⟨hsize, (hgrows _ _ _ _ hup).trans ?_⟩
    unfold PathCopying.nodeCount at hnodes
    rw [hnodes, hupdate hadds, Nat.add_assoc]

end Growth

/-! ## A structure that pushes tags -/

section Pushing

open CopyOnPushSegmentTree (SameTags update_follows)

variable {size interval : ℕ} {values : List ValueType}

/-- A build stores no tag. -/
theorem build_sameTags (hn : 0 < size) : ∀ lo hi, lo ≤ hi →
    ∀ {i k : ℕ} {nodes nodes' : List CopyOnPushSegmentTree.Node}, HeapSlot size k lo hi →
      CopyOnPushSegmentTree.build values lo hi nodes = .ok i nodes' →
      ∃ more, nodes' = nodes ++ more ∧ SameTags nodes' (List.replicate (4 * size) 0) i k lo hi := by
  have htag : ∀ {k lo hi : ℕ}, HeapSlot size k lo hi →
      (List.replicate (4 * size) (0 : ValueType))[k]? = some 0 := fun ho => by
    rw [List.getElem?_replicate, if_pos (ho.bound hn)]
  unfold CopyOnPushSegmentTree.build
  refine Segment.halving_induction ?_ ?_
  · intro m i k nodes nodes' ho hb
    rw [buildArena, if_pos rfl] at hb
    obtain ⟨value, -, hb⟩ := Effect.run_liftM_bind_eq_ok.mp hb
    rw [pushBack_run] at hb
    cases hb
    exact ⟨_, rfl, .leaf List.getElem?_concat_length (htag ho)⟩
  · intro lo hi hlt ihl ihr i k nodes nodes' ho hb
    have hm := Segment.le_midpoint lo hi
    have hm' := Segment.midpoint_lt hlt
    have hol := HeapSlot.left ho hlt
    have hor := HeapSlot.right ho hlt
    rw [buildArena, if_neg hlt.ne, if_pos hlt] at hb
    obtain ⟨j, nodes₁, h1, hb⟩ := Effect.run_bind_eq_ok.mp hb
    obtain ⟨moreL, rfl, hl⟩ := ihl hol h1
    obtain ⟨j', nodes₂, h2, hb⟩ := Effect.run_bind_eq_ok.mp hb
    obtain ⟨moreR, rfl, hr⟩ := ihr hor h2
    have hl' := hl.frame moreR hol hm fun _ _ _ _ _ _ _ => rfl
    obtain ⟨nl, hnl, -⟩ := hl'.root
    obtain ⟨nr, hnr, -⟩ := hr.root
    rw [Effect.run_bind_ok (readNode_run hnl), Effect.run_bind_ok (readNode_run hnr)] at hb
    obtain ⟨sum, -, hb⟩ := Effect.run_liftM_bind_eq_ok.mp hb
    rw [pushBack_run] at hb
    cases hb
    refine ⟨moreL ++ moreR ++ [⟨j, j', sum, 0⟩], ?_, .inner hlt List.getElem?_concat_length
      (htag ho) ?_ ?_⟩
    · simp only [List.append_assoc]
    · exact hl'.frame _ hol hm fun _ _ _ _ _ _ _ => rfl
    · exact hr.frame _ hor hm' fun _ _ _ _ _ _ _ => rfl

/-- An addition of the model that is not zero updates its tags from the root. -/
theorem apply_eq_ok {l r p : ℕ} {delta : ValueType} {model model' : PushCountingModel.State ValueType}
    (h0 : delta ≠ 0) (h : PushCountingModel.apply sumAddPolicy l r delta model = .ok p model') :
    model'.arraySize = model.arraySize ∧ PushCountingModel.update sumAddPolicy 0 0
      (model.arraySize - 1) l r delta model.tags = .ok p model'.tags := by
  unfold PushCountingModel.apply at h
  rw [Effect.run_bind_ok (Effect.run_get _)] at h
  obtain ⟨⟨⟩, -, h⟩ := Effect.run_liftM_bind_eq_ok.mp h
  rw [if_neg (show ¬ delta = sumAddPolicy.actionIdentity from h0)] at h
  rcases hu : PushCountingModel.update sumAddPolicy 0 0 (model.arraySize - 1) l r delta model.tags
    with ⟨q, tags⟩ | ⟨e, tags⟩
  · rw [Effect.zoom_ok hu] at h
    cases h
    exact ⟨rfl, rfl⟩
  · rw [Effect.zoom_error hu] at h
    cases h

/-- So far the arena has grown by the visits and by two for every push, and the model has the
tags of the latest version. -/
structure TracksPushes (n base : ℕ) (s : CopyOnPushSegmentTree.State) (c : Counting) : Prop where
  size : s.arraySize = n
  nodes : PathCopying.nodeCount s = base + (c.counts.updateVisits + 2 * c.counts.pushes)
  modelSize : c.pushes.arraySize = n
  latest : ∃ root, s.roots[s.roots.length - 1]? = some root ∧
    SameTags s.nodes c.pushes.tags root 0 0 (n - 1)

/-- **Pushes.** -/
theorem nodeCount_runUpdates_pushing {stream : List Operation} {counts : StructuralCounts}
    {s₀ s : CopyOnPushSegmentTree.State}
    (hcounts : structuralCounts stream values.length interval = .ok counts)
    (hinit : CopyOnPushSegmentTree.initializeFrom values CopyOnPushSegmentTree.parts.empty = .ok () s₀)
    (hrun : runUpdates CopyOnPushSegmentTree.rangeAdd stream s₀ = .ok () s) :
    PathCopying.nodeCount s =
      PathCopying.nodeCount s₀ + (counts.updateVisits + 2 * counts.pushes) := by
  obtain ⟨hpos, c, hcount, rfl⟩ := structuralCounts_eq_ok hcounts
  obtain ⟨root, nodes, hb, rfl⟩ :=
    PathCopying.initializeFrom_eq_ok (List.ne_nil_of_length_pos hpos) hinit
  obtain ⟨more, -, hsame⟩ := build_sameTags hpos 0 _ (Nat.zero_le _) .root hb
  refine (runUpdates_tracks (TracksPushes values.length nodes.length) (fun hu h hadd hc => ?_)
    (fun h hc => ?_) ⟨rfl, rfl, rfl, root, rfl, hsame⟩ hrun hcount).nodes
  · obtain ⟨hsize, hnodes, hmodel, root, hroot, hsame⟩ := h
    obtain ⟨root', hroot', ⟨h0, rfl⟩ | ⟨h0, newRoot, nodes', domain, hup, rfl⟩⟩ :=
      PathCopying.rangeAdd_eq_ok hadd
    all_goals obtain rfl := Option.some.inj (hroot.symm.trans hroot')
    · obtain ⟨-, -, rfl⟩ := countOperation_zero hu h0 hc
      refine ⟨hsize, hnodes, hmodel, root, ?_, hsame⟩
      rw [List.length_append, List.length_singleton, Nat.add_sub_cancel,
        List.getElem?_concat_length]
    · have hadds := countOperation_update hu h0 hc
      obtain ⟨p, hp, hpushes⟩ := hadds.pushes
      obtain ⟨hmodel', hp⟩ := apply_eq_ok h0 hp
      rw [hmodel] at hp hmodel'
      rw [hsize] at hup
      have hfollows := update_follows _ _ _ 0 _ (Nat.zero_le _) .root hsame hup hp
      obtain ⟨more, rfl, hlen⟩ := hfollows.appended
      refine ⟨hsize, ?_, hmodel', newRoot, ?_, hfollows.same⟩
      · unfold PathCopying.nodeCount at hnodes ⊢
        rw [List.length_append, hnodes, hlen, hpushes, hadds.updateVisits]
        omega
      · rw [List.length_append, List.length_singleton, Nat.add_sub_cancel,
          List.getElem?_concat_length]
  · obtain ⟨hsize, hnodes, hmodel, hlatest⟩ := h
    refine ⟨hsize, ?_, ?_, ?_⟩
    · rw [hnodes, hc.updateVisits, hc.counted]
    · rw [hc.pushes, hmodel]
    · rw [hc.pushes]
      exact hlatest

end Pushing

end Bench

end Valseg
