import Valseg.Lib.CanonicalSegments
import Valseg.CommutativityBoundary
import Valseg.RecordTrees

/-!
# Tree order

What the tag-retaining tree computes, whether or not the actions commute. The record of a canonical
segment carries the actions of the updates whose decomposition contains it, composed in
chronological order (`placedTag`), and an element is acted on by the tags of its path from the leaf
up (`treeOrderValue`). `Carries` says this of one tree, `Carries.update` that an update keeps it, and
`tree_order_semantics` reads the tags, the aggregates and the answers of every version off it.
-/

namespace Valseg

namespace PathCopyingActionTree

open SegmentAction (AllReached)

section Values

variable {X F : Type} {M : SegmentAction X F} {S : Set X} {T T' : ℕ → ℕ → F} {A : ℕ → X}
  {lo hi l r i : ℕ} {f : F}

/-- The element at an index below a segment, under the tags of the segments on its path, from the
leaf up. -/
def treeOrderValue (M : SegmentAction X F) (T : ℕ → ℕ → F) (A : ℕ → X) (lo hi i : ℕ) : X :=
  if lo < hi then
    M.act (T lo hi) (if i ≤ Segment.midpoint lo hi then
      treeOrderValue M T A lo (Segment.midpoint lo hi) i
      else treeOrderValue M T A (Segment.midpoint lo hi + 1) hi i)
  else M.act (T lo hi) (A i)
termination_by hi - lo
decreasing_by all_goals (simp only [Segment.midpoint] at *; omega)

/-- The element below the halves. -/
def halvesValue (M : SegmentAction X F) (T : ℕ → ℕ → F) (A : ℕ → X) (lo hi i : ℕ) : X :=
  if i ≤ Segment.midpoint lo hi then treeOrderValue M T A lo (Segment.midpoint lo hi) i
  else treeOrderValue M T A (Segment.midpoint lo hi + 1) hi i

theorem treeOrderValue_single : treeOrderValue M T A lo lo i = M.act (T lo lo) (A i) := by
  rw [treeOrderValue, if_neg (lt_irrefl lo)]

theorem treeOrderValue_split (hlt : lo < hi) :
    treeOrderValue M T A lo hi i = M.act (T lo hi) (halvesValue M T A lo hi i) := by
  rw [treeOrderValue, if_pos hlt]
  rfl

/-- Only the tags of the segment matter. -/
theorem treeOrderValue_congr : ∀ lo hi, lo ≤ hi → ∀ i,
    (∀ a b, Segment.Canonical lo hi a b → T' a b = T a b) →
    treeOrderValue M T' A lo hi i = treeOrderValue M T A lo hi i := by
  refine Segment.halving_induction (fun j i h => ?_) fun lo hi hlt ihl ihr i h => ?_
  · rw [treeOrderValue_single, treeOrderValue_single, h j j (.self le_rfl)]
  · rw [treeOrderValue_split hlt, treeOrderValue_split hlt, h lo hi (.self hlt.le), halvesValue,
      halvesValue, ihl i fun a b hc => h a b (.left hlt hc), ihr i fun a b hc => h a b (.right hlt hc)]

theorem halvesValue_congr (hlt : lo < hi) (i : ℕ)
    (h : ∀ a b, Segment.Canonical lo hi a b → ¬ (a = lo ∧ b = hi) → T' a b = T a b) :
    halvesValue M T' A lo hi i = halvesValue M T A lo hi i := by
  have hm := Segment.le_midpoint lo hi
  have hm' := Segment.midpoint_lt hlt
  unfold halvesValue
  rw [treeOrderValue_congr _ _ hm i fun a b hc => h a b (.left hlt hc) fun hab => by
      have := hc.bounds
      omega,
    treeOrderValue_congr _ _ hm' i fun a b hc => h a b (.right hlt hc) fun hab => by
      have := hc.bounds
      omega]

theorem treeOrderValue_reached : ∀ lo hi, lo ≤ hi → M.AllReached S A lo hi →
    M.AllReached S (treeOrderValue M T A lo hi) lo hi := by
  refine Segment.halving_induction (fun j h i h1 h2 => ?_) fun lo hi hlt ihl ihr h i h1 h2 => ?_
  · rw [treeOrderValue_single]
    exact (h i h1 h2).act _
  · rw [treeOrderValue_split hlt]
    refine SegmentAction.Reached.act _ ?_
    unfold halvesValue
    split_ifs with hm
    · exact ihl (h.left hlt) i h1 hm
    · exact ihr h.right i (by omega) h2

theorem halvesValue_reached (hlt : lo < hi) (h : M.AllReached S A lo hi) :
    M.AllReached S (halvesValue M T A lo hi) lo hi := by
  intro i h1 h2
  unfold halvesValue
  split_ifs with hm
  · exact treeOrderValue_reached _ _ (Segment.le_midpoint lo hi) (h.left hlt) i h1 hm
  · exact treeOrderValue_reached _ _ (Segment.midpoint_lt hlt) h.right i (by omega) h2

/-- Another tag at the root of a path, composed onto the one that is there. -/
theorem treeOrderValue_compose (hM : M.Lawful S) (hle : lo ≤ hi) (hA : M.AllReached S A lo hi)
    (hself : T' lo hi = M.compose f (T lo hi))
    (hrest : ∀ a b, Segment.Canonical lo hi a b → ¬ (a = lo ∧ b = hi) → T' a b = T a b)
    (h1 : lo ≤ i) (h2 : i ≤ hi) :
    treeOrderValue M T' A lo hi i = M.act f (treeOrderValue M T A lo hi i) := by
  rcases Nat.eq_or_lt_of_le hle with rfl | hlt
  · rw [treeOrderValue_single, treeOrderValue_single, hself, hM.act_compose (hA i h1 h2)]
  · rw [treeOrderValue_split hlt, treeOrderValue_split hlt, hself, halvesValue_congr hlt i hrest,
      hM.act_compose (halvesValue_reached hlt hA i h1 h2)]

/-- Identity tags leave the elements as they are. -/
theorem treeOrderValue_identity (hM : M.Lawful S) : ∀ lo hi, lo ≤ hi → M.AllReached S A lo hi →
    ∀ i, lo ≤ i → i ≤ hi → treeOrderValue M (fun _ _ => M.identity) A lo hi i = A i := by
  refine Segment.halving_induction (fun j hA i h1 h2 => ?_) fun lo hi hlt ihl ihr hA i h1 h2 => ?_
  · rw [treeOrderValue_single, hM.act_identity (hA i h1 h2)]
  · rw [treeOrderValue_split hlt, hM.act_identity (halvesValue_reached hlt hA i h1 h2), halvesValue]
    split_ifs with hm
    · exact ihl (hA.left hlt) i h1 hm
    · exact ihr hA.right i (by omega) h2

/-- The aggregate of a segment, out of those of its halves. -/
theorem aggregate_treeOrderValue (hM : M.Lawful S) (hlt : lo < hi) (hA : M.AllReached S A lo hi) :
    M.apply (T lo hi) (M.combine
      (M.aggregate (treeOrderValue M T A lo (Segment.midpoint lo hi)) lo (Segment.midpoint lo hi))
      (M.aggregate (treeOrderValue M T A (Segment.midpoint lo hi + 1) hi)
        (Segment.midpoint lo hi + 1) hi)) (Segment.length lo hi) =
    M.aggregate (treeOrderValue M T A lo hi) lo hi := by
  have hm := Segment.le_midpoint lo hi
  have hm' := Segment.midpoint_lt hlt
  have hreach := halvesValue_reached (T := T) hlt hA
  have hleft : M.aggregate (treeOrderValue M T A lo (Segment.midpoint lo hi)) lo
      (Segment.midpoint lo hi) = M.aggregate (halvesValue M T A lo hi) lo (Segment.midpoint lo hi) :=
    SegmentAction.aggregate_congr (fun i _ h2 => (if_pos h2).symm) hm
  have hright : M.aggregate (treeOrderValue M T A (Segment.midpoint lo hi + 1) hi)
      (Segment.midpoint lo hi + 1) hi =
        M.aggregate (halvesValue M T A lo hi) (Segment.midpoint lo hi + 1) hi :=
    SegmentAction.aggregate_congr (fun i h1 _ => (if_neg (by omega)).symm) hm'
  rw [hleft, hright, ← hM.aggregate_split hlt hreach, hM.apply_aggregate _ hlt.le hreach]
  exact SegmentAction.aggregate_congr (fun i _ _ => (treeOrderValue_split hlt).symm) hlt.le

end Values

namespace RecordTree

variable {X F : Type}

/-- The tree has these tags, and the aggregates they make. -/
def Carries (M : SegmentAction X F) (T : ℕ → ℕ → F) (A : ℕ → X) : RecordTree X F → ℕ → ℕ → Prop
  | leaf x z, lo, hi => lo = hi ∧ z = T lo hi ∧ x = M.aggregate (treeOrderValue M T A lo hi) lo hi
  | node x z left right, lo, hi => lo < hi ∧ z = T lo hi ∧
      x = M.aggregate (treeOrderValue M T A lo hi) lo hi ∧
      left.Carries M T A lo (Segment.midpoint lo hi) ∧
      right.Carries M T A (Segment.midpoint lo hi + 1) hi

section Carries

variable {M : SegmentAction X F} {S : Set X} {T T' : ℕ → ℕ → F} {A : ℕ → X} {sizes : RecordSizes}
  {t t' left right : RecordTree X F} {lo hi l r c : ℕ} {f z : F} {x : X}

theorem Carries.tag_eq (h : t.Carries M T A lo hi) : t.tag = T lo hi := by
  cases t with
  | leaf x z => exact h.2.1
  | node x z left right => exact h.2.1

theorem Carries.aggregate_eq (h : t.Carries M T A lo hi) :
    t.aggregate = M.aggregate (treeOrderValue M T A lo hi) lo hi := by
  cases t with
  | leaf x z => exact h.2.2
  | node x z left right => exact h.2.2.1

theorem Carries.spans (h : t.Carries M T A lo hi) : t.Spans lo hi := by
  induction t generalizing lo hi with
  | leaf x z => exact h.1
  | node x z left right ihl ihr => exact ⟨h.1, ihl h.2.2.2.1, ihr h.2.2.2.2⟩

/-- Only the tags of the segment matter. -/
theorem Carries.congr (h : t.Carries M T A lo hi)
    (hT : ∀ a b, Segment.Canonical lo hi a b → T' a b = T a b) : t.Carries M T' A lo hi := by
  induction t generalizing lo hi with
  | leaf x z =>
    obtain ⟨rfl, hz, hx⟩ := h
    refine ⟨rfl, hz.trans (hT _ _ (.self le_rfl)).symm, hx.trans ?_⟩
    exact SegmentAction.aggregate_congr
      (fun i _ _ => (treeOrderValue_congr _ _ le_rfl i hT).symm) le_rfl
  | node x z left right ihl ihr =>
    obtain ⟨hlt, hz, hx, hl, hr⟩ := h
    refine ⟨hlt, hz.trans (hT _ _ (.self hlt.le)).symm, hx.trans ?_,
      ihl hl fun a b hc => hT a b (.left hlt hc), ihr hr fun a b hc => hT a b (.right hlt hc)⟩
    exact SegmentAction.aggregate_congr
      (fun i _ _ => (treeOrderValue_congr _ _ hlt.le i hT).symm) hlt.le

/-- An action on the whole segment is composed into the tag of its record. -/
theorem Carries.cover (hM : M.Lawful S) (h : t.Carries M T A lo hi) (hA : M.AllReached S A lo hi)
    (hself : T' lo hi = M.compose f (T lo hi))
    (hrest : ∀ a b, Segment.Canonical lo hi a b → ¬ (a = lo ∧ b = hi) → T' a b = T a b)
    (hc : t.cover (totalPolicy M sizes) f (Segment.length lo hi) = .ok t') :
    t'.Carries M T' A lo hi := by
  obtain ⟨x, z, hx, hz, rfl⟩ := cover_eq_ok.mp hc
  cases hx
  cases hz
  have hle := h.spans.le
  have hreach := treeOrderValue_reached (T := T) lo hi hle hA
  have hx : M.apply f t.aggregate (Segment.length lo hi) =
      M.aggregate (treeOrderValue M T' A lo hi) lo hi := by
    rw [h.aggregate_eq, hM.apply_aggregate f hle hreach]
    exact SegmentAction.aggregate_congr
      (fun i h1 h2 => (treeOrderValue_compose hM hle hA hself hrest h1 h2).symm) hle
  have hz : M.compose f t.tag = T' lo hi := by rw [h.tag_eq, hself]
  cases t with
  | leaf y w => exact ⟨h.1, hz, hx⟩
  | node y w left right =>
    obtain ⟨hlt, -, -, hl, hr⟩ := h
    have hm' := Segment.midpoint_lt hlt
    have hm := Segment.le_midpoint lo hi
    refine ⟨hlt, hz, hx, hl.congr fun a b hc => hrest a b (.left hlt hc) fun hab => ?_,
      hr.congr fun a b hc => hrest a b (.right hlt hc) fun hab => ?_⟩
    · have := hc.bounds
      omega
    · have := hc.bounds
      omega

/-- A build has identity tags, and the aggregates of its values. -/
theorem build_carries (hM : M.Lawful S) {values : List X} : ∀ lo hi, lo ≤ hi →
    ∀ {t : RecordTree X F}, (∀ i, lo ≤ i → i ≤ hi → values[i]? = some (A i)) →
    M.AllReached S A lo hi → build (totalPolicy M sizes) values lo hi = .ok t →
    t.Carries M (fun _ _ => M.identity) A lo hi := by
  refine Segment.halving_induction (fun i t hv hA h => ?_) fun lo hi hlt ihl ihr t hv hA h => ?_
  · obtain ⟨x, hx, rfl⟩ := build_single_eq_ok.mp h
    obtain rfl := Option.some.inj ((vectorAt_eq_ok.mp hx).symm.trans (hv i le_rfl le_rfl))
    refine ⟨rfl, rfl, ?_⟩
    rw [SegmentAction.aggregate_congr (treeOrderValue_identity hM i i le_rfl hA) le_rfl,
      hM.aggregate_single (hA i le_rfl le_rfl)]
  · obtain ⟨left, right, x, h1, h2, hx, rfl⟩ := (build_split_eq_ok hlt).mp h
    have hm := Segment.le_midpoint lo hi
    have hm' := Segment.midpoint_lt hlt
    have hl := ihl (fun i h3 h4 => hv i h3 (by omega)) (hA.left hlt) h1
    have hr := ihr (fun i h3 h4 => hv i (by omega) h4) hA.right h2
    refine ⟨hlt, rfl, ?_, hl, hr⟩
    cases hx
    rw [hl.aggregate_eq, hr.aggregate_eq,
      SegmentAction.aggregate_congr (treeOrderValue_identity hM _ _ hm (hA.left hlt)) hm,
      SegmentAction.aggregate_congr (treeOrderValue_identity hM _ _ hm' hA.right) hm',
      SegmentAction.aggregate_congr (treeOrderValue_identity hM _ _ hlt.le hA) hlt.le,
      hM.aggregate_split hlt hA]

variable [DecidableEq F]

/-- **One update** composes its action into the tags of its decomposition, and no others. -/
theorem Carries.update (hM : M.Lawful S) (f : F) : ∀ lo hi, lo ≤ hi →
    ∀ {t t' : RecordTree X F} {c : ℕ}, l ≤ hi → lo ≤ r → M.AllReached S A lo hi →
    (∀ a b, Segment.Canonical lo hi a b → T' a b =
      if (a, b) ∈ Segment.decomposition lo hi l r then M.compose f (T a b) else T a b) →
    t.Carries M T A lo hi → t.update (totalPolicy M sizes) false l r f lo hi = .ok (t', c) →
    t'.Carries M T' A lo hi := by
  have hcovered : ∀ {lo hi c : ℕ} {t t' : RecordTree X F}, l ≤ lo ∧ hi ≤ r → M.AllReached S A lo hi →
      (∀ a b, Segment.Canonical lo hi a b → T' a b =
        if (a, b) ∈ Segment.decomposition lo hi l r then M.compose f (T a b) else T a b) →
      t.Carries M T A lo hi → t.update (totalPolicy M sizes) false l r f lo hi = .ok (t', c) →
      t'.Carries M T' A lo hi := by
    intro lo hi c t t' hin hA hT h hu
    have hle := h.spans.le
    refine h.cover hM hA ?_ (fun a b hc hab => ?_) ((update_inside_eq_ok hin).mp hu).1
    · rw [hT lo hi (.self hle),
        if_pos ((Segment.mem_decomposition_of_inside hle hin).mpr ⟨rfl, rfl⟩)]
    · rw [hT a b hc, if_neg fun hmem => hab ((Segment.mem_decomposition_of_inside hle hin).mp hmem)]
  refine Segment.halving_induction (fun i t t' c h1 h2 hA hT h hu => ?_)
    fun lo hi hlt ihl ihr t t' c h1 h2 hA hT h hu => ?_
  · exact hcovered (update_single_of_ok hu) hA hT h hu
  by_cases hin : l ≤ lo ∧ hi ≤ r
  · exact hcovered hin hA hT h hu
  cases t with
  | leaf x z => exact absurd h.1 hlt.ne
  | node x z left right =>
    have hm := Segment.le_midpoint lo hi
    have hm' := Segment.midpoint_lt hlt
    obtain ⟨-, hz, hx, hl, hr⟩ := h
    obtain ⟨left₀, right₀, z', p, h0, left', q, h3, right', q', h4, y, x', hy, hx', rfl, -⟩ :=
      (update_split_eq_ok hin hlt).mp hu
    rw [pushDown_of_retained (show ¬ (false = true ∧ _) from fun hpush => nomatch hpush.1)] at h0
    cases h0
    have hTl : ∀ a b, Segment.Canonical lo (Segment.midpoint lo hi) a b → T' a b =
        if (a, b) ∈ Segment.decomposition lo (Segment.midpoint lo hi) l r then
          M.compose f (T a b) else T a b := fun a b hc => by
      rw [hT a b (.left hlt hc), if_congr (Segment.mem_decomposition_left hin hlt hc) rfl rfl]
    have hTr : ∀ a b, Segment.Canonical (Segment.midpoint lo hi + 1) hi a b → T' a b =
        if (a, b) ∈ Segment.decomposition (Segment.midpoint lo hi + 1) hi l r then
          M.compose f (T a b) else T a b := fun a b hc => by
      rw [hT a b (.right hlt hc), if_congr (Segment.mem_decomposition_right hin hlt hc) rfl rfl]
    have hleft : left'.Carries M T' A lo (Segment.midpoint lo hi) := by
      split_ifs at h3 with hc
      · exact ihl hc h2 (hA.left hlt) hTl hl h3
      · cases h3
        refine hl.congr fun a b hab => ?_
        rw [hTl a b hab, if_neg (Segment.notMem_decomposition_of_apart hm (by omega))]
    have hright : right'.Carries M T' A (Segment.midpoint lo hi + 1) hi := by
      split_ifs at h4 with hc
      · exact ihr h1 hc hA.right hTr hr h4
      · cases h4
        refine hr.congr fun a b hab => ?_
        rw [hTr a b hab, if_neg (Segment.notMem_decomposition_of_apart hm' (by omega))]
    have hself : z = T' lo hi := by
      rw [hT lo hi (.self hlt.le), if_neg (Segment.self_notMem_decomposition hin), hz]
    refine ⟨hlt, hself, ?_, hleft, hright⟩
    cases hy
    cases hx'
    rw [← aggregate_treeOrderValue hM hlt hA, ← hleft.aggregate_eq, ← hright.aggregate_eq, hself]

end Carries

end RecordTree

/-! ## Records and answers -/

section Records

variable {X F : Type} {M : SegmentAction X F} {S : Set X} {T : ℕ → ℕ → F} {A : ℕ → X}
  {nodes : List (Node X F)} {t : RecordTree X F} {i lo hi a b : ℕ}

/-- The record of a canonical segment that is reached from an index. -/
def recordOf (nodes : List (Node X F)) (i lo hi a b : ℕ) : Except Exception (Node X F) := do
  let node ← vectorAt nodes i
  if lo = a ∧ hi = b then return node
  else if lo < hi then
    if b ≤ Segment.midpoint lo hi then
      recordOf nodes node.leftChild lo (Segment.midpoint lo hi) a b
    else recordOf nodes node.rightChild (Segment.midpoint lo hi + 1) hi a b
  else .error .undefined
termination_by hi - lo
decreasing_by all_goals (simp only [Segment.midpoint] at *; omega)

/-- The records have the tags and the aggregates of the tree. -/
theorem recordOf_of_carries (ht : t.StoredAt nodes i) (h : t.Carries M T A lo hi)
    (hc : Segment.Canonical lo hi a b) : ∃ record, recordOf nodes i lo hi a b = .ok record ∧
      record.tag = T a b ∧ record.aggregate = M.aggregate (treeOrderValue M T A a b) a b := by
  induction hc generalizing t i with
  | @self lo hi hle =>
    obtain ⟨j, k, hn⟩ := ht.root
    refine ⟨⟨j, k, t.aggregate, t.tag⟩, ?_, h.tag_eq, h.aggregate_eq⟩
    rw [recordOf, vectorAt_eq_ok.mpr hn, Effect.ok_bind, if_pos ⟨rfl, rfl⟩]
    rfl
  | @left lo hi a b hlt hc ih =>
    cases t with
    | leaf x z => exact absurd h.1 hlt.ne
    | node x z left right =>
      obtain ⟨j, k, hn, hl, -⟩ := ht
      obtain ⟨record, hrecord, hrest⟩ := ih hl h.2.2.2.1
      have hb := hc.bounds
      have hm' := Segment.midpoint_lt hlt
      refine ⟨record, ?_, hrest⟩
      rw [recordOf, vectorAt_eq_ok.mpr hn, Effect.ok_bind, if_neg (by omega), if_pos hlt,
        if_pos hb.2.2, hrecord]
  | @right lo hi a b hlt hc ih =>
    cases t with
    | leaf x z => exact absurd h.1 hlt.ne
    | node x z left right =>
      obtain ⟨j, k, hn, -, hr⟩ := ht
      obtain ⟨record, hrecord, hrest⟩ := ih hr h.2.2.2.2
      have hb := hc.bounds
      have hm := Segment.le_midpoint lo hi
      refine ⟨record, ?_, hrest⟩
      rw [recordOf, vectorAt_eq_ok.mpr hn, Effect.ok_bind, if_neg (by omega), if_pos hlt,
        if_neg (by omega), hrecord]

/-- The arena holds the array of the tree-order values. -/
theorem holdsArray_of_carries (hM : M.Lawful S) (ht : t.StoredAt nodes i) (h : t.Carries M T A lo hi)
    (hA : M.AllReached S A lo hi) :
    HoldsArray M S id nodes i lo hi (treeOrderValue M T A lo hi) := by
  induction t generalizing i lo hi with
  | leaf x z =>
    obtain ⟨j, k, hn⟩ := ht
    obtain ⟨rfl, -, hx⟩ := h
    have hreach := treeOrderValue_reached (T := T) lo lo le_rfl hA lo le_rfl le_rfl
    exact .leaf hn (hx.trans (hM.aggregate_single hreach)) hreach
  | node x z left right ihl ihr =>
    obtain ⟨j, k, hn, htl, htr⟩ := ht
    obtain ⟨hlt, hz, hx, hl, hr⟩ := h
    refine .inner (B := halvesValue M T A lo hi) hlt hn hx (fun i _ _ => ?_) ?_ ?_
    · rw [treeOrderValue_split hlt, ← hz]
      rfl
    · exact (ihl htl hl (hA.left hlt)).congr fun i _ h2 => (if_pos h2).symm
    · exact (ihr htr hr hA.right).congr fun i h1 _ => (if_neg (by omega)).symm

end Records

/-! ## Runs -/

section Runs

variable {X F : Type} {M : SegmentAction X F} {S : Set X} {sizes : RecordSizes} {n a b : ℕ}

/-- The actions of the updates whose decomposition contains a segment, composed in chronological
order. -/
def placedTag (M : SegmentAction X F) (n : ℕ) (updates : List (RangeAction F)) (a b : ℕ) : F :=
  (updates.filter fun u => (a, b) ∈ Segment.decomposition 0 (n - 1) u.left u.right).foldl
    (fun tag u => M.compose u.action tag) M.identity

theorem placedTag_concat (updates : List (RangeAction F)) (u : RangeAction F) :
    placedTag M n (updates ++ [u]) a b =
      if (a, b) ∈ Segment.decomposition 0 (n - 1) u.left u.right then
        M.compose u.action (placedTag M n updates a b) else placedTag M n updates a b := by
  unfold placedTag
  rw [List.filter_append, List.foldl_append]
  split_ifs with h
  · rw [List.filter_cons, if_pos (decide_eq_true h)]
    rfl
  · rw [List.filter_cons, if_neg (by rwa [decide_eq_true_eq])]
    rfl

/-- The tree of every version has the tags that were placed until then. -/
structure PlacesTags (M : SegmentAction X F) (A : ℕ → X) (n : ℕ) (updates : List (RangeAction F))
    (s : ActionTree (Node X F)) (trees : List (RecordTree X F)) (t : RecordTree X F) : Prop where
  holds : HoldsTrees s n (trees ++ [t])
  count : trees.length = updates.length
  carries : ∀ (v : ℕ) (t' : RecordTree X F), (trees ++ [t])[v]? = some t' →
    t'.Carries M (placedTag M n (updates.take v)) A 0 (n - 1)

section Step

variable {A : ℕ → X} {updates : List (RangeAction F)} {s s' : ActionTree (Node X F)}
  {trees : List (RecordTree X F)} {t t' : RecordTree X F}

theorem PlacesTags.latest (h : PlacesTags M A n updates s trees t) :
    t.Carries M (placedTag M n updates) A 0 (n - 1) := by
  have hlast := h.carries trees.length t List.getElem?_concat_length
  rwa [h.count, List.take_length] at hlast

/-- One more version. -/
theorem PlacesTags.publish (h : PlacesTags M A n updates s trees t) {u : RangeAction F}
    (hs : HoldsTrees s' n (trees ++ [t] ++ [t']))
    (ht : t'.Carries M (placedTag M n (updates ++ [u])) A 0 (n - 1)) :
    PlacesTags M A n (updates ++ [u]) s' (trees ++ [t]) t' := by
  refine ⟨hs, ?_, fun v t₁ hv => ?_⟩
  · rw [List.length_append, List.length_append, h.count]
    rfl
  have hlen : (trees ++ [t]).length = updates.length + 1 := by
    rw [List.length_append, h.count]
    rfl
  rcases Nat.lt_or_ge v (trees ++ [t]).length with hlt | hge
  · rw [List.getElem?_append_left hlt] at hv
    rw [List.take_append_of_le_length (by omega)]
    exact h.carries v t₁ hv
  · have hv' : v = (trees ++ [t]).length := by
      have := (List.getElem?_eq_some_iff.mp hv).1
      rw [List.length_append, List.length_singleton] at this
      omega
    rw [hv', List.getElem?_concat_length] at hv
    cases hv
    rw [List.take_of_length_le (by rw [List.length_append, List.length_singleton]; omega)]
    exact ht

variable [DecidableEq F]

/-- **One call**, whatever its arguments. -/
theorem PlacesTags.call (hM : M.Lawful S) (hA : M.AllReached S A 0 (n - 1))
    (h : PlacesTags M A n updates s trees t) (u : RangeAction F) : ∃ trees' t',
    PlacesTags M A n (updates ++ if u.left ≤ u.right ∧ u.right < n then [u] else [])
      (Effect.finalState ((retainedTagPersistentTree (totalPolicy M sizes)).rangeApply u.left u.right
        u.action s)) trees' t' := by
  unfold retainedTagPersistentTree
  by_cases hin : u.left ≤ u.right ∧ u.right < n
  swap
  · obtain ⟨e, he⟩ := HoldsTrees.rejected (P := totalPolicy M sizes) (f := u.action) false
      h.holds hin
    rw [if_neg hin, List.append_nil, he]
    exact ⟨trees, t, h⟩
  rw [if_pos hin]
  obtain ⟨hlr, hr⟩ := hin
  by_cases hf : u.action = (totalPolicy M sizes).actionIdentity
  · obtain ⟨s', hs, hholds, -⟩ := HoldsTrees.identity (P := totalPolicy M sizes) false h.holds
      hlr hr
    refine ⟨trees ++ [t], t, ?_⟩
    rw [hf, hs]
    refine h.publish hholds (h.latest.congr fun a b _ => ?_)
    have hid : u.action = M.identity := hf
    rw [placedTag_concat, hid, hM.identity_compose, ite_self]
  · obtain ⟨t', c, hu⟩ := RecordTree.update_total M sizes false u.action 0 (n - 1) (Nat.zero_le _)
      (show u.left ≤ n - 1 by omega) (Nat.zero_le u.right) h.latest.spans
    obtain ⟨s', hs, hholds, -⟩ := h.holds.rangeApply hlr hr hf hu
    refine ⟨trees ++ [t], t', ?_⟩
    rw [hs]
    exact h.publish hholds (h.latest.update hM u.action 0 (n - 1) (Nat.zero_le _) (by omega)
      (Nat.zero_le _) hA (fun a b _ => placedTag_concat updates u) hu)

end Step

variable [DecidableEq F]

variable (sizes) in
/-- **Runs.** -/
theorem placesTags_run (hM : M.Lawful S) {values : List X} (hpos : 0 < values.length)
    (hroom : 2 * values.length - 1 ≤ vectorMaxSize sizes.recordBytes) (hS : ∀ x ∈ values, x ∈ S)
    (calls : List (RangeAction F)) : ∃ trees t, PlacesTags M (fun i => values.getD i M.empty)
      values.length (validUpdates values.length calls)
      ((retainedTagPersistentTree (totalPolicy M sizes)).run values calls) trees t := by
  have hA : M.AllReached S (fun i => values.getD i M.empty) 0 (values.length - 1) :=
    .getD hS hpos M.empty
  induction calls using List.reverseRecOn with
  | nil =>
    obtain ⟨t, ht⟩ := RecordTree.build_total M sizes 0 (values.length - 1) (Nat.zero_le _)
      (by omega : values.length - 1 < values.length)
    obtain ⟨s, hs, hholds⟩ := initialize_holdsTrees false hpos hroom ht
    refine ⟨[], t, ?_⟩
    unfold ActionTreeParts.run
    rw [List.foldl_nil, retainedTagPersistentTree, hs]
    refine ⟨hholds, rfl, fun v t' hv => ?_⟩
    obtain rfl := List.mem_singleton.mp (List.mem_of_getElem? hv)
    rw [show (validUpdates values.length ([] : List (RangeAction F))).take v = [] from List.take_nil]
    exact RecordTree.build_carries hM 0 _ (Nat.zero_le _)
      (fun i _ hi => getElem?_getD _ (by omega)) hA ht
  | append_singleton calls u ih =>
    obtain ⟨trees, t, h⟩ := ih
    rw [ActionTreeParts.run_concat, validUpdates_concat]
    exact h.call hM hA u

/-- **Tree order.** In every version of every run, each record reached for a canonical segment
carries the placed tag and the index-order combine of the elements below it under the tags up to
it, and a query answers with that of the elements under all tags of their paths. -/
theorem tree_order_semantics (M : SegmentAction X F) (S : Set X) (sizes : RecordSizes)
    (hM : M.Lawful S) (values : List X) (hpos : 0 < values.length)
    (hroom : 2 * values.length - 1 ≤ vectorMaxSize sizes.recordBytes) (hS : ∀ x ∈ values, x ∈ S)
    (calls : List (RangeAction F)) (v : ℕ) (hv : v ≤ (validUpdates values.length calls).length) :
    (∃ root,
      ((retainedTagPersistentTree (totalPolicy M sizes)).run values calls).roots[v]? = some root ∧
      ∀ a b, Segment.Canonical 0 (values.length - 1) a b → ∃ record,
        recordOf ((retainedTagPersistentTree (totalPolicy M sizes)).run values calls).nodes root 0
          (values.length - 1) a b = .ok record ∧
        record.tag = placedTag M values.length ((validUpdates values.length calls).take v) a b ∧
        record.aggregate = M.aggregate (treeOrderValue M
          (placedTag M values.length ((validUpdates values.length calls).take v))
          (fun i => values.getD i M.empty) a b) a b) ∧
    ∀ l r, l ≤ r → r < values.length →
      (retainedTagPersistentTree (totalPolicy M sizes)).rangeAggregate
        ((retainedTagPersistentTree (totalPolicy M sizes)).run values calls) v l r =
          .ok (M.aggregate (treeOrderValue M
            (placedTag M values.length ((validUpdates values.length calls).take v))
            (fun i => values.getD i M.empty) 0 (values.length - 1)) l r) := by
  obtain ⟨trees, t, h⟩ := placesTags_run sizes hM hpos hroom hS calls
  have hlen : v < (trees ++ [t]).length := by
    rw [List.length_append, List.length_singleton, h.count]
    omega
  obtain ⟨t', ht'⟩ : ∃ t', (trees ++ [t])[v]? = some t' := ⟨_, List.getElem?_eq_getElem hlen⟩
  obtain ⟨root, hroot, hst⟩ := h.holds.stored v t' ht'
  have hcarries := h.carries v t' ht'
  refine ⟨⟨root, hroot, fun a b hc => recordOf_of_carries hst hcarries hc⟩, fun l r hlr hr => ?_⟩
  have hholds := holdsArray_of_carries hM hst hcarries (.getD hS hpos M.empty)
  rw [ActionTreeParts.rangeAggregate_eq hlr (h.holds.arraySize.symm ▸ hr) hroot, h.holds.arraySize]
  show query (totalPolicy M sizes) _ root 0 (values.length - 1) l r M.identity = _
  rw [query_holds hM l r M.identity hholds, SegmentAction.partAggregate_of_contains (Nat.zero_le l) hlr
    (by omega), SegmentAction.aggregate_congr (fun i h1 h2 =>
      hM.act_identity (hholds.reached i (Nat.zero_le i) (by omega))) hlr]

end Runs

/-- Two elements, `x ↦ x + 1` on both and then `x ↦ 2 x` on the first, which is applied first. -/
theorem tree_order_semantics_affine :
    (∃ root, ((retainedTagPersistentTree affinePolicy).run [1, 2]
        [⟨0, 1, ⟨1, 1⟩⟩, ⟨0, 0, ⟨2, 0⟩⟩]).roots[2]? = some root ∧
      ∃ record, recordOf ((retainedTagPersistentTree affinePolicy).run [1, 2]
          [⟨0, 1, ⟨1, 1⟩⟩, ⟨0, 0, ⟨2, 0⟩⟩]).nodes root 0 1 0 0 = .ok record ∧
        record.tag = ⟨2, 0⟩ ∧ record.aggregate = 2) ∧
      (retainedTagPersistentTree affinePolicy).rangeAggregate ((retainedTagPersistentTree
        affinePolicy).run [1, 2] [⟨0, 1, ⟨1, 1⟩⟩, ⟨0, 0, ⟨2, 0⟩⟩]) 2 0 0 = .ok 3 := by
  obtain ⟨⟨root, hroot, hrecord⟩, hanswer⟩ := tree_order_semantics (AffineSumModPolicy.operations 7)
    Set.univ ⟨8, 16, 40, 24⟩ (AffineSumModPolicy.lawful 7 _) [1, 2] (by decide) (by decide)
    (fun _ _ => trivial) [⟨0, 1, ⟨1, 1⟩⟩, ⟨0, 0, ⟨2, 0⟩⟩] 2 (by decide)
  obtain ⟨record, h, htag, haggregate⟩ := hrecord 0 0 (.left Nat.one_pos (.self le_rfl))
  refine ⟨⟨root, hroot, record, h, htag.trans ?_, haggregate.trans ?_⟩,
    (hanswer 0 0 le_rfl (by decide)).trans (congrArg _ ?_)⟩
  · decide +kernel
  · decide +kernel
  · decide +kernel

end PathCopyingActionTree

end Valseg
