import Valseg.ActionArrays
import Valseg.Lib.Frontier

/-!
# The trees below the roots

What an update of `PathCopyingActionTree` computes does not depend on where its records are in the
arena. A `RecordTree` is what is below an index. `RecordTree.update` is the tree an update makes
out of it, with the number of its pushes, and `update_stores` says that an update on the arena
appends that tree: one record for each visited segment, and two for each push. Over a policy of
total operations there always is one (`update_total`).
-/

namespace Valseg

namespace PathCopyingActionTree

/-- The aggregates and the tags below an index. -/
inductive RecordTree (Aggregate Action : Type)
  | leaf (aggregate : Aggregate) (tag : Action)
  | node (aggregate : Aggregate) (tag : Action) (left right : RecordTree Aggregate Action)

namespace RecordTree

variable {X F : Type}

def aggregate : RecordTree X F → X
  | leaf aggregate _ => aggregate
  | node aggregate _ _ _ => aggregate

def tag : RecordTree X F → F
  | leaf _ tag => tag
  | node _ tag _ _ => tag

/-- The tree with another record at its root. -/
def setRoot (aggregate : X) (tag : F) : RecordTree X F → RecordTree X F
  | leaf _ _ => leaf aggregate tag
  | node _ _ left right => node aggregate tag left right

@[simp] theorem aggregate_setRoot (x : X) (z : F) (t : RecordTree X F) :
    (t.setRoot x z).aggregate = x := by
  cases t <;> rfl

section Operations

variable (P : Policy X F)

def build (values : List X) (lo hi : ℕ) : Except Exception (RecordTree X F) :=
  if lo = hi then do return .leaf (← vectorAt values lo) P.actionIdentity
  else if lo < hi then do
    let left ← build values lo (Segment.midpoint lo hi)
    let right ← build values (Segment.midpoint lo hi + 1) hi
    return .node (← P.combine left.aggregate right.aggregate) P.actionIdentity left right
  else .error .undefined
termination_by hi - lo
decreasing_by all_goals (simp only [Segment.midpoint] at *; omega)

/-- An action on a whole segment. -/
def cover (f : F) (length : ℕ) (t : RecordTree X F) : Except Exception (RecordTree X F) := do
  let aggregate ← P.apply f t.aggregate length
  let tag ← P.compose f t.tag
  return t.setRoot aggregate tag

variable [DecidableEq F] (push : Bool)

/-- The halves a partial descent goes on with, the tag that stays above them, and the number of
pushes. -/
def pushDown (tag : F) (lo hi : ℕ) (left right : RecordTree X F) :
    Except Exception (RecordTree X F × RecordTree X F × F × ℕ) :=
  if push ∧ tag ≠ P.actionIdentity then do
    let left ← left.cover P tag (Segment.length lo (Segment.midpoint lo hi))
    let right ← right.cover P tag (Segment.length (Segment.midpoint lo hi + 1) hi)
    return (left, right, P.actionIdentity, 1)
  else return (left, right, tag, 0)

/-- The tree an update makes, and the number of its pushes. -/
def update (l r : ℕ) (f : F) (t : RecordTree X F) (lo hi : ℕ) :
    Except Exception (RecordTree X F × ℕ) :=
  if l ≤ lo ∧ hi ≤ r then do return (← t.cover P f (Segment.length lo hi), 0)
  else if lo < hi then
    match t with
    | leaf _ _ => .error .undefined
    | node _ tag left right => do
      let (left, right, retained, pushes) ← pushDown P push tag lo hi left right
      let (newLeft, inLeft) ← (if l ≤ Segment.midpoint lo hi then
        left.update l r f lo (Segment.midpoint lo hi) else pure (left, 0))
      let (newRight, inRight) ← (if r > Segment.midpoint lo hi then
        right.update l r f (Segment.midpoint lo hi + 1) hi else pure (right, 0))
      let children ← P.combine newLeft.aggregate newRight.aggregate
      let aggregate ← P.apply retained children (Segment.length lo hi)
      return (.node aggregate retained newLeft newRight, pushes + inLeft + inRight)
  else .error .undefined
termination_by hi - lo
decreasing_by all_goals (simp only [Segment.midpoint] at *; omega)

end Operations

section Ends

variable {P : Policy X F} {push : Bool} {l r lo hi c p n : ℕ} {f z z' : F} {x : X}
  {t t' left right left' right' : RecordTree X F}

theorem build_single_eq_ok {values : List X} :
    build P values lo lo = .ok t ↔ ∃ x, vectorAt values lo = .ok x ∧ t = .leaf x P.actionIdentity := by
  rw [build, if_pos rfl, Effect.bind_eq_ok]
  simp only [pure, Except.pure, Except.ok.injEq, eq_comm]

theorem build_split_eq_ok {values : List X} (hlt : lo < hi) :
    build P values lo hi = .ok t ↔ ∃ left right x,
      build P values lo (Segment.midpoint lo hi) = .ok left ∧
      build P values (Segment.midpoint lo hi + 1) hi = .ok right ∧
      P.combine left.aggregate right.aggregate = .ok x ∧
      t = .node x P.actionIdentity left right := by
  rw [build, if_neg hlt.ne, if_pos hlt]
  simp only [Effect.bind_eq_ok, pure, Except.pure, Except.ok.injEq]
  constructor
  · rintro ⟨left, h1, right, h2, x, h3, rfl⟩
    exact ⟨left, right, x, h1, h2, h3, rfl⟩
  · rintro ⟨left, right, x, h1, h2, h3, rfl⟩
    exact ⟨left, h1, right, h2, x, h3, rfl⟩

theorem cover_eq_ok : t.cover P f n = .ok t' ↔
    ∃ x z, P.apply f t.aggregate n = .ok x ∧ P.compose f t.tag = .ok z ∧ t' = t.setRoot x z := by
  unfold cover
  simp only [Effect.bind_eq_ok, pure, Except.pure, Except.ok.injEq]
  constructor
  · rintro ⟨x, h1, z, h2, rfl⟩
    exact ⟨x, z, h1, h2, rfl⟩
  · rintro ⟨x, z, h1, h2, rfl⟩
    exact ⟨x, h1, z, h2, rfl⟩

variable [DecidableEq F]

/-- Nothing is pushed. -/
theorem pushDown_of_retained (h : ¬ (push = true ∧ z ≠ P.actionIdentity)) :
    pushDown P push z lo hi left right = .ok (left, right, z, 0) := if_neg h

theorem pushDown_eq_ok_of_pushed (h : push = true ∧ z ≠ P.actionIdentity) :
    pushDown P push z lo hi left right = .ok (left', right', z', p) ↔
      left.cover P z (Segment.length lo (Segment.midpoint lo hi)) = .ok left' ∧
      right.cover P z (Segment.length (Segment.midpoint lo hi + 1) hi) = .ok right' ∧
      z' = P.actionIdentity ∧ p = 1 := by
  unfold pushDown
  rw [if_pos h]
  simp only [Effect.bind_eq_ok, pure, Except.pure, Except.ok.injEq, Prod.mk.injEq]
  constructor
  · rintro ⟨_, h1, _, h2, rfl, rfl, rfl, rfl⟩
    exact ⟨h1, h2, rfl, rfl⟩
  · rintro ⟨h1, h2, rfl, rfl⟩
    exact ⟨_, h1, _, h2, rfl, rfl, rfl, rfl⟩

theorem update_inside_eq_ok (hin : l ≤ lo ∧ hi ≤ r) : t.update P push l r f lo hi = .ok (t', c) ↔
    t.cover P f (Segment.length lo hi) = .ok t' ∧ c = 0 := by
  rw [update.eq_def, if_pos hin]
  simp only [Effect.bind_eq_ok, pure, Except.pure, Except.ok.injEq, Prod.mk.injEq]
  constructor
  · rintro ⟨_, h, rfl, rfl⟩
    exact ⟨h, rfl⟩
  · rintro ⟨h, rfl⟩
    exact ⟨_, h, rfl, rfl⟩

/-- How an update of a partially covered node returns. -/
theorem update_split_eq_ok (hin : ¬ (l ≤ lo ∧ hi ≤ r)) (hlt : lo < hi) :
    (node x z left right).update P push l r f lo hi = .ok (t', c) ↔
      ∃ left₀ right₀ z' p, pushDown P push z lo hi left right = .ok (left₀, right₀, z', p) ∧
      ∃ left' q, (if l ≤ Segment.midpoint lo hi then
        left₀.update P push l r f lo (Segment.midpoint lo hi) else pure (left₀, 0)) = .ok (left', q) ∧
      ∃ right' q', (if r > Segment.midpoint lo hi then
        right₀.update P push l r f (Segment.midpoint lo hi + 1) hi else pure (right₀, 0)) =
          .ok (right', q') ∧
      ∃ children x', P.combine left'.aggregate right'.aggregate = .ok children ∧
        P.apply z' children (Segment.length lo hi) = .ok x' ∧
        t' = .node x' z' left' right' ∧ c = p + q + q' := by
  rw [update.eq_def, if_neg hin, if_pos hlt]
  simp only [Effect.bind_eq_ok, pure, Except.pure, Except.ok.injEq, Prod.mk.injEq]
  constructor
  · rintro ⟨⟨left₀, right₀, z', p⟩, h0, ⟨left', q⟩, h1, ⟨right', q'⟩, h2, children, h3, x', h4, rfl,
      rfl⟩
    exact ⟨left₀, right₀, z', p, h0, left', q, h1, right', q', h2, children, x', h3, h4, rfl, rfl⟩
  · rintro ⟨left₀, right₀, z', p, h0, left', q, h1, right', q', h2, children, x', h3, h4, rfl, rfl⟩
    exact ⟨(left₀, right₀, z', p), h0, (left', q), h1, (right', q'), h2, children, h3, x', h4, rfl,
      rfl⟩

/-- A leaf is not descended into. -/
theorem update_leaf_of_ok (h : (leaf x z).update P push l r f lo hi = .ok (t', c)) :
    l ≤ lo ∧ hi ≤ r := by
  by_contra hin
  rw [update.eq_def, if_neg hin] at h
  split_ifs at h

theorem update_single_of_ok (h : t.update P push l r f lo lo = .ok (t', c)) : l ≤ lo ∧ lo ≤ r := by
  by_contra hin
  rw [update.eq_def, if_neg hin, if_neg (lt_irrefl lo)] at h
  cases h

/-- Only a node the descent goes on from can push. -/
theorem update_pushes_le (l r : ℕ) (f : F) : ∀ lo hi, lo ≤ hi → ∀ {t t' : RecordTree X F} {c : ℕ},
    t.update P push l r f lo hi = .ok (t', c) → c ≤ Segment.partials lo hi l r := by
  refine Segment.halving_induction (fun i t t' c h => ?_) fun lo hi hlt ihl ihr t t' c h => ?_
  · have hin := update_single_of_ok h
    rw [((update_inside_eq_ok hin).mp h).2]
    exact Nat.zero_le _
  by_cases hin : l ≤ lo ∧ hi ≤ r
  · rw [((update_inside_eq_ok hin).mp h).2]
    exact Nat.zero_le _
  cases t with
  | leaf x z => exact absurd (update_leaf_of_ok h) hin
  | node x z left right =>
    obtain ⟨left₀, right₀, z', p, h0, left', q, h1, right', q', h2, -, -, -, -, -, rfl⟩ :=
      (update_split_eq_ok hin hlt).mp h
    have hp : p ≤ 1 := by
      by_cases hpush : push = true ∧ z ≠ P.actionIdentity
      · rw [((pushDown_eq_ok_of_pushed hpush).mp h0).2.2.2]
      · rw [pushDown_of_retained hpush] at h0
        cases h0
        exact Nat.zero_le 1
    have half : ∀ {p : Prop} [Decidable p] {x : Except Exception (RecordTree X F × ℕ)}
        {t t' : RecordTree X F} {c n : ℕ}, (x = .ok (t', c) → c ≤ n) →
        (if p then x else pure (t, 0)) = .ok (t', c) → c ≤ if p then n else 0 := by
      intro p _ x t t' c n hx h
      split_ifs at h ⊢
      · exact hx h
      · cases h
        exact le_rfl
    have hq := half ihl h1
    have hq' := half ihr h2
    rw [Segment.partials_split hin hlt]
    omega

end Ends

/-! ## On the arena -/

/-- The tree is below an index. -/
def StoredAt (nodes : List (Node X F)) : RecordTree X F → ℕ → Prop
  | leaf x z, i => ∃ j k, nodes[i]? = some ⟨j, k, x, z⟩
  | node x z left right, i => ∃ j k, nodes[i]? = some ⟨j, k, x, z⟩ ∧
      left.StoredAt nodes j ∧ right.StoredAt nodes k

section Arena

variable {P : Policy X F} {push : Bool} {nodes : List (Node X F)} {i j k l r lo hi m n c : ℕ}
  {f z : F} {x : X} {t t' left right left' right' : RecordTree X F}

theorem StoredAt.root (h : t.StoredAt nodes i) :
    ∃ j k, nodes[i]? = some ⟨j, k, t.aggregate, t.tag⟩ := by
  cases t with
  | leaf x z => exact h
  | node x z left right =>
    obtain ⟨j, k, hn, -, -⟩ := h
    exact ⟨j, k, hn⟩

theorem StoredAt.append (h : t.StoredAt nodes i) (more : List (Node X F)) :
    t.StoredAt (nodes ++ more) i := by
  induction t generalizing i with
  | leaf x z =>
    obtain ⟨j, k, hn⟩ := h
    exact ⟨j, k, getElem?_more more hn⟩
  | node x z left right ihl ihr =>
    obtain ⟨j, k, hn, hl, hr⟩ := h
    exact ⟨j, k, getElem?_more more hn, ihl hl, ihr hr⟩

/-- A copy with another aggregate and another tag, over the same children. -/
theorem StoredAt.copy (h : t.StoredAt nodes i) (hn : nodes[i]? = some ⟨j, k, t.aggregate, t.tag⟩)
    (x : X) (z : F) : (t.setRoot x z).StoredAt (nodes ++ [⟨j, k, x, z⟩]) nodes.length := by
  cases t with
  | leaf y w => exact ⟨j, k, List.getElem?_concat_length⟩
  | node y w left right =>
    obtain ⟨j', k', hn', hl, hr⟩ := h
    cases Option.some.inj (hn.symm.trans hn')
    exact ⟨j, k, List.getElem?_concat_length, hl.append _, hr.append _⟩

/-- The computation appends so many records, and returns the index of the tree. -/
def AppendsTree (nodes : List (Node X F)) (y : EStateM.Result Exception (List (Node X F)) ℕ)
    (t : RecordTree X F) (n : ℕ) : Prop :=
  ∃ i more, y = .ok i (nodes ++ more) ∧ t.StoredAt (nodes ++ more) i ∧ more.length = n

theorem AppendsTree.return (h : t.StoredAt nodes i) : AppendsTree nodes (.ok i nodes) t 0 :=
  ⟨i, [], by rw [List.append_nil], by rwa [List.append_nil], rfl⟩

theorem AppendsTree.record {new : Node X F} (h : t.StoredAt (nodes ++ [new]) nodes.length) :
    AppendsTree nodes (pushBack new nodes) t 1 := ⟨nodes.length, [new], pushBack_run _ _, h, rfl⟩

/-- Both halves, and then the record over them. -/
theorem AppendsTree.halves {y y' : ArenaM (Node X F) ℕ} {g : ℕ → ℕ → ArenaM (Node X F) ℕ}
    {c : ℕ} (hy : AppendsTree nodes (y nodes) left m)
    (hy' : ∀ more, AppendsTree (nodes ++ more) (y' (nodes ++ more)) right n)
    (hg : ∀ j k more, left.StoredAt (nodes ++ more) j → right.StoredAt (nodes ++ more) k →
      AppendsTree (nodes ++ more) (g j k (nodes ++ more)) t c) :
    AppendsTree nodes ((do g (← y) (← y')) nodes) t (m + n + c) := by
  obtain ⟨j, moreL, hy, hl, hm⟩ := hy
  obtain ⟨k, moreR, hy', hr, hn⟩ := hy' moreL
  have hl' := hl.append moreR
  rw [List.append_assoc] at hl' hr hy'
  obtain ⟨i, more, hg, h, hc⟩ := hg j k (moreL ++ moreR) hl' hr
  rw [List.append_assoc] at hg h
  refine ⟨i, moreL ++ moreR ++ more, ?_, h, ?_⟩
  · rw [Effect.run_bind_ok hy, Effect.run_bind_ok hy', hg]
  · rw [List.length_append, List.length_append, hm, hn, hc]

/-- One half is descended into, or left alone. -/
theorem AppendsTree.half {p : Prop} [Decidable p] {x : Except Exception (RecordTree X F × ℕ)}
    {y : ArenaM (Node X F) ℕ} (h : t.StoredAt nodes i)
    (hx : (if p then x else pure (t, 0)) = .ok (t', c))
    (hy : p → x = .ok (t', c) → AppendsTree nodes (y nodes) t' (n + 2 * c)) :
    AppendsTree nodes ((if p then y else pure i) nodes) t' ((if p then n else 0) + 2 * c) := by
  by_cases hp : p
  · rw [if_pos hp] at hx ⊢
    rw [if_pos hp]
    exact hy hp hx
  · rw [if_neg hp] at hx
    rw [if_neg hp, if_neg hp]
    cases hx
    exact .return h

/-- The record over two halves. -/
theorem StoredAt.node (hl : left.StoredAt nodes j) (hr : right.StoredAt nodes k) (x : X) (z : F) :
    (RecordTree.node x z left right).StoredAt (nodes ++ [⟨j, k, x, z⟩]) nodes.length :=
  ⟨j, k, List.getElem?_concat_length, hl.append _, hr.append _⟩

/-- A record that an action covers, and a child that a tag is pushed into. -/
theorem cover_appends (h : t.StoredAt nodes i) (hn : nodes[i]? = some ⟨j, k, t.aggregate, t.tag⟩)
    (hc : t.cover P f n = .ok t') : AppendsTree nodes ((do
      let aggregate ← P.apply f t.aggregate n
      let tag ← P.compose f t.tag
      pushBack ⟨j, k, aggregate, tag⟩ : ArenaM (Node X F) ℕ) nodes) t' 1 := by
  obtain ⟨x, z, hx, hz, rfl⟩ := cover_eq_ok.mp hc
  rw [hx, Effect.run_bind_ok (Effect.liftM_ok _ _), hz, Effect.run_bind_ok (Effect.liftM_ok _ _)]
  exact .record (h.copy hn x z)

theorem pushInto_appends (h : t.StoredAt nodes i) (hc : t.cover P f n = .ok t') :
    AppendsTree nodes (pushInto P i f n nodes) t' 1 := by
  obtain ⟨j, k, hn⟩ := h.root
  unfold pushInto
  rw [Effect.run_bind_ok (readNode_run hn)]
  exact cover_appends h hn hc

/-- The record over two halves that are stored. -/
theorem rebuild_appends (hl : left.StoredAt nodes j) (hr : right.StoredAt nodes k) {y : X}
    (hy : P.combine left.aggregate right.aggregate = .ok y) (hx : P.apply z y n = .ok x) :
    AppendsTree nodes ((do
      let leftNode ← readNode j
      let rightNode ← readNode k
      let children ← P.combine leftNode.aggregate rightNode.aggregate
      let aggregate ← P.apply z children n
      pushBack ⟨j, k, aggregate, z⟩ : ArenaM (Node X F) ℕ) nodes) (.node x z left right) 1 := by
  obtain ⟨_, _, hnl⟩ := hl.root
  obtain ⟨_, _, hnr⟩ := hr.root
  rw [Effect.run_bind_ok (readNode_run hnl), Effect.run_bind_ok (readNode_run hnr), hy,
    Effect.run_bind_ok (Effect.liftM_ok _ _), hx, Effect.run_bind_ok (Effect.liftM_ok _ _)]
  exact .record (hl.node hr x z)

/-- The build appends its tree. -/
theorem build_stores {values : List X} : ∀ lo hi, lo ≤ hi → ∀ {nodes : List (Node X F)}
    {t : RecordTree X F}, build P values lo hi = .ok t →
    AppendsTree nodes (PathCopyingActionTree.build P values lo hi nodes) t (2 * (hi - lo) + 1) := by
  unfold PathCopyingActionTree.build
  refine Segment.halving_induction ?_ ?_
  · intro i nodes t h
    obtain ⟨x, hx, rfl⟩ := build_single_eq_ok.mp h
    rw [Policy.buildArena, if_pos rfl, hx, Effect.run_bind_ok (Effect.liftM_ok _ _), Nat.sub_self]
    exact .record ⟨noNode, noNode, List.getElem?_concat_length⟩
  · intro lo hi hlt ihl ihr nodes t h
    have hm := Segment.le_midpoint lo hi
    have hm' := Segment.midpoint_lt hlt
    obtain ⟨left, right, x, h1, h2, h3, rfl⟩ := (build_split_eq_ok hlt).mp h
    rw [Policy.buildArena, if_neg hlt.ne, if_pos hlt]
    have hcount : 2 * (hi - lo) + 1 = 2 * (Segment.midpoint lo hi - lo) + 1 +
        (2 * (hi - (Segment.midpoint lo hi + 1)) + 1) + 1 := by omega
    rw [hcount]
    refine .halves (ihl h1) (fun _ => ihr h2) fun j k more hl hr => ?_
    obtain ⟨_, _, hnl⟩ := hl.root
    obtain ⟨_, _, hnr⟩ := hr.root
    rw [Effect.run_bind_ok (readNode_run hnl), Effect.run_bind_ok (readNode_run hnr), h3,
      Effect.run_bind_ok (Effect.liftM_ok _ _)]
    exact .record (hl.node hr x P.actionIdentity)

variable [DecidableEq F]

/-- The children a partial descent goes on with. -/
theorem pushDown_stores {p : ℕ} {z' : F} (hlt : lo < hi) (hl : left.StoredAt nodes j)
    (hr : right.StoredAt nodes k)
    (h : pushDown P push z lo hi left right = .ok (left', right', z', p)) :
    ∃ j' k' more, PathCopyingActionTree.pushDown P push ⟨j, k, x, z⟩ (Segment.midpoint lo hi - lo + 1)
        (hi - Segment.midpoint lo hi) nodes = .ok (j', k', z') (nodes ++ more) ∧
      left'.StoredAt (nodes ++ more) j' ∧ right'.StoredAt (nodes ++ more) k' ∧
      more.length = 2 * p := by
  have hm' := Segment.midpoint_lt hlt
  unfold PathCopyingActionTree.pushDown
  by_cases hpush : push = true ∧ z ≠ P.actionIdentity
  · obtain ⟨h1, h2, rfl, rfl⟩ := (pushDown_eq_ok_of_pushed hpush).mp h
    rw [show Segment.length (Segment.midpoint lo hi + 1) hi = hi - Segment.midpoint lo hi by
      unfold Segment.length; omega] at h2
    obtain ⟨j', moreL, hy, hl', hlenL⟩ := pushInto_appends hl h1
    obtain ⟨k', moreR, hy', hr', hlenR⟩ := pushInto_appends (hr.append moreL) h2
    have hl'' := hl'.append moreR
    rw [List.append_assoc] at hl'' hr' hy'
    refine ⟨j', k', moreL ++ moreR, ?_, hl'', hr', ?_⟩
    · unfold Segment.length at hy
      rw [if_pos hpush, Effect.run_bind_ok hy, Effect.run_bind_ok hy']
      rfl
    · rw [List.length_append, hlenL, hlenR]
  · rw [pushDown_of_retained hpush] at h
    cases h
    rw [if_neg hpush]
    refine ⟨j, k, [], by rw [List.append_nil]; rfl, ?_, ?_, rfl⟩
    · rwa [List.append_nil]
    · rwa [List.append_nil]

/-- **One update on the arena** appends the tree the update makes, one record for each visited
segment and two for each push. -/
theorem update_stores (l r : ℕ) (f : F) : ∀ lo hi, lo ≤ hi → ∀ {nodes : List (Node X F)} {i c : ℕ}
    {t t' : RecordTree X F}, t.StoredAt nodes i → t.update P push l r f lo hi = .ok (t', c) →
    AppendsTree nodes (PathCopyingActionTree.update P push i lo hi l r f nodes) t'
      (Segment.visits lo hi l r + 2 * c) := by
  refine Segment.halving_induction ?_ ?_
  · intro m nodes i c t t' h hu
    have hin := update_single_of_ok hu
    obtain ⟨hc, rfl⟩ := (update_inside_eq_ok hin).mp hu
    obtain ⟨j, k, hn⟩ := h.root
    rw [PathCopyingActionTree.update, Effect.run_bind_ok (readNode_run hn),
      Segment.visits_of_inside hin]
    simp only [if_pos hin]
    exact cover_appends h hn hc
  · intro lo hi hlt ihl ihr nodes i c t t' h hu
    by_cases hin : l ≤ lo ∧ hi ≤ r
    · obtain ⟨hc, rfl⟩ := (update_inside_eq_ok hin).mp hu
      obtain ⟨j, k, hn⟩ := h.root
      rw [PathCopyingActionTree.update, Effect.run_bind_ok (readNode_run hn),
        Segment.visits_of_inside hin]
      simp only [if_pos hin]
      exact cover_appends h hn hc
    cases t with
    | leaf x z => exact absurd (update_leaf_of_ok hu) hin
    | node x z left right =>
      obtain ⟨j, k, hn, hl, hr⟩ := h
      obtain ⟨left₀, right₀, z', p, h0, left', q, h1, right', q', h2, y, x', h3, h4, rfl, rfl⟩ :=
        (update_split_eq_ok hin hlt).mp hu
      obtain ⟨j', k', more, hp, hl', hr', hlen⟩ := pushDown_stores (x := x) hlt hl hr h0
      rw [PathCopyingActionTree.update, Effect.run_bind_ok (readNode_run hn)]
      simp only [if_neg hin, if_pos hlt]
      rw [Effect.run_bind_ok hp]
      obtain ⟨i', more', hy, ht, hlen'⟩ := AppendsTree.halves
        (AppendsTree.half hl' h1 fun _ => ihl hl')
        (fun more => AppendsTree.half (hr'.append more) h2 fun _ => ihr (hr'.append more))
        fun j k more hl hr => rebuild_appends hl hr h3 h4
      rw [List.append_assoc] at hy ht
      refine ⟨i', more ++ more', hy, ht, ?_⟩
      rw [List.length_append, hlen, hlen', Segment.visits_split hin hlt]
      omega

end Arena

/-! ## Over total operations -/

/-- The nodes are the canonical segments. -/
def Spans : RecordTree X F → ℕ → ℕ → Prop
  | leaf _ _, lo, hi => lo = hi
  | node _ _ left right, lo, hi => lo < hi ∧ left.Spans lo (Segment.midpoint lo hi) ∧
      right.Spans (Segment.midpoint lo hi + 1) hi

section Total

variable {P : Policy X F} {push : Bool} {l r lo hi p c n : ℕ} {f z z' : F} {x : X}
  {t t' left right left' right' : RecordTree X F}

theorem Spans.setRoot (h : t.Spans lo hi) (x : X) (z : F) : (t.setRoot x z).Spans lo hi := by
  cases t <;> exact h

theorem Spans.le (h : t.Spans lo hi) : lo ≤ hi := by
  cases t with
  | leaf x z => exact le_of_eq h
  | node x z left right => exact h.1.le

theorem Spans.cover (h : t.Spans lo hi) (hc : t.cover P f n = .ok t') : t'.Spans lo hi := by
  obtain ⟨x, z, -, -, rfl⟩ := cover_eq_ok.mp hc
  exact h.setRoot x z

theorem build_spans {values : List X} : ∀ lo hi, lo ≤ hi → ∀ {t : RecordTree X F},
    build P values lo hi = .ok t → t.Spans lo hi := by
  refine Segment.halving_induction (fun i t h => ?_) fun lo hi hlt ihl ihr t h => ?_
  · obtain ⟨x, -, rfl⟩ := build_single_eq_ok.mp h
    exact rfl
  · obtain ⟨left, right, x, h1, h2, -, rfl⟩ := (build_split_eq_ok hlt).mp h
    exact ⟨hlt, ihl h1, ihr h2⟩

variable [DecidableEq F]

theorem pushDown_spans {a b : ℕ} (hl : left.Spans lo a) (hr : right.Spans b hi)
    (h : pushDown P push z lo hi left right = .ok (left', right', z', p)) :
    left'.Spans lo a ∧ right'.Spans b hi := by
  by_cases hpush : push = true ∧ z ≠ P.actionIdentity
  · obtain ⟨h1, h2, -, -⟩ := (pushDown_eq_ok_of_pushed hpush).mp h
    exact ⟨hl.cover h1, hr.cover h2⟩
  · rw [pushDown_of_retained hpush] at h
    cases h
    exact ⟨hl, hr⟩

/-- An update keeps the segments. -/
theorem update_spans (l r : ℕ) (f : F) : ∀ lo hi, lo ≤ hi → ∀ {t t' : RecordTree X F} {c : ℕ},
    t.Spans lo hi → t.update P push l r f lo hi = .ok (t', c) → t'.Spans lo hi := by
  refine Segment.halving_induction (fun i t t' c ht h => ?_) fun lo hi hlt ihl ihr t t' c ht h => ?_
  · exact ht.cover ((update_inside_eq_ok (update_single_of_ok h)).mp h).1
  by_cases hin : l ≤ lo ∧ hi ≤ r
  · exact ht.cover ((update_inside_eq_ok hin).mp h).1
  cases t with
  | leaf x z => exact absurd (update_leaf_of_ok h) hin
  | node x z left right =>
    obtain ⟨left₀, right₀, z', p, h0, left', q, h1, right', q', h2, -, -, -, -, rfl, -⟩ :=
      (update_split_eq_ok hin hlt).mp h
    obtain ⟨hl, hr⟩ := pushDown_spans ht.2.1 ht.2.2 h0
    refine ⟨hlt, ?_, ?_⟩
    · split_ifs at h1
      · exact ihl hl h1
      · cases h1
        exact hl
    · split_ifs at h2
      · exact ihr hr h2
      · cases h2
        exact hr

variable (M : SegmentAction X F) (sizes : RecordSizes)

omit [DecidableEq F] in
theorem build_total {values : List X} : ∀ lo hi, lo ≤ hi → (hi < values.length) →
    ∃ t, build (totalPolicy M sizes) values lo hi = .ok t := by
  refine Segment.halving_induction (fun i hi => ?_) fun lo hi hlt ihl ihr hh => ?_
  · exact ⟨_, build_single_eq_ok.mpr
      ⟨_, vectorAt_eq_ok.mpr (List.getElem?_eq_getElem hi), rfl⟩⟩
  · have hm' := Segment.midpoint_lt hlt
    obtain ⟨left, hl⟩ := ihl (by omega)
    obtain ⟨right, hr⟩ := ihr hh
    exact ⟨_, (build_split_eq_ok hlt).mpr ⟨left, right, _, hl, hr, rfl, rfl⟩⟩

theorem pushDown_total (push : Bool) (z : F) (lo hi : ℕ) (left right : RecordTree X F) :
    ∃ left' right' z' p, pushDown (totalPolicy M sizes) push z lo hi left right =
      .ok (left', right', z', p) := by
  by_cases hpush : push = true ∧ z ≠ (totalPolicy M sizes).actionIdentity
  · exact ⟨_, _, _, _, (pushDown_eq_ok_of_pushed hpush).mpr ⟨rfl, rfl, rfl, rfl⟩⟩
  · exact ⟨_, _, _, _, pushDown_of_retained hpush⟩

/-- Where no operation throws, no update does. -/
theorem update_total (push : Bool) (f : F) : ∀ lo hi, lo ≤ hi → ∀ {t : RecordTree X F},
    l ≤ hi → lo ≤ r → t.Spans lo hi →
    ∃ t' c, t.update (totalPolicy M sizes) push l r f lo hi = .ok (t', c) := by
  refine Segment.halving_induction (fun i t h1 h2 _ => ?_) fun lo hi hlt ihl ihr t h1 h2 ht => ?_
  · exact ⟨_, 0, (update_inside_eq_ok ⟨h1, h2⟩).mpr ⟨rfl, rfl⟩⟩
  by_cases hin : l ≤ lo ∧ hi ≤ r
  · exact ⟨_, 0, (update_inside_eq_ok hin).mpr ⟨rfl, rfl⟩⟩
  cases t with
  | leaf x z => exact absurd ht hlt.ne
  | node x z left right =>
    obtain ⟨left₀, right₀, z', p, h0⟩ := pushDown_total M sizes push z lo hi left right
    obtain ⟨hl, hr⟩ := pushDown_spans ht.2.1 ht.2.2 h0
    have half : ∀ {p : Prop} [Decidable p] {y : Except Exception (RecordTree X F × ℕ)}
        {t : RecordTree X F}, (p → ∃ t' c, y = .ok (t', c)) →
        ∃ t' c, (if p then y else pure (t, 0)) = .ok (t', c) := by
      intro p _ y t hy
      by_cases hp : p
      · rw [if_pos hp]
        exact hy hp
      · exact ⟨t, 0, if_neg hp⟩
    obtain ⟨left', q, hl'⟩ := half (t := left₀) fun hp : l ≤ Segment.midpoint lo hi => ihl hp h2 hl
    obtain ⟨right', q', hr'⟩ := half (t := right₀) fun hp : r > Segment.midpoint lo hi =>
      ihr h1 hp hr
    exact ⟨_, _, (update_split_eq_ok hin hlt).mpr ⟨left₀, right₀, z', p, h0, left', q, hl', right',
      q', hr', _, _, rfl, rfl, rfl, rfl⟩⟩

end Total

end RecordTree

/-! ## The trees of the versions -/

section Versions

variable {X F : Type} {P : Policy X F} {push : Bool} {s : ActionTree (Node X F)} {size l r c : ℕ}
  {trees : List (RecordTree X F)} {t t' : RecordTree X F} {f : F}

/-- Every version has a root with its tree below it. -/
structure HoldsTrees (s : ActionTree (Node X F)) (size : ℕ) (trees : List (RecordTree X F)) :
    Prop where
  arraySize : s.arraySize = size
  count : s.roots.length = trees.length
  stored : ∀ (v : ℕ) (t : RecordTree X F), trees[v]? = some t →
    ∃ root, s.roots[v]? = some root ∧ t.StoredAt s.nodes root

/-- The root the next update starts from. -/
theorem HoldsTrees.latest (h : HoldsTrees s size (trees ++ [t])) :
    ∃ root, s.roots[s.roots.length - 1]? = some root ∧ t.StoredAt s.nodes root := by
  refine h.stored _ t ?_
  rw [h.count, List.length_append, List.length_singleton, Nat.add_sub_cancel,
    List.getElem?_concat_length]

/-- One more version. -/
theorem HoldsTrees.publish (h : HoldsTrees s size trees) {root : ℕ} (more : List (Node X F))
    (ht : t.StoredAt (s.nodes ++ more) root) :
    HoldsTrees ⟨s.nodes ++ more, s.roots ++ [root], s.arraySize⟩ size (trees ++ [t]) := by
  refine ⟨h.arraySize, ?_, fun v t' hv => ?_⟩
  · rw [List.length_append, List.length_append, h.count]
    rfl
  rcases Nat.lt_or_ge v trees.length with hlt | hge
  · rw [List.getElem?_append_left hlt] at hv
    obtain ⟨root', hroot, ht'⟩ := h.stored v t' hv
    exact ⟨root', getElem?_more [root] hroot, ht'.append more⟩
  · have hv' : v = trees.length := by
      have := (List.getElem?_eq_some_iff.mp hv).1
      rw [List.length_append, List.length_singleton] at this
      omega
    rw [hv', List.getElem?_concat_length] at hv
    cases hv
    refine ⟨root, ?_, ht⟩
    rw [hv', ← h.count, List.getElem?_concat_length]

theorem HoldsTrees.admitted (h : HoldsTrees s size (trees ++ [t])) (hlr : l ≤ r) (hr : r < size) :
    ∃ root, ActionTreeParts.admitted s l r = .ok root ∧ t.StoredAt s.nodes root := by
  obtain ⟨root, hroot, ht⟩ := h.latest
  exact ⟨root, ActionTreeParts.admitted_eq_ok hlr (h.arraySize.symm ▸ hr) hroot, ht⟩

variable [DecidableEq F]

/-- An initialization with room holds the tree of its values. -/
theorem initialize_holdsTrees (push : Bool) {values : List X} (hpos : 0 < values.length)
    (hroom : 2 * values.length - 1 ≤ vectorMaxSize P.recordBytes)
    (ht : RecordTree.build P values 0 (values.length - 1) = .ok t) :
    ∃ s, (parts P push).initializeFrom values ActionTreeParts.empty = .ok () s ∧
      HoldsTrees s values.length [t] := by
  have happends : RecordTree.AppendsTree []
      (PathCopyingActionTree.build P values 0 (values.length - 1) []) t
      (2 * (values.length - 1 - 0) + 1) := RecordTree.build_stores 0 _ (Nat.zero_le _) ht
  obtain ⟨root, nodes, hb, hst, -⟩ := happends
  have hrun := (parts P push).initialize_run values hpos hroom hb ActionTreeParts.empty
  refine ⟨_, hrun, rfl, rfl, fun v t' hv => ?_⟩
  obtain rfl : v = 0 := by
    have := (List.getElem?_eq_some_iff.mp hv).1
    rw [List.length_singleton] at this
    omega
  cases hv
  exact ⟨root, rfl, hst⟩

/-- An update outside the array throws. -/
theorem HoldsTrees.rejected (push : Bool) (h : HoldsTrees s size trees)
    (hr : ¬ (l ≤ r ∧ r < size)) :
    ∃ e, (parts P push).rangeApply l r f s = .error e s := by
  obtain ⟨e, he⟩ := ActionTreeParts.admitted_error (s := s) (h.arraySize.symm ▸ hr)
  exact ⟨e, ActionTreeParts.rangeApply_not_admitted he⟩

/-- An update with the identity publishes the same tree again, and appends nothing. -/
theorem HoldsTrees.identity (push : Bool) (h : HoldsTrees s size (trees ++ [t])) (hlr : l ≤ r)
    (hr : r < size) :
    ∃ s', (parts P push).rangeApply l r P.actionIdentity s = .ok s.roots.length s' ∧
      HoldsTrees s' size (trees ++ [t] ++ [t]) ∧ s'.nodes = s.nodes := by
  obtain ⟨root, hadm, ht⟩ := h.admitted hlr hr
  refine ⟨_, (ActionTreeParts.rangeApply_admitted hadm).trans (if_pos rfl), ?_, rfl⟩
  have hpub := h.publish (t := t) [] (by rwa [List.append_nil])
  rwa [List.append_nil] at hpub

/-- **One update** publishes the tree it makes. -/
theorem HoldsTrees.rangeApply (h : HoldsTrees s size (trees ++ [t])) (hlr : l ≤ r) (hr : r < size)
    (hf : f ≠ P.actionIdentity) (hu : t.update P push l r f 0 (size - 1) = .ok (t', c)) :
    ∃ s', (parts P push).rangeApply l r f s = .ok s.roots.length s' ∧
      HoldsTrees s' size (trees ++ [t] ++ [t']) ∧
      s'.nodes.length = s.nodes.length + (Segment.visits 0 (size - 1) l r + 2 * c) := by
  obtain ⟨root, hadm, ht⟩ := h.admitted hlr hr
  obtain ⟨i, more, hy, ht', hlen⟩ := RecordTree.update_stores l r f 0 _ (Nat.zero_le _) ht hu
  refine ⟨⟨s.nodes ++ more, s.roots ++ [i], s.arraySize⟩, ?_, h.publish more ht', ?_⟩
  · rw [ActionTreeParts.rangeApply_admitted hadm,
      if_neg (show ¬ f = (parts P push).actionIdentity from hf)]
    unfold ActionTreeParts.published
    rw [h.arraySize, show (parts P push).update root 0 (size - 1) l r f s.nodes = _ from hy]
  · rw [List.length_append, hlen]

end Versions

end PathCopyingActionTree

end Valseg
