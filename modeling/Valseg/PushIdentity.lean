import Valseg.RecordTrees
import Valseg.Frontier
import Valseg.FrontierExtrema

/-!
# The push identity

`PushCountingModel` keeps one tag for each heap slot, and a copy-on-push tree keeps its tags in
records that versions share. `HoldsTags` says that the slots have the tags of the latest tree, and
`update_follows` that one update on both sides keeps it so and counts the same pushes. So an update
appends the visited frontier and two records for every push the model counts (`push_identity`).
-/

namespace Valseg

namespace PathCopyingActionTree

namespace RecordTree

variable {X F : Type}

/-- The slots below `k` have the tags of the tree. -/
def HoldsTags (tags : List F) : RecordTree X F → ℕ → Prop
  | leaf _ z, k => tags[k]? = some z
  | node _ z left right, k => tags[k]? = some z ∧ left.HoldsTags tags (2 * k + 1) ∧
      right.HoldsTags tags (2 * k + 2)

section Slots

variable {P : Policy X F} {tags tags' tags'' : List F} {size k lo hi l r n : ℕ} {f z : F}
  {t t' left right left' right' : RecordTree X F}

theorem HoldsTags.root (h : t.HoldsTags tags k) : tags[k]? = some t.tag := by
  cases t with
  | leaf x z => exact h
  | node x z left right => exact h.1

/-- Only the slots of its segments matter. -/
theorem HoldsTags.frame (h : t.HoldsTags tags k) (ht : t.Spans lo hi) (ho : HeapSlot size k lo hi)
    (hs : ∀ j a b, HeapSlot size j a b → a ≤ b → lo ≤ a → b ≤ hi → tags'[j]? = tags[j]?) :
    t.HoldsTags tags' k := by
  induction t generalizing k lo hi with
  | leaf x z => exact (hs k lo hi ho (le_of_eq ht) le_rfl le_rfl).trans h
  | node x z left right ihl ihr =>
    obtain ⟨hlt, hl, hr⟩ := ht
    have hm := Segment.le_midpoint lo hi
    have hm' := Segment.midpoint_lt hlt
    refine ⟨(hs k lo hi ho hlt.le le_rfl le_rfl).trans h.1, ?_, ?_⟩
    · exact ihl h.2.1 hl (.left ho hlt) fun j a b hj hab h1 h2 => hs j a b hj hab h1 (by omega)
    · exact ihr h.2.2 hr (.right ho hlt) fun j a b hj hab h1 h2 => hs j a b hj hab (by omega) h2

/-- Segments apart from what was written. -/
theorem HoldsTags.keep {lo' hi' : ℕ} (h : t.HoldsTags tags k) (ht : t.Spans lo hi)
    (ho : HeapSlot size k lo hi) (hk : KeepsSlots size lo' hi' tags tags')
    (hd : hi < lo' ∨ hi' < lo) : t.HoldsTags tags' k :=
  h.frame ht ho fun j a b hj hab _ _ => hk j a b hj hab (by omega)

/-- The halves do not see what is written to the slot above them. -/
theorem HoldsTags.child {a b j : ℕ} (h : t.HoldsTags tags j) (ht : t.Spans a b)
    (hj : HeapSlot size j a b) (ho : HeapSlot size k lo hi) (hlt : b - a < hi - lo) (z : F) :
    t.HoldsTags (tags.set k z) j := by
  refine h.frame ht hj fun m c d hm _ h1 h2 => List.getElem?_set_ne ?_
  rintro rfl
  obtain ⟨rfl, rfl⟩ := HeapSlot.exclusive _ _ _ _ _ hm ho
  omega

/-- Another tag at the root. -/
theorem HoldsTags.set (h : t.HoldsTags tags k) (ht : t.Spans lo hi) (ho : HeapSlot size k lo hi)
    (x : X) (z : F) : (t.setRoot x z).HoldsTags (tags.set k z) k := by
  have hk := (List.getElem?_eq_some_iff.mp h.root).1
  cases t with
  | leaf y w => exact List.getElem?_set_self hk
  | node y w left right =>
    obtain ⟨hlt, hl, hr⟩ := ht
    have hm := Segment.le_midpoint lo hi
    have hm' := Segment.midpoint_lt hlt
    exact ⟨List.getElem?_set_self hk, h.2.1.child hl (.left ho hlt) ho (by omega) z,
      h.2.2.child hr (.right ho hlt) ho (by omega) z⟩

/-- A build has identity tags only. -/
theorem build_holdsTags {values : List X} (hn : 0 < size) : ∀ lo hi, lo ≤ hi →
    ∀ {k : ℕ} {t : RecordTree X F}, HeapSlot size k lo hi → build P values lo hi = .ok t →
    t.HoldsTags (List.replicate (4 * size) P.actionIdentity) k := by
  have hslot : ∀ {k lo hi : ℕ}, HeapSlot size k lo hi →
      (List.replicate (4 * size) P.actionIdentity)[k]? = some P.actionIdentity := fun ho =>
    List.getElem?_replicate_of_lt (ho.bound hn)
  refine Segment.halving_induction (fun i k t ho h => ?_) fun lo hi hlt ihl ihr k t ho h => ?_
  · obtain ⟨x, -, rfl⟩ := build_single_eq_ok.mp h
    exact hslot ho
  · obtain ⟨left, right, x, h1, h2, -, rfl⟩ := (build_split_eq_ok hlt).mp h
    exact ⟨hslot ho, ihl (.left ho hlt) h1, ihr (.right ho hlt) h2⟩

/-! ## One update on both sides -/

/-- The computation returns, and leaves the tags of the tree below the slot. -/
def LeavesTags {α : Type} (size lo hi : ℕ) (tags : List F) (y : EStateM.Result Exception (List F) α)
    (a : α) (t : RecordTree X F) (k : ℕ) : Prop :=
  ∃ tags', y = .ok a tags' ∧ KeepsSlots size lo hi tags tags' ∧ t.HoldsTags tags' k

/-- One tag composed. -/
theorem cover_follows (h : t.HoldsTags tags k) (ht : t.Spans lo hi) (ho : HeapSlot size k lo hi)
    (hc : t.cover P f n = .ok t') :
    LeavesTags size lo hi tags (PushCountingModel.composeInto P f k tags) () t' k := by
  obtain ⟨x, z, -, hz, rfl⟩ := cover_eq_ok.mp hc
  refine ⟨tags.set k z, ?_, .set ho z, h.set ht ho x z⟩
  unfold PushCountingModel.composeInto
  rw [Effect.run_bind_ok (readNode_run h.root), hz, Effect.run_bind_ok (Effect.liftM_ok _ _),
    writeSlot_run (List.getElem?_eq_some_iff.mp h.root).1]

variable [DecidableEq F]

/-- What both do at a partially covered node before they descend: nothing, or one push. -/
theorem pushTag_follows {x : X} {z' : F} {p : ℕ} (h : (node x z left right).HoldsTags tags k)
    (ht : (node x z left right).Spans lo hi) (ho : HeapSlot size k lo hi)
    (hp : pushDown P true z lo hi left right = .ok (left', right', z', p)) :
    LeavesTags size lo hi tags (PushCountingModel.pushTag P k tags) p (node x z' left' right') k := by
  obtain ⟨hlt, hl, hr⟩ := ht
  have hm := Segment.le_midpoint lo hi
  have hm' := Segment.midpoint_lt hlt
  have hol := HeapSlot.left ho hlt
  have hor := HeapSlot.right ho hlt
  unfold PushCountingModel.pushTag
  rw [Effect.run_bind_ok (readNode_run h.1)]
  by_cases hz : z ≠ P.actionIdentity
  · obtain ⟨h1, h2, rfl, rfl⟩ := (pushDown_eq_ok_of_pushed ⟨rfl, hz⟩).mp hp
    obtain ⟨tags₁, hy1, hk1, hl'⟩ := cover_follows h.2.1 hl hol h1
    have hright := h.2.2.keep hr hor hk1 (.inr (by omega))
    obtain ⟨tags₂, hy2, hk2, hr'⟩ := cover_follows hright hr hor h2
    have hl'' := hl'.keep (hl.cover h1) hol hk2 (.inl (by omega))
    have hroot : tags₂[k]? = some z := (hk2 k lo hi ho hlt.le (by omega)).trans
      ((hk1 k lo hi ho hlt.le (by omega)).trans h.1)
    have hk := (List.getElem?_eq_some_iff.mp hroot).1
    refine ⟨tags₂.set k P.actionIdentity, ?_, ?_, List.getElem?_set_self hk, ?_, ?_⟩
    · rw [if_pos hz, Effect.run_bind_ok hy1, Effect.run_bind_ok hy2,
        Effect.run_bind_ok (writeSlot_run hk)]
      rfl
    · exact ((hk1.mono le_rfl hm'.le).trans (hk2.mono (by omega) le_rfl)).trans (.set ho _)
    · exact hl''.child (hl.cover h1) hol ho (by omega) _
    · exact hr'.child (hr.cover h2) hor ho (by omega) _
  · rw [pushDown_of_retained fun hpush => hz hpush.2] at hp
    cases hp
    rw [if_neg hz]
    exact ⟨tags, rfl, fun _ _ _ _ _ _ => rfl, h⟩

omit [DecidableEq F] in
/-- A half that both descend into, or that both leave alone. -/
theorem half_follows {c : Prop} [Decidable c] {x : Except Exception (RecordTree X F × ℕ)}
    {y : ArenaM F ℕ} {p q : ℕ} (h : t.HoldsTags tags k) (hpq : p + q ≤ sizeMax)
    (hx : (if c then x else pure (t, 0)) = .ok (t', q))
    (hy : c → x = .ok (t', q) → LeavesTags size lo hi tags (y tags) q t' k) :
    LeavesTags size lo hi tags ((if c then do checkedSizeAdd p (← y) else pure p) tags) (p + q) t'
      k := by
  by_cases hc : c
  · rw [if_pos hc] at hx ⊢
    obtain ⟨tags', hy, hk, ht⟩ := hy hc hx
    refine ⟨tags', ?_, hk, ht⟩
    rw [Effect.run_bind_ok hy, (checkedSizeAdd_eq_ok (by omega)).mpr ⟨rfl, hpq⟩]
    rfl
  · rw [if_neg hc] at hx ⊢
    cases hx
    exact ⟨tags, rfl, fun _ _ _ _ _ _ => rfl, h⟩

/-- **One update on both sides.** The model counts the pushes of the tree. -/
theorem update_follows (l r : ℕ) (f : F) : ∀ lo hi, lo ≤ hi → ∀ {tags : List F} {k c : ℕ}
    {t t' : RecordTree X F}, t.HoldsTags tags k → t.Spans lo hi → HeapSlot size k lo hi →
    t.update P true l r f lo hi = .ok (t', c) → c ≤ sizeMax →
    LeavesTags size lo hi tags (PushCountingModel.update P k lo hi l r f tags) c t' k := by
  have hcovered : ∀ {lo hi k c : ℕ} {tags : List F} {t t' : RecordTree X F}, t.HoldsTags tags k →
      t.Spans lo hi → HeapSlot size k lo hi → l ≤ lo ∧ hi ≤ r →
      t.update P true l r f lo hi = .ok (t', c) →
      LeavesTags size lo hi tags (PushCountingModel.update P k lo hi l r f tags) c t' k := by
    intro lo hi k c tags t t' h ht ho hin hu
    obtain ⟨hc, rfl⟩ := (update_inside_eq_ok hin).mp hu
    obtain ⟨tags', hy, hk, h'⟩ := cover_follows h ht ho hc
    refine ⟨tags', ?_, hk, h'⟩
    rw [PushCountingModel.update, if_pos hin, Effect.run_bind_ok hy]
    rfl
  refine Segment.halving_induction ?_ ?_
  · intro m tags k c t t' h ht ho hu _
    exact hcovered h ht ho (update_single_of_ok hu) hu
  · intro lo hi hlt ihl ihr tags k c t t' h ht ho hu hc
    by_cases hin : l ≤ lo ∧ hi ≤ r
    · exact hcovered h ht ho hin hu
    have hm := Segment.le_midpoint lo hi
    have hm' := Segment.midpoint_lt hlt
    have hol := HeapSlot.left ho hlt
    have hor := HeapSlot.right ho hlt
    cases t with
    | leaf x z => exact absurd (update_leaf_of_ok hu) hin
    | node x z left right =>
      obtain ⟨left₀, right₀, z', p, h0, left', q, h1, right', q', h2, y, x', -, -, rfl, rfl⟩ :=
        (update_split_eq_ok hin hlt).mp hu
      obtain ⟨hl, hr⟩ := pushDown_spans ht.2.1 ht.2.2 h0
      obtain ⟨tags₁, hy1, hk1, h'⟩ := pushTag_follows h ht ho h0
      obtain ⟨tags₂, hy2, hk2, hleft⟩ := half_follows h'.2.1 (p := p) (by omega) h1
        fun _ hx => ihl h'.2.1 hl hol hx (by omega)
      have hright₀ := h'.2.2.keep hr hor hk2 (.inr (by omega))
      obtain ⟨tags₃, hy3, hk3, hright⟩ := half_follows hright₀ (p := p + q) (by omega) h2
        fun _ hx => ihr hright₀ hr hor hx (by omega)
      have hleft' : left'.Spans lo (Segment.midpoint lo hi) := by
        split_ifs at h1
        · exact update_spans l r f _ _ hm hl h1
        · cases h1
          exact hl
      refine ⟨tags₃, ?_, ?_, ?_, hleft.keep hleft' hol hk3 (.inl (by omega)), hright⟩
      · rw [PushCountingModel.update, if_neg hin, if_pos hlt, Effect.run_bind_ok hy1,
          Effect.run_bind_ok hy2, hy3]
      · exact (hk1.trans (hk2.mono le_rfl hm'.le)).trans (hk3.mono (by omega) le_rfl)
      · exact (hk3 k lo hi ho hlt.le (by omega)).trans
          ((hk2 k lo hi ho hlt.le (by omega)).trans h'.1)

end Slots

end RecordTree

end PathCopyingActionTree

/-! ## Runs on both sides -/

namespace PushCountingModel

variable {X F : Type} {P : Policy X F} {n : ℕ} {model : State F}

theorem ofSize_eq_ok (h : ofSize P n = .ok model) :
    0 < n ∧ model = ⟨n, List.replicate (4 * n) P.actionIdentity⟩ := by
  unfold ofSize at h
  by_cases h0 : n = 0
  · rw [if_pos h0] at h
    cases h
  rw [if_neg h0, Effect.ok_bind] at h
  obtain ⟨count, hcount, h⟩ := Effect.bind_eq_ok.mp h
  obtain ⟨⟨⟩, -, h⟩ := Effect.bind_eq_ok.mp h
  obtain ⟨rfl, -⟩ := checkedSizeMultiply_eq_ok.mp hcount
  cases h
  exact ⟨Nat.pos_of_ne_zero h0, rfl⟩

variable [DecidableEq F]

/-- The model after updates, each of which returns or throws. -/
def run (P : Policy X F) (model : State F) (calls : List (RangeAction F)) : State F :=
  calls.foldl (fun model u => Effect.finalState (apply P u.left u.right u.action model)) model

theorem run_concat (P : Policy X F) (model : State F) (calls : List (RangeAction F))
    (u : RangeAction F) : run P model (calls ++ [u]) =
      Effect.finalState (apply P u.left u.right u.action (run P model calls)) :=
  List.foldl_append

theorem apply_rejected {l r : ℕ} {f : F} (h : ¬ (l ≤ r ∧ r < model.arraySize)) :
    ∃ e, apply P l r f model = .error e model := by
  unfold apply
  rw [Effect.run_bind_ok (Effect.run_get _)]
  rcases hv : validateFrontierRange model.arraySize l r with e | ⟨⟩
  · exact ⟨e, rfl⟩
  · exact absurd (validateFrontierRange_eq_ok.mp hv) h

theorem apply_identity {l r : ℕ} (hlr : l ≤ r) (hr : r < model.arraySize) :
    apply P l r P.actionIdentity model = .ok 0 model := by
  unfold apply
  rw [Effect.run_bind_ok (Effect.run_get _), validateFrontierRange_eq_ok.mpr ⟨hlr, hr⟩,
    Effect.run_bind_ok (Effect.liftM_ok _ _), if_pos rfl]
  rfl

end PushCountingModel

namespace PathCopyingActionTree

open RecordTree (HoldsTags)

section Runs

variable {X F : Type} [DecidableEq F] {P : Policy X F} {s : ActionTree (Node X F)}
  {model : PushCountingModel.State F} {n l r c : ℕ} {trees : List (RecordTree X F)}
  {t t' : RecordTree X F} {f : F}

/-- The model has the tags of the latest tree. -/
structure SameTags (n : ℕ) (s : ActionTree (Node X F)) (model : PushCountingModel.State F)
    (trees : List (RecordTree X F)) (t : RecordTree X F) : Prop where
  holds : HoldsTrees s n (trees ++ [t])
  spans : t.Spans 0 (n - 1)
  arraySize : model.arraySize = n
  tags : t.HoldsTags model.tags 0

/-- One update of the tree, and the same update of the model. -/
theorem SameTags.update (h : SameTags n s model trees t) (hlr : l ≤ r) (hr : r < n)
    (hn : n ≤ sizeMax) (hf : f ≠ P.actionIdentity)
    (hu : t.update P true l r f 0 (n - 1) = .ok (t', c)) :
    ∃ s' model', (copyOnPushPersistentTree P).rangeApply l r f s = .ok s.roots.length s' ∧
      PushCountingModel.apply P l r f model = .ok c model' ∧
      s'.nodes.length = s.nodes.length + (Segment.visits 0 (n - 1) l r + 2 * c) ∧
      SameTags n s' model' (trees ++ [t]) t' := by
  obtain ⟨s', hs, hholds, hlen⟩ := h.holds.rangeApply hlr hr hf hu
  have hle := RecordTree.update_pushes_le l r f 0 _ (Nat.zero_le _) hu
  have hvisits := visits_le_height hlr hr
  have hheight := clog_le hn
  have hlarge : 257 ≤ sizeMax := by decide
  unfold Segment.visits at hvisits
  obtain ⟨tags', hm, -, htags⟩ := RecordTree.update_follows l r f 0 (n - 1) (Nat.zero_le _) h.tags
    h.spans .root hu (by omega)
  refine ⟨s', ⟨n, tags'⟩, hs, ?_, hlen, hholds,
    RecordTree.update_spans l r f 0 _ (Nat.zero_le _) h.spans hu, rfl, htags⟩
  unfold PushCountingModel.apply
  rw [Effect.run_bind_ok (Effect.run_get _), h.arraySize, validateFrontierRange_eq_ok.mpr ⟨hlr, hr⟩,
    Effect.run_bind_ok (Effect.liftM_ok _ _), if_neg hf]
  exact (Effect.zoom_ok hm).trans (by rw [h.arraySize])

/-- One call on both sides over total operations, whatever its arguments. -/
theorem SameTags.call {M : SegmentAction X F} {sizes : RecordSizes}
    (h : SameTags n s model trees t) (hn : n ≤ sizeMax) (u : RangeAction F) :
    ∃ trees' t', SameTags n
      (Effect.finalState ((copyOnPushPersistentTree (totalPolicy M sizes)).rangeApply u.left u.right
        u.action s))
      (Effect.finalState (PushCountingModel.apply (totalPolicy M sizes) u.left u.right u.action
        model)) trees' t' := by
  by_cases hin : u.left ≤ u.right ∧ u.right < n
  swap
  · obtain ⟨e, he⟩ := HoldsTrees.rejected (P := totalPolicy M sizes) (f := u.action) true
      h.holds hin
    obtain ⟨e', he'⟩ := PushCountingModel.apply_rejected (P := totalPolicy M sizes) (f := u.action)
      (h.arraySize.symm ▸ hin)
    refine ⟨trees, t, ?_⟩
    rw [copyOnPushPersistentTree, he, he']
    exact h
  obtain ⟨hlr, hr⟩ := hin
  by_cases hf : u.action = (totalPolicy M sizes).actionIdentity
  · obtain ⟨s', hs, hholds, -⟩ := HoldsTrees.identity (P := totalPolicy M sizes) true h.holds
      hlr hr
    refine ⟨trees ++ [t], t, ?_⟩
    rw [hf, copyOnPushPersistentTree, hs,
      PushCountingModel.apply_identity hlr (h.arraySize.symm ▸ hr)]
    exact ⟨hholds, h.spans, h.arraySize, h.tags⟩
  · obtain ⟨t', c, hu⟩ := RecordTree.update_total M sizes true u.action 0 (n - 1) (Nat.zero_le _)
      (show u.left ≤ n - 1 by omega) (Nat.zero_le u.right) h.spans
    obtain ⟨s', model', hs, hm, -, h'⟩ := h.update hlr hr hn hf hu
    refine ⟨trees ++ [t], t', ?_⟩
    rw [hs, hm]
    exact h'

/-- **Runs.** After any calls on both sides the model has the tags of the latest tree. -/
theorem sameTags_run {M : SegmentAction X F} {sizes : RecordSizes} {values : List X}
    (hn : values.length ≤ sizeMax)
    (hroom : 2 * values.length - 1 ≤ vectorMaxSize sizes.recordBytes)
    (hmodel : PushCountingModel.ofSize (totalPolicy M sizes) values.length = .ok model)
    (calls : List (RangeAction F)) :
    ∃ trees t, SameTags values.length
      ((copyOnPushPersistentTree (totalPolicy M sizes)).run values calls)
      (PushCountingModel.run (totalPolicy M sizes) model calls) trees t := by
  obtain ⟨hpos, hmodel⟩ := PushCountingModel.ofSize_eq_ok hmodel
  induction calls using List.reverseRecOn with
  | nil =>
    obtain ⟨t, ht⟩ := RecordTree.build_total M sizes 0 (values.length - 1) (Nat.zero_le _)
      (by omega : values.length - 1 < values.length)
    obtain ⟨s, hs, hholds⟩ := initialize_holdsTrees true hpos hroom ht
    refine ⟨[], t, ?_⟩
    unfold ActionTreeParts.run PushCountingModel.run
    rw [List.foldl_nil, List.foldl_nil, copyOnPushPersistentTree, hs, hmodel]
    exact ⟨hholds, RecordTree.build_spans 0 _ (Nat.zero_le _) ht, rfl,
      RecordTree.build_holdsTags hpos 0 _ (Nat.zero_le _) .root ht⟩
  | append_singleton calls u ih =>
    obtain ⟨trees, t, h⟩ := ih
    rw [ActionTreeParts.run_concat, PushCountingModel.run_concat]
    exact h.call hn u

end Runs

end PathCopyingActionTree

end Valseg
