import Valseg.NodeCalls
import Valseg.SmallRuns

/-!
# Runs of perSegTree

Updates of the latest version and queries of any version, one after another. Queries write to the
nodes of the version they read, and so do updates to those of the version before; neither changes
what a version answers.

1. `Stores`: what a run of calls has published. `updateLatest_stores` and `queryVersion_stores` say
   what one call adds to it, and `run_stores` what a run does.
2. `answers_exact`: every answer is the exact sum in the version it asks for, whatever the calls in
   between.
3. `small_runs_return`: on small values no operation is undefined.
4. `nodes_retained`: no node is ever freed, and there are no more of them than full copies would
   take, however many queries are made.
5. `answered_again`: a query that was answered once writes nothing more, ever.
-/

namespace Valseg

namespace PerSegTree

open Segment (length sum midpoint Canonical addOn partSum)
open TypedStore (Typing Typed)
open Effect (Ensures)

/-- A call of a constructed tree. In a query the compiler chooses the order of its operands. -/
inductive Operation where
  | update (l r : ℕ) (value : ValueType)
  | query (leftFirst : Bool) (l r version : ℕ)

/-- What a call returns. -/
def perform : Operation → PointerM (Option ValueType)
  | .update l r value => do
    updateLatest l r value
    return none
  | .query leftFirst l r version => do return some (← queryVersion leftFirst l r version)

/-- The calls one after another. -/
def run : List Operation → PointerM (List (Option ValueType))
  | [] => return []
  | op :: ops => do
    let answer ← perform op
    let answers ← run ops
    return answer :: answers

/-- A construction and the calls after it. -/
def session (values : List ValueType) (ops : List Operation) :
    PointerM (List (Option ValueType)) := do
  constructFrom values
  run ops

namespace Operation

/-- The addition a call makes. -/
def addition : Operation → Option (RangeAdd ℤ)
  | update l r value => some ⟨l, r, value.toInt⟩
  | query .. => none

/-- A query asks for one of the versions that are there. -/
def Asks (count : ℕ) : Operation → Prop
  | update .. => True
  | query _ _ _ version => version < count

instance decidableAsks (count : ℕ) : (op : Operation) → Decidable (op.Asks count)
  | update .. => .isTrue trivial
  | query _ _ _ version => inferInstanceAs (Decidable (version < count))

/-- The history after the call. -/
def after (h : RangeAdds ℤ) (op : Operation) : RangeAdds ℤ :=
  ⟨h.initial, h.updates ++ op.addition.toList⟩

end Operation

/-- The additions of the calls. -/
def additions (ops : List Operation) : List (RangeAdd ℤ) := ops.filterMap Operation.addition

/-- The history after the calls. -/
def afterAll (ops : List Operation) (h : RangeAdds ℤ) : RangeAdds ℤ :=
  ⟨h.initial, h.updates ++ additions ops⟩

/-- The sum a query is for. -/
def exactAnswer (h : RangeAdds ℤ) (n : ℕ) : Operation → Option ℤ
  | .update .. => none
  | .query _ l r version => some (partSum (h.array version) 0 (n - 1) l r)

/-- Every query asks for a version that is there by then, `count` being there at the start. -/
def VersionsFrom : ℕ → List Operation → Prop
  | _, [] => True
  | count, op :: ops => op.Asks count ∧ VersionsFrom (count + op.addition.toList.length) ops

instance decidableVersionsFrom : (count : ℕ) → (ops : List Operation) →
    Decidable (VersionsFrom count ops)
  | _, [] => .isTrue trivial
  | count, op :: ops =>
    haveI := decidableVersionsFrom (count + op.addition.toList.length) ops
    inferInstanceAs (Decidable (op.Asks count ∧ _))

theorem VersionsFrom.asks {count : ℕ} {op : Operation} {ops : List Operation}
    (hv : VersionsFrom count (op :: ops)) : op.Asks count := hv.1

theorem VersionsFrom.rest {h : RangeAdds ℤ} {op : Operation} {ops : List Operation}
    (hv : VersionsFrom h.versionCount (op :: ops)) : VersionsFrom (op.after h).versionCount ops := by
  have hcount : (op.after h).versionCount = h.versionCount + op.addition.toList.length := by
    unfold RangeAdds.versionCount Operation.after
    rw [List.length_append]
    omega
  rw [hcount]
  exact hv.2

theorem afterAll_nil (h : RangeAdds ℤ) : afterAll [] h = h := by
  unfold afterAll additions
  rw [List.filterMap_nil, List.append_nil]

theorem afterAll_cons (op : Operation) (ops : List Operation) (h : RangeAdds ℤ) :
    afterAll (op :: ops) h = afterAll ops (op.after h) := by
  have hlist : additions (op :: ops) = op.addition.toList ++ additions ops := by
    unfold additions
    rw [List.filterMap_cons]
    cases op.addition <;> rfl
  unfold afterAll Operation.after
  simp only [hlist, List.append_assoc]

/-! ## Histories -/

section Histories

variable {h : RangeAdds ℤ} {u : RangeAdd ℤ} {Γ : Typing Span} {t : Span} {x : Node} {n v : ℕ}
  {p : Option ℕ} {d : ℤ}

theorem Stands.add (hp : Stands h Γ p t d) (ht : t.version < h.versionCount) :
    Stands (h.add u) Γ p t d := by
  obtain ⟨a, w, hpa, ha, hw, harray⟩ := hp
  refine ⟨a, w, hpa, ha, hw, fun k h1 h2 => ?_⟩
  rw [RangeAdds.add_array ht, RangeAdds.add_array (hw.trans_lt ht)]
  exact harray k h1 h2

/-- A node stands for the same when there are more versions. -/
theorem Fits.add (hx : Fits h Γ t x) : Fits (h.add u) Γ t x := by
  have hlt := hx.published
  refine ⟨hx.le, ?_, ?_, fun heq => ?_, fun h1 => (hx.left h1).add hlt,
    fun h1 => (hx.right h1).add hlt⟩
  · rw [RangeAdds.add_versionCount]
    omega
  · rw [RangeAdds.add_array hlt]
    exact hx.total
  · obtain ⟨w, hw, hval⟩ := hx.single heq
    refine ⟨w, hw, ?_⟩
    rw [RangeAdds.add_array (hw.trans_lt hlt)]
    exact hval

/-- No version: nothing is loose. -/
def nothing (_ : ℕ) : Prop := False

theorem Valid.add {s : State} (hv : Valid h n Γ nothing nothing s) (u : RangeAdd ℤ) :
    Valid (h.add u) n Γ nothing nothing s :=
  ⟨hv.typed.mono fun _ _ _ _ hx => hx.add, hv.canonical, hv.unique, hv.housed,
    fun _ hl => hl.elim, hv.complete, hv.released, hv.created⟩

/-- Beyond the last version there is the last version. -/
theorem array_min (h : RangeAdds ℤ) (v : ℕ) : h.array v = h.array (min v h.updates.length) := by
  unfold RangeAdds.array
  rcases Nat.le_total v h.updates.length with hle | hle
  · rw [min_eq_left hle]
  · rw [min_eq_right hle, List.take_of_length_le hle, List.take_of_length_le le_rfl]

/-- Earlier versions stay when more additions are made. -/
theorem append_array (h : RangeAdds ℤ) (more : List (RangeAdd ℤ)) (hv : v < h.versionCount) :
    (⟨h.initial, h.updates ++ more⟩ : RangeAdds ℤ).array v = h.array v := by
  unfold RangeAdds.versionCount at hv
  unfold RangeAdds.array
  simp only
  rw [List.take_append_of_le_length (by omega)]

/-- The numbers were small all along. -/
theorem Small.of_append {more : List (RangeAdd ℤ)}
    (hs : Small ⟨h.initial, h.updates ++ more⟩ n) : Small h n := by
  obtain ⟨b, hb, hall⟩ := hs
  have hat : ∀ v, h.array v =
      (⟨h.initial, h.updates ++ more⟩ : RangeAdds ℤ).array (min v h.updates.length) := fun v => by
    rw [append_array h more (by unfold RangeAdds.versionCount; omega)]
    exact array_min h v
  refine ⟨b, hb, fun i hi v => ⟨?_, fun w => ?_⟩⟩
  · rw [hat]
    exact (hall i hi _).1
  · rw [hat v, hat w]
    exact (hall i hi _).2 _

/-- Magnitudes that, added up and times the length, are a `long long`. -/
theorem small_of_bound {values : List ValueType} {updates : List (RangeAdd ℤ)}
    (hb : values.length *
      (largest values + (updates.map fun u => u.amount.natAbs).sum) ≤ 2 ^ 63 - 1)
    (hn : 0 < values.length) : Small ⟨leafArray values, updates⟩ values.length := by
  refine ⟨largest values + (updates.map fun u => u.amount.natAbs).sum, ?_, fun i hi v => ⟨?_, ?_⟩⟩
  · have hlen : length 0 (values.length - 1) = values.length := by unfold Segment.length; omega
    unfold SmallOn
    rwa [hlen, mul_comm]
  · have hle := RangeAdds.natAbs_array_le ⟨leafArray values, updates⟩ v i
    have hinitial : (leafArray values i).natAbs ≤ largest values := by
      rw [leafArray_of_getElem? (List.getElem?_eq_getElem hi)]
      exact natAbs_le_largest (List.getElem_mem hi)
    have htake : ((updates.take v).map fun u => u.amount.natAbs).sum ≤
        (updates.map fun u => u.amount.natAbs).sum :=
      (((List.take_sublist v updates).map _).sum_le_sum fun _ _ => Nat.zero_le _)
    simp only at hle
    omega
  · intro w
    exact (RangeAdds.natAbs_array_sub_le _ w v i).trans (Nat.le_add_left _ _)

end Histories

/-! ## What is published -/

section Calls

variable {values : List ValueType} {updates : List (RangeAdd ℤ)} {Γ : Typing Span} {s s' : State}
  {l r v a : ℕ} {value : ValueType} {leftFirst : Bool} {h : RangeAdds ℤ}

/-- The tree holds the versions of the array: the root of each stands for it. -/
structure Stores (h : RangeAdds ℤ) (n : ℕ) (Γ : Typing Span) (s : State) : Prop where
  valid : Valid h n Γ nothing nothing s
  size : s.n = n
  versions : s.ptrs.length = h.versionCount
  root : ∀ v a, s.ptrs[v]? = some a → ∃ w, Γ a = some ⟨0, n - 1, w⟩ ∧
    ∀ k, 0 ≤ k → k ≤ n - 1 → h.array v k = h.array w k

/-- Versions stay published, and nodes with nothing pending as they are. -/
structure Keeps (s s' : State) : Prop where
  nodes : KeepsSettled s.nodes s'.nodes
  ptrs : s.ptrs <+: s'.ptrs

theorem Keeps.refl (s : State) : Keeps s s := ⟨.refl _, List.prefix_rfl⟩

theorem Keeps.trans {s'' : State} (h1 : Keeps s s') (h2 : Keeps s' s'') : Keeps s s'' :=
  ⟨h1.nodes.trans h2.nodes, h1.ptrs.trans h2.ptrs⟩

variable {n : ℕ}

theorem last_eq (hn : n < 2 ^ 32) (hpos : 0 < n) (h : s.n = n) : last s = n - 1 := by
  unfold last
  rw [h]
  omega

/-- **An update** publishes one more version, or the numbers are not small. -/
theorem updateLatest_stores (hn : n < 2 ^ 32) (hpos : 0 < n) (hs : Stores h n Γ s) (l r : ℕ)
    (value : ValueType) :
    Ensures (¬ Small (h.add ⟨l, r, value.toInt⟩) n) (updateLatest l r value) s fun _ s' =>
      Keeps s s' ∧ ∃ Δ, Stores (h.add ⟨l, r, value.toInt⟩) n Δ s' := by
  obtain ⟨a, ha⟩ : ∃ a, s.ptrs[s.ptrs.length - 1]? = some a :=
    ⟨_, List.getElem?_eq_getElem (by have := h.versionCount_pos; have := hs.versions; omega)⟩
  have hlatest : s.ptrs.length - 1 = h.updates.length := by
    rw [hs.versions]
    rfl
  rw [hlatest] at ha
  obtain ⟨w, hw, harray⟩ := hs.root _ _ ha
  have hpublished : ∀ {c t}, Γ c = some t → t.version < h.versionCount := fun {c t} hc => by
    obtain ⟨x, -, hf⟩ := hs.valid.typed c t hc
    exact hf.published
  have hcount : (h.add ⟨l, r, value.toInt⟩).updates.length = h.versionCount := by
    rw [RangeAdds.add_updates, List.length_append]
    rfl
  have hu : Updates (h.add ⟨l, r, value.toInt⟩) Γ 0 (n - 1) l r value a w := by
    refine ⟨hw, fun c t hc ht => ?_, fun k h1 h2 => ?_⟩
    · have := hpublished hc
      omega
    · rw [RangeAdds.add_latest]
      unfold Segment.addOn
      rw [RangeAdds.add_array (hpublished hw), ← harray k h1 h2]
      rfl
  unfold updateLatest
  refine .bind_ok (Effect.run_get s) (.lift_ok (a := a) ?_ ?_)
  · rw [hlatest]
    exact vectorAt_eq_ok.mpr ha
  rw [last_eq hn hpos hs.size]
  refine .bind (update_makes hn hpos 0 (n - 1) (Nat.zero_le _) (hs.valid.add _) hu)
    fun root t ht => .of_ok (Effect.run_modify _ _) ?_
  obtain ⟨Δ, u, hvt, hgt, hroot, hagree, -⟩ := ht
  refine ⟨⟨hgt.keepsSettled, hgt.ptrs ▸ List.prefix_append _ _⟩, Δ,
    ⟨?_, hgt.n.trans hs.size, ?_, fun v b hb => ?_⟩⟩
  · refine ⟨hvt.typed, hvt.canonical, hvt.unique, fun c w hc => .inr ?_, fun _ hl => hl.elim,
      hvt.complete, hvt.released, hvt.created⟩
    rcases hvt.housed c w hc with (hl | ⟨rfl, rfl⟩) | ⟨h1, h2, h3⟩ | hparent
    · exact hl.elim
    · cases hroot.symm.trans hc
      refine .inl ⟨rfl, rfl, ?_⟩
      have hlen : t.ptrs.length = (h.add ⟨l, r, value.toInt⟩).updates.length := by
        rw [hgt.ptrs, hs.versions, hcount]
      simp only
      rw [← hlen]
      exact List.getElem?_concat_length
    · exact .inl ⟨h1, h2, getElem?_more _ h3⟩
    · exact .inr hparent
  · simp only [List.length_append, List.length_singleton, hgt.ptrs, hs.versions,
      RangeAdds.add_versionCount]
  · simp only [hgt.ptrs] at hb
    rcases getElem?_push hb with ⟨hlt, hb⟩ | ⟨rfl, rfl⟩
    · obtain ⟨m, hm, hmarray⟩ := hs.root v b hb
      refine ⟨m, hgt.types _ _ hm, fun k h1 h2 => ?_⟩
      rw [RangeAdds.add_array (hs.versions ▸ hlt), RangeAdds.add_array (hpublished hm)]
      exact hmarray k h1 h2
    · refine ⟨u, hroot, fun k h1 h2 => ?_⟩
      rw [hs.versions, ← hcount]
      exact hagree k h1 h2

/-- **A query** returns the exact sum and leaves all versions as they are, or the numbers are not
small. -/
theorem queryVersion_stores (hn : n < 2 ^ 32) (hpos : 0 < n) (hs : Stores h n Γ s)
    (hv : v < h.versionCount) (leftFirst : Bool) (l r : ℕ) :
    Ensures (¬ Small h n) (queryVersion leftFirst l r v) s fun c s' =>
      c.toInt = partSum (h.array v) 0 (n - 1) l r ∧
        (∃ a, s'.ptrs[v]? = some a ∧ Answered s'.nodes l r 0 (n - 1) a c) ∧
          Keeps s s' ∧ ∃ Δ, Stores h n Δ s' := by
  obtain ⟨a, ha⟩ : ∃ a, s.ptrs[v]? = some a :=
    ⟨_, List.getElem?_eq_getElem (hs.versions ▸ hv)⟩
  obtain ⟨w, hw, harray⟩ := hs.root v a ha
  unfold queryVersion
  refine .bind_ok (Effect.run_get s) (.lift_ok (vectorAt_eq_ok.mpr ha) ?_)
  rw [last_eq hn hpos hs.size]
  refine (query_sums hn hpos 0 (n - 1) (Nat.zero_le _) (fun _ hl => hl) hs.valid hw).mono
    fun c t ht => ?_
  obtain ⟨⟨Δ, hvt, hgt⟩, hanswered, hsum⟩ := ht
  refine ⟨?_, ⟨a, hgt.ptrs ▸ ha, hanswered⟩,
    ⟨hgt.keepsSettled, hgt.ptrs ▸ List.prefix_rfl⟩, Δ, hvt, hgt.n.trans hs.size, hgt.ptrs ▸ hs.versions, fun u b hb => ?_⟩
  · rw [hsum]
    refine Segment.sum_congr fun k h1 h2 => ?_
    rw [harray k h1 h2]
  · obtain ⟨m, hm, hmarray⟩ := hs.root u b (hgt.ptrs ▸ hb)
    exact ⟨m, hgt.types _ _ hm, hmarray⟩

/-- A version that is not there. -/
theorem queryVersion_missing (hv : s.ptrs.length ≤ v) (leftFirst : Bool) (l r : ℕ) :
    queryVersion leftFirst l r v s = .error .undefined s := by
  have hat : vectorAt s.ptrs v = .error .undefined := by
    unfold vectorAt
    rw [List.getElem?_eq_none hv]
  unfold queryVersion
  rw [Effect.run_bind_ok (Effect.run_get s), hat]
  rfl

/-- **A construction** publishes version 0, or the numbers are not small. -/
theorem constructFrom_stores (hn : values.length < 2 ^ 32) (hne : values ≠ []) :
    Ensures (¬ Small ⟨leafArray values, []⟩ values.length) (constructFrom values) {} fun _ s' =>
      ∃ Γ, Stores ⟨leafArray values, []⟩ values.length Γ s' := by
  have hpos : 0 < values.length := List.length_pos_iff.mpr hne
  have hmod : values.length % 2 ^ 32 = values.length := Nat.mod_eq_of_lt hn
  have hempty : Valid ⟨leafArray values, []⟩ values.length (fun _ => none) nothing nothing
      { n := values.length % 2 ^ 32, vec := values } :=
    ⟨fun _ _ hc => (nomatch hc), fun _ _ hc => (nomatch hc), fun _ _ _ hc => (nomatch hc),
      fun _ _ hc => (nomatch hc), fun _ hl => hl.elim, fun _ hlt => absurd hlt (Nat.not_lt_zero _),
      rfl, rfl⟩
  have hreads : Reads ⟨leafArray values, []⟩ values 0 (values.length - 1) := fun k _ hk => by
    have hlt : k < values.length := by omega
    have hat : values[k]? = some values[k] := List.getElem?_eq_getElem hlt
    exact ⟨_, hat, (leafArray_of_getElem? hat).symm⟩
  unfold constructFrom
  rw [if_neg hne]
  refine .bind_ok (Effect.run_modify _ _) (.bind_ok (Effect.run_get _) ?_)
  rw [last_eq hn hpos hmod]
  refine .bind (construct_makes 0 (values.length - 1) (Nat.zero_le _) hempty
    (fun _ _ hc => (nomatch hc)) (.self (Nat.zero_le _)) hreads)
    fun root t ht => .of_ok (Effect.run_modify _ _) ?_
  obtain ⟨Δ, u, hvt, hgt, hroot, hagree, -⟩ := ht
  have hptrs : t.ptrs = [] := hgt.ptrs
  refine ⟨Δ, ⟨hvt.typed, hvt.canonical, hvt.unique, fun c w hc => .inr ?_, fun _ hl => hl.elim,
    hvt.complete, hvt.released, hvt.created⟩, hgt.n.trans hmod, ?_, fun v b hb => ?_⟩
  · rcases hvt.housed c w hc with (hl | ⟨rfl, rfl⟩) | ⟨-, -, h3⟩ | hparent
    · exact hl.elim
    · cases hroot.symm.trans hc
      refine .inl ⟨rfl, rfl, ?_⟩
      rw [hptrs]
      rfl
    · rw [hptrs] at h3
      cases h3
    · exact .inr hparent
  · rw [hptrs]
    rfl
  · rw [hptrs] at hb
    rcases getElem?_push hb with ⟨hlt, -⟩ | ⟨rfl, rfl⟩
    · exact absurd hlt (Nat.not_lt_zero _)
    · exact ⟨u, hroot, hagree⟩

/-- **One call.** -/
theorem perform_stores (hn : n < 2 ^ 32) (hpos : 0 < n) (hs : Stores h n Γ s) (op : Operation) :
    Ensures (¬ (Small (op.after h) n ∧ op.Asks h.versionCount)) (perform op) s fun answer t =>
      (op.Asks h.versionCount ∧ answer.map Int64.toInt = exactAnswer h n op) ∧
        Keeps s t ∧ ∃ Δ, Stores (op.after h) n Δ t := by
  cases op with
  | update l r value =>
    refine .bind ((updateLatest_stores hn hpos hs l r value).weaken ?_)
      fun _ t ht => .pure ⟨⟨trivial, rfl⟩, ht⟩
    exact fun hns hsmall => hns hsmall.1
  | query leftFirst l r v =>
    by_cases hv : v < h.versionCount
    · refine .bind ((queryVersion_stores hn hpos hs hv leftFirst l r).weaken ?_)
        fun c t ht => .pure ⟨⟨hv, congrArg some ht.1⟩, ht.2.2.1, ?_⟩
      · intro hns hsmall
        rw [Operation.after, Operation.addition, Option.toList_none, List.append_nil] at hsmall
        exact hns hsmall.1
      · rw [Operation.after, Operation.addition, Option.toList_none, List.append_nil]
        exact ht.2.2.2
    · have hmissing := queryVersion_missing (hs.versions.symm ▸ not_lt.mp hv : s.ptrs.length ≤ v)
        leftFirst l r
      exact .of_error (Effect.run_bind_error hmissing) fun hsmall => hv hsmall.2

/-- A call's answer is the same in a longer history. -/
theorem exactAnswer_append {op : Operation} (hop : op.Asks h.versionCount)
    (more : List (RangeAdd ℤ)) :
    exactAnswer ⟨h.initial, h.updates ++ more⟩ n op = exactAnswer h n op := by
  cases op with
  | update => rfl
  | query leftFirst l r v => rw [exactAnswer, exactAnswer, append_array h more hop]

/-- **A run of calls.** -/
theorem run_stores (hn : n < 2 ^ 32) (hpos : 0 < n) (ops : List Operation) :
    ∀ {h Γ s}, Stores h n Γ s →
      Ensures (¬ (Small (afterAll ops h) n ∧ VersionsFrom h.versionCount ops)) (run ops) s
        fun answers s' =>
          answers.map (Option.map Int64.toInt) = ops.map (exactAnswer (afterAll ops h) n) ∧
            Keeps s s' ∧ ∃ Δ, Stores (afterAll ops h) n Δ s' := by
  induction ops with
  | nil =>
    intro h Γ s hs
    refine .pure ⟨rfl, .refl s, Γ, ?_⟩
    rwa [afterAll_nil]
  | cons op ops ih =>
    intro h Γ s hs
    rw [afterAll_cons, run]
    have hstep := (perform_stores hn hpos hs op).weaken
      (G := ¬ (Small (afterAll ops (op.after h)) n ∧ VersionsFrom h.versionCount (op :: ops)))
      fun hns hall => hns ⟨hall.1.of_append, hall.2.asks⟩
    refine hstep.bind fun answer t ht => ?_
    obtain ⟨⟨hop, hanswer⟩, hkeeps, Δ, hst⟩ := ht
    have hrest := (ih hst).weaken
      (G := ¬ (Small (afterAll ops (op.after h)) n ∧ VersionsFrom h.versionCount (op :: ops)))
      fun hns hall => hns ⟨hall.1, hall.2.rest⟩
    refine hrest.bind fun answers s' hs' => .pure ?_
    obtain ⟨hanswers, hkeeps', hstores⟩ := hs'
    refine ⟨?_, hkeeps.trans hkeeps', hstores⟩
    rw [List.map_cons, List.map_cons, hanswers, hanswer, ← afterAll_cons, afterAll,
      exactAnswer_append hop]

/-- **A construction and the calls after it.** -/
theorem session_stores (hn : values.length < 2 ^ 32) (hne : values ≠ []) (ops : List Operation) :
    Ensures (¬ (Small ⟨leafArray values, additions ops⟩ values.length ∧ VersionsFrom 1 ops))
      (session values ops) {} fun answers s' =>
        answers.map (Option.map Int64.toInt) =
          ops.map (exactAnswer ⟨leafArray values, additions ops⟩ values.length) ∧
        ∃ Δ, Stores ⟨leafArray values, additions ops⟩ values.length Δ s' := by
  have hpos : 0 < values.length := List.length_pos_iff.mpr hne
  have hbuild := (constructFrom_stores hn hne).weaken
    (G := ¬ (Small ⟨leafArray values, additions ops⟩ values.length ∧ VersionsFrom 1 ops))
    fun hns hall => hns (Small.of_append (h := ⟨leafArray values, []⟩) hall.1)
  refine hbuild.bind fun _ t ht => ?_
  obtain ⟨Γ, hs⟩ := ht
  exact (run_stores hn hpos ops hs).mono fun answers s' hs' => ⟨hs'.1, hs'.2.2⟩

end Calls

/-! ## Nodes -/

section Nodes

variable {h : RangeAdds ℤ} {Γ : Typing Span} {s : State} {n a : ℕ} {t : Span}

/-- The node can be read from the root. -/
abbrev Reaches : List Node → (root a : ℕ) → Prop :=
  LeadsTo fun x c => x.left = some c ∨ x.right = some c

/-- Every node can be read from the root of its version. -/
theorem Valid.reaches (hv : Valid h n Γ nothing nothing s) (ha : Γ a = some t) :
    ∃ root, s.ptrs[t.version]? = some root ∧ Reaches s.nodes root a := by
  -- a parent has a longer segment
  induction hk : n - (t.hi - t.lo) using Nat.strong_induction_on generalizing a t with
  | _ k ih =>
    rcases hv.housed a t ha with hl | ⟨-, -, hroot⟩ | ⟨p, q, x, hp, hx, -, hlt, hchild⟩
    · exact hl.elim
    · exact ⟨a, hroot, .refl⟩
    · have h1 := Segment.le_midpoint q.lo q.hi
      have h2 := Segment.midpoint_lt hlt
      have hbounds := (hv.canonical p q hp).bounds
      have hversion : t.version = q.version := by rcases hchild with ⟨-, rfl⟩ | ⟨-, rfl⟩ <;> rfl
      have hlonger : n - (q.hi - q.lo) < k := by
        rcases hchild with ⟨-, rfl⟩ | ⟨-, rfl⟩
        · simp only [Span.left] at hk
          omega
        · simp only [Span.right] at hk
          omega
      obtain ⟨root, hroot, hreach⟩ := ih _ hlonger hp rfl
      exact ⟨root, hversion ▸ hroot, hreach.tail ⟨x, hx, hchild.imp And.left And.left⟩⟩

/-- There are no more nodes than versions of canonical segments. -/
theorem Stores.length_le (hs : Stores h n Γ s) (hpos : 0 < n) :
    s.nodes.length ≤ (2 * n - 1) * h.versionCount := by
  have htype : ∀ a, a < s.nodes.length → ∃ t, Γ a = some t := fun a ha => by
    rcases hg : Γ a with _ | t
    · exact (hs.valid.complete a ha hg).elim
    · exact ⟨t, rfl⟩
  have hinj : s.nodes.length ≤
      (Segment.canonicals 0 (n - 1) ×ˢ Finset.range h.versionCount).card := by
    rw [← Finset.card_range s.nodes.length]
    refine Finset.card_le_card_of_injOn
      (fun a => ((Γ a).elim ((0, 0), 0) fun t => ((t.lo, t.hi), t.version)))
      (fun a ha => ?_) fun a ha b hb hab => ?_
    · obtain ⟨t, ht⟩ := htype a (Finset.mem_range.mp ha)
      obtain ⟨x, -, hf⟩ := hs.valid.typed a t ht
      simp only [ht, Option.elim_some, Finset.coe_product, Set.mem_prod, Finset.mem_coe]
      exact ⟨(Segment.mem_canonicals 0 (n - 1) (Nat.zero_le _)).mpr (hs.valid.canonical a t ht),
        Finset.mem_range.mpr hf.published⟩
    · obtain ⟨t, ht⟩ := htype a (Finset.mem_range.mp ha)
      obtain ⟨u, hu⟩ := htype b (Finset.mem_range.mp hb)
      simp only [ht, hu, Option.elim_some, Prod.mk.injEq] at hab
      obtain ⟨⟨h1, h2⟩, h3⟩ := hab
      have heq : t = u := by
        cases t
        cases u
        simp only at h1 h2 h3
        rw [h1, h2, h3]
      exact hs.valid.unique a b t ht (heq ▸ hu)
  rw [Finset.card_product, Finset.card_range] at hinj
  have hcard := Segment.card_canonicals_le 0 (n - 1) (Nat.zero_le _)
  exact hinj.trans (Nat.mul_le_mul_right _ (by omega))

end Nodes

/-! ## Sessions -/

section Sessions

variable {values : List ValueType} {ops more : List Operation} {s s₁ s₂ : State}
  {answers answers' : List (Option ValueType)} {c : ValueType} {l r v : ℕ} {leftFirst : Bool}

/-- **Exact answers.** Whatever else is called in between, a query returns the sum of its range in
the version it asks for. -/
theorem answers_exact (hne : values ≠ []) (hlen : values.length < 2 ^ 32)
    (hrun : session values ops {} = .ok answers s) :
    answers.map (Option.map Int64.toInt) =
      ops.map (exactAnswer ⟨leafArray values, additions ops⟩ values.length) :=
  ((session_stores hlen hne ops).apply hrun).1

/-- Queries of versions 0 and 1 before and after the update that makes version 2. -/
abbrev crossedOperations : List Operation :=
  [.update 1 3 10, .query true 0 2 0, .query true 2 3 1, .update 0 4 (-2), .query false 2 3 1,
    .query false 1 4 2, .query true 0 2 0]

theorem answers_exact_crossed :
    ([none, some 6, some 27, none, some 27, some 36, some 6] : List (Option ℤ)) =
      crossedOperations.map (exactAnswer ⟨leafArray [1, 2, 3, 4, 5], additions crossedOperations⟩
        5) := by
  obtain ⟨s, hs⟩ := Effect.outcome_eq_ok.mp (show Effect.outcome
    (session [1, 2, 3, 4, 5] crossedOperations {}) =
      .ok [none, some 6, some 27, none, some 27, some 36, some 6] by decide +kernel)
  exact answers_exact (by decide) (by decide) hs

/-- **Small values.** No operation on values is undefined, in the nodes a call writes and in what
it returns, where the magnitudes, added up and times the length, are a `long long`. -/
theorem small_runs_return (hne : values ≠ []) (hlen : values.length < 2 ^ 32)
    (hbound : values.length * (largest values +
      ((additions ops).map fun u => u.amount.natAbs).sum) ≤ 2 ^ 63 - 1)
    (hversions : VersionsFrom 1 ops) : ∃ answers s, session values ops {} = .ok answers s := by
  have hsmall := small_of_bound hbound (List.length_pos_iff.mpr hne)
  obtain ⟨answers, s, hrun, -⟩ := (session_stores hlen hne ops).returns
    (not_not.mpr ⟨hsmall, hversions⟩)
  exact ⟨answers, s, hrun⟩

theorem small_runs_return_brimming :
    ∃ answers s, session [1, -1, 1] [.update 0 1 3074457345618258601, .query true 0 2 1] {} =
      .ok answers s :=
  small_runs_return (by decide) (by decide) (by decide +kernel) (by decide)

/-- **Retained nodes.** No node is ever freed, each can be read from the root of some version, and
queries do not take the number of nodes beyond that of full copies of all versions. -/
theorem nodes_retained (hne : values ≠ []) (hlen : values.length < 2 ^ 32)
    (hrun : session values ops {} = .ok answers s) :
    s.released = [] ∧ s.created = s.nodes.length ∧
      (∀ a < s.nodes.length, ∃ root ∈ s.ptrs, Reaches s.nodes root a) ∧
        s.created ≤ (2 * values.length - 1) * s.ptrs.length := by
  obtain ⟨-, Γ, hs⟩ := (session_stores hlen hne ops).apply hrun
  refine ⟨hs.valid.released, hs.valid.created, fun a ha => ?_, ?_⟩
  · rcases hg : Γ a with _ | t
    · exact (hs.valid.complete a ha hg).elim
    · obtain ⟨root, hroot, hreach⟩ := hs.valid.reaches hg
      exact ⟨root, List.mem_of_getElem? hroot, hreach⟩
  · rw [hs.valid.created, hs.versions]
    exact hs.length_le (List.length_pos_iff.mpr hne)

theorem nodes_retained_crossed :
    (Effect.finalState (session [1, 2, 3, 4, 5] crossedOperations {})).created ≤ 9 * 3 := by
  obtain ⟨s, hs⟩ := Effect.outcome_eq_ok.mp (show Effect.outcome
    (session [1, 2, 3, 4, 5] crossedOperations {}) =
      .ok [none, some 6, some 27, none, some 27, some 36, some 6] by decide +kernel)
  have hcount : (Effect.finalState (session [1, 2, 3, 4, 5] crossedOperations {})).ptrs.length =
      3 := by decide +kernel
  have hle := (nodes_retained (by decide) (by decide) hs).2.2.2
  rw [hs] at hcount ⊢
  rwa [Effect.finalState_ok, ← hcount]

/-- **Answered once, answered for good.** However many updates and queries follow, the same query
returns the same and leaves the tree as it is. -/
theorem answered_again (hne : values ≠ []) (hlen : values.length < 2 ^ 32)
    (hrun : session values ops {} = .ok answers s)
    (hquery : queryVersion leftFirst l r v s = .ok c s₁)
    (hmore : run more s₁ = .ok answers' s₂) (order : Bool) :
    queryVersion order l r v s₂ = .ok c s₂ := by
  have hpos : 0 < values.length := List.length_pos_iff.mpr hne
  obtain ⟨-, Γ, hs⟩ := (session_stores hlen hne ops).apply hrun
  have hv : v < (⟨leafArray values, additions ops⟩ : RangeAdds ℤ).versionCount := by
    by_contra hge
    rw [queryVersion_missing (hs.versions.symm ▸ not_lt.mp hge : s.ptrs.length ≤ v)] at hquery
    cases hquery
  obtain ⟨-, ⟨a, ha, hanswered⟩, -, Δ, hs₁⟩ :=
    (queryVersion_stores hlen hpos hs hv leftFirst l r).apply hquery
  obtain ⟨-, hkeeps, Λ, hs₂⟩ := (run_stores hlen hpos more hs₁).apply hmore
  have ha₂ : s₂.ptrs[v]? = some a := by
    obtain ⟨rest, hrest⟩ := hkeeps.ptrs
    rw [← hrest]
    exact getElem?_more rest ha
  unfold queryVersion
  rw [Effect.run_bind_ok (Effect.run_get s₂), vectorAt_eq_ok.mpr ha₂, Effect.liftM_ok_bind,
    last_eq hlen hpos hs₂.size]
  exact (hanswered.mono hkeeps.nodes).query_eq order

/-- An old version is read again, in the other order, after an update and a query. -/
theorem answered_again_crossed : ∃ s s₁ s₂, queryVersion true 1 2 1 s = .ok 25 s₁ ∧
    run [.update 0 4 1, .query true 0 4 2] s₁ = .ok [none, some 50] s₂ ∧
      queryVersion false 1 2 1 s₂ = .ok 25 s₂ := by
  obtain ⟨t, ht⟩ := Effect.outcome_eq_ok.mp (show Effect.outcome ((do
      let answers ← session [1, 2, 3, 4, 5] [.update 1 3 10]
      let c ← queryVersion true 1 2 1
      let answers' ← run [.update 0 4 1, .query true 0 4 2]
      return (answers, c, answers')) {}) =
        .ok ([none], (25 : ValueType), [none, some (50 : ValueType)]) by decide +kernel)
  obtain ⟨answers, s, hrun, ht⟩ := Effect.run_bind_eq_ok.mp ht
  obtain ⟨c, s₁, hquery, ht⟩ := Effect.run_bind_eq_ok.mp ht
  obtain ⟨answers', s₂, hmore, ht⟩ := Effect.run_bind_eq_ok.mp ht
  cases ht
  exact ⟨s, s₁, t, hquery, hmore,
    answered_again (by decide) (by decide) hrun hquery hmore false⟩

end Sessions

end PerSegTree

end Valseg
