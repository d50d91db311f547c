import Valseg.SmallLoads

/-!
# Runs on small values

An array and additions whose magnitudes, added up and times the length of the array, are a
`long long` (`SmallValues`). In every structure the loads of the stored trees stay below that
(`VersionedTrees.LoadedBy`), whichever way the next tree is made, and so does the bound of the
guard. `Simulation.flawless` says that a structure that stores the trees does not throw along such
a run, given that it throws only what they throw or for lack of room (`Simulation.Answers`).
-/

namespace Valseg

open Segment (length addOn)

/-! ## Versioned trees -/

/-- The bound on the magnitudes grows by the delta's, or less. -/
theorem saturatedAdd_le (a b : ℕ) : saturatedAdd a b ≤ a + b := by
  unfold saturatedAdd
  simp only
  split_ifs <;> omega

theorem maxMagnitude_le {values : List ValueType} {b : ℕ}
    (h : ∀ x ∈ values, x.toInt.natAbs ≤ b) : maxMagnitude values ≤ b := by
  have key : ∀ (xs : List ValueType) (c : ℕ), c ≤ b → (∀ x ∈ xs, x.toInt.natAbs ≤ b) →
      xs.foldl (fun m v => if magnitude v > m then magnitude v else m) c ≤ b := by
    intro xs
    induction xs with
    | nil => exact fun c hc _ => hc
    | cons x xs ih =>
      intro c hc hxs
      have hx : magnitude x ≤ b := by
        rw [magnitude_eq]
        exact hxs x List.mem_cons_self
      refine ih _ ?_ fun y hy => hxs y (List.mem_cons_of_mem _ hy)
      show (if magnitude x > c then magnitude x else c) ≤ b
      split_ifs <;> omega
  exact key values 0 (Nat.zero_le b) h

/-- The guard admits the addition without a traversal. -/
theorem Discipline.preflight_of_load (D : Discipline) {guard : SumAddDomainGuard} {n b : ℕ}
    (l r : ℕ) {value : ValueType} (t : SumTree) (hn : 0 < n) (hg : guard.magnitudeBound ≤ b)
    (hb : SmallOn (b + value.toInt.natAbs) 0 (n - 1)) :
    ∃ c, D.preflight guard n l r value t = .ok c ∧ c ≤ b + value.toInt.natAbs := by
  have hle : saturatedAdd guard.magnitudeBound (magnitude value) ≤ b + value.toInt.natAbs := by
    have := saturatedAdd_le guard.magnitudeBound (magnitude value)
    rw [magnitude_eq] at this ⊢
    omega
  have hlen : length 0 (n - 1) = n := by unfold Segment.length; omega
  have hsmall : (b + value.toInt.natAbs) * n ≤ 2 ^ 63 - 1 := hlen ▸ hb
  have hproves : provesCanonicalRepresentability
      (saturatedAdd guard.magnitudeBound (magnitude value)) n = true :=
    (provesCanonicalRepresentability_iff hn).mpr ((Nat.mul_le_mul_right n hle).trans hsmall)
  unfold Discipline.preflight
  split_ifs
  · exact ⟨_, if_pos hproves, hle⟩
  · exact ⟨_, rfl, hg.trans (Nat.le_add_right _ _)⟩

namespace VersionedTrees

/-- The load of every tree and the bound of the guard are at most `b`. -/
structure LoadedBy (m : VersionedTrees) (b : ℕ) : Prop where
  trees : ∀ t ∈ m.trees, t.load Int64.toInt ≤ b
  guard : m.guard.magnitudeBound ≤ b

variable {D : Discipline} {h : RangeAdds ℤ} {m : VersionedTrees} {b l r v : ℕ}
  {value : ValueType}

/-- **Version 0.** -/
theorem initializeFrom_of_load {values : List ValueType} (hn : 0 < values.length)
    (hx : ∀ x ∈ values, x.toInt.natAbs ≤ b) (hb : SmallOn b 0 (values.length - 1)) :
    ∃ m, VersionedTrees.initializeFrom values = .ok m ∧ m.LoadedBy b := by
  have helement : ∀ i, 0 ≤ i → i ≤ values.length - 1 → (leafArray values i).natAbs ≤ b := by
    intro i _ hi
    have hi' : i < values.length := by omega
    have hat : values[i]? = some values[i] := List.getElem?_eq_getElem hi'
    rw [leafArray_of_getElem? hat]
    exact hx _ (List.getElem_mem hi')
  rcases SumTree.build_spec values 0 (values.length - 1) (Nat.zero_le _) (by omega) with
    ⟨t, ht, hrep, htag, -, -, -⟩ | ⟨-, hf⟩
  · refine ⟨⟨values.length, [t], .ofValues values⟩, ?_, fun u hu => ?_, maxMagnitude_le hx⟩
    · rw [VersionedTrees.initializeFrom, if_neg (List.ne_nil_of_length_pos hn), ht]
      rfl
    · obtain rfl := List.mem_singleton.mp hu
      exact hrep.load_le_of_untagged htag helement
  · exact absurd (hb.canonicalFit helement) hf

/-- **One addition** returns, and the loads grow by no more than its magnitude. -/
theorem Valid.rangeAdd_of_load (hv : Valid D h m) (hD : D.Gentle) (hl : m.LoadedBy b)
    (hlr : l ≤ r) (hr : r < m.size) (hb : SmallOn (b + value.toInt.natAbs) 0 (m.size - 1)) :
    ∃ m', m.rangeAdd D l r value = .ok m' ∧ m'.LoadedBy (b + value.toInt.natAbs) := by
  obtain ⟨t, ht, hlatest⟩ := hv.latest
  obtain ⟨hrep, hkeep, -⟩ := hlatest (by omega)
  have hsize := hv.size_le
  have hload := hl.trees t (List.mem_of_getElem? ht)
  have hold : ∀ u ∈ m.trees, u.load Int64.toInt ≤ b + value.toInt.natAbs :=
    fun u hu => (hl.trees u hu).trans (Nat.le_add_right _ _)
  have more : ∀ {t'}, t'.load Int64.toInt ≤ b + value.toInt.natAbs →
      ∀ u ∈ m.trees ++ [t'], u.load Int64.toInt ≤ b + value.toInt.natAbs := by
    intro t' ht' u hu
    rcases List.mem_append.mp hu with hu | hu
    · exact hold u hu
    · rw [List.mem_singleton.mp hu]
      exact ht'
  by_cases h0 : value = 0
  · subst h0
    refine ⟨_, VersionedTrees.rangeAdd_zero hlr hr ht, more (hload.trans (Nat.le_add_right _ _)),
      hl.guard.trans (Nat.le_add_right _ _)⟩
  · obtain ⟨c, hc, hcle⟩ := D.preflight_of_load l r t (by omega) hl.guard hb
    have hsmall : SmallOn (t.load Int64.toInt + value.toInt.natAbs) 0 (m.size - 1) :=
      hb.mono (by omega)
    obtain ⟨t', ht', hload'⟩ :=
      hD (show m.size - 1 < maxLength by omega) hlr (by omega) hrep hkeep hsmall
    exact ⟨_, VersionedTrees.rangeAdd_publishes hlr hr h0 ht hc ht', more (by omega), hcle⟩

/-- **Sums** are returned. -/
theorem Valid.rangeSum_of_load (hv : Valid D h m) (hl : m.LoadedBy b) (hver : v < h.versionCount)
    (hlr : l ≤ r) (hr : r < m.size) (hb : SmallOn b 0 (m.size - 1)) :
    ∃ x, m.rangeSum v l r = .ok x ∧ x.toInt = Segment.sum (h.array v) l r := by
  obtain ⟨t, ht⟩ : ∃ t, m.trees[v]? = some t :=
    ⟨_, List.getElem?_eq_getElem (by rw [hv.versions]; exact hver)⟩
  have hsize := hv.size_le
  have hload := hl.trees t (List.mem_of_getElem? ht)
  obtain ⟨x, hx⟩ := SumTree.query_of_load 0 l r (show m.size - 1 < maxLength by omega)
    (hv.represents (by omega) v t ht)
    (hb.mono (by rw [Int64.toInt_zero, Int.natAbs_zero, Nat.zero_add]; exact hload))
  have hsum : m.rangeSum v l r = .ok x := by rw [rangeSum_eq_query ht hlr hr, hx]
  exact ⟨x, hsum, hv.rangeSum_exact hsum⟩

/-- The elements of a version are at most the load. -/
theorem Valid.natAbs_array_le {i : ℕ} (hv : Valid D h m) (hl : m.LoadedBy b)
    (hver : v < h.versionCount) (hi : i < m.size) : (h.array v i).natAbs ≤ b := by
  obtain ⟨t, ht⟩ : ∃ t, m.trees[v]? = some t :=
    ⟨_, List.getElem?_eq_getElem (by rw [hv.versions]; exact hver)⟩
  exact ((hv.represents (by omega) v t ht).natAbs_le_load (Nat.zero_le i) (by omega)).trans
    (hl.trees t (List.mem_of_getElem? ht))

end VersionedTrees

/-! ## The regime -/

/-- The largest magnitude of the array. -/
def largest (values : List ValueType) : ℕ := (values.map fun x => x.toInt.natAbs).foldr max 0

/-- The magnitudes of the deltas, added up. -/
def spread (adds : List (RangeAdd ValueType)) : ℕ := (adds.map fun u => u.amount.toInt.natAbs).sum

/-- Valid additions to a nonempty array, small enough. -/
structure SmallValues (values : List ValueType) (adds : List (RangeAdd ValueType)) : Prop where
  nonempty : 0 < values.length
  valid : ∀ u ∈ adds, u.left ≤ u.right ∧ u.right < values.length
  bound : values.length * (largest values + spread adds) ≤ 2 ^ 63 - 1

/-- The versions of the array. -/
def versionsOf (values : List ValueType) (adds : List (RangeAdd ValueType)) : RangeAdds ℤ :=
  ⟨leafArray values, adds.map fun u => ⟨u.left, u.right, u.amount.toInt⟩⟩

section Regime

variable {values : List ValueType} {adds more : List (RangeAdd ValueType)} {u : RangeAdd ValueType}

theorem natAbs_le_largest {x : ValueType} (hx : x ∈ values) : x.toInt.natAbs ≤ largest values :=
  List.le_max_of_le (List.mem_map_of_mem hx) le_rfl

theorem spread_append : spread (adds ++ more) = spread adds + spread more := by
  unfold spread
  rw [List.map_append, List.sum_append]

theorem spread_concat : spread (adds ++ [u]) = spread adds + u.amount.toInt.natAbs := by
  rw [spread_append]
  rfl

/-- The deltas before a point of the run, added up. -/
theorem spread_take_le (k : ℕ) : spread (adds.take k) ≤ spread adds := by
  rw [← List.take_append_drop k adds, spread_append, List.take_append_drop]
  exact Nat.le_add_right _ _

theorem natAbs_le_spread (hu : u ∈ adds) : u.amount.toInt.natAbs ≤ spread adds :=
  List.single_le_sum (fun _ _ => Nat.zero_le _) _
    (List.mem_map_of_mem (f := fun u : RangeAdd ValueType => u.amount.toInt.natAbs) hu)

theorem SmallValues.smallOn (hs : SmallValues values adds) :
    SmallOn (largest values + spread adds) 0 (values.length - 1) := by
  have hn := hs.nonempty
  have hlen : length 0 (values.length - 1) = values.length := by unfold Segment.length; omega
  unfold SmallOn
  rw [hlen, mul_comm]
  exact hs.bound

/-- A run is small up to every point. -/
theorem SmallValues.take (hs : SmallValues values adds) (k : ℕ) :
    SmallValues values (adds.take k) :=
  ⟨hs.nonempty, fun u hu => hs.valid u (List.mem_of_mem_take hu),
    (Nat.mul_le_mul_left _ (Nat.add_le_add_left (spread_take_le k) _)).trans hs.bound⟩

/-- Up to a version, the versions of a run are those of its beginning. -/
theorem versionsOf_take {k v : ℕ} (hv : v ≤ k) :
    (versionsOf values (adds.take k)).array v = (versionsOf values adds).array v := by
  unfold versionsOf RangeAdds.array
  simp only
  rw [← List.map_take, ← List.map_take, List.take_take, min_eq_left hv]

end Regime

/-! ## Structures that store versioned trees -/

/-- Nothing throws along the run, and its states answer every sum they are asked for. -/
structure Flawless {ι ρ σ : Type} (E : Engine ι ρ σ) (answers : ℕ → σ → Prop) (a : ι)
    (adds : List (RangeAdd ValueType)) : Prop where
  opens : Returns (E.opening a)
  returns : ∀ k (hk : k < adds.length), Returns (E.answer (E.after a (adds.take k)) adds[k])
  sums : ∀ k ≤ adds.length, answers k (E.after a (adds.take k))

/-- After `k` additions there are `k + 1` versions, and the sums of each of them are returned. -/
def SumsOfAll {σ : Type} (values : List ValueType) (adds : List (RangeAdd ValueType))
    (versionCount : σ → Except Exception ℕ)
    (rangeSum : σ → (version left right : ℕ) → Except Exception ValueType) (k : ℕ) (s : σ) : Prop :=
  (versionCount s = .ok (k + 1) ∨ OutOfRoom (versionCount s)) ∧
    ∀ v ≤ k, ∀ l r, l ≤ r → r < values.length →
      ∃ x, rangeSum s v l r = .ok x ∧ x.toInt = Segment.sum ((versionsOf values adds).array v) l r

/-- After `k` additions the sums of the latest version are returned. -/
def SumsOfLatest {σ : Type} (values : List ValueType) (adds : List (RangeAdd ValueType))
    (rangeSum : σ → (left right : ℕ) → Except Exception ValueType) (k : ℕ) (s : σ) : Prop :=
  ∀ l r, l ≤ r → r < values.length →
    ∃ x, rangeSum s l r = .ok x ∧ x.toInt = Segment.sum ((versionsOf values adds).array k) l r

namespace Simulation

variable {ι ρ σ : Type} {E : Engine ι ρ σ} {D : Discipline} {S : Simulation E D} {a : ι}
  {adds : List (RangeAdd ValueType)} {u : RangeAdd ValueType} {counting : Prop}

/-- Where the versioned trees return so does the structure, if there is room. Only a structure
that is `counting` looks for room before an addition. -/
structure Answers (S : Simulation E D) (a : ι) (counting : Prop) : Prop where
  opening : ∀ {e s'}, E.initializeFrom a E.empty = .error e s' →
    e.OutOfRoom ∨ VersionedTrees.initializeFrom (E.values a) = .error e
  answer : ∀ {h : History ι} {s s' : σ} {m : VersionedTrees} {l r : ℕ} {value : ValueType}
    {e : Exception}, S.Rel h s m → m.Valid D h.adds → E.rangeAdd l r value s = .error e s' →
    (counting ∧ e.OutOfRoom) ∨ ∃ e', m.rangeAdd D l r value = .error e'

/-- The history of a run whose additions all return. -/
def historyAfter (E : Engine ι ρ σ) (a : ι) (adds : List (RangeAdd ValueType)) : History ι :=
  ⟨a, (E.values a).length, versionsOf (E.values a) adds⟩

/-- The state after the run stores trees whose loads are those of the array and the deltas. -/
def StoresSmall (S : Simulation E D) (a : ι) (adds : List (RangeAdd ValueType)) (s : σ) : Prop :=
  ∃ m, S.Rel (historyAfter E a adds) s m ∧ m.Valid D (versionsOf (E.values a) adds) ∧
    m.size = (E.values a).length ∧ m.LoadedBy (largest (E.values a) + spread adds)

/-- **Opening.** -/
theorem opens_small (hA : S.Answers a counting) (hs : SmallValues (E.values a) [])
    (hroom : ¬ OutOfRoom (E.opening a)) :
    Returns (E.opening a) ∧ S.StoresSmall a [] (E.after a []) := by
  obtain ⟨m, hm, hl⟩ := VersionedTrees.initializeFrom_of_load hs.nonempty
    (fun x hx => (natAbs_le_largest hx).trans (Nat.le_add_right _ _)) hs.smallOn
  rcases hi : E.initializeFrom a E.empty with ⟨u, s'⟩ | ⟨e, s'⟩
  · obtain ⟨hlen, m', hm', hrel⟩ := S.initialize_ok hi
    rw [hm] at hm'
    cases hm'
    obtain ⟨hsize, hvalid⟩ := VersionedTrees.Valid.initializeFrom (D := D) hlen hm
    refine ⟨Engine.returns_opening hi, m, ?_, hvalid, hsize, hl⟩
    show S.Rel _ (Effect.finalState (E.initializeFrom a E.empty)) m
    rw [hi]
    exact hrel
  · rcases hA.opening hi with hout | he
    · rw [Engine.opening, hi] at hroom
      exact absurd hout hroom
    · rw [hm] at he
      cases he

/-- **One addition.** -/
theorem StoresSmall.step (hA : S.Answers a counting) (hD : D.Gentle)
    (hs : SmallValues (E.values a) (adds ++ [u]))
    (hroom : counting → ¬ OutOfRoom (E.answer (E.after a adds) u))
    (hst : S.StoresSmall a adds (E.after a adds)) :
    Returns (E.answer (E.after a adds) u) ∧
      S.StoresSmall a (adds ++ [u]) (E.after a (adds ++ [u])) := by
  obtain ⟨m, hrel, hvalid, hsize, hl⟩ := hst
  obtain ⟨hlr, hr⟩ := hs.valid u (List.mem_append_right _ (List.mem_singleton.mpr rfl))
  have hsmall := hs.smallOn
  rw [spread_concat, ← Nat.add_assoc] at hsmall
  obtain ⟨m', hm', hl'⟩ := hvalid.rangeAdd_of_load hD hl hlr (hsize ▸ hr) (hsize ▸ hsmall)
  rcases hi : E.rangeAdd u.left u.right u.amount (E.after a adds) with ⟨x, s'⟩ | ⟨e, s'⟩
  · obtain ⟨m'', hm'', hrel'⟩ := S.rangeAdd_ok hrel hvalid hi
    rw [hm'] at hm''
    cases hm''
    obtain ⟨hsize', -, hvalid'⟩ := hvalid.rangeAdd hm'
    have hhistory : (historyAfter E a adds).add ⟨u.left, u.right, u.amount.toInt⟩ =
        historyAfter E a (adds ++ [u]) := by
      unfold historyAfter versionsOf
      rw [List.map_append]
      rfl
    refine ⟨Engine.returns_answer hi, m', ?_, ?_, hsize'.trans hsize, ?_⟩
    · rw [Engine.after_concat, (Engine.answer_ok hi).2, ← hhistory]
      exact hrel'
    · unfold versionsOf at hvalid' ⊢
      rw [List.map_append]
      exact hvalid'
    · rw [spread_concat, ← Nat.add_assoc]
      exact hl'
  · rcases hA.answer hrel hvalid hi with ⟨hc, hout⟩ | ⟨e', he⟩
    · refine absurd ?_ (hroom hc)
      rw [(Engine.answer_error hi).1]
      exact hout
    · rw [hm'] at he
      cases he

/-- **Runs.** -/
theorem run_small (hA : S.Answers a counting) (hD : D.Gentle) (hopen : ¬ OutOfRoom (E.opening a))
    (hs : SmallValues (E.values a) adds) (hroom : counting → E.HasRoom a adds) :
    S.StoresSmall a adds (E.after a adds) := by
  induction adds using List.reverseRecOn with
  | nil => exact (opens_small hA hs hopen).2
  | append_singleton adds u ih =>
    have hinit := hs.take adds.length
    rw [List.take_left] at hinit
    exact ((ih hinit fun hc => (hroom hc).concat.1).step hA hD hs
      fun hc => (hroom hc).concat.2).2

/-- A run has room up to every point. -/
theorem hasRoom_take {k : ℕ} (h : E.HasRoom a adds) : E.HasRoom a (adds.take k) := by
  intro j hj
  have hj' := hj
  rw [List.length_take] at hj'
  have := h j (by omega)
  rwa [List.take_take, min_eq_left (by omega), List.getElem_take]

/-- **Nothing throws**, and what the stored trees answer is answered after every addition. -/
theorem flawless (hA : S.Answers a counting) (hD : D.Gentle) (hopen : ¬ OutOfRoom (E.opening a))
    (hs : SmallValues (E.values a) adds) (hroom : counting → E.HasRoom a adds)
    {answers : ℕ → σ → Prop}
    (hsums : ∀ k ≤ adds.length, ∀ s, S.StoresSmall a (adds.take k) s → answers k s) :
    Flawless E answers a adds := by
  have hrun : ∀ k, S.StoresSmall a (adds.take k) (E.after a (adds.take k)) := fun k =>
    run_small hA hD hopen (hs.take k) fun hc => hasRoom_take (hroom hc)
  refine ⟨(opens_small hA (hs.take 0) hopen).1, fun k hk => ?_, fun k hk => hsums k hk _ (hrun k)⟩
  have htake : adds.take k ++ [adds[k]] = adds.take (k + 1) := List.take_append_getElem hk
  exact ((hrun k).step hA hD (htake ▸ hs.take (k + 1)) fun hc => hroom hc k hk).1

/-- Sums that are those of the stored trees. -/
theorem StoresSmall.sumsOfAll {versionCount : σ → ℕ}
    {rangeSum : σ → (version left right : ℕ) → Except Exception ValueType} {k : ℕ} {s : σ}
    (hst : S.StoresSmall a (adds.take k) s) (hk : k ≤ adds.length)
    (hs : SmallValues (E.values a) adds)
    (hcount : ∀ {h m}, S.Rel h s m → versionCount s = m.trees.length)
    (hsum : ∀ {h m}, S.Rel h s m → m.Valid D h.adds →
      ∀ v l r, rangeSum s v l r = m.rangeSum v l r) :
    SumsOfAll (E.values a) adds (fun s => .ok (versionCount s)) rangeSum k s := by
  obtain ⟨m, hrel, hvalid, hsize, hl⟩ := hst
  have hversions : (versionsOf (E.values a) (adds.take k)).versionCount = k + 1 := by
    unfold RangeAdds.versionCount versionsOf
    rw [List.length_map, List.length_take, min_eq_left hk]
  refine ⟨.inl ?_, fun v hv l r hlr hr => ?_⟩
  · simp only [hcount hrel, hvalid.versions, hversions]
  · have hver : v < (versionsOf (E.values a) (adds.take k)).versionCount := by omega
    have hsmall := (hs.take k).smallOn
    rw [hsum hrel hvalid, ← versionsOf_take hv]
    exact hvalid.rangeSum_of_load hl hver hlr (hsize ▸ hr) (hsize ▸ hsmall)

end Simulation

end Valseg
