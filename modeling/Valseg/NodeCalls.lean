import Valseg.NodeSpans

/-!
# The calls of perSegTree on its nodes

Each of the three recursive functions keeps the invariant of the nodes and does what it is for,
or an operation of it was undefined and the numbers are not small.

1. `construct_makes`, `update_makes`: the node that is returned stands for the latest version.
2. `query_sums`: the sum of the part of the segment, in the version of the node.
-/

namespace Valseg

namespace PerSegTree

open Segment (length sum midpoint Canonical addOn partSum)
open TypedStore (Typing Typed)
open Effect (Ensures)

variable {h : RangeAdds ℤ} {Γ Δ : Typing Span} {loose loose' raw : ℕ → Prop} {s s' : State}
  {t : Span} {x y : Node} {a b n lo hi i j w u : ℕ}

/-! ## Putting a node together -/

/-- A node is appended of which nothing is known yet. -/
theorem Valid.append (hv : Valid h n Γ loose raw s) (lo hi w : ℕ) (x : Node) :
    Valid h n Γ loose (fun a => raw a ∨ a = s.nodes.length)
        { s with nodes := s.nodes ++ [x], created := s.created + 1 } ∧
      Grows lo hi w Γ Γ s { s with nodes := s.nodes ++ [x], created := s.created + 1 } := by
  have hlen : (s.nodes ++ [x]).length = s.nodes.length + 1 := by
    rw [List.length_append, List.length_singleton]
  have hgrows : Grows lo hi w Γ Γ s
      { s with nodes := s.nodes ++ [x], created := s.created + 1 } := by
    refine ⟨.refl Γ, rfl, rfl, rfl, ?_, fun a y ha _ => getElem?_more _ ha, fun _ _ hg => hg,
      fun _ _ ha => .inl ha⟩
    simp only
    omega
  refine ⟨⟨hv.typed.push x, hv.canonical, hv.unique, fun c t hc =>
    (hv.housed c t hc).imp id hgrows.housed, hv.latest, fun a ha hg => ?_, hv.released, ?_⟩, hgrows⟩
  · by_cases hlt : a < s.nodes.length
    · exact .inl (hv.complete a hlt hg)
    · simp only at ha
      exact .inr (by omega)
  · simp only
    rw [hlen, hv.created]

/-- It may be overwritten. -/
theorem Valid.put (hv : Valid h n Γ loose raw s) (ha : Γ a = none) (x : Node) :
    Valid h n Γ loose raw { s with nodes := s.nodes.set a x } := by
  have hlen : (s.nodes.set a x).length = s.nodes.length := List.length_set ..
  refine ⟨hv.typed.write_free ha x, hv.canonical, hv.unique, fun c t hc => ?_, hv.latest,
    fun b hb hg => hv.complete b (by simpa using hb) hg, hv.released, hv.created.trans hlen.symm⟩
  refine (hv.housed c t hc).imp id fun hh => ?_
  rcases hh with hroot | ⟨p, q, y, hp, hy, hrest⟩
  · exact .inl hroot
  · refine .inr ⟨p, q, y, hp, ?_, hrest⟩
    have hne : a ≠ p := by
      rintro rfl
      rw [ha] at hp
      cases hp
    rwa [List.getElem?_set_ne hne]

/-- A node that was not there before is overwritten. -/
theorem Grows.put (hg : Grows lo hi w Γ Δ s s') (ha : s.nodes.length ≤ a) (x : Node) :
    Grows lo hi w Γ Δ s { s' with nodes := s'.nodes.set a x } := by
  refine { hg with length := ?_, settled := fun b y hb h0 => ?_ }
  · exact hg.length.trans (List.length_set ..).ge
  · have hlt := (List.getElem?_eq_some_iff.mp hb).1
    rw [List.getElem?_set_ne (by omega)]
    exact hg.settled b y hb h0

/-- **A node is finished.** It comes to stand for a span of the latest version, and what it points
to is not loose any more. -/
theorem Valid.finish (loose : ℕ → Prop) (hv : Valid h n Γ loose' (fun c => raw c ∨ c = a) s)
    (ha : Γ a = none)
    (hx : s.nodes[a]? = some x) (hf : Fits h Γ t x) (hc : Canonical 0 (n - 1) t.lo t.hi)
    (hlatest : t.version = h.updates.length) (hnew : ∀ c, Γ c ≠ some t)
    (hkeep : ∀ c, loose c → loose' c)
    (hdrop : ∀ c u, loose' c → Γ c = some u → loose c ∨ (x.prop = 0 ∧ t.lo < t.hi ∧
      ((x.left = some c ∧ u = t.left) ∨ (x.right = some c ∧ u = t.right)))) :
    Valid h n (Function.update Γ a (some t)) (fun c => loose c ∨ c = a) raw s := by
  have hext := TypedStore.Extends.update ha t
  have hself : Function.update Γ a (some t) a = some t := Function.update_self ..
  refine ⟨hv.typed.declare fits_monotone ha hx hf, fun b u hb => ?_, fun b c u hb hc => ?_,
    fun c u hcu => ?_, fun c hl => ?_, fun b hb hg => ?_, hv.released, hv.created⟩
  · rcases TypedStore.update_eq_some hb with ⟨-, rfl⟩ | ⟨-, hb⟩
    · exact hc
    · exact hv.canonical b u hb
  · rcases TypedStore.update_eq_some hb with ⟨rfl, rfl⟩ | ⟨-, hb'⟩
    · rcases TypedStore.update_eq_some hc with ⟨rfl, -⟩ | ⟨-, hc'⟩
      · rfl
      · exact absurd hc' (hnew c)
    · rcases TypedStore.update_eq_some hc with ⟨rfl, rfl⟩ | ⟨-, hc'⟩
      · exact absurd hb' (hnew b)
      · exact hv.unique b c u hb' hc'
  · rcases TypedStore.update_eq_some hcu with ⟨rfl, -⟩ | ⟨-, hcu⟩
    · exact .inl (.inr rfl)
    · rcases hv.housed c u hcu with hl | ⟨hlo, hhi, hroot⟩ | ⟨p, q, y, hp, hrest⟩
      · refine (hdrop c u hl hcu).imp .inl fun hd => .inr ?_
        exact ⟨a, t, x, hself, hx, hd⟩
      · exact .inr (.inl ⟨hlo, hhi, hroot⟩)
      · exact .inr (.inr ⟨p, q, y, hext _ _ hp, hrest⟩)
  · rcases hl with hl | rfl
    · obtain ⟨u, hu, h1⟩ := hv.latest c (hkeep c hl)
      exact ⟨u, hext _ _ hu, h1⟩
    · exact ⟨t, hself, hlatest⟩
  · have hne : b ≠ a := by
      rintro rfl
      rw [hself] at hg
      cases hg
    rw [Function.update_of_ne hne] at hg
    exact (hv.complete b hb hg).resolve_right hne

theorem Grows.declare (hg : Grows lo hi w Γ Δ s s') (ha : s.nodes.length ≤ a) (hd : Δ a = none)
    (hlo : lo ≤ t.lo) (hhi : t.hi ≤ hi) (hw : t.version ≤ w) :
    Grows lo hi w Γ (Function.update Δ a (some t)) s s' := by
  refine ⟨hg.types.trans (.update hd t), hg.ptrs, hg.n, hg.vec, hg.length, hg.settled,
    fun b hb hn => ?_, fun b u hb => ?_⟩
  · rw [Function.update_of_ne (by omega)]
    exact hg.free b hb hn
  · rcases TypedStore.update_eq_some hb with ⟨rfl, rfl⟩ | ⟨-, hb⟩
    · exact .inr ⟨ha, hlo, hhi, hw⟩
    · exact hg.made b u hb

/-- Loose is what it is called. -/
theorem Valid.loosen (hv : Valid h n Γ loose raw s) (hl : ∀ c, loose c ↔ loose' c) :
    Valid h n Γ loose' raw s := by
  obtain rfl : loose = loose' := funext fun c => propext (hl c)
  exact hv

/-- What is returned stands for the latest version on the segment, with nothing pending. -/
def Makes (h : RangeAdds ℤ) (n : ℕ) (Γ : Typing Span) (loose raw : ℕ → Prop) (s : State)
    (i j a : ℕ) (s' : State) : Prop :=
  ∃ Δ u, Valid h n Δ (fun c => loose c ∨ (c = a ∧ u = h.updates.length)) raw s' ∧
    Grows i j h.updates.length Γ Δ s s' ∧ Δ a = some ⟨i, j, u⟩ ∧
    (∀ k, i ≤ k → k ≤ j → h.latest k = h.array u k) ∧
    ∃ x, s'.nodes[a]? = some x ∧ x.prop = 0

/-- No node stands for the version on a part of the segment. -/
def Fresh (Γ : Typing Span) (w i j : ℕ) : Prop :=
  ∀ c t, Γ c = some t → t.version = w → t.hi < i ∨ j < t.lo

theorem Fresh.grows {m : ℕ} (hf : Fresh Γ w i j) (hg : Grows lo hi m Γ Δ s s')
    (hapart : m < w ∨ hi < i ∨ j < lo) : Fresh Δ w i j := by
  intro c t hc ht
  rcases hg.made c t hc with hc | ⟨-, h1, h2, h3⟩
  · exact hf c t hc ht
  · omega

theorem Fresh.part (hf : Fresh Γ w i j) (hlo : i ≤ lo) (hhi : hi ≤ j) : Fresh Γ w lo hi := by
  intro c t hc ht
  have := hf c t hc ht
  omega

/-- No node stands for the version on the segment itself. -/
theorem Fresh.ne (hf : Fresh Γ w i j) (ht : t.version = w) (h1 : i ≤ t.hi) (h2 : t.lo ≤ j) (c : ℕ) :
    Γ c ≠ some t := by
  intro hc
  have := hf c t hc ht
  omega

/-- **Two halves make a node.** -/
theorem makes_of_halves {b v N : ℕ} {val : ValueType}
    (hv : Valid h n Δ (fun c => (loose c ∨ (c = a ∧ u = h.updates.length)) ∨
      (c = b ∧ v = h.updates.length)) (fun c => raw c ∨ c = N) s')
    (hg : Grows i j h.updates.length Γ Δ s s') (hN : s.nodes.length ≤ N) (hraw : Δ N = none)
    (hx : s'.nodes[N]? = some ⟨some a, some b, val, 0⟩) (hij : i < j)
    (hc : Canonical 0 (n - 1) i j) (hnew : ∀ c, Δ c ≠ some ⟨i, j, h.updates.length⟩)
    (ha : Δ a = some ⟨i, midpoint i j, u⟩) (hb : Δ b = some ⟨midpoint i j + 1, j, v⟩)
    (hleft : ∀ k, i ≤ k → k ≤ midpoint i j → h.latest k = h.array u k)
    (hright : ∀ k, midpoint i j + 1 ≤ k → k ≤ j → h.latest k = h.array v k)
    (hval : val.toInt = sum h.latest i j) : Makes h n Γ loose raw s i j N s' := by
  have hpublished : ∀ {c t}, Δ c = some t → t.version ≤ h.updates.length := fun {c t} hct => by
    obtain ⟨x, -, hf⟩ := hv.typed c t hct
    exact Nat.le_of_lt_succ hf.published
  have hfits : Fits h Δ ⟨i, j, h.updates.length⟩ ⟨some a, some b, val, 0⟩ := by
    refine ⟨hij.le, Nat.lt_succ_self _, ?_, fun heq => absurd heq hij.ne, fun _ => ?_, fun _ => ?_⟩
    · rw [Int64.toInt_zero, zero_mul, add_zero]
      exact hval
    · refine ⟨a, u, rfl, ha, hpublished ha, fun k h1 h2 => ?_⟩
      rw [Int64.toInt_zero, add_zero]
      exact hleft k h1 h2
    · refine ⟨b, v, rfl, hb, hpublished hb, fun k h1 h2 => ?_⟩
      rw [Int64.toInt_zero, add_zero]
      exact hright k h1 h2
  have hvalid := hv.finish loose hraw hx hfits hc rfl hnew (fun c hl => .inl (.inl hl))
    fun c w hl hcw => by
      rcases hl with (hl | ⟨rfl, rfl⟩) | ⟨rfl, rfl⟩
      · exact .inl hl
      · cases ha.symm.trans hcw
        exact .inr ⟨rfl, hij, .inl ⟨rfl, rfl⟩⟩
      · cases hb.symm.trans hcw
        exact .inr ⟨rfl, hij, .inr ⟨rfl, rfl⟩⟩
  refine ⟨_, h.updates.length, hvalid.loosen fun c => ?_,
    hg.declare hN hraw le_rfl le_rfl le_rfl, Function.update_self .., fun _ _ _ => rfl, _, hx, rfl⟩
  simp

/-- What was made before the call belongs to it. -/
theorem Makes.after {s₁ : State} (hm : Makes h n Δ loose raw s₁ i j a s')
    (hg : Grows i j h.updates.length Γ Δ s s₁) : Makes h n Γ loose raw s i j a s' := by
  obtain ⟨Λ, u, hv, hgrows, hrest⟩ := hm
  exact ⟨Λ, u, hv, hg.trans hgrows, hrest⟩

/-! ## Construction -/

section Construction

/-- The vector holds the latest version. -/
def Reads (h : RangeAdds ℤ) (vec : List ValueType) (i j : ℕ) : Prop :=
  ∀ k, i ≤ k → k ≤ j → ∃ x, vec[k]? = some x ∧ x.toInt = h.latest k

/-- A construction makes the segment. -/
def ConstructMakes (h : RangeAdds ℤ) (n i j : ℕ) : Prop :=
  ∀ {Γ loose raw s}, Valid h n Γ loose raw s → Fresh Γ h.updates.length i j →
    Canonical 0 (n - 1) i j → Reads h s.vec i j →
      Ensures (¬ Small h n) (construct i j) s (Makes h n Γ loose raw s i j)

theorem construct_single (i : ℕ) : ConstructMakes h n i i := by
  intro Γ loose raw s hv hfresh hc hvec
  obtain ⟨v, hv0, hval⟩ := hvec i le_rfl le_rfl
  have hnone := hv.typed.fresh
  obtain ⟨hraw, hgrows⟩ := hv.append i i h.updates.length {}
  rw [construct]
  refine .bind_ok (makeNode_run s) ?_
  rw [if_pos rfl]
  refine .bind_ok (node_run List.getElem?_concat_length) (.bind_ok (Effect.run_get _) ?_)
  refine .lift_ok (vectorAt_eq_ok.mpr hv0) (.bind_ok (setNode_run _ _ _) (.pure ?_))
  have hself : ((s.nodes ++ [({} : Node)]).set s.nodes.length { val := v })[s.nodes.length]? =
      some { val := v } := by
    rw [List.getElem?_set_self (by rw [List.length_append, List.length_singleton]; omega)]
  have hfits : Fits h Γ ⟨i, i, h.updates.length⟩ { val := v } := by
    refine ⟨le_rfl, Nat.lt_succ_self _, ?_, fun _ => ⟨_, le_rfl, hval⟩, fun hlt => absurd hlt (lt_irrefl i),
      fun hlt => absurd hlt (lt_irrefl i)⟩
    rw [Int64.toInt_zero, zero_mul, add_zero, Segment.sum_single]
    exact hval
  have hfinish := (hraw.put hnone { val := v }).finish loose hnone hself hfits hc rfl
    (hfresh.ne rfl le_rfl le_rfl) (fun _ hl => hl) fun _ _ hl _ => .inl hl
  have hdeclare := (hgrows.put le_rfl { val := v }).declare (t := ⟨i, i, h.updates.length⟩) le_rfl
    hnone le_rfl le_rfl le_rfl
  exact ⟨_, h.updates.length, hfinish.loosen fun c => by simp, hdeclare, Function.update_self ..,
    fun _ _ _ => rfl, _, hself, rfl⟩

theorem construct_halves (hij : i < j) (ihl : ConstructMakes h n i (midpoint i j))
    (ihr : ConstructMakes h n (midpoint i j + 1) j) : ConstructMakes h n i j := by
  intro Γ loose raw s hv hfresh hc hvec
  have h1 := Segment.le_midpoint i j
  have h2 := Segment.midpoint_lt hij
  have hj : j < n := by
    have := hc.bounds
    omega
  have hnone := hv.typed.fresh
  obtain ⟨hraw, hgrows⟩ := hv.append i j h.updates.length {}
  rw [construct]
  refine .bind_ok (makeNode_run s) ?_
  rw [if_neg hij.ne, if_pos hij]
  -- the left half
  refine .bind (ihl hraw (hfresh.part le_rfl h2.le) (hc.halves hij).1
    fun k h3 h4 => hvec k h3 (h4.trans h2.le)) fun a s₃ hs₃ => ?_
  obtain ⟨Δ, u, hv₃, hg₃, ha, haa, y, hy, hy0⟩ := hs₃
  have hN₃ : s₃.nodes[s.nodes.length]? = some {} :=
    hg₃.settled _ _ List.getElem?_concat_length (.inl hnone)
  have hΔN : Δ s.nodes.length = none :=
    hg₃.free _ (by rw [List.length_append, List.length_singleton]; omega) hnone
  have hNlt : s.nodes.length < s₃.nodes.length := (List.getElem?_eq_some_iff.mp hN₃).1
  -- the right half
  have hfresh₃ := (hfresh.part (h1.trans (Nat.le_succ _)) le_rfl).grows hg₃
    (.inr (.inl (Nat.lt_succ_self _)))
  refine .bind (ihr hv₃ hfresh₃ (hc.halves hij).2 fun k h3 h4 => ?_) fun b s₅ hs₅ => ?_
  · rw [hg₃.vec]
    exact hvec k (h1.trans (Nat.le_of_lt h3)) h4
  obtain ⟨Λ, v, hv₅, hg₅, hb, hba, z, hz, hz0⟩ := hs₅
  have hN₅ : s₅.nodes[s.nodes.length]? = some {} := hg₅.settled _ _ hN₃ (.inl hΔN)
  have hΛN : Λ s.nodes.length = none := hg₅.free _ hNlt hΔN
  have hNlt₅ : s.nodes.length < s₅.nodes.length := (List.getElem?_eq_some_iff.mp hN₅).1
  -- the sum
  refine .bind_ok (node_run (hg₅.settled a y hy (.inr hy0))) (.bind_ok (node_run hz) ?_)
  have hsum : y.val.toInt + z.val.toInt = sum h.latest i j := by
    rw [(hv₃.typed.read ha hy).val_eq hy0, (hv₅.typed.read hb hz).val_eq hz0,
      Segment.sum_split hij]
    exact congrArg₂ _ (Segment.sum_congr fun k h3 h4 => (haa k h3 h4).symm)
      (Segment.sum_congr fun k h3 h4 => (hba k h3 h4).symm)
  refine add_bind (fun hs => ?_) fun val hval => ?_
  · rw [hsum]
    exact (not_not.mp hs).sum hij.le hj _
  refine .bind_ok (node_run hN₅) (.bind_ok (setNode_run _ _ _) (.pure ?_))
  have hg := (hgrows.trans (hg₃.widen le_rfl h2.le le_rfl)).trans
    (hg₅.widen (h1.trans (Nat.le_succ _)) le_rfl le_rfl)
  refine makes_of_halves (hv₅.put hΛN _) (hg.put le_rfl _) le_rfl hΛN
    (List.getElem?_set_self hNlt₅) hij hc (fun c hcw => ?_) (hg₅.types _ _ ha) hb haa hba
    (hval.trans hsum)
  rcases hg₅.made c _ hcw with hcw | ⟨-, h3, -, -⟩
  · rcases hg₃.made c _ hcw with hcw | ⟨-, -, h3, -⟩
    · exact hfresh.ne rfl hij.le hij.le c hcw
    · exact absurd h3 (not_le.mpr h2)
  · exact absurd h3 (not_le.mpr (Nat.lt_succ_of_le h1))

/-- **Construction.** -/
theorem construct_makes : ∀ i j, i ≤ j → ConstructMakes h n i j :=
  Segment.halving_induction construct_single fun _ _ hij ihl ihr => construct_halves hij ihl ihr

end Construction

/-! ## Updates -/

section Updates

variable {l r curr : ℕ} {value : ValueType}

/-- The node stands for the version before the latest, which adds the value on the range. -/
structure Updates (h : RangeAdds ℤ) (Γ : Typing Span) (i j l r : ℕ) (value : ValueType)
    (curr w : ℕ) : Prop where
  curr : Γ curr = some ⟨i, j, w⟩
  fresh : Fresh Γ h.updates.length i j
  array : ∀ k, i ≤ k → k ≤ j → h.latest k = addOn (h.array w) l r value.toInt k

namespace Updates

theorem lt (hu : Updates h Γ i j l r value curr w) (hv : Valid h n Γ loose raw s) :
    w < h.updates.length := by
  obtain ⟨x, -, hf⟩ := hv.typed curr _ hu.curr
  have hle : i ≤ j := hf.le
  have hw : w < h.updates.length + 1 := hf.published
  have hne : w ≠ h.updates.length := by
    intro heq
    exact hu.fresh.ne (t := ⟨i, j, w⟩) heq hle hle curr hu.curr
  omega

/-- A half of the segment. -/
theorem half {m : ℕ} (hu : Updates h Γ i j l r value curr w) (hlo : i ≤ lo) (hhi : hi ≤ j)
    (ha : Γ a = some ⟨lo, hi, m⟩)
    (harray : ∀ k, lo ≤ k → k ≤ hi → h.array w k = h.array m k) :
    Updates h Γ lo hi l r value a m := by
  refine ⟨ha, hu.fresh.part hlo hhi, fun k h1 h2 => ?_⟩
  rw [hu.array k (hlo.trans h1) (h2.trans hhi)]
  unfold Segment.addOn
  rw [harray k h1 h2]

/-- A later call elsewhere. -/
theorem grows {m : ℕ} (hu : Updates h Γ i j l r value curr w) (hg : Grows lo hi m Γ Δ s s')
    (hapart : m < h.updates.length ∨ hi < i ∨ j < lo) : Updates h Δ i j l r value curr w :=
  ⟨hg.types _ _ hu.curr, hu.fresh.grows hg hapart, hu.array⟩

end Updates

/-- **The range covers the segment.** -/
theorem covered_makes (hn : n < 2 ^ 32) (hpos : 0 < n) (hv : Valid h n Γ loose raw s)
    (hu : Updates h Γ i j l r value curr w) (hin : l ≤ i ∧ j ≤ r)
    (hx : s.nodes[curr]? = some x) (h0 : x.prop = 0) :
    Ensures (¬ Small h n) (do
      let newNode ← newKid curr
      addProp newNode value
      lazy i j newNode
      return newNode) s (Makes h n Γ loose raw s i j) := by
  have hle : i ≤ j := (hv.typed.read hu.curr hx).le
  have hlt := hu.lt hv
  have hfresh := hv.typed.fresh
  have hcanonical : Canonical 0 (n - 1) i j := hv.canonical _ _ hu.curr
  obtain ⟨hraw, hgrows⟩ := hv.append i j h.updates.length x
  refine .bind_ok (newKid_run hx) (.bind (P := fun _ t => ∃ q : ValueType,
    q.toInt = x.prop.toInt + value.toInt ∧ t = { s with
      nodes := (s.nodes ++ [x]).set s.nodes.length { x with prop := q }
      created := s.created + 1 }) ?_ ?_)
  · unfold addProp
    refine .bind_ok (node_run List.getElem?_concat_length) (add_bind (fun _ => ?_) fun q hq => ?_)
    · rw [h0, Int64.toInt_zero, zero_add]
      exact representable_toInt value
    · exact .of_ok (setNode_run _ _ _) ⟨q, hq, rfl⟩
  · rintro _ t ⟨q, hq, rfl⟩
    have hput := hraw.put hfresh { x with prop := q }
    have hputs := hgrows.put le_rfl { x with prop := q }
    have hlast : ((s.nodes ++ [x]).set s.nodes.length { x with prop := q })[s.nodes.length]? =
        some { x with prop := q } := by
      rw [List.getElem?_set_self (by rw [List.length_append, List.length_singleton]; omega)]
    have hcopy : Fits h Γ ⟨i, j, h.updates.length⟩ { x with prop := q } := by
      refine (hv.typed.read hu.curr hx).shift hlt.le (Nat.lt_succ_self _) (fun k h1 h2 => ?_) hq
      have hk := hu.array k h1 h2
      rw [Segment.addOn_of_inside hin h1 h2] at hk
      exact hk
    have hnew := hu.fresh.ne (t := ⟨i, j, h.updates.length⟩) rfl hle hle
    have hfinish := hput.finish loose hfresh hlast hcopy
      hcanonical rfl hnew (fun _ hl => hl) fun _ _ hl _ => .inl hl
    have hdeclare := hputs.declare (t := ⟨i, j, h.updates.length⟩) le_rfl hfresh le_rfl le_rfl le_rfl
    have hself : Function.update Γ s.nodes.length (some ⟨i, j, h.updates.length⟩) s.nodes.length =
        some ⟨i, j, h.updates.length⟩ := Function.update_self ..
    -- no node stands for a half of the copy yet
    have hhalf : ∀ t : Span, t.version = h.updates.length → i ≤ t.hi → t.lo ≤ j →
        t ≠ ⟨i, j, h.updates.length⟩ → ∀ c,
          Function.update Γ s.nodes.length (some ⟨i, j, h.updates.length⟩) c ≠ some t := by
      intro t ht h1 h2 hne c hc
      rcases TypedStore.update_eq_some hc with ⟨-, rfl⟩ | ⟨-, hc⟩
      · exact hne rfl
      · exact hu.fresh.ne ht h1 h2 c hc
    have hpush := lazy_valid hn hpos hfinish hself fun hij c _ => by
      have h1 : midpoint i j < j := Segment.midpoint_lt hij
      have h2 : i ≤ midpoint i j := Segment.le_midpoint i j
      refine ⟨hhalf (Span.left ⟨i, j, h.updates.length⟩) rfl h2 hle (fun heq => ?_) c,
        hhalf (Span.right ⟨i, j, h.updates.length⟩) rfl hle h1 (fun heq => ?_) c⟩
      · exact h1.ne (congrArg Span.hi heq)
      · have := congrArg Span.lo heq
        simp only [Span.right] at this
        omega
    refine hpush.bind fun _ t ht => .pure ?_
    obtain ⟨Δ, hvalid, hlazy, y, hy, hy0⟩ := ht
    refine ⟨Δ, h.updates.length, hvalid.loosen fun c => by simp, hdeclare.trans hlazy,
      hlazy.types _ _ hself, fun _ _ _ => rfl, y, hy, hy0⟩

/-- The update of a node with nothing pending, where the range covers a part of the segment. -/
def updateHalves (i j l r : ℕ) (value : ValueType) (curr : ℕ) : PointerM ℕ := do
  let newNode ← makeNode
  let mid := midpoint i j
  assignLeft newNode (← update i mid l r value (← pointee (← node curr).left))
  assignRight newNode (← update (mid + 1) j l r value (← pointee (← node curr).right))
  let left ← node (← pointee (← node newNode).left)
  let right ← node (← pointee (← node newNode).right)
  let val ← SignedEvaluation.add left.val right.val
  setNode newNode { (← node newNode) with val := val }
  return newNode

/-- An update makes the latest version of the segment. -/
def UpdateMakes (h : RangeAdds ℤ) (n l r : ℕ) (value : ValueType) (i j : ℕ)
    (call : ℕ → PointerM ℕ) : Prop :=
  ∀ {Γ loose raw s curr w}, Valid h n Γ loose raw s → Updates h Γ i j l r value curr w →
    Ensures (¬ Small h n) (call curr) s (Makes h n Γ loose raw s i j)

/-- What is left to show after the push, where the range covers the segment and where it is apart
from it. -/
theorem update_makes_of (hn : n < 2 ^ 32) (hpos : 0 < n)
    (hhalves : i < j → ∀ {Γ loose raw s curr w x}, Valid h n Γ loose raw s →
      Updates h Γ i j l r value curr w → s.nodes[curr]? = some x → x.prop = 0 →
        Ensures (¬ Small h n) (updateHalves i j l r value curr) s (Makes h n Γ loose raw s i j)) :
    UpdateMakes h n l r value i j (update i j l r value) := by
  intro Γ loose raw s curr w hv hu
  have hlt := hu.lt hv
  have hle : i ≤ j := by
    obtain ⟨x, -, hf⟩ := hv.typed curr _ hu.curr
    exact hf.le
  have hpush := lazy_valid hn hpos hv hu.curr fun _ c hl => by
    obtain ⟨t, ht, hlatest⟩ := hv.latest c hl
    constructor
    · intro hc
      cases ht.symm.trans hc
      exact hlt.ne hlatest
    · intro hc
      cases ht.symm.trans hc
      exact hlt.ne hlatest
  rw [update]
  refine hpush.bind fun _ s₁ hs₁ => ?_
  obtain ⟨Δ, hvalid, hgrows, x, hx, h0⟩ := hs₁
  have hu₁ := hu.grows hgrows (.inl hlt)
  have hgrows' : Grows i j h.updates.length Γ Δ s s₁ := hgrows.widen le_rfl le_rfl hlt.le
  refine .ite (fun hin => ?_) fun hin => .ite (fun hapart => ?_) fun hapart => ?_
  · exact (covered_makes hn hpos hvalid hu₁ hin hx h0).mono fun a t ht => ht.after hgrows'
  · refine .pure ⟨Δ, w, hvalid.loosen fun c => ?_, hgrows', hu₁.curr, fun k h1 h2 => ?_, x, hx, h0⟩
    · simp [hlt.ne]
    · rw [hu.array k h1 h2, Segment.addOn_of_apart hapart.symm h1 h2]
  · have hij : i < j := by omega
    rw [if_pos hij]
    exact (hhalves hij hvalid hu₁ hx h0).mono fun a t ht => ht.after hgrows'

/-- A pointer of a node with nothing pending. -/
theorem Stands.settled {p : Option ℕ} (hp : Stands h Γ p t x.prop.toInt) (h0 : x.prop = 0) :
    ∃ a u, p = some a ∧ Γ a = some ⟨t.lo, t.hi, u⟩ ∧ u ≤ t.version ∧
      ∀ k, t.lo ≤ k → k ≤ t.hi → h.array t.version k = h.array u k := by
  obtain ⟨a, u, hpa, ha, hle, harray⟩ := hp
  refine ⟨a, u, hpa, ha, hle, fun k h1 h2 => ?_⟩
  have := harray k h1 h2
  rwa [h0, Int64.toInt_zero, add_zero] at this

/-- **The range covers a part of the segment.** -/
theorem updateHalves_makes (hij : i < j)
    (ihl : UpdateMakes h n l r value i (midpoint i j) (update i (midpoint i j) l r value))
    (ihr : UpdateMakes h n l r value (midpoint i j + 1) j (update (midpoint i j + 1) j l r value))
    (hv : Valid h n Γ loose raw s) (hu : Updates h Γ i j l r value curr w)
    (hx : s.nodes[curr]? = some x) (h0 : x.prop = 0) :
    Ensures (¬ Small h n) (updateHalves i j l r value curr) s (Makes h n Γ loose raw s i j) := by
  have h1 := Segment.le_midpoint i j
  have h2 := Segment.midpoint_lt hij
  have hcanonical : Canonical 0 (n - 1) i j := hv.canonical _ _ hu.curr
  have hj : j < n := by
    have := hcanonical.bounds
    have := (List.getElem?_eq_some_iff.mp hx).1
    omega
  have hcurr := hv.typed.lt hu.curr
  have hfits := hv.typed.read hu.curr hx
  obtain ⟨p, m, hxl, hp, -, hpa⟩ := (hfits.left hij).settled h0
  obtain ⟨q, m', hxr, hq, -, hqa⟩ := (hfits.right hij).settled h0
  have hpu := hu.half le_rfl h2.le hp hpa
  have hqu := hu.half (h1.trans (Nat.le_succ _)) le_rfl hq hqa
  unfold updateHalves
  refine .bind_ok (makeNode_run s) ?_
  obtain ⟨hraw, hgrows⟩ := hv.append i j h.updates.length {}
  have hfresh := hv.typed.fresh
  -- the left half
  refine .bind_ok (node_run (getElem?_more _ hx)) (.lift_ok (a := p) (by rw [hxl]; rfl) ?_)
  refine .bind (ihl hraw hpu) fun a s₃ hs₃ => ?_
  obtain ⟨Δ, u, hv₃, hg₃, ha, haa, y, hy, hy0⟩ := hs₃
  have hN₃ : s₃.nodes[s.nodes.length]? = some {} :=
    hg₃.settled _ _ List.getElem?_concat_length (.inl hfresh)
  have hΔN : Δ s.nodes.length = none :=
    hg₃.free _ (by rw [List.length_append, List.length_singleton]; omega) hfresh
  have hNlt : s.nodes.length < s₃.nodes.length := (List.getElem?_eq_some_iff.mp hN₃).1
  have hax : a ≠ s.nodes.length := by
    rintro rfl
    rw [hΔN] at ha
    cases ha
  refine .bind_ok (assignLeft_run hN₃ (fun _ hnone => nomatch hnone) a) ?_
  have hv₄ := hv₃.put hΔN { left := some a }
  have hg₄ := (hgrows.trans (hg₃.widen le_rfl h2.le le_rfl)).put le_rfl { left := some a }
  have hx₄ := hg₄.settled curr x hx (.inr h0)
  -- the right half
  refine .bind_ok (node_run hx₄) (.lift_ok (a := q) (by rw [hxr]; rfl) ?_)
  refine .bind (ihr hv₄ (hqu.grows hg₃ (.inr (.inl (Nat.lt_succ_self _))))) fun b s₅ hs₅ => ?_
  obtain ⟨Λ, v, hv₅, hg₅, hb, hba, z, hz, hz0⟩ := hs₅
  have hN₅ : s₅.nodes[s.nodes.length]? = some { left := some a } :=
    hg₅.settled _ _ (List.getElem?_set_self hNlt) (.inl hΔN)
  have hΛN : Λ s.nodes.length = none := hg₅.free _ (by simpa using hNlt) hΔN
  have hNlt₅ : s.nodes.length < s₅.nodes.length := (List.getElem?_eq_some_iff.mp hN₅).1
  have hbx : b ≠ s.nodes.length := by
    rintro rfl
    rw [hΛN] at hb
    cases hb
  refine .bind_ok (assignRight_run hN₅ (fun _ hnone => nomatch hnone) b) ?_
  have hv₆ := hv₅.put hΛN { left := some a, right := some b }
  have hg₆ := (hg₄.trans (hg₅.widen (h1.trans (Nat.le_succ _)) le_rfl le_rfl)).put le_rfl
    { left := some a, right := some b }
  -- the sum
  have hy₅ : s₅.nodes[a]? = some y :=
    hg₅.settled a y (by rwa [List.getElem?_set_ne hax.symm]) (.inr hy0)
  refine .bind_ok (node_run (List.getElem?_set_self hNlt₅)) (.lift_ok (a := a) rfl ?_)
  refine .bind_ok (node_run (x := y) (by rwa [List.getElem?_set_ne hax.symm])) ?_
  refine .bind_ok (node_run (List.getElem?_set_self hNlt₅)) (.lift_ok (a := b) rfl ?_)
  refine .bind_ok (node_run (x := z) (by rwa [List.getElem?_set_ne hbx.symm])) ?_
  have hsum : y.val.toInt + z.val.toInt = sum h.latest i j := by
    rw [(hv₃.typed.read ha hy).val_eq hy0, (hv₅.typed.read hb hz).val_eq hz0,
      Segment.sum_split hij]
    exact congrArg₂ _ (Segment.sum_congr fun k h3 h4 => (haa k h3 h4).symm)
      (Segment.sum_congr fun k h3 h4 => (hba k h3 h4).symm)
  refine add_bind (fun hs => ?_) fun val hval => ?_
  · rw [hsum]
    exact (not_not.mp hs).sum hij.le hj _
  refine .bind_ok (node_run (List.getElem?_set_self hNlt₅)) (.bind_ok (setNode_run _ _ _) (.pure ?_))
  refine makes_of_halves (hv₆.put hΛN _) (hg₆.put le_rfl _) le_rfl hΛN
    (List.getElem?_set_self (by simpa using hNlt₅)) hij hcanonical (fun c hc => ?_)
    (hg₅.types _ _ ha) hb haa hba (hval.trans hsum)
  -- both halves made nodes on smaller segments only
  rcases hg₅.made c _ hc with hc | ⟨-, h3, -, -⟩
  · rcases hg₃.made c _ hc with hc | ⟨-, -, h3, -⟩
    · exact hu.fresh.ne rfl hij.le hij.le c hc
    · exact absurd h3 (not_le.mpr h2)
  · exact absurd h3 (not_le.mpr (Nat.lt_succ_of_le h1))

/-- **Updates.** The node that is returned stands for the latest version on the segment. -/
theorem update_makes (hn : n < 2 ^ 32) (hpos : 0 < n) : ∀ i j, i ≤ j →
    UpdateMakes h n l r value i j (update i j l r value) := by
  refine Segment.halving_induction (fun i => ?_) fun i j hij ihl ihr => ?_
  · exact update_makes_of hn hpos fun hlt => absurd hlt (lt_irrefl i)
  · exact update_makes_of hn hpos fun _ => updateHalves_makes hij ihl ihr

end Updates

/-! ## Queries -/

section Queries

variable {l r curr : ℕ} {nodes nodes' : List Node} {c : ValueType} {leftFirst : Bool}

/-- Nothing is pending at any node that a query reads, and `c` is what it returns. -/
inductive Answered (nodes : List Node) (l r : ℕ) : ℕ → ℕ → ℕ → ValueType → Prop
  | apart {i j curr : ℕ} {x : Node} (hx : nodes[curr]? = some x) (h0 : x.prop = 0)
      (h : j < l ∨ r < i) : Answered nodes l r i j curr 0
  | inside {i j curr : ℕ} {x : Node} (hx : nodes[curr]? = some x) (h0 : x.prop = 0)
      (h : ¬ (j < l ∨ r < i)) (hin : l ≤ i ∧ j ≤ r) : Answered nodes l r i j curr x.val
  | halves {i j curr p q : ℕ} {x : Node} {a b c : ValueType} (hx : nodes[curr]? = some x)
      (h0 : x.prop = 0) (h : ¬ (j < l ∨ r < i)) (hin : ¬ (l ≤ i ∧ j ≤ r)) (hij : i < j)
      (hp : x.left = some p) (hq : x.right = some q)
      (hleft : Answered nodes l r i (midpoint i j) p a)
      (hright : Answered nodes l r (midpoint i j + 1) j q b)
      (hc : SignedEvaluation.add a b = .ok c) : Answered nodes l r i j curr c

/-- Nodes with nothing pending are as they were. -/
def KeepsSettled (nodes nodes' : List Node) : Prop :=
  ∀ (a : ℕ) (x : Node), nodes[a]? = some x → x.prop = 0 → nodes'[a]? = some x

theorem KeepsSettled.refl (nodes : List Node) : KeepsSettled nodes nodes := fun _ _ h _ => h

theorem KeepsSettled.trans {nodes'' : List Node} (h1 : KeepsSettled nodes nodes')
    (h2 : KeepsSettled nodes' nodes'') : KeepsSettled nodes nodes'' :=
  fun a x ha h0 => h2 a x (h1 a x ha h0) h0

theorem Grows.keepsSettled (hg : Grows lo hi w Γ Δ s s') : KeepsSettled s.nodes s'.nodes :=
  fun a x ha h0 => hg.settled a x ha (.inr h0)

/-- What was answered stays so. -/
theorem Answered.mono (ha : Answered nodes l r i j curr c) (hk : KeepsSettled nodes nodes') :
    Answered nodes' l r i j curr c := by
  induction ha with
  | apart hx h0 h => exact .apart (hk _ _ hx h0) h0 h
  | inside hx h0 h hin => exact .inside (hk _ _ hx h0) h0 h hin
  | halves hx h0 h hin hij hp hq _ _ hc ihl ihr =>
    exact .halves (hk _ _ hx h0) h0 h hin hij hp hq ihl ihr hc

/-- **A query that was answered** returns the same, and writes nothing. -/
theorem Answered.query_eq (ha : Answered s.nodes l r i j curr c) (leftFirst : Bool) :
    query leftFirst i j l r curr s = .ok c s := by
  induction ha with
  | apart hx h0 h =>
    rw [query, Effect.run_bind_ok (lazy_settled hx h0), if_pos h]
    rfl
  | inside hx h0 h hin =>
    rw [query, Effect.run_bind_ok (lazy_settled hx h0), if_neg h, if_pos hin,
      Effect.run_bind_ok (node_run hx)]
    rfl
  | @halves i j curr p q x a b c hx h0 h hin hij hp hq _ _ hc ihl ihr =>
    have hleft : (do query leftFirst i (midpoint i j) l r (← pointee (← node curr).left)) s =
        .ok a s := by
      rw [Effect.run_bind_ok (node_run hx), hp]
      exact ihl
    have hright : (do query leftFirst (midpoint i j + 1) j l r (← pointee (← node curr).right)) s =
        .ok b s := by
      rw [Effect.run_bind_ok (node_run hx), hq]
      exact ihr
    have hboth := Effect.inOrder_run leftFirst hleft hright
    rw [query, Effect.run_bind_ok (lazy_settled hx h0), if_neg h, if_neg hin, if_pos hij]
    rw [Effect.run_bind_ok hboth]
    exact (congrArg (fun z => (liftM z : PointerM ValueType) s) hc).trans rfl

/-- A query leaves nothing pending where it reads, and returns the sum of the part of the segment
in the version of the node. -/
def Sums (h : RangeAdds ℤ) (n : ℕ) (Γ : Typing Span) (loose raw : ℕ → Prop) (s : State)
    (i j w l r curr : ℕ) (c : ValueType) (s' : State) : Prop :=
  (∃ Δ, Valid h n Δ loose raw s' ∧ Grows i j w Γ Δ s s') ∧
    Answered s'.nodes l r i j curr c ∧ c.toInt = partSum (h.array w) i j l r

/-- The query of a node with nothing pending, where the range covers a part of the segment. -/
def queryHalves (leftFirst : Bool) (i j l r curr : ℕ) : PointerM ValueType := do
  let mid := midpoint i j
  let (left, right) ← Effect.inOrder leftFirst
    (do query leftFirst i mid l r (← pointee (← node curr).left))
    (do query leftFirst (mid + 1) j l r (← pointee (← node curr).right))
  SignedEvaluation.add left right

/-- A query of the segment sums what it should. -/
def QuerySums (h : RangeAdds ℤ) (n l r i j : ℕ) (call : ℕ → PointerM ValueType) : Prop :=
  ∀ {Γ loose raw s curr w}, (∀ c, ¬ loose c) → Valid h n Γ loose raw s →
    Γ curr = some ⟨i, j, w⟩ →
      Ensures (¬ Small h n) (call curr) s (Sums h n Γ loose raw s i j w l r curr)

/-- A call on a half, read from its pointer in any later state. -/
theorem half_sums {call : ℕ → PointerM ValueType} {field : Node → Option ℕ}
    {p m : ℕ} (hcall : QuerySums h n l r lo hi call) (hloose : ∀ c, ¬ loose c)
    (hx : s.nodes[curr]? = some x) (h0 : x.prop = 0) (hfield : field x = some p)
    (hp : Γ p = some ⟨lo, hi, m⟩) (hmw : m ≤ w) (hlo : i ≤ lo) (hhi : hi ≤ j)
    (harray : ∀ k, lo ≤ k → k ≤ hi → h.array w k = h.array m k)
    (hI : ∃ Δ, Valid h n Δ loose raw s' ∧ Grows i j w Γ Δ s s') :
    Ensures (¬ Small h n) (do call (← pointee (field (← node curr)))) s' fun c t =>
      (Answered t.nodes l r lo hi p c ∧ c.toInt = partSum (h.array w) lo hi l r) ∧
        KeepsSettled s'.nodes t.nodes ∧ ∃ Δ, Valid h n Δ loose raw t ∧ Grows i j w Γ Δ s t := by
  obtain ⟨Δ, hv, hg⟩ := hI
  refine .bind_ok (node_run (hg.settled curr x hx (.inr h0))) (.lift_ok (a := p) ?_ ?_)
  · rw [hfield]
    rfl
  · refine (hcall hloose hv (hg.types _ _ hp)).mono fun c t ht => ?_
    obtain ⟨⟨Λ, hvt, hgt⟩, hanswered, hsum⟩ := ht
    refine ⟨⟨hanswered, ?_⟩, hgt.keepsSettled, Λ, hvt, hg.trans (hgt.widen hlo hhi hmw)⟩
    rw [hsum]
    refine Segment.sum_congr fun k h1 h2 => ?_
    rw [harray k h1 h2]

/-- **Both halves.** -/
theorem queryHalves_sums (hij : i < j) (h1 : ¬ (j < l ∨ r < i)) (h2 : ¬ (l ≤ i ∧ j ≤ r))
    (ihl : QuerySums h n l r i (midpoint i j) (query leftFirst i (midpoint i j) l r))
    (ihr : QuerySums h n l r (midpoint i j + 1) j (query leftFirst (midpoint i j + 1) j l r))
    (hloose : ∀ c, ¬ loose c) (hv : Valid h n Γ loose raw s) (hc : Γ curr = some ⟨i, j, w⟩)
    (hx : s.nodes[curr]? = some x) (h0 : x.prop = 0) :
    Ensures (¬ Small h n) (queryHalves leftFirst i j l r curr) s
      (Sums h n Γ loose raw s i j w l r curr) := by
  have h3 := Segment.le_midpoint i j
  have h4 := Segment.midpoint_lt hij
  have hj : j < n := by
    have hbounds : 0 ≤ i ∧ i ≤ j ∧ j ≤ n - 1 := (hv.canonical _ _ hc).bounds
    omega
  have hfits := hv.typed.read hc hx
  obtain ⟨p, m, hxl, hp, hm, hpa⟩ := (hfits.left hij).settled h0
  obtain ⟨q, m', hxr, hq, hm', hqa⟩ := (hfits.right hij).settled h0
  unfold queryHalves
  refine .bind (Ensures.inOrder (I := fun t => ∃ Δ, Valid h n Δ loose raw t ∧ Grows i j w Γ Δ s t)
    (R := fun u t => KeepsSettled u.nodes t.nodes)
    (A := fun c t => Answered t.nodes l r i (midpoint i j) p c ∧
      c.toInt = partSum (h.array w) i (midpoint i j) l r)
    (B := fun c t => Answered t.nodes l r (midpoint i j + 1) j q c ∧
      c.toInt = partSum (h.array w) (midpoint i j + 1) j l r)
    ⟨Γ, hv, .refl _ _ _ _ _⟩
    (fun u hu => half_sums ihl hloose hx h0 hxl hp hm le_rfl h4.le hpa hu)
    (fun u hu => half_sums ihr hloose hx h0 hxr hq hm' (h3.trans (Nat.le_succ _)) le_rfl hqa hu)
    (fun a u t ha hk => ⟨ha.1.mono hk, ha.2⟩) (fun b u t hb hk => ⟨hb.1.mono hk, hb.2⟩)
    (fun u v t h5 h6 => h5.trans h6)) fun c t ht => ?_
  obtain ⟨⟨ha, hasum⟩, ⟨hb, hbsum⟩, hkeeps, Δ, hvt, hgt⟩ := ht
  have hsum : c.1.toInt + c.2.toInt = partSum (h.array w) i j l r := by
    rw [hasum, hbsum, Segment.partSum_split hij]
  by_cases hr : Representable (c.1.toInt + c.2.toInt)
  · obtain ⟨d, hd⟩ := hr.exists_toInt
    have hadd : SignedEvaluation.add c.1 c.2 = .ok d := SignedEvaluation.signed_of_toInt hd
    have hcall : (liftM (SignedEvaluation.add c.1 c.2) : PointerM ValueType) t = .ok d t := by
      rw [hadd]
      rfl
    refine .of_ok hcall ⟨⟨Δ, hvt, hgt⟩, ?_, hd.trans hsum⟩
    exact .halves (hkeeps _ _ hx h0) h0 h1 h2 hij hxl hxr ha hb hadd
  · have hadd : SignedEvaluation.add c.1 c.2 = .error .undefined := if_neg hr
    have hcall : (liftM (SignedEvaluation.add c.1 c.2) : PointerM ValueType) t =
        .error .undefined t := by
      rw [hadd]
      rfl
    exact .of_error hcall fun hs => hr (hsum ▸ hs.partSum hij.le hj _ _ _)

/-- What is left to show after the push, where the range does not cover a part of the segment. -/
theorem query_sums_of (hn : n < 2 ^ 32) (hpos : 0 < n)
    (hhalves : i < j → ¬ (j < l ∨ r < i) → ¬ (l ≤ i ∧ j ≤ r) →
      ∀ {Γ loose raw s curr w x}, (∀ c, ¬ loose c) → Valid h n Γ loose raw s →
        Γ curr = some ⟨i, j, w⟩ → s.nodes[curr]? = some x → x.prop = 0 →
          Ensures (¬ Small h n) (queryHalves leftFirst i j l r curr) s
            (Sums h n Γ loose raw s i j w l r curr)) :
    QuerySums h n l r i j (query leftFirst i j l r) := by
  intro Γ loose raw s curr w hloose hv hc
  rw [query]
  refine (lazy_valid hn hpos hv hc fun _ c hl => absurd hl (hloose c)).bind fun _ s₁ hs₁ => ?_
  obtain ⟨Δ, hvalid, hgrows, x, hx, h0⟩ := hs₁
  have hfits := hvalid.typed.read (hgrows.types _ _ hc) hx
  have hle : i ≤ j := hfits.le
  refine .ite (fun hapart => ?_) fun hapart => .ite (fun hin => ?_) fun hin => ?_
  · refine .pure ⟨⟨Δ, hvalid, hgrows⟩, .apart hx h0 hapart, ?_⟩
    rw [Segment.partSum_of_apart hapart, Int64.toInt_zero]
  · refine .bind_ok (node_run hx) (.pure ⟨⟨Δ, hvalid, hgrows⟩, .inside hx h0 hapart hin, ?_⟩)
    rw [Segment.partSum_of_inside hin.1 hin.2]
    exact hfits.val_eq h0
  · have hij : i < j := by omega
    rw [if_pos hij]
    refine (hhalves hij hapart hin hloose hvalid (hgrows.types _ _ hc) hx h0).mono fun c t ht => ?_
    obtain ⟨⟨Λ, hvt, hgt⟩, hrest⟩ := ht
    exact ⟨⟨Λ, hvt, hgrows.trans hgt⟩, hrest⟩

/-- **Queries.** -/
theorem query_sums (hn : n < 2 ^ 32) (hpos : 0 < n) : ∀ i j, i ≤ j →
    QuerySums h n l r i j (query leftFirst i j l r) := by
  refine Segment.halving_induction (fun i => ?_) fun i j hij ihl ihr => ?_
  · exact query_sums_of hn hpos fun hlt => absurd hlt (lt_irrefl i)
  · exact query_sums_of hn hpos fun _ h1 h2 => queryHalves_sums hij h1 h2 ihl ihr

end Queries

end PerSegTree

end Valseg
