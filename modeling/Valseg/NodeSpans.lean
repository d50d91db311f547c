import Valseg.Lib.TypedStore
import Valseg.Lib.CanonicalSegments
import Valseg.PerSegTree
import Valseg.SmallLoads

/-!
# What the nodes of perSegTree stand for

Every node stands, from when it is made and however often it is written, for one version of the
array on one canonical segment: its `Span`. `Fits` says so of one node and the spans of its
children, and `Valid` of all nodes; no two nodes have the same span, and every node has a parent of
its own version or is the root of it, so that no node is ever freed.

1. `lazy_valid`: a push keeps that, and leaves nothing pending at its node.
2. `Grows`: what a call changes. Nodes with nothing pending stay as they are.
-/

namespace Valseg

namespace PerSegTree

open Segment (length sum midpoint Canonical)
open TypedStore (Typing Typed)
open Effect (Ensures)

/-- A version of the array on a segment. -/
structure Span where
  lo : ℕ
  hi : ℕ
  version : ℕ
  deriving DecidableEq, Repr

/-- The pointer points to a node that stands for what is, with `d` added, the version. -/
def Stands (h : RangeAdds ℤ) (Γ : Typing Span) (p : Option ℕ) (t : Span) (d : ℤ) : Prop :=
  ∃ a u, p = some a ∧ Γ a = some ⟨t.lo, t.hi, u⟩ ∧ u ≤ t.version ∧
    ∀ k, t.lo ≤ k → k ≤ t.hi → h.array t.version k = h.array u k + d

/-- The left half of a span. -/
def Span.left (t : Span) : Span := ⟨t.lo, midpoint t.lo t.hi, t.version⟩

/-- The right half. -/
def Span.right (t : Span) : Span := ⟨midpoint t.lo t.hi + 1, t.hi, t.version⟩

/-- The node stands for the span. What is pending is missing from its value and its children. -/
structure Fits (h : RangeAdds ℤ) (Γ : Typing Span) (t : Span) (x : Node) : Prop where
  le : t.lo ≤ t.hi
  published : t.version < h.versionCount
  total : x.val.toInt + x.prop.toInt * length t.lo t.hi = sum (h.array t.version) t.lo t.hi
  single : t.lo = t.hi → ∃ u ≤ t.version, x.val.toInt = h.array u t.lo
  left : t.lo < t.hi → Stands h Γ x.left t.left x.prop.toInt
  right : t.lo < t.hi → Stands h Γ x.right t.right x.prop.toInt

/-- Numbers and differences of numbers of any two versions have representable sums. -/
def Small (h : RangeAdds ℤ) (n : ℕ) : Prop := ∃ b, SmallOn b 0 (n - 1) ∧
  ∀ i < n, ∀ v, (h.array v i).natAbs ≤ b ∧ ∀ u, (h.array v i - h.array u i).natAbs ≤ b

variable {h : RangeAdds ℤ} {Γ Δ : Typing Span} {t : Span} {x y : Node} {p : Option ℕ}
  {a b n lo hi u v : ℕ} {d e : ℤ}

theorem Stands.extend (hp : Stands h Γ p t d) (hext : TypedStore.Extends Γ Δ) :
    Stands h Δ p t d := by
  obtain ⟨a, u, hpa, ha, hle, harray⟩ := hp
  exact ⟨a, u, hpa, hext _ _ ha, hle, harray⟩

theorem fits_monotone : TypedStore.Monotone (Fits h) := fun _ _ _ _ hext hx =>
  ⟨hx.le, hx.published, hx.total, hx.single, fun hlt => (hx.left hlt).extend hext,
    fun hlt => (hx.right hlt).extend hext⟩

/-- A node stands for the later version, once it has what is missing on top. -/
theorem Stands.shift {w : ℕ} (hp : Stands h Γ p ⟨lo, hi, u⟩ d) (huw : u ≤ w)
    (harray : ∀ k, lo ≤ k → k ≤ hi → h.array w k = h.array u k + e) :
    Stands h Γ p ⟨lo, hi, w⟩ (d + e) := by
  obtain ⟨a, u', hpa, ha, hle, hpart⟩ := hp
  refine ⟨a, u', hpa, ha, hle.trans huw, fun k h1 h2 => ?_⟩
  have hk := hpart k h1 h2
  have hw := harray k h1 h2
  simp only at hk ⊢
  omega

/-- A copy of a node with more pending stands for the later version. -/
theorem Fits.shift {w : ℕ} {q : ValueType} (hx : Fits h Γ ⟨lo, hi, u⟩ x) (huw : u ≤ w)
    (hw : w < h.versionCount) (harray : ∀ k, lo ≤ k → k ≤ hi → h.array w k = h.array u k + e)
    (hq : q.toInt = x.prop.toInt + e) : Fits h Γ ⟨lo, hi, w⟩ { x with prop := q } := by
  have hle : lo ≤ hi := hx.le
  refine ⟨hle, hw, ?_, fun heq => ?_, fun hlt => ?_, fun hlt => ?_⟩
  · have hsum : sum (h.array w) lo hi = sum (fun k => h.array u k + e) lo hi :=
      Segment.sum_congr harray
    have htotal := hx.total
    simp only at htotal ⊢
    rw [hsum, Segment.sum_add_const hle, ← htotal, hq]
    ring
  · obtain ⟨v, hv, hval⟩ := hx.single heq
    exact ⟨v, hv.trans huw, hval⟩
  · have := (hx.left hlt).shift huw fun k h1 h2 =>
      harray k h1 (h2.trans (Segment.midpoint_lt hlt).le)
    rwa [← hq] at this
  · have := (hx.right hlt).shift huw fun k h1 h2 =>
      harray k ((Segment.le_midpoint lo hi).trans ((Nat.le_succ _).trans h1)) h2
    rwa [← hq] at this

/-- What is pending is the difference of two versions. -/
theorem Fits.prop_eq (hx : Fits h Γ t x) :
    ∃ u, x.prop.toInt = h.array t.version t.lo - h.array u t.lo := by
  rcases Nat.eq_or_lt_of_le hx.le with heq | hlt
  · obtain ⟨u, -, hu⟩ := hx.single heq
    have htotal := hx.total
    rw [← heq, hu, Segment.sum_single] at htotal
    simp only [Segment.length, Nat.sub_self, zero_add, Nat.cast_one, mul_one] at htotal
    exact ⟨u, by omega⟩
  · obtain ⟨a, u, -, -, -, harray⟩ := hx.left hlt
    have := harray t.lo le_rfl (Segment.le_midpoint _ _)
    exact ⟨u, by simp only [Span.left] at this; omega⟩

/-- Nothing pending: the value is the sum. -/
theorem Fits.val_eq (hx : Fits h Γ t x) (hp : x.prop = 0) :
    x.val.toInt = sum (h.array t.version) t.lo t.hi := by
  have htotal := hx.total
  rwa [hp, Int64.toInt_zero, zero_mul, add_zero] at htotal

namespace Small

theorem segment (lo : ℕ) (hs : Small h n) (hhi : hi < n) : ∃ b, SmallOn b lo hi ∧
    ∀ i ≤ hi, ∀ v, (h.array v i).natAbs ≤ b ∧ ∀ u, (h.array v i - h.array u i).natAbs ≤ b := by
  obtain ⟨b, hb, hall⟩ := hs
  refine ⟨b, le_trans (Nat.mul_le_mul_left b ?_) hb, fun i hi' => hall i (by omega)⟩
  unfold Segment.length
  omega

/-- The sums of versions are representable. -/
theorem sum (hs : Small h n) (hle : lo ≤ hi) (hhi : hi < n) (v : ℕ) :
    Representable (Segment.sum (h.array v) lo hi) := by
  obtain ⟨b, hb, hall⟩ := hs.segment lo hhi
  exact hb.sum hle fun i _ h2 => (hall i h2 v).1

theorem partSum (hs : Small h n) (hle : lo ≤ hi) (hhi : hi < n) (v l r : ℕ) :
    Representable (Segment.partSum (h.array v) lo hi l r) := by
  obtain ⟨b, hb, hall⟩ := hs.segment lo hhi
  exact hb.partSum hle fun i _ h2 => (hall i h2 v).1

/-- Differences are, times a length. -/
theorem mul (hs : Small h n) (hle : lo ≤ hi) (hhi : hi < n) (u v : ℕ) :
    Representable ((h.array v lo - h.array u lo) * length lo hi) := by
  obtain ⟨b, hb, hall⟩ := hs.segment lo hhi
  exact hb.mul ((hall lo hle v).2 u) le_rfl

theorem difference (hs : Small h n) (hlo : lo < n) (u v : ℕ) :
    Representable (h.array v lo - h.array u lo) := by
  obtain ⟨b, hb, hall⟩ := hs.segment lo hlo
  exact hb.single ((hall lo le_rfl v).2 u)

end Small

/-! ## The invariant -/

/-- The node is the root of its version, or a child of a node of its version at which nothing is
pending. -/
def Housed (Γ : Typing Span) (n : ℕ) (s : State) (c : ℕ) (t : Span) : Prop :=
  (t.lo = 0 ∧ t.hi = n - 1 ∧ s.ptrs[t.version]? = some c) ∨
    ∃ p q x, Γ p = some q ∧ s.nodes[p]? = some x ∧ x.prop = 0 ∧ q.lo < q.hi ∧
      ((x.left = some c ∧ t = q.left) ∨ (x.right = some c ∧ t = q.right))

/-- The state of the tree, while nodes of the latest version may be `loose`, not yet children of
anything, and `raw` ones not yet put together. -/
structure Valid (h : RangeAdds ℤ) (n : ℕ) (Γ : Typing Span) (loose raw : ℕ → Prop) (s : State) :
    Prop where
  typed : Typed (Fits h) Γ s.nodes
  canonical : ∀ a t, Γ a = some t → Canonical 0 (n - 1) t.lo t.hi
  unique : ∀ a b t, Γ a = some t → Γ b = some t → a = b
  housed : ∀ c t, Γ c = some t → loose c ∨ Housed Γ n s c t
  latest : ∀ c, loose c → ∃ t, Γ c = some t ∧ t.version = h.updates.length
  complete : ∀ a < s.nodes.length, Γ a = none → raw a
  released : s.released = []
  created : s.created = s.nodes.length

/-- What a call on a node of the segment changes: it makes nodes on parts of the segment, of
versions up to `w`, and writes to nodes with something pending. -/
structure Grows (lo hi w : ℕ) (Γ Δ : Typing Span) (s s' : State) : Prop where
  types : TypedStore.Extends Γ Δ
  ptrs : s'.ptrs = s.ptrs
  n : s'.n = s.n
  vec : s'.vec = s.vec
  length : s.nodes.length ≤ s'.nodes.length
  settled : ∀ a x, s.nodes[a]? = some x → (Γ a = none ∨ x.prop = 0) → s'.nodes[a]? = some x
  free : ∀ a < s.nodes.length, Γ a = none → Δ a = none
  made : ∀ a t, Δ a = some t →
    Γ a = some t ∨ (s.nodes.length ≤ a ∧ lo ≤ t.lo ∧ t.hi ≤ hi ∧ t.version ≤ w)

namespace Grows

variable {Λ : Typing Span} {s s' s'' : State} {lo' hi' w w' : ℕ}

theorem refl (lo hi w : ℕ) (Γ : Typing Span) (s : State) : Grows lo hi w Γ Γ s s :=
  ⟨.refl Γ, rfl, rfl, rfl, le_rfl, fun _ _ h _ => h, fun _ _ h => h, fun _ _ h => .inl h⟩

theorem trans (h1 : Grows lo hi w Γ Δ s s') (h2 : Grows lo hi w Δ Λ s' s'') :
    Grows lo hi w Γ Λ s s'' where
  types := h1.types.trans h2.types
  ptrs := h2.ptrs.trans h1.ptrs
  n := h2.n.trans h1.n
  vec := h2.vec.trans h1.vec
  length := h1.length.trans h2.length
  settled := fun a x ha hx => by
    have hlt := (List.getElem?_eq_some_iff.mp ha).1
    exact h2.settled a x (h1.settled a x ha hx) (hx.imp (h1.free a hlt) id)
  free := fun a ha hg => h2.free a (by have := h1.length; omega) (h1.free a ha hg)
  made := fun a t ha => by
    rcases h2.made a t ha with ha | ⟨hlen, hin⟩
    · exact h1.made a t ha
    · exact .inr ⟨h1.length.trans hlen, hin⟩

/-- A call on a part of the segment. -/
theorem widen (hg : Grows lo' hi' w' Γ Δ s s') (hlo : lo ≤ lo') (hhi : hi' ≤ hi) (hw : w' ≤ w) :
    Grows lo hi w Γ Δ s s' :=
  { hg with made := fun a t ha => (hg.made a t ha).imp id fun hm =>
      ⟨hm.1, hlo.trans hm.2.1, hm.2.2.1.trans hhi, hm.2.2.2.trans hw⟩ }

/-- What is housed stays so. -/
theorem housed {c : ℕ} (hg : Grows lo hi w Γ Δ s s') (hc : Housed Γ n s c t) :
    Housed Δ n s' c t := by
  rcases hc with ⟨hlo, hhi, hroot⟩ | ⟨p, q, x, hp, hx, h0, hlt, hchild⟩
  · exact .inl ⟨hlo, hhi, hg.ptrs ▸ hroot⟩
  · exact .inr ⟨p, q, x, hg.types _ _ hp, hg.settled p x hx (.inr h0), h0, hlt, hchild⟩

end Grows

/-! ## One push -/

section Push

variable {loose raw : ℕ → Prop} {s s' : State} {curr c : ℕ} {val q r : ValueType} {z : Node}

/-- The halves of a span with an index each. -/
theorem Span.left_half (t : Span) : Segment.Half t.lo t.hi t.left.lo t.left.hi := .inl ⟨rfl, rfl⟩

theorem Span.right_half (t : Span) : Segment.Half t.lo t.hi t.right.lo t.right.hi :=
  .inr ⟨rfl, rfl⟩

/-- The parent of a node of the version is the span it is half of. -/
theorem Valid.parent (hv : Valid h n Γ loose raw s) (hc : Γ c = some t) (hloose : ¬ loose c)
    {q : Span} (ha : Γ a = some q) (hlt : q.lo < q.hi) (hq : t = q.left ∨ t = q.right) :
    ∃ x, s.nodes[a]? = some x ∧ x.prop = 0 ∧
      ((x.left = some c ∧ t = q.left) ∨ (x.right = some c ∧ t = q.right)) := by
  have hqc := hv.canonical a q ha
  have h1 := Segment.le_midpoint q.lo q.hi
  have h2 := Segment.midpoint_lt hlt
  have hbounds := hqc.bounds
  have hversion : t.version = q.version := by rcases hq with rfl | rfl <;> rfl
  have hhalf : Segment.Half q.lo q.hi t.lo t.hi := by
    rcases hq with rfl | rfl
    · exact q.left_half
    · exact q.right_half
  rcases (hv.housed c t hc).resolve_left hloose with ⟨hlo, hhi, -⟩ | ⟨p, w, x, hp, hx, h0, hw, hchild⟩
  · unfold Segment.Half at hhalf
    omega
  · have hwhalf : Segment.Half w.lo w.hi t.lo t.hi := by
      rcases hchild with ⟨-, rfl⟩ | ⟨-, rfl⟩
      · exact w.left_half
      · exact w.right_half
    have hwversion : t.version = w.version := by rcases hchild with ⟨-, rfl⟩ | ⟨-, rfl⟩ <;> rfl
    obtain ⟨h3, h4⟩ := hqc.half_unique (hv.canonical p w hp) hlt hw hhalf hwhalf
    have hsame : w = q := by
      obtain ⟨wlo, whi, wv⟩ := w
      obtain ⟨qlo, qhi, qv⟩ := q
      simp only at h3 h4 hversion hwversion
      rw [h3, h4, ← hwversion, hversion]
    subst hsame
    cases hv.unique _ _ _ hp ha
    exact ⟨x, hx, h0, hchild⟩

/-- A child of a node with something pending is of an older version, and something else owns
it. -/
theorem Valid.child (hv : Valid h n Γ loose raw s) (hc : Γ curr = some t)
    (hx : s.nodes[curr]? = some x) (hp : x.prop ≠ 0) {w : Span} (hw : w.version = t.version)
    (hle : w.lo ≤ w.hi) (hstands : Stands h Γ p w x.prop.toInt) :
    ∃ a u, p = some a ∧ Γ a = some ⟨w.lo, w.hi, u⟩ ∧ u < t.version ∧ OwnedApart s curr a ∧
      ∀ k, w.lo ≤ k → k ≤ w.hi → h.array t.version k = h.array u k + x.prop.toInt := by
  obtain ⟨a, u, hpa, ha, hu, harray⟩ := hstands
  rw [hw] at hu harray
  have hne : u ≠ t.version := by
    rintro rfl
    have h1 := harray w.lo le_rfl hle
    have h2 : x.prop.toInt ≠ 0 := fun h0 => hp (Int64.toInt_inj.mp (h0.trans Int64.toInt_zero.symm))
    omega
  have hpublished := (hv.typed.read hc hx).published
  unfold RangeAdds.versionCount at hpublished
  refine ⟨a, u, hpa, ha, by omega, ?_, harray⟩
  rcases hv.housed a _ ha with hl | ⟨-, -, hroot⟩ | ⟨b, q, y, hb, hy, h0, -, hchild⟩
  · obtain ⟨t', ht', hlatest⟩ := hv.latest a hl
    cases ha.symm.trans ht'
    simp only at hlatest
    omega
  · exact .inl (List.mem_of_getElem? hroot)
  · refine .inr ⟨b, y, ?_, hy, hchild.imp And.left And.left⟩
    rintro rfl
    rw [hx] at hy
    cases hy
    exact hp h0

/-- No node stands for a half of what a node with something pending stands for. -/
theorem Valid.no_half (hv : Valid h n Γ loose raw s) (hc : Γ curr = some t)
    (hx : s.nodes[curr]? = some x) (hp : x.prop ≠ 0) (hlt : t.lo < t.hi) {w : Span}
    (hw : w = t.left ∨ w = t.right) (hloose : ∀ c, loose c → Γ c ≠ some w) :
    ∀ c, Γ c ≠ some w := by
  intro c hcw
  obtain ⟨y, hy, h0, -⟩ := hv.parent hcw (fun hl => hloose c hl hcw) hc hlt hw
  rw [hx] at hy
  cases hy
  exact hp h0

/-- The typing after a push: the two copies stand for the halves. -/
def pushedTyping (Γ : Typing Span) (s : State) (t : Span) : Typing Span :=
  Function.update (Function.update Γ s.nodes.length (some t.left)) (s.nodes.length + 1)
    (some t.right)

theorem pushedTyping_eq_some {w : Span} (hc : pushedTyping Γ s t c = some w) :
    (c = s.nodes.length ∧ w = t.left) ∨ (c = s.nodes.length + 1 ∧ w = t.right) ∨
      (c ≠ s.nodes.length ∧ c ≠ s.nodes.length + 1 ∧ Γ c = some w) := by
  rcases TypedStore.update_eq_some hc with ⟨rfl, rfl⟩ | ⟨hne, hc⟩
  · exact .inr (.inl ⟨rfl, rfl⟩)
  · rcases TypedStore.update_eq_some hc with ⟨rfl, rfl⟩ | ⟨hne', hc⟩
    · exact .inl ⟨rfl, rfl⟩
    · exact .inr (.inr ⟨hne', hne, hc⟩)

theorem pushedTyping_left (Γ : Typing Span) (s : State) (t : Span) :
    pushedTyping Γ s t s.nodes.length = some t.left := by
  unfold pushedTyping
  rw [Function.update_of_ne (by omega), Function.update_self]

theorem pushedTyping_right (Γ : Typing Span) (s : State) (t : Span) :
    pushedTyping Γ s t (s.nodes.length + 1) = some t.right := by
  unfold pushedTyping
  rw [Function.update_self]

theorem pushedTyping_of_lt (hc : c < s.nodes.length) : pushedTyping Γ s t c = Γ c := by
  unfold pushedTyping
  rw [Function.update_of_ne (by omega), Function.update_of_ne (by omega)]

/-- **The store after a push** is typed. -/
theorem Valid.typed_pushed (hv : Valid h n Γ loose raw s) (hc : Γ curr = some t)
    (hlt : t.lo < t.hi) (hx : s.nodes[curr]? = some x) (hy : Fits h Γ t.left { y with prop := q })
    (hz : Fits h Γ t.right { z with prop := r })
    (hval : val.toInt = x.val.toInt + x.prop.toInt * length t.lo t.hi)
    (hs' : s' = amended s curr ⟨some s.nodes.length, some (s.nodes.length + 1), val, 0⟩
      [{ y with prop := q }, { z with prop := r }]) :
    Typed (Fits h) (pushedTyping Γ s t) s'.nodes ∧
      TypedStore.Extends Γ (pushedTyping Γ s t) := by
  have hfresh := hv.typed.fresh
  have hpush := hv.typed.push { y with prop := q }
  have hleft := hpush.declare fits_monotone hfresh List.getElem?_concat_length hy
  have hext := TypedStore.Extends.update hfresh t.left
  have hpush' := hleft.push { z with prop := r }
  have hfresh' := hleft.fresh
  rw [List.length_append, List.length_singleton] at hfresh'
  have hlast : ((s.nodes ++ [{ y with prop := q }]) ++ [{ z with prop := r }])[s.nodes.length + 1]? =
      some { z with prop := r } := by
    have := List.getElem?_concat_length (l := s.nodes ++ [{ y with prop := q }])
      (a := { z with prop := r })
    rwa [List.length_append, List.length_singleton] at this
  have hboth := hpush'.declare fits_monotone hfresh' hlast (fits_monotone _ _ _ _ hext hz)
  have hext' := hext.trans (TypedStore.Extends.update hfresh' t.right)
  refine ⟨?_, hext'⟩
  have hold := hv.typed.read hc hx
  have hself : Fits h (pushedTyping Γ s t) t
      ⟨some s.nodes.length, some (s.nodes.length + 1), val, 0⟩ := by
    refine ⟨hold.le, hold.published, ?_, fun heq => absurd heq hlt.ne, fun _ => ?_, fun _ => ?_⟩
    · simp only [Int64.toInt_zero, zero_mul, add_zero]
      rw [hval, hold.total]
    · exact ⟨_, t.version, rfl, pushedTyping_left Γ s t, le_rfl, fun k _ _ => (add_zero _).symm⟩
    · exact ⟨_, t.version, rfl, pushedTyping_right Γ s t, le_rfl, fun k _ _ => (add_zero _).symm⟩
  have hwrite := hboth.write (hext' _ _ hc) hself
  have hcurr := hv.typed.lt hc
  rw [hs']
  simp only [amended]
  rwa [List.set_append_left _ _ (by rw [List.length_append]; omega),
    List.set_append_left _ _ hcurr, List.append_assoc] at hwrite

/-- **What a push changes.** -/
theorem grows_pushed (hc : Γ curr = some t)
    (hlt : t.lo < t.hi) (hx : s.nodes[curr]? = some x) (hp : x.prop ≠ 0)
    (hext : TypedStore.Extends Γ (pushedTyping Γ s t)) {more : List Node} (hmore : more.length = 2)
    (hs' : s' = amended s curr y more) : Grows t.lo t.hi t.version Γ (pushedTyping Γ s t) s s' := by
  subst hs'
  have hm := Segment.le_midpoint t.lo t.hi
  have hm' := Segment.midpoint_lt hlt
  refine ⟨hext, rfl, rfl, rfl, ?_, fun a x' ha h0 => ?_, fun a ha hg => ?_, fun a w ha => ?_⟩
  · rw [amended_length]
    omega
  · refine amended_other ?_ ha _ _
    rintro rfl
    rw [hx] at ha
    cases ha
    rcases h0 with h0 | h0
    · rw [hc] at h0
      cases h0
    · exact hp h0
  · rwa [pushedTyping_of_lt ha]
  · rcases pushedTyping_eq_some ha with ⟨rfl, rfl⟩ | ⟨rfl, rfl⟩ | ⟨-, -, ha⟩
    · exact .inr ⟨le_rfl, le_rfl, hm'.le, le_rfl⟩
    · exact .inr ⟨Nat.le_succ _, hm.trans (Nat.le_succ _), le_rfl, le_rfl⟩
    · exact .inl ha

/-- **A push keeps the invariant.** -/
theorem Valid.pushed (hv : Valid h n Γ loose raw s) (hc : Γ curr = some t) (hlt : t.lo < t.hi)
    (hx : s.nodes[curr]? = some x) (hp : x.prop ≠ 0)
    (hloose : ∀ c, loose c → Γ c ≠ some t.left ∧ Γ c ≠ some t.right)
    (hy : Fits h Γ t.left { y with prop := q }) (hz : Fits h Γ t.right { z with prop := r })
    (hval : val.toInt = x.val.toInt + x.prop.toInt * length t.lo t.hi)
    (hs' : s' = amended s curr ⟨some s.nodes.length, some (s.nodes.length + 1), val, 0⟩
      [{ y with prop := q }, { z with prop := r }]) :
    Valid h n (pushedTyping Γ s t) loose raw s' ∧ Grows t.lo t.hi t.version Γ (pushedTyping Γ s t) s s' := by
  obtain ⟨htyped, hext⟩ := hv.typed_pushed hc hlt hx hy hz hval hs'
  have hgrows := grows_pushed hc hlt hx hp hext rfl hs'
  have hcurr := hv.typed.lt hc
  have hself : s'.nodes[curr]? =
      some ⟨some s.nodes.length, some (s.nodes.length + 1), val, 0⟩ := by
    rw [hs']
    exact amended_curr hcurr _ _
  have hleft := hv.no_half hc hx hp hlt (.inl rfl) fun c hl => (hloose c hl).1
  have hright := hv.no_half hc hx hp hlt (.inr rfl) fun c hl => (hloose c hl).2
  have hhalves := (hv.canonical curr t hc).halves hlt
  have hne : t.left ≠ t.right := by
    intro heq
    have h1 := congrArg Span.hi heq
    have h2 := Segment.midpoint_lt hlt
    simp only [Span.left, Span.right] at h1
    omega
  refine ⟨⟨htyped, fun a w ha => ?_, fun a b w ha hb => ?_, fun c w hcw => ?_, fun c hl => ?_,
    fun a ha hg => ?_, ?_, ?_⟩, hgrows⟩
  · rcases pushedTyping_eq_some ha with ⟨-, rfl⟩ | ⟨-, rfl⟩ | ⟨-, -, ha⟩
    · exact hhalves.1
    · exact hhalves.2
    · exact hv.canonical a w ha
  · rcases pushedTyping_eq_some ha with ⟨rfl, rfl⟩ | ⟨rfl, rfl⟩ | ⟨-, -, ha⟩
    · rcases pushedTyping_eq_some hb with ⟨rfl, -⟩ | ⟨-, h2⟩ | ⟨-, -, hb⟩
      · rfl
      · exact absurd h2 hne
      · exact absurd hb (hleft b)
    · rcases pushedTyping_eq_some hb with ⟨-, h2⟩ | ⟨rfl, -⟩ | ⟨-, -, hb⟩
      · exact absurd h2.symm hne
      · rfl
      · exact absurd hb (hright b)
    · rcases pushedTyping_eq_some hb with ⟨-, rfl⟩ | ⟨-, rfl⟩ | ⟨-, -, hb⟩
      · exact absurd ha (hleft a)
      · exact absurd ha (hright a)
      · exact hv.unique a b w ha hb
  · rcases pushedTyping_eq_some hcw with ⟨rfl, rfl⟩ | ⟨rfl, rfl⟩ | ⟨-, -, hcw⟩
    · exact .inr (.inr ⟨curr, t, _, hext _ _ hc, hself, rfl, hlt, .inl ⟨rfl, rfl⟩⟩)
    · exact .inr (.inr ⟨curr, t, _, hext _ _ hc, hself, rfl, hlt, .inr ⟨rfl, rfl⟩⟩)
    · exact (hv.housed c w hcw).imp id hgrows.housed
  · obtain ⟨w, hw, hlatest⟩ := hv.latest c hl
    exact ⟨w, hext _ _ hw, hlatest⟩
  · have hlen : s'.nodes.length = s.nodes.length + 2 := by rw [hs', amended_length]; rfl
    have hlt' : a < s.nodes.length := by
      by_contra hge
      have hcases : a = s.nodes.length ∨ a = s.nodes.length + 1 := by omega
      rcases hcases with rfl | rfl
      · rw [pushedTyping_left] at hg
        cases hg
      · rw [pushedTyping_right] at hg
        cases hg
    rw [pushedTyping_of_lt hlt'] at hg
    exact hv.complete a hlt' hg
  · rw [hs']
    exact hv.released
  · rw [hs', amended_length]
    exact congrArg (· + 2) hv.created

/-- A node with something pending is overwritten with one that stands for the same. -/
theorem Valid.rewritten (hv : Valid h n Γ loose raw s) (hc : Γ curr = some t)
    (hx : s.nodes[curr]? = some x) (hp : x.prop ≠ 0) (hy : Fits h Γ t y) :
    Valid h n Γ loose raw { s with nodes := s.nodes.set curr y } ∧
      Grows t.lo t.hi t.version Γ Γ s { s with nodes := s.nodes.set curr y } := by
  have hgrows : Grows t.lo t.hi t.version Γ Γ s { s with nodes := s.nodes.set curr y } := by
    refine ⟨.refl Γ, rfl, rfl, rfl, (List.length_set ..).ge, fun a x' ha h0 => ?_,
      fun _ _ hg => hg, fun _ _ ha => .inl ha⟩
    have hne : curr ≠ a := by
      rintro rfl
      cases hx.symm.trans ha
      rcases h0 with h0 | h0
      · rw [hc] at h0
        cases h0
      · exact hp h0
    rwa [List.getElem?_set_ne hne]
  exact ⟨⟨hv.typed.write hc hy, hv.canonical, hv.unique,
    fun c w hcw => (hv.housed c w hcw).imp id hgrows.housed, hv.latest,
    fun a ha => hv.complete a (by simpa using ha), hv.released,
    hv.created.trans (List.length_set ..).symm⟩, hgrows⟩

/-- What a call on the node guarantees: the invariant, and that nothing is pending there. -/
def Settles (h : RangeAdds ℤ) (n : ℕ) (Γ : Typing Span) (loose raw : ℕ → Prop) (s : State)
    (t : Span) (curr : ℕ) (s' : State) : Prop :=
  ∃ Δ, Valid h n Δ loose raw s' ∧ Grows t.lo t.hi t.version Γ Δ s s' ∧
    ∃ x, s'.nodes[curr]? = some x ∧ x.prop = 0

/-- The arithmetic of a push is defined where the numbers are small. -/
theorem Fits.push_small (hs : Small h n) (hx : Fits h Γ t x) (hhi : t.hi < n) :
    Representable (x.prop.toInt * length t.lo t.hi) ∧
      Representable (x.val.toInt + x.prop.toInt * length t.lo t.hi) := by
  obtain ⟨u, hu⟩ := hx.prop_eq
  refine ⟨?_, ?_⟩
  · rw [hu]
    exact hs.mul hx.le hhi _ _
  · rw [hx.total]
    exact hs.sum hx.le hhi _

/-- So is that of a copy. -/
theorem Fits.shift_small {w : ℕ} (hs : Small h n) (hx : Fits h Γ ⟨lo, hi, u⟩ x) (hlo : lo < n)
    (harray : h.array w lo = h.array u lo + e) : Representable (x.prop.toInt + e) := by
  obtain ⟨u', hu'⟩ := hx.prop_eq
  have heq : x.prop.toInt + e = h.array w lo - h.array u' lo := by
    simp only at hu'
    omega
  rw [heq]
  exact hs.difference hlo _ _

/-- **A push.** It returns unless the numbers are not small, and keeps the invariant. -/
theorem lazy_valid (hn : n < 2 ^ 32) (hpos : 0 < n) (hv : Valid h n Γ loose raw s)
    (hc : Γ curr = some t)
    (hloose : t.lo < t.hi → ∀ c, loose c → Γ c ≠ some t.left ∧ Γ c ≠ some t.right) :
    Ensures (¬ Small h n) (lazy t.lo t.hi curr) s fun _ =>
      Settles h n Γ loose raw s t curr := by
  obtain ⟨x, hx, hfits⟩ := hv.typed curr t hc
  have hbounds := (hv.canonical curr t hc).bounds
  have hhi : t.hi < n := by omega
  by_cases hp : x.prop = 0
  · exact .of_ok (lazy_settled hx hp) ⟨Γ, hv, .refl _ _ _ _ _, x, hx, hp⟩
  rcases Nat.eq_or_lt_of_le hbounds.2.1 with heq | hlt
  · -- a single index
    have hone : x.prop.toInt * (length t.lo t.hi : ℤ) = x.prop.toInt := by
      rw [← heq]
      simp [Segment.length]
    have hsmall : ¬ ¬ Small h n → Representable x.prop.toInt ∧
        Representable (x.val.toInt + x.prop.toInt) := fun hs => by
      have := hfits.push_small (not_not.mp hs) hhi
      rwa [hone] at this
    rw [← heq]
    refine .mono (lazy_leaf hx hp (by omega) (fun hs => (hsmall hs).1) fun hs => (hsmall hs).2)
      fun _ s' hs' => ?_
    obtain ⟨val, hval, rfl⟩ := hs'
    have hy : Fits h Γ t { x with val := val, prop := 0 } := by
      refine ⟨hfits.le, hfits.published, ?_, fun _ => ⟨t.version, le_rfl, ?_⟩,
        fun hlt => absurd heq hlt.ne, fun hlt => absurd heq hlt.ne⟩
      · simp only [Int64.toInt_zero, zero_mul, add_zero]
        rw [hval, ← hfits.total, hone]
      · simp only
        rw [hval, ← hone, hfits.total, ← heq, Segment.sum_single]
    obtain ⟨hvalid, hgrows⟩ := hv.rewritten hc hx hp hy
    exact ⟨Γ, hvalid, hgrows, _, List.getElem?_set_self (hv.typed.lt hc), rfl⟩
  · -- two halves
    have h1 := Segment.le_midpoint t.lo t.hi
    have h2 := Segment.midpoint_lt hlt
    have hl : t.left.lo ≤ t.left.hi := h1
    have hr : t.right.lo ≤ t.right.hi := h2
    obtain ⟨l, u, hxl, hgl, hu, hol, hal⟩ := hv.child (w := t.left) hc hx hp rfl hl (hfits.left hlt)
    obtain ⟨r, w, hxr, hgr, hw, hor, har⟩ := hv.child (w := t.right) hc hx hp rfl hr (hfits.right hlt)
    obtain ⟨y, hy, hfy⟩ := hv.typed l _ hgl
    obtain ⟨z, hz, hfz⟩ := hv.typed r _ hgr
    have hpending : Pending s curr l r x y z := by
      refine ⟨hx, hp, hxl, hxr, hy, hz, ?_, ?_, hol, hor⟩
      · rintro rfl
        have hhi' := congrArg Span.hi (Option.some.inj (hc.symm.trans hgl))
        exact h2.ne hhi'.symm
      · rintro rfl
        have hlo' := congrArg Span.lo (Option.some.inj (hc.symm.trans hgr))
        simp only [Span.right] at hlo'
        omega
    refine .mono (lazy_pending hpending hlt (by omega)
      (fun hs => (hfits.push_small (not_not.mp hs) hhi).1)
      (fun hs => (hfits.push_small (not_not.mp hs) hhi).2)
      (fun hs => hfy.shift_small (not_not.mp hs) (by simp only [Span.left]; omega)
        (hal _ le_rfl hl))
      (fun hs => hfz.shift_small (not_not.mp hs) (by simp only [Span.right]; omega)
        (har _ le_rfl hr))) fun _ s' hs' => ?_
    obtain ⟨val, p, q, hpushed⟩ := hs'
    obtain ⟨hvalid, hgrows⟩ := hv.pushed hc hlt hx hp (hloose hlt)
      (hfy.shift hu.le hfits.published hal hpushed.left)
      (hfz.shift hw.le hfits.published har hpushed.right) hpushed.val hpushed.state
    have hcurr : s'.nodes[curr]? =
        some ⟨some s.nodes.length, some (s.nodes.length + 1), val, 0⟩ := by
      rw [hpushed.state]
      exact amended_curr (hv.typed.lt hc) _ _
    exact ⟨_, hvalid, hgrows, _, hcurr, rfl⟩

end Push

end PerSegTree

end Valseg
