import Valseg.PointOnlyPersistentSegmentTree
import Valseg.Lib.TagLoad

/-!
# Trees of small load

Where the load of a tree times the length of its segment is at most `2 ^ 63 - 1` (`SmallOn`),
nothing that its operations compute overflows: no tag times a length, no sum of a part of the
segment, and no sum that is stored less what the ancestors owe.

1. `query_of_load`: a query returns.
2. `updateWith_of_load`, `updatePush_of_load`: an update returns, and adds at most the magnitude of
   its delta to the load.
3. `Discipline.Gentle`: every way to make the next tree does that.
-/

namespace Valseg

open Segment (length addOn partSum)

/-- Numbers of magnitude `b` at every index of the segment have representable sums. -/
def SmallOn (b lo hi : ℕ) : Prop := b * length lo hi ≤ 2 ^ 63 - 1

namespace SmallOn

variable {b c lo hi l r : ℕ} {A : ℕ → ℤ} {x : ℤ}

theorem mono (h : SmallOn b lo hi) (hc : c ≤ b) : SmallOn c lo hi :=
  (Nat.mul_le_mul_right _ hc).trans h

theorem left (h : SmallOn b lo hi) (hlt : lo < hi) : SmallOn b lo (Segment.midpoint lo hi) := by
  have hm := Segment.midpoint_lt hlt
  exact (Nat.mul_le_mul_left b (by unfold Segment.length; omega)).trans h

theorem right (h : SmallOn b lo hi) : SmallOn b (Segment.midpoint lo hi + 1) hi := by
  have hm := Segment.le_midpoint lo hi
  exact (Nat.mul_le_mul_left b (by unfold Segment.length; omega)).trans h

/-- A number times a length of the segment. -/
theorem mul {n : ℕ} (h : SmallOn b lo hi) (hx : x.natAbs ≤ b) (hn : n ≤ length lo hi) :
    Representable (x * n) := by
  have hxn : (x * n).natAbs ≤ b * length lo hi := by
    rw [Int.natAbs_mul, Int.natAbs_natCast]
    exact Nat.mul_le_mul hx hn
  have hb : b * length lo hi ≤ 2 ^ 63 - 1 := h
  unfold Representable
  omega

theorem single (h : SmallOn b lo hi) (hx : x.natAbs ≤ b) : Representable x := by
  have hone : 1 ≤ length lo hi := Nat.le_add_left 1 _
  have := h.mul hx hone
  rwa [Nat.cast_one, mul_one] at this

theorem sum (h : SmallOn b lo hi) (hle : lo ≤ hi)
    (hA : ∀ i, lo ≤ i → i ≤ hi → (A i).natAbs ≤ b) : Representable (Segment.sum A lo hi) := by
  have hs := natAbs_sum_le hle hA
  have hb : b * length lo hi ≤ 2 ^ 63 - 1 := h
  unfold Representable
  omega

theorem partSum (h : SmallOn b lo hi) (hle : lo ≤ hi)
    (hA : ∀ i, lo ≤ i → i ≤ hi → (A i).natAbs ≤ b) : Representable (partSum A lo hi l r) := by
  refine h.sum (A := fun i => if l ≤ i ∧ i ≤ r then A i else 0) hle fun i h1 h2 => ?_
  split_ifs
  · exact hA i h1 h2
  · exact Nat.zero_le _

/-- Such an array is in the domain. -/
theorem canonicalFit (h : SmallOn b lo hi) (hA : ∀ i, lo ≤ i → i ≤ hi → (A i).natAbs ≤ b) :
    CanonicalFit A lo hi := by
  intro a c hc
  obtain ⟨h1, h2, h3⟩ := hc.bounds
  have hac : SmallOn b a c :=
    (Nat.mul_le_mul_left b (by unfold Segment.length; omega)).trans h
  exact hac.sum h2 fun i h4 h5 => hA i (by omega) (by omega)

end SmallOn

namespace SumTree

variable {t : SumTree} {lo hi l r : ℕ} {A : ℕ → ℤ} {value inherited : ValueType}

/-! ## Queries -/

/-- A segment inside the range. -/
theorem apply_of_load (hhi : hi < maxLength) (h : t.Represents Int64.toInt lo hi A)
    (hb : SmallOn (inherited.toInt.natAbs + t.load Int64.toInt) lo hi) :
    Returns (SumAddPolicy.apply inherited t.sum (length lo hi)) := by
  rw [SumAddPolicy.apply_returns (length_le hhi), h.sum_eq, ← Segment.sum_add_const h.le]
  refine ⟨hb.mul (Nat.le_add_right _ _) le_rfl, hb.sum h.le fun i h1 h2 => ?_⟩
  have := h.natAbs_le_load h1 h2
  omega

/-- **Queries** return. -/
theorem query_of_load (inherited : ValueType) (l r : ℕ) (hhi : hi < maxLength)
    (h : t.Represents Int64.toInt lo hi A)
    (hb : SmallOn (inherited.toInt.natAbs + t.load Int64.toInt) lo hi) :
    Returns (query t lo hi l r inherited) := by
  induction t generalizing lo hi A inherited with
  | leaf s z =>
    have hle : lo = hi := h.1
    unfold query
    split_ifs with h1 h2
    · exact ⟨0, rfl⟩
    · exact apply_of_load (t := .leaf s z) hhi h hb
    · omega
  | node s z a b iha ihb =>
    obtain ⟨hlt, -, ha, hb'⟩ := id h
    have hm := Segment.midpoint_lt hlt
    unfold query
    split_ifs with h1 h2
    · exact ⟨0, rfl⟩
    · exact apply_of_load (t := .node s z a b) hhi h hb
    have hload := TagTree.load_node (ι := Int64.toInt) s z a b
    have hT : (inherited.toInt + z.toInt).natAbs ≤ inherited.toInt.natAbs + z.toInt.natAbs :=
      Int.natAbs_add_le _ _
    obtain ⟨next, hn, hnT⟩ := checkedAdd_of_representable
      (hb.single (x := inherited.toInt + z.toInt) (by omega))
    rw [← hnT] at hT
    obtain ⟨x, hx⟩ := iha next (by omega) ha ((hb.left hlt).mono (by omega))
    obtain ⟨y, hy⟩ := ihb next hhi hb' (hb.right.mono (by omega))
    rw [hn, Effect.ok_bind, hx, Effect.ok_bind, hy, Effect.ok_bind, checkedAdd_returns,
      query_halves hhi h hnT hx hy]
    refine hb.partSum hlt.le fun i h3 h4 => ?_
    have := h.natAbs_le_load h3 h4
    omega

/-! ## Updates that retain tags -/

/-- **Covered segments.** -/
theorem cover_of_load (hhi : hi < maxLength) (h : t.Represents Int64.toInt lo hi A)
    (hb : SmallOn (t.load Int64.toInt + value.toInt.natAbs) lo hi) :
    ∃ t', cover t lo hi value = .ok t' ∧
      t'.load Int64.toInt ≤ t.load Int64.toInt + value.toInt.natAbs := by
  have hsum : Representable (t.sum.toInt + value.toInt * length lo hi) := by
    rw [h.sum_eq, ← Segment.sum_add_const h.le]
    refine hb.sum h.le fun i h1 h2 => ?_
    have := h.natAbs_le_load h1 h2
    omega
  have htag : Representable (t.tag.toInt + value.toInt) := by
    have := TagTree.natAbs_tag_le_load (ι := Int64.toInt) (t := t)
    exact hb.single (by omega)
  obtain ⟨s, hs⟩ := hsum.exists_toInt
  obtain ⟨z, hz⟩ := htag.exists_toInt
  exact ⟨t.setRoot s z, (cover_eq_ok hhi).mpr
    ⟨s, z, rfl, hb.mul (Nat.le_add_left _ _) le_rfl, hs, hz⟩, h.load_cover_le hs hz⟩

/-- A way to recompute a sum returns where the new node is small. -/
def RebuildSmall (rebuild : Rebuild) (l r : ℕ) (value : ValueType) : Prop :=
  ∀ {s z : ValueType} {a b : SumTree} {lo hi : ℕ} {A : ℕ → ℤ},
    lo < hi → hi < maxLength → l ≤ hi → lo ≤ r → s.toInt = Segment.sum A lo hi →
    a.Represents Int64.toInt lo (Segment.midpoint lo hi)
      (fun i => addOn A l r value.toInt i - z.toInt) →
    b.Represents Int64.toInt (Segment.midpoint lo hi + 1) hi
      (fun i => addOn A l r value.toInt i - z.toInt) →
    SmallOn (z.toInt.natAbs + max (a.load Int64.toInt) (b.load Int64.toInt)) lo hi →
      SmallOn value.toInt.natAbs lo hi →
    Returns (rebuild s z a b lo hi)

/-- The two stored sums below a node add up to a small number. -/
theorem halves_of_load {a b : SumTree} {B : ℕ → ℤ} {z : ValueType} (hlt : lo < hi)
    (ha : a.Represents Int64.toInt lo (Segment.midpoint lo hi) fun i => B i - z.toInt)
    (hb : b.Represents Int64.toInt (Segment.midpoint lo hi + 1) hi fun i => B i - z.toInt)
    (hs : SmallOn (z.toInt.natAbs + max (a.load Int64.toInt) (b.load Int64.toInt)) lo hi) :
    Representable (a.sum.toInt + b.sum.toInt) ∧
      a.sum.toInt + b.sum.toInt + z.toInt * length lo hi = Segment.sum B lo hi ∧
      Representable (Segment.sum B lo hi) := by
  have below : ∀ i, lo ≤ i → i ≤ hi → (B i - z.toInt).natAbs ≤
      max (a.load Int64.toInt) (b.load Int64.toInt) := by
    intro i h1 h2
    by_cases hm : i ≤ Segment.midpoint lo hi
    · exact (ha.natAbs_le_load h1 hm).trans (le_max_left _ _)
    · exact (hb.natAbs_le_load (by omega) h2).trans (le_max_right _ _)
  have hsum : a.sum.toInt + b.sum.toInt = Segment.sum (fun i => B i - z.toInt) lo hi := by
    rw [ha.sum_eq, hb.sum_eq, ← Segment.sum_split hlt]
  refine ⟨?_, ?_, hs.sum hlt.le fun i h1 h2 => ?_⟩
  · rw [hsum]
    exact hs.sum hlt.le fun i h1 h2 => (below i h1 h2).trans (Nat.le_add_left _ _)
  · rw [hsum, Segment.sum_sub_const hlt.le]
    ring
  · have := below i h1 h2
    omega

theorem rebuildFromChildren_small : RebuildSmall rebuildFromChildren l r value := by
  intro s z a b lo hi A hlt hhi _ _ _ ha hb hs _
  obtain ⟨hfit, hexact, hnew⟩ := halves_of_load hlt ha hb hs
  obtain ⟨c, hc, hcs⟩ := checkedAdd_of_representable hfit
  unfold rebuildFromChildren
  rw [hc, Effect.ok_bind, SumAddPolicy.apply_returns (length_le hhi), hcs, hexact]
  exact ⟨hs.mul (Nat.le_add_right _ _) le_rfl, hnew⟩

theorem rebuildByOverlap_small (hlr : l ≤ r) :
    RebuildSmall (rebuildByOverlap l r value) l r value := by
  intro s z a b lo hi A hlt hhi h1 h2 hs ha hb hsmall hvalue
  have hover : max lo l ≤ min hi r := by omega
  have hlen : length (max lo l) (min hi r) ≤ length lo hi := by unfold Segment.length; omega
  unfold rebuildByOverlap
  rw [SumAddPolicy.apply_returns (hlen.trans (length_le hhi)), ← Segment.partSum_const hover, hs,
    ← Segment.sum_addOn, Segment.partSum_const hover]
  exact ⟨hvalue.mul le_rfl hlen, (halves_of_load hlt ha hb hsmall).2.2⟩

/-- A half that is updated where it meets the range, or left alone. -/
theorem half_of_load {p : Prop} [Decidable p] {x : Except Exception SumTree} {a : SumTree} {d : ℕ}
    (h : p → ∃ a', x = .ok a' ∧ a'.load Int64.toInt ≤ a.load Int64.toInt + d) :
    ∃ a', (if p then x else pure a) = .ok a' ∧ a'.load Int64.toInt ≤ a.load Int64.toInt + d := by
  by_cases hp : p
  · rw [if_pos hp]
    exact h hp
  · exact ⟨a, if_neg hp, Nat.le_add_right _ _⟩

/-- **Updates** return, and add at most the magnitude of the delta to the load. -/
theorem updateWith_of_load {rebuild : Rebuild} (hr : RebuildExact rebuild l r value)
    (hsmall : RebuildSmall rebuild l r value) (hhi : hi < maxLength) (h1 : l ≤ hi) (h2 : lo ≤ r)
    (h : t.Represents Int64.toInt lo hi A)
    (hb : SmallOn (t.load Int64.toInt + value.toInt.natAbs) lo hi) :
    ∃ t', updateWith rebuild l r value t lo hi = .ok t' ∧
      t'.load Int64.toInt ≤ t.load Int64.toInt + value.toInt.natAbs := by
  induction t generalizing lo hi A with
  | leaf s z =>
    have hle : lo = hi := h.1
    rw [updateWith, if_pos (by omega)]
    exact cover_of_load hhi h hb
  | node s z a b iha ihb =>
    by_cases hin : l ≤ lo ∧ hi ≤ r
    · rw [updateWith, if_pos hin]
      exact cover_of_load hhi h hb
    obtain ⟨hlt, hs, ha, hb'⟩ := id h
    have hm := Segment.midpoint_lt hlt
    have hload := TagTree.load_node (ι := Int64.toInt) s z a b
    obtain ⟨a', ha', hla⟩ := half_of_load (p := l ≤ Segment.midpoint lo hi) (a := a) fun hl =>
      iha (by omega) hl h2 ha ((hb.left hlt).mono (by omega))
    obtain ⟨b', hb'', hlb⟩ := half_of_load (p := r > Segment.midpoint lo hi) (a := b) fun hl =>
      ihb hhi h1 hl hb' (hb.right.mono (by omega))
    have expand : ∀ i, addOn (fun i => A i - z.toInt) l r value.toInt i =
        addOn A l r value.toInt i - z.toInt := Segment.addOn_sub_const _
    have hra : a'.Represents Int64.toInt lo (Segment.midpoint lo hi)
        (fun i => addOn A l r value.toInt i - z.toInt) := by
      rcases half_eq_ok.mp ha' with ⟨hl, hu⟩ | ⟨hl, rfl⟩
      · exact (updateWith_represents hr (by omega) hl h2 ha hu).congr fun i _ _ => expand i
      · exact ha.congr fun i h3 h4 => by rw [Segment.addOn_of_apart (.inl (by omega)) h3 h4]
    have hrb : b'.Represents Int64.toInt (Segment.midpoint lo hi + 1) hi
        (fun i => addOn A l r value.toInt i - z.toInt) := by
      rcases half_eq_ok.mp hb'' with ⟨hl, hu⟩ | ⟨hl, rfl⟩
      · exact (updateWith_represents hr hhi h1 hl hb' hu).congr fun i _ _ => expand i
      · exact hb'.congr fun i h3 h4 => by rw [Segment.addOn_of_apart (.inr (by omega)) h3 h4]
    have hnew : z.toInt.natAbs + max (a'.load Int64.toInt) (b'.load Int64.toInt) ≤
        TagTree.load Int64.toInt (.node s z a b) + value.toInt.natAbs := by omega
    obtain ⟨s', hs'⟩ := hsmall hlt hhi h1 h2 hs hra hrb (hb.mono hnew)
      (hb.mono (Nat.le_add_left _ _))
    refine ⟨.node s' z a' b', ?_, hnew⟩
    rw [updateWith, if_neg hin, ha', Effect.ok_bind, hb'', Effect.ok_bind, hs']
    rfl

/-! ## Updates that push tags -/

/-- A child the tag is pushed into takes the magnitude that leaves its parent. -/
theorem pushed_of_load {z : ValueType} {a : SumTree} (hhi : hi < maxLength)
    (ha : a.Represents Int64.toInt lo hi fun i => A i - z.toInt)
    (hb : SmallOn (a.load Int64.toInt + z.toInt.natAbs) lo hi) :
    ∃ a', (if z ≠ 0 then cover a lo hi z else pure a) = .ok a' ∧
      a'.load Int64.toInt ≤ a.load Int64.toInt + z.toInt.natAbs :=
  half_of_load fun _ => cover_of_load hhi ha hb

/-- **Pushing updates** return, and add at most the magnitude of the delta to the load. -/
theorem updatePush_of_load (value : ValueType) : ∀ lo hi, lo ≤ hi →
    ∀ {t : SumTree} {A : ℕ → ℤ}, hi < maxLength → l ≤ hi → lo ≤ r →
      t.Represents Int64.toInt lo hi A → t.HalfSums Int64.toInt Representable →
      SmallOn (t.load Int64.toInt + value.toInt.natAbs) lo hi →
      ∃ t', updatePush l r value t lo hi = .ok t' ∧
        t'.load Int64.toInt ≤ t.load Int64.toInt + value.toInt.natAbs := by
  refine Segment.halving_induction ?_ ?_
  · intro i t A hhi h1 h2 h _ hb
    cases t with
    | leaf s z =>
      rw [updatePush, if_pos ⟨h1, h2⟩]
      exact cover_of_load hhi h hb
    | node s z a b => exact absurd h.1 (lt_irrefl i)
  · intro lo hi hlt ihl ihr t A hhi h1 h2 h hh hb
    cases t with
    | leaf s z => exact absurd h.1 hlt.ne
    | node s z a b =>
      by_cases hin : l ≤ lo ∧ hi ≤ r
      · rw [updatePush, if_pos hin]
        exact cover_of_load hhi h hb
      obtain ⟨-, -, ha, hb'⟩ := h
      obtain ⟨-, hha, hhb⟩ := hh
      have hm := Segment.midpoint_lt hlt
      have hmax : Segment.midpoint lo hi < maxLength := by omega
      have hload := TagTree.load_node (ι := Int64.toInt) s z a b
      obtain ⟨pa, hpa, hla⟩ := pushed_of_load hmax ha ((hb.left hlt).mono (by omega))
      obtain ⟨pb, hpb, hlb⟩ := pushed_of_load hhi hb' (hb.right.mono (by omega))
      have hpar := pushed_represents hmax ha hpa
      have hpbr := pushed_represents hhi hb' hpb
      have hpah := pushed_halfSums hmax hha hpa
      have hpbh := pushed_halfSums hhi hhb hpb
      obtain ⟨a', ha', hla'⟩ := half_of_load (p := l ≤ Segment.midpoint lo hi) (a := pa) fun hl =>
        ihl hmax hl h2 hpar hpah ((hb.left hlt).mono (by omega))
      obtain ⟨b', hb'', hlb'⟩ := half_of_load (p := r > Segment.midpoint lo hi) (a := pb) fun hl =>
        ihr hhi h1 hl hpbr hpbh (hb.right.mono (by omega))
      have hz : (0 : ValueType).toInt = 0 := Int64.toInt_zero
      have hra : a'.Represents Int64.toInt lo (Segment.midpoint lo hi)
          (fun i => addOn A l r value.toInt i - (0 : ValueType).toInt) := by
        simp only [hz, sub_zero]
        rcases half_eq_ok.mp ha' with ⟨hl, hu⟩ | ⟨hl, rfl⟩
        · exact (updatePush_represents value _ _ hpar.le hmax hl h2 hpar hpah hu).1
        · exact hpar.congr fun i h3 h4 => (Segment.addOn_of_apart (.inl (by omega)) h3 h4).symm
      have hrb : b'.Represents Int64.toInt (Segment.midpoint lo hi + 1) hi
          (fun i => addOn A l r value.toInt i - (0 : ValueType).toInt) := by
        simp only [hz, sub_zero]
        rcases half_eq_ok.mp hb'' with ⟨hl, hu⟩ | ⟨hl, rfl⟩
        · exact (updatePush_represents value _ _ hpbr.le hhi h1 hl hpbr hpbh hu).1
        · exact hpbr.congr fun i h3 h4 => (Segment.addOn_of_apart (.inr (by omega)) h3 h4).symm
      have hnew : (0 : ValueType).toInt.natAbs + max (a'.load Int64.toInt) (b'.load Int64.toInt) ≤
          TagTree.load Int64.toInt (.node s z a b) + value.toInt.natAbs := by
        rw [hz, Int.natAbs_zero]
        omega
      obtain ⟨s', hs', -⟩ := checkedAdd_of_representable
        (halves_of_load hlt hra hrb (hb.mono hnew)).1
      refine ⟨.node s' 0 a' b', ?_, hnew⟩
      rw [updatePush, if_neg hin, if_pos hlt, hpa, Effect.ok_bind, hpb, Effect.ok_bind, ha',
        Effect.ok_bind, hb'', Effect.ok_bind, hs']
      rfl

end SumTree

/-! ## Disciplines -/

/-- Where the load with the delta is small, an update returns, and the load grows by no more. -/
def Discipline.Gentle (D : Discipline) : Prop :=
  ∀ {t : SumTree} {hi l r : ℕ} {A : ℕ → ℤ} {cov : ℕ → ℕ → ℤ} {value : ValueType},
    hi < maxLength → l ≤ r → r ≤ hi → t.Represents Int64.toInt 0 hi A → D.keeps cov t hi →
    SmallOn (t.load Int64.toInt + value.toInt.natAbs) 0 hi →
    ∃ t', D.update l r value t 0 hi = .ok t' ∧
      t'.load Int64.toInt ≤ t.load Int64.toInt + value.toInt.natAbs

namespace Discipline

theorem retaining_gentle : Gentle .retaining := fun hhi hlr hr h _ hb =>
  SumTree.updateWith_of_load SumTree.rebuildFromChildren_exact SumTree.rebuildFromChildren_small hhi
    (hlr.trans hr) (Nat.zero_le _) h hb

theorem absorbing_gentle : Gentle .absorbing := fun hhi hlr hr h _ hb =>
  SumTree.updateWith_of_load (SumTree.rebuildByOverlap_exact hlr)
    (SumTree.rebuildByOverlap_small hlr) hhi (hlr.trans hr) (Nat.zero_le _) h hb

theorem pushing_gentle : Gentle .pushing := fun hhi hlr hr h hk hb =>
  SumTree.updatePush_of_load _ 0 _ h.le hhi (hlr.trans hr) (Nat.zero_le _) h hk hb

/-- A full copy has no tags, and its array is small. -/
theorem copying_gentle : Gentle .copying := by
  intro t hi l r A cov value hhi hlr hr h hk hb
  have hnew : ∀ i, 0 ≤ i → i ≤ hi → (addOn A l r value.toInt i).natAbs ≤
      t.load Int64.toInt + value.toInt.natAbs := by
    intro i h1 h2
    have := h.natAbs_le_load h1 h2
    unfold Segment.addOn
    split_ifs <;> omega
  rcases SumTree.fullCopyUpdate_spec l r value h hk with ⟨t', ht', hrep, hun, -⟩ | ⟨-, hf⟩
  · exact ⟨t', ht', hrep.load_le_of_untagged hun hnew⟩
  · exact absurd (hb.canonicalFit hnew) hf

/-- So is the copy that shares the other nodes. -/
theorem sharing_gentle : Gentle .sharing := by
  intro t hi l r A cov value hhi hlr hr h hk hb
  have hfull := copying_gentle hhi hlr hr h (show copying.keeps cov t hi from hk) hb
  rwa [show copying.update l r value t 0 hi = sharing.update l r value t 0 hi from
    (SumTree.pointOnlyUpdate_eq value (hlr.trans hr) (Nat.zero_le _) h hk).symm] at hfull

end Discipline

end Valseg
