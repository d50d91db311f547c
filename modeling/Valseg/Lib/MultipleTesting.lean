import Mathlib.Algebra.Order.Field.Basic
import Mathlib.Data.List.Induction
import Mathlib.Data.List.Nodup
import Mathlib.Data.Nat.Find
import Mathlib.Tactic.FieldSimp
import Mathlib.Tactic.Linarith

/-!
# Multiple testing

The rejections of a list of hypotheses with p-values: Holm's procedure steps down the list from the
lowest p-value (`stepDown`), that of Benjamini and Hochberg steps up to it from the highest
(`stepUp`). Which hypotheses they reject is said by `mem_stepDown` and `mem_stepUp` without the
order, so ties may be in any. `Adjusts` says what adjusted p-values of a procedure are.
-/

namespace MultipleTesting

variable {ι R : Type*} [Field R] [LinearOrder R]

/-- The hypotheses in an order of their p-values. -/
structure Ascending (p : ι → R) (order : List ι) : Prop where
  nodup : order.Nodup
  sorted : order.Pairwise fun i j => p i ≤ p j

section Procedures

variable (p : ι → R) (level : R)

/-- A hypothesis is rejected if its p-value is at most the level divided by the number of
hypotheses from there on; the first that is not ends the procedure. -/
def stepDown : List ι → List ι
  | [] => []
  | i :: rest => if p i ≤ level / (rest.length + 1) then i :: stepDown rest else []

/-- The `k`-th p-value is at most `k / count` of the level. -/
def Passes (count : ℕ) (order : List ι) (k : ℕ) : Prop :=
  (order[k - 1]?).any (fun i => p i ≤ k * level / count) = true

instance (count : ℕ) (order : List ι) : DecidablePred (Passes p level count order) :=
  fun k => by unfold Passes; infer_instance

/-- The first `k` hypotheses are rejected, for the greatest `k` that passes. -/
def stepUp (count : ℕ) (order : List ι) : List ι :=
  order.take (Nat.findGreatest (Passes p level count order) order.length)

end Procedures

variable {p : ι → R} {level : R} {order other : List ι} {i j : ι} {count : ℕ}

/-! ## Adjusted p-values -/

/-- A procedure over every order of the hypotheses: ties make no difference, with a hypothesis
those that are lower are rejected, and none with a p-value above the level is. -/
structure Sound (p : ι → R) (rejects : R → List ι → List ι) (hypotheses : List ι) : Prop where
  ties : ∀ {level order other i}, 0 ≤ level → Ascending p order → Ascending p other →
    order.Perm hypotheses → other.Perm hypotheses → i ∈ hypotheses →
    (i ∈ rejects level order ↔ i ∈ rejects level other)
  lower : ∀ {level order i j}, 0 ≤ level → Ascending p order → order.Perm hypotheses →
    i ∈ hypotheses → j ∈ hypotheses → p i ≤ p j → j ∈ rejects level order →
    i ∈ rejects level order
  le_level : ∀ {level order i}, 0 ≤ level → Ascending p order → order.Perm hypotheses →
    i ∈ hypotheses → i ∈ rejects level order → p i ≤ level

variable {hypotheses : List ι}

/-- At every level below one the procedure rejects the hypotheses whose adjusted p-value is at most
the level. -/
structure Adjusts (p : ι → R) (rejects : R → List ι → List ι) (hypotheses : List ι)
    (adjusted : ι → R) : Prop where
  nonneg : ∀ i ∈ hypotheses, 0 ≤ adjusted i
  le_one : ∀ i ∈ hypotheses, adjusted i ≤ 1
  rejects : ∀ level, 0 ≤ level → level < 1 → ∀ order, Ascending p order →
    order.Perm hypotheses → ∀ i ∈ hypotheses, adjusted i ≤ level ↔ i ∈ rejects level order

namespace Adjusts

variable {rejects : R → List ι → List ι} {adjusted adjusted' : ι → R}

/-- One order is enough. -/
theorem of_order (hsound : Sound p rejects hypotheses) (h : Ascending p order)
    (hperm : order.Perm hypotheses) (hnonneg : ∀ i ∈ hypotheses, 0 ≤ adjusted i)
    (hone : ∀ i ∈ hypotheses, adjusted i ≤ 1)
    (hrejects : ∀ level, 0 ≤ level → level < 1 → ∀ i ∈ hypotheses,
      adjusted i ≤ level ↔ i ∈ rejects level order) : Adjusts p rejects hypotheses adjusted where
  nonneg := hnonneg
  le_one := hone
  rejects level hlevel hlt _ h' hperm' i hi :=
    (hrejects level hlevel hlt i hi).trans (hsound.ties hlevel h h' hperm hperm' hi)

/-- There is one list of adjusted p-values at most. -/
theorem le_of_adjusts (h : Ascending p order) (hperm : order.Perm hypotheses)
    (ha : Adjusts p rejects hypotheses adjusted) (hb : Adjusts p rejects hypotheses adjusted')
    (hi : i ∈ hypotheses) : adjusted i ≤ adjusted' i := by
  rcases lt_or_ge (adjusted' i) 1 with hlt | hge
  · have hlevel := hb.nonneg i hi
    exact (ha.rejects _ hlevel hlt order h hperm i hi).mpr
      ((hb.rejects _ hlevel hlt order h hperm i hi).mp le_rfl)
  · exact (ha.le_one i hi).trans hge

/-- Lower p-values have lower adjusted p-values. -/
theorem mono (hsound : Sound p rejects hypotheses) (h : Ascending p order)
    (hperm : order.Perm hypotheses) (ha : Adjusts p rejects hypotheses adjusted)
    (hi : i ∈ hypotheses) (hj : j ∈ hypotheses) (hle : p i ≤ p j) : adjusted i ≤ adjusted j := by
  rcases lt_or_ge (adjusted j) 1 with hlt | hge
  · have hlevel := ha.nonneg j hj
    have hmem := (ha.rejects _ hlevel hlt order h hperm j hj).mp le_rfl
    exact (ha.rejects _ hlevel hlt order h hperm i hi).mpr
      (hsound.lower hlevel h hperm hi hj hle hmem)
  · exact (ha.le_one i hi).trans hge

/-- Adjusting lowers no p-value. -/
theorem le (hsound : Sound p rejects hypotheses) (h : Ascending p order)
    (hperm : order.Perm hypotheses) (ha : Adjusts p rejects hypotheses adjusted)
    (hi : i ∈ hypotheses) (hone : p i ≤ 1) : p i ≤ adjusted i := by
  rcases lt_or_ge (adjusted i) 1 with hlt | hge
  · have hlevel := ha.nonneg i hi
    exact hsound.le_level hlevel h hperm hi
      ((ha.rejects _ hlevel hlt order h hperm i hi).mp le_rfl)
  · exact hone.trans hge

end Adjusts

/-! ## One hypothesis more -/

/-- The p-value, times the number of those that are at least as high, is at most the level. -/
def FitsDown (p : ι → R) (level : R) (order : List ι) (j : ι) : Prop :=
  order.countP (fun k => p j ≤ p k) * p j ≤ level

/-- The p-value, times the number of hypotheses, is at most the level times the number of those
that are at most as high. -/
def FitsUp (p : ι → R) (level : R) (count : ℕ) (order : List ι) (j : ι) : Prop :=
  p j * count ≤ order.countP (fun k => p k ≤ p j) * level

variable {first last : ι} {rest before : List ι}

theorem fitsDown_later (hlt : p first < p j) :
    FitsDown p level (first :: rest) j ↔ FitsDown p level rest j := by
  rw [FitsDown, FitsDown, List.countP_cons_of_neg (by simpa using hlt)]

theorem fitsUp_earlier (hlt : p j < p last) :
    FitsUp p level count (before ++ [last]) j ↔ FitsUp p level count before j := by
  rw [FitsUp, FitsUp, List.countP_append, List.countP_cons_of_neg (by simpa using hlt),
    List.countP_nil, Nat.add_zero]

theorem passes_append {k : ℕ} (hk : k ≤ before.length) (hpos : 0 < k) :
    Passes p level count (before ++ [last]) k ↔ Passes p level count before k := by
  rw [Passes, Passes, List.getElem?_append_left (by omega)]

theorem passes_last : Passes p level count (before ++ [last]) (before.length + 1) ↔
    p last ≤ (before.length + 1) * level / count := by
  rw [Passes, Nat.add_sub_cancel, List.getElem?_concat_length]
  simp

/-- The procedure from the highest p-value down. -/
theorem stepUp_append : stepUp p level count (before ++ [last]) =
    if p last ≤ (before.length + 1) * level / count then before ++ [last]
    else stepUp p level count before := by
  unfold stepUp
  rw [List.length_append, List.length_singleton, Nat.findGreatest_succ]
  simp only [passes_last]
  split_ifs with h
  · exact List.take_of_length_le (by simp)
  · have hsame : ∀ k ≤ before.length,
        Nat.findGreatest (Passes p level count (before ++ [last])) k =
          Nat.findGreatest (Passes p level count before) k := by
      intro k
      induction k with
      | zero => exact fun _ => rfl
      | succ k ih =>
        intro hk
        simp only [Nat.findGreatest_succ, passes_append hk k.succ_pos, ih (Nat.le_of_succ_le hk)]
    rw [hsame _ le_rfl, List.take_append_of_le_length (Nat.findGreatest_le _)]

theorem stepUp_sublist : (stepUp p level count order).Sublist order := List.take_sublist _ _

section Ordered

variable [IsStrictOrderedRing R]

/-! ## Step down -/

/-- All that follow the lowest p-value are at least as high. -/
theorem fitsDown_lowest (h : Ascending p (first :: rest)) (hj : j ∈ first :: rest)
    (hle : p j ≤ p first) :
    FitsDown p level (first :: rest) j ↔ p first ≤ level / (rest.length + 1) := by
  obtain ⟨hlow, -⟩ := List.pairwise_cons.mp h.sorted
  have heq : p j = p first := by
    rcases List.mem_cons.mp hj with rfl | hj
    · rfl
    · exact le_antisymm hle (hlow j hj)
  have hall : (first :: rest).countP (fun k => p j ≤ p k) = rest.length + 1 := by
    rw [List.countP_eq_length.mpr, List.length_cons]
    intro k hk
    rcases List.mem_cons.mp hk with rfl | hk
    · simpa using hle
    · simpa using hle.trans (hlow k hk)
  have hpos : (0 : R) < rest.length + 1 := by positivity
  rw [FitsDown, hall, heq, le_div_iff₀' hpos, Nat.cast_add, Nat.cast_one]

/-- With fewer hypotheses, less is asked of the p-values. -/
theorem FitsDown.tail (hlevel : 0 ≤ level) (h : FitsDown p level (first :: rest) j) :
    FitsDown p level rest j := by
  unfold FitsDown at *
  rcases le_total 0 (p j) with hpos | hneg
  · refine le_trans (mul_le_mul_of_nonneg_right ?_ hpos) h
    exact_mod_cast List.Sublist.countP_le (List.sublist_cons_self first rest)
  · exact (mul_nonpos_of_nonneg_of_nonpos (Nat.cast_nonneg _) hneg).trans hlevel

/-- **Holm's rejections.** Every p-value up to that of the hypothesis fits. -/
theorem mem_stepDown (hlevel : 0 ≤ level) (h : Ascending p order) (hi : i ∈ order) :
    i ∈ stepDown p level order ↔ ∀ j ∈ order, p j ≤ p i → FitsDown p level order j := by
  induction order with
  | nil => simp at hi
  | cons first rest ih =>
    obtain ⟨hlow, hsorted⟩ := List.pairwise_cons.mp h.sorted
    obtain ⟨hnew, hnodup⟩ := List.nodup_cons.mp h.nodup
    rw [stepDown]
    by_cases hpass : p first ≤ level / (rest.length + 1)
    swap
    · have hfirst : p first ≤ p i := by
        rcases List.mem_cons.mp hi with rfl | hi
        · exact le_rfl
        · exact hlow i hi
      rw [if_neg hpass]
      refine iff_of_false List.not_mem_nil fun hall => hpass ?_
      exact (fitsDown_lowest h List.mem_cons_self le_rfl).mp (hall first List.mem_cons_self hfirst)
    rw [if_pos hpass]
    have htied : ∀ j ∈ first :: rest, p j ≤ p first → FitsDown p level (first :: rest) j :=
      fun j hj hle => (fitsDown_lowest h hj hle).mpr hpass
    rcases List.mem_cons.mp hi with rfl | hrest
    · exact iff_of_true List.mem_cons_self htied
    have hne : i ≠ first := by
      rintro rfl
      exact hnew hrest
    rw [List.mem_cons, or_iff_right hne, ih ⟨hnodup, hsorted⟩ hrest]
    constructor
    · intro hall j hj hle
      by_cases hlowest : p j ≤ p first
      · exact htied j hj hlowest
      · have hjrest : j ∈ rest := by
          rcases List.mem_cons.mp hj with rfl | hj
          · exact absurd le_rfl hlowest
          · exact hj
        exact (fitsDown_later (not_le.mp hlowest)).mpr (hall j hjrest hle)
    · intro hall j hj hle
      exact (hall j (List.mem_cons_of_mem _ hj) hle).tail hlevel

/-! ## Step up -/

/-- All before the highest p-value are at most as high. -/
theorem fitsUp_highest (hcount : 0 < count) (h : Ascending p (before ++ [last]))
    (hj : j ∈ before ++ [last]) (hle : p last ≤ p j) :
    FitsUp p level count (before ++ [last]) j ↔
      p last ≤ (before.length + 1) * level / count := by
  have hhigh : ∀ k ∈ before, p k ≤ p last := fun k hk =>
    (List.pairwise_append.mp h.sorted).2.2 k hk last (List.mem_singleton_self _)
  have heq : p j = p last := by
    rcases List.mem_append.mp hj with hj | hj
    · exact le_antisymm (hhigh j hj) hle
    · rw [List.mem_singleton.mp hj]
  have hall : (before ++ [last]).countP (fun k => p k ≤ p j) = before.length + 1 := by
    rw [List.countP_eq_length.mpr, List.length_append, List.length_singleton]
    intro k hk
    rcases List.mem_append.mp hk with hk | hk
    · simpa using (hhigh k hk).trans hle
    · rw [List.mem_singleton.mp hk]
      simpa using hle
  have hpos : (0 : R) < count := Nat.cast_pos.mpr hcount
  rw [FitsUp, hall, heq, le_div_iff₀ hpos, Nat.cast_add, Nat.cast_one]

/-- With more hypotheses, less is asked of the p-values. -/
theorem FitsUp.append (hlevel : 0 ≤ level) (h : FitsUp p level count before j) :
    FitsUp p level count (before ++ [last]) j := by
  refine h.trans (mul_le_mul_of_nonneg_right ?_ hlevel)
  exact_mod_cast List.Sublist.countP_le (List.sublist_append_left before [last])

/-- **The rejections of Benjamini and Hochberg.** Some p-value from that of the hypothesis on
fits. -/
theorem mem_stepUp (hlevel : 0 ≤ level) (hcount : 0 < count) (h : Ascending p order) (hi : i ∈ order) :
    i ∈ stepUp p level count order ↔
      ∃ j ∈ order, p i ≤ p j ∧ FitsUp p level count order j := by
  induction order using List.reverseRecOn with
  | nil => simp at hi
  | append_singleton before last ih =>
    obtain ⟨hsorted, -, hhigh⟩ := List.pairwise_append.mp h.sorted
    obtain ⟨hnodup, -, hnew⟩ := List.nodup_append.mp h.nodup
    have hlast : last ∈ before ++ [last] := by simp
    have hbelow : ∀ k ∈ before ++ [last], p k ≤ p last := by
      intro k hk
      rcases List.mem_append.mp hk with hk | hk
      · exact hhigh k hk last (List.mem_singleton_self _)
      · rw [List.mem_singleton.mp hk]
    rw [stepUp_append]
    by_cases hpass : p last ≤ (before.length + 1) * level / count
    · rw [if_pos hpass]
      exact iff_of_true hi
        ⟨last, hlast, hbelow i hi, (fitsUp_highest hcount h hlast le_rfl).mpr hpass⟩
    rw [if_neg hpass]
    have hlower : ∀ j ∈ before ++ [last], FitsUp p level count (before ++ [last]) j →
        p j < p last := fun j hj hfits =>
      not_le.mp fun hle => hpass ((fitsUp_highest hcount h hj hle).mp hfits)
    constructor
    · intro hmem
      have hbefore : i ∈ before := stepUp_sublist.subset hmem
      obtain ⟨j, hj, hle, hfits⟩ := (ih ⟨hnodup, hsorted⟩ hbefore).mp hmem
      exact ⟨j, List.mem_append_left _ hj, hle, hfits.append hlevel⟩
    · rintro ⟨j, hj, hle, hfits⟩
      have hlt := hlower j hj hfits
      have hne : ∀ k ∈ before ++ [last], p k < p last → k ∈ before := by
        intro k hk hk'
        rcases List.mem_append.mp hk with hk | hk
        · exact hk
        · rw [List.mem_singleton.mp hk] at hk'
          exact absurd hk' (lt_irrefl _)
      exact (ih ⟨hnodup, hsorted⟩ (hne i hi (hle.trans_lt hlt))).mpr
        ⟨j, hne j hj hlt, hle, (fitsUp_earlier hlt).mp hfits⟩

/-! ## Both are sound -/

theorem sound_stepDown (hp : ∀ i ∈ hypotheses, 0 ≤ p i) : Sound p (stepDown p) hypotheses where
  ties hlevel h h' hperm hperm' hi := by
    rw [mem_stepDown hlevel h (hperm.mem_iff.mpr hi), mem_stepDown hlevel h' (hperm'.mem_iff.mpr hi)]
    simp only [FitsDown, hperm.mem_iff, hperm'.mem_iff, hperm.countP_eq, hperm'.countP_eq]
  lower hlevel h hperm hi hj hle hmem := by
    rw [mem_stepDown hlevel h (hperm.mem_iff.mpr hj)] at hmem
    exact (mem_stepDown hlevel h (hperm.mem_iff.mpr hi)).mpr fun k hk hki => hmem k hk (hki.trans hle)
  le_level {level order i} hlevel h hperm hi hmem := by
    have hi' : i ∈ order := hperm.mem_iff.mpr hi
    have hfits := (mem_stepDown hlevel h hi').mp hmem i hi' le_rfl
    have hone : 1 ≤ order.countP (fun k => p i ≤ p k) :=
      List.countP_pos_iff.mpr ⟨i, hi', by simp⟩
    calc p i = 1 * p i := (one_mul _).symm
      _ ≤ order.countP (fun k => p i ≤ p k) * p i :=
        mul_le_mul_of_nonneg_right (by exact_mod_cast hone) (hp i hi)
      _ ≤ level := hfits

theorem sound_stepUp : Sound p (fun level order => stepUp p level order.length order) hypotheses where
  ties {level order other i} hlevel h h' hperm hperm' hi := by
    have hi₁ : i ∈ order := hperm.mem_iff.mpr hi
    have hi₂ : i ∈ other := hperm'.mem_iff.mpr hi
    rw [mem_stepUp hlevel (List.length_pos_of_mem hi₁) h hi₁,
      mem_stepUp hlevel (List.length_pos_of_mem hi₂) h' hi₂]
    simp only [FitsUp, hperm.mem_iff, hperm'.mem_iff, hperm.countP_eq, hperm'.countP_eq,
      hperm.length_eq, hperm'.length_eq]
  lower {level order i j} hlevel h hperm hi hj hle hmem := by
    have hi' : i ∈ order := hperm.mem_iff.mpr hi
    have hj' : j ∈ order := hperm.mem_iff.mpr hj
    obtain ⟨k, hk, hjk, hfits⟩ := (mem_stepUp hlevel (List.length_pos_of_mem hj') h hj').mp hmem
    exact (mem_stepUp hlevel (List.length_pos_of_mem hi') h hi').mpr ⟨k, hk, hle.trans hjk, hfits⟩
  le_level {level order i} hlevel h hperm hi hmem := by
    have hi' : i ∈ order := hperm.mem_iff.mpr hi
    have hpos : 0 < order.length := List.length_pos_of_mem hi'
    obtain ⟨k, hk, hik, hfits⟩ := (mem_stepUp hlevel hpos h hi').mp hmem
    have hcount : (order.countP (fun j => p j ≤ p k) : R) * level ≤ level * order.length := by
      rw [mul_comm level]
      exact mul_le_mul_of_nonneg_right (by exact_mod_cast List.countP_le_length) hlevel
    exact hik.trans (le_of_mul_le_mul_right (hfits.trans hcount) (Nat.cast_pos.mpr hpos))

end Ordered

end MultipleTesting
