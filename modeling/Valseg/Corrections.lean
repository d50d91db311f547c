import Mathlib.Algebra.Order.Ring.Rat
import Mathlib.Data.List.GetD
import Mathlib.Data.List.Sort
import Valseg.Lib.MultipleTesting

/-!
# Corrections for multiple testing

`benjamini_hochberg` and `holm` of `bench/analysis/data.py` over exact rationals. Both run over the
p-values in the order `numpy.argsort` puts them in, which may be any among ties, and write one
adjusted value each turn. `corrections` says that they adjust the p-values for the procedures of
`MultipleTesting`.
-/

namespace Valseg

namespace Bench

open MultipleTesting

/-- The p-value of a hypothesis. -/
def pvalue (pvalues : List ℚ) (index : ℕ) : ℚ := pvalues.getD index 0

/-- What is used of numpy: an ascending order of the indices, and an array of any contents. -/
structure NumPy where
  argsort : List ℚ → List ℕ
  argsort_perm : ∀ pvalues, (argsort pvalues).Perm (List.range pvalues.length)
  argsort_sorted : ∀ pvalues,
    (argsort pvalues).Pairwise fun i j => pvalue pvalues i ≤ pvalue pvalues j
  empty : ℕ → List ℚ
  length_empty : ∀ count, (empty count).length = count

/-- The variables of the loops. -/
structure Adjusting where
  running : ℚ
  adjusted : List ℚ

/-- `adjusted[index] = ...`, with the running value next. -/
def Adjusting.write (this : Adjusting) (index : ℕ) (running value : ℚ) : Adjusting :=
  ⟨running, this.adjusted.set index value⟩

/-- The loop body of `benjamini_hochberg`, for an entry of `enumerate(order)`. -/
def benjaminiHochbergStep (pvalues : List ℚ) (this : Adjusting) (entry : ℕ × ℕ) : Adjusting :=
  let index := entry.1
  let position := entry.2
  let rank : ℚ := pvalues.length - position
  let running := min this.running (pvalue pvalues index * pvalues.length / rank)
  this.write index running running

def benjaminiHochberg (np : NumPy) (pvalues : List ℚ) : List ℚ :=
  let order := (np.argsort pvalues).reverse
  (order.zipIdx.foldl (benjaminiHochbergStep pvalues) ⟨1, np.empty pvalues.length⟩).adjusted

/-- The loop body of `holm`. -/
def holmStep (pvalues : List ℚ) (this : Adjusting) (entry : ℕ × ℕ) : Adjusting :=
  let index := entry.1
  let rank := entry.2
  let value := (pvalues.length - rank : ℚ) * pvalue pvalues index
  let running := max this.running value
  this.write index running (min 1 running)

def holm (np : NumPy) (pvalues : List ℚ) : List ℚ :=
  let order := np.argsort pvalues
  (order.zipIdx.foldl (holmStep pvalues) ⟨0, np.empty pvalues.length⟩).adjusted

/-! ## Turns of the loops -/

variable {pvalues : List ℚ} {this : Adjusting} {order : List ℕ} {i k : ℕ} {level : ℚ}

/-- The value an index has. -/
def Adjusting.value (this : Adjusting) (index : ℕ) : ℚ := this.adjusted.getD index 0

theorem Adjusting.value_write {index : ℕ} (h : index < this.adjusted.length) (running x : ℚ) :
    (this.write index running x).value index = x := by
  simp [Adjusting.value, Adjusting.write, h]

theorem Adjusting.value_write_ne {index : ℕ} (hne : i ≠ index) (running x : ℚ) :
    (this.write index running x).value i = this.value i := by
  simp [Adjusting.value, Adjusting.write, List.getD_eq_getElem?_getD, Ne.symm hne]

@[simp] theorem Adjusting.length_write (this : Adjusting) (index : ℕ) (running x : ℚ) :
    (this.write index running x).adjusted.length = this.adjusted.length := List.length_set

/-- A loop that writes at the index of its turn writes nowhere else. -/
theorem foldl_untouched {step : Adjusting → ℕ × ℕ → Adjusting}
    (hstep : ∀ this entry, ∃ running x, step this entry = this.write entry.1 running x) :
    ((order.zipIdx k).foldl step this).adjusted.length = this.adjusted.length ∧
      ∀ i, i ∉ order → ((order.zipIdx k).foldl step this).value i = this.value i := by
  induction order generalizing this k with
  | nil => exact ⟨rfl, fun _ _ => rfl⟩
  | cons index order ih =>
    obtain ⟨running, x, hwrite⟩ := hstep this (index, k)
    obtain ⟨hlength, huntouched⟩ := @ih (this.write index running x) (k + 1)
    rw [List.zipIdx_cons, List.foldl_cons, hwrite]
    refine ⟨by rw [hlength, Adjusting.length_write], fun i hi => ?_⟩
    rw [List.mem_cons, not_or] at hi
    rw [huntouched i hi.2, Adjusting.value_write_ne hi.1]

theorem holmStep_writes (pvalues : List ℚ) (this : Adjusting) (entry : ℕ × ℕ) :
    ∃ running x, holmStep pvalues this entry = this.write entry.1 running x := ⟨_, _, rfl⟩

theorem benjaminiHochbergStep_writes (pvalues : List ℚ) (this : Adjusting) (entry : ℕ × ℕ) :
    ∃ running x, benjaminiHochbergStep pvalues this entry = this.write entry.1 running x :=
  ⟨_, _, rfl⟩

/-- The entries to come of a loop over an order of the indices. -/
structure Remaining (pvalues : List ℚ) (this : Adjusting) (order : List ℕ) (k : ℕ) : Prop where
  count : pvalues.length = k + order.length
  nodup : order.Nodup
  bound : ∀ i ∈ order, i < this.adjusted.length

theorem Remaining.tail {index : ℕ} (h : Remaining pvalues this (index :: order) k)
    (running x : ℚ) : Remaining pvalues (this.write index running x) order (k + 1) where
  count := by
    have := h.count
    rw [List.length_cons] at this
    omega
  nodup := (List.nodup_cons.mp h.nodup).2
  bound i hi := by
    rw [Adjusting.length_write]
    exact h.bound i (List.mem_cons_of_mem _ hi)

/-- So many hypotheses are left at a turn. -/
theorem Remaining.left {index : ℕ} (h : Remaining pvalues this (index :: order) k) :
    (pvalues.length - k : ℚ) = order.length + 1 := by
  rw [h.count, List.length_cons]
  push_cast
  exact add_sub_cancel_left _ _

/-! ## Holm -/

/-- What the loop writes is at most the level exactly where the running maximum is so far and Holm's
procedure goes on to reject. -/
theorem holm_loop (h : Remaining pvalues this order k) (hlevel : level < 1) (hi : i ∈ order) :
    ((order.zipIdx k).foldl (holmStep pvalues) this).value i ≤ level ↔
      this.running ≤ level ∧ i ∈ stepDown (pvalue pvalues) level order := by
  induction order generalizing this k with
  | nil => simp at hi
  | cons index order ih =>
    have hnew : index ∉ order := (List.nodup_cons.mp h.nodup).1
    have hpos : (0 : ℚ) < order.length + 1 := by positivity
    have hpass : max this.running ((order.length + 1 : ℚ) * pvalue pvalues index) ≤ level ↔
        this.running ≤ level ∧ pvalue pvalues index ≤ level / (order.length + 1) := by
      rw [max_le_iff, le_div_iff₀' hpos]
    rw [List.zipIdx_cons, List.foldl_cons, holmStep, h.left, stepDown]
    by_cases hrest : i ∈ order
    · have hne : i ≠ index := by
        rintro rfl
        exact hnew hrest
      rw [ih (h.tail _ _) hrest]
      show max _ _ ≤ level ∧ _ ↔ _
      rw [hpass]
      split_ifs with hle
      · simp [hle, hne]
      · simp [hle]
    · obtain rfl : i = index := (List.mem_cons.mp hi).resolve_right hrest
      rw [(foldl_untouched (holmStep_writes pvalues)).2 i hrest,
        Adjusting.value_write (h.bound i hi), min_le_iff, or_iff_right (not_le.mpr hlevel), hpass]
      split_ifs with hle
      · simp [hle]
      · simp [hle]

theorem holm_range (h : Remaining pvalues this order k) (hrunning : 0 ≤ this.running)
    (hi : i ∈ order) : 0 ≤ ((order.zipIdx k).foldl (holmStep pvalues) this).value i ∧
      ((order.zipIdx k).foldl (holmStep pvalues) this).value i ≤ 1 := by
  induction order generalizing this k with
  | nil => simp at hi
  | cons index order ih =>
    rw [List.zipIdx_cons, List.foldl_cons, holmStep]
    have hmax := hrunning.trans (le_max_left this.running
      ((pvalues.length - k : ℚ) * pvalue pvalues index))
    by_cases hrest : i ∈ order
    · exact ih (h.tail _ _) hmax hrest
    · obtain rfl : i = index := (List.mem_cons.mp hi).resolve_right hrest
      rw [(foldl_untouched (holmStep_writes pvalues)).2 i hrest,
        Adjusting.value_write (h.bound i hi)]
      exact ⟨le_min zero_le_one hmax, min_le_left _ _⟩

/-! ## Benjamini and Hochberg -/

theorem benjaminiHochberg_loop (h : Remaining pvalues this order k) (hi : i ∈ order) :
    ((order.zipIdx k).foldl (benjaminiHochbergStep pvalues) this).value i ≤ level ↔
      this.running ≤ level ∨ i ∈ stepUp (pvalue pvalues) level pvalues.length order.reverse := by
  induction order generalizing this k with
  | nil => simp at hi
  | cons index order ih =>
    have hnew : index ∉ order := (List.nodup_cons.mp h.nodup).1
    have hpos : (0 : ℚ) < order.length + 1 := by positivity
    have hcount : (0 : ℚ) < pvalues.length := by
      have := h.count
      rw [List.length_cons] at this
      exact_mod_cast (by omega : 0 < pvalues.length)
    have hpass : min this.running (pvalue pvalues index * pvalues.length / (order.length + 1)) ≤
        level ↔ this.running ≤ level ∨
          pvalue pvalues index ≤ (order.length + 1) * level / pvalues.length := by
      rw [min_le_iff, div_le_iff₀' hpos, le_div_iff₀ hcount]
    rw [List.zipIdx_cons, List.foldl_cons, benjaminiHochbergStep, h.left, List.reverse_cons,
      stepUp_append, List.length_reverse]
    by_cases hrest : i ∈ order
    · rw [ih (h.tail _ _) hrest]
      show min _ _ ≤ level ∨ _ ↔ _
      rw [hpass]
      split_ifs with hle
      · simp [hle, hrest]
      · simp [hle]
    · obtain rfl : i = index := (List.mem_cons.mp hi).resolve_right hrest
      have hsub : i ∉ stepUp (pvalue pvalues) level pvalues.length order.reverse := fun hmem =>
        hrest (List.mem_reverse.mp (stepUp_sublist.subset hmem))
      rw [(foldl_untouched (benjaminiHochbergStep_writes pvalues)).2 i hrest,
        Adjusting.value_write (h.bound i hi), hpass]
      split_ifs with hle
      · simp [hle]
      · simp [hle, hsub]

theorem benjaminiHochberg_range (hp : ∀ i, 0 ≤ pvalue pvalues i)
    (h : Remaining pvalues this order k) (hrunning : 0 ≤ this.running ∧ this.running ≤ 1)
    (hi : i ∈ order) :
    0 ≤ ((order.zipIdx k).foldl (benjaminiHochbergStep pvalues) this).value i ∧
      ((order.zipIdx k).foldl (benjaminiHochbergStep pvalues) this).value i ≤ 1 := by
  induction order generalizing this k with
  | nil => simp at hi
  | cons index order ih =>
    have hvalue : 0 ≤ pvalue pvalues index * pvalues.length / (pvalues.length - k : ℚ) := by
      rw [h.left]
      have := hp index
      positivity
    have hmin := And.intro (le_min hrunning.1 hvalue)
      ((min_le_left this.running (pvalue pvalues index * pvalues.length /
        (pvalues.length - k : ℚ))).trans hrunning.2)
    rw [List.zipIdx_cons, List.foldl_cons, benjaminiHochbergStep]
    by_cases hrest : i ∈ order
    · exact ih (h.tail _ _) hmin hrest
    · obtain rfl : i = index := (List.mem_cons.mp hi).resolve_right hrest
      rw [(foldl_untouched (benjaminiHochbergStep_writes pvalues)).2 i hrest,
        Adjusting.value_write (h.bound i hi)]
      exact hmin

/-! ## Both correct as the procedures do -/

theorem pvalue_nonneg (h : ∀ p ∈ pvalues, 0 ≤ p ∧ p ≤ 1) (i : ℕ) : 0 ≤ pvalue pvalues i := by
  unfold pvalue
  rcases lt_or_ge i pvalues.length with hlt | hge
  · rw [List.getD_eq_getElem _ _ hlt]
    exact (h _ (List.getElem_mem hlt)).1
  · rw [List.getD_eq_default _ _ hge]

theorem pvalue_le_one (h : ∀ p ∈ pvalues, 0 ≤ p ∧ p ≤ 1) (i : ℕ) : pvalue pvalues i ≤ 1 := by
  unfold pvalue
  rcases lt_or_ge i pvalues.length with hlt | hge
  · rw [List.getD_eq_getElem _ _ hlt]
    exact (h _ (List.getElem_mem hlt)).2
  · rw [List.getD_eq_default _ _ hge]
    exact zero_le_one

variable {np : NumPy}

theorem NumPy.ascending (np : NumPy) (pvalues : List ℚ) :
    Ascending (pvalue pvalues) (np.argsort pvalues) :=
  ⟨(np.argsort_perm pvalues).nodup_iff.mpr List.nodup_range, np.argsort_sorted pvalues⟩

theorem NumPy.mem_argsort (np : NumPy) {pvalues : List ℚ} {i : ℕ} :
    i ∈ np.argsort pvalues ↔ i ∈ List.range pvalues.length := (np.argsort_perm pvalues).mem_iff

theorem NumPy.length_argsort (np : NumPy) (pvalues : List ℚ) :
    (np.argsort pvalues).length = pvalues.length := by
  rw [(np.argsort_perm pvalues).length_eq, List.length_range]

theorem remaining_holm (np : NumPy) (pvalues : List ℚ) :
    Remaining pvalues ⟨0, np.empty pvalues.length⟩ (np.argsort pvalues) 0 where
  count := by rw [np.length_argsort, Nat.zero_add]
  nodup := (np.ascending pvalues).nodup
  bound i hi := by
    rw [np.length_empty]
    exact List.mem_range.mp (np.mem_argsort.mp hi)

theorem remaining_benjaminiHochberg (np : NumPy) (pvalues : List ℚ) :
    Remaining pvalues ⟨1, np.empty pvalues.length⟩ (np.argsort pvalues).reverse 0 where
  count := by rw [List.length_reverse, np.length_argsort, Nat.zero_add]
  nodup := List.nodup_reverse.mpr (np.ascending pvalues).nodup
  bound i hi := by
    rw [np.length_empty]
    exact List.mem_range.mp (np.mem_argsort.mp (List.mem_reverse.mp hi))

theorem sound_holm (h : ∀ p ∈ pvalues, 0 ≤ p ∧ p ≤ 1) :
    Sound (pvalue pvalues) (stepDown (pvalue pvalues)) (List.range pvalues.length) :=
  sound_stepDown fun i _ => pvalue_nonneg h i

/-- **Holm.** -/
theorem holm_adjusts (np : NumPy) (h : ∀ p ∈ pvalues, 0 ≤ p ∧ p ≤ 1) :
    Adjusts (pvalue pvalues) (stepDown (pvalue pvalues)) (List.range pvalues.length)
      (pvalue (holm np pvalues)) := by
  have hremaining := remaining_holm np pvalues
  have hrange : ∀ i ∈ List.range pvalues.length,
      0 ≤ pvalue (holm np pvalues) i ∧ pvalue (holm np pvalues) i ≤ 1 := fun i hi =>
    holm_range hremaining le_rfl (np.mem_argsort.mpr hi)
  refine Adjusts.of_order (sound_holm h) (np.ascending pvalues) (np.argsort_perm pvalues)
    (fun i hi => (hrange i hi).1) (fun i hi => (hrange i hi).2) ?_
  intro level hlevel hlt i hi
  exact (holm_loop hremaining hlt (np.mem_argsort.mpr hi)).trans (and_iff_right hlevel)

/-- **Benjamini and Hochberg.** -/
theorem benjaminiHochberg_adjusts (np : NumPy) (h : ∀ p ∈ pvalues, 0 ≤ p ∧ p ≤ 1) :
    Adjusts (pvalue pvalues) (fun level order => stepUp (pvalue pvalues) level order.length order)
      (List.range pvalues.length) (pvalue (benjaminiHochberg np pvalues)) := by
  have hremaining := remaining_benjaminiHochberg np pvalues
  have hrange : ∀ i ∈ List.range pvalues.length,
      0 ≤ pvalue (benjaminiHochberg np pvalues) i ∧
        pvalue (benjaminiHochberg np pvalues) i ≤ 1 := fun i hi =>
    benjaminiHochberg_range (pvalue_nonneg h) hremaining ⟨zero_le_one, le_rfl⟩
      (List.mem_reverse.mpr (np.mem_argsort.mpr hi))
  refine Adjusts.of_order sound_stepUp (np.ascending pvalues) (np.argsort_perm pvalues)
    (fun i hi => (hrange i hi).1) (fun i hi => (hrange i hi).2) ?_
  intro level hlevel hlt i hi
  have hloop := @benjaminiHochberg_loop pvalues _ _ _ _ level hremaining
    (List.mem_reverse.mpr (np.mem_argsort.mpr hi))
  rw [List.reverse_reverse] at hloop
  rw [np.length_argsort]
  exact hloop.trans (or_iff_right (not_le.mpr hlt))

theorem length_holm (np : NumPy) (pvalues : List ℚ) : (holm np pvalues).length = pvalues.length :=
  (foldl_untouched (holmStep_writes pvalues)).1.trans (np.length_empty _)

theorem length_benjaminiHochberg (np : NumPy) (pvalues : List ℚ) :
    (benjaminiHochberg np pvalues).length = pvalues.length :=
  (foldl_untouched (benjaminiHochbergStep_writes pvalues)).1.trans (np.length_empty _)

/-- Lists of adjusted values for one procedure are equal. -/
theorem eq_of_adjusts (np : NumPy) {rejects : ℚ → List ℕ → List ℕ} {xs ys : List ℚ}
    (hx : xs.length = pvalues.length) (hy : ys.length = pvalues.length)
    (ha : Adjusts (pvalue pvalues) rejects (List.range pvalues.length) (pvalue xs))
    (hb : Adjusts (pvalue pvalues) rejects (List.range pvalues.length) (pvalue ys)) : xs = ys := by
  refine List.ext_getElem (hx.trans hy.symm) fun i h₁ h₂ => ?_
  have hi : i ∈ List.range pvalues.length := List.mem_range.mpr (hx ▸ h₁)
  have heq : pvalue xs i = pvalue ys i := le_antisymm
    (ha.le_of_adjusts (np.ascending pvalues) (np.argsort_perm pvalues) hb hi)
    (hb.le_of_adjusts (np.ascending pvalues) (np.argsort_perm pvalues) ha hi)
  rwa [pvalue, pvalue, List.getD_eq_getElem _ _ h₁, List.getD_eq_getElem _ _ h₂] at heq

/-- The adjusted values are those of a procedure: in between the p-values and one, in the order of
the p-values, and at most a level exactly where the procedure rejects at the level, in whichever
order it takes ties. -/
structure Corrects (pvalues : List ℚ) (rejects : ℚ → List ℕ → List ℕ) (adjusted : List ℚ) :
    Prop where
  length : adjusted.length = pvalues.length
  le : ∀ i < pvalues.length, pvalue pvalues i ≤ pvalue adjusted i
  le_one : ∀ i < pvalues.length, pvalue adjusted i ≤ 1
  mono : ∀ i < pvalues.length, ∀ j < pvalues.length, pvalue pvalues i ≤ pvalue pvalues j →
    pvalue adjusted i ≤ pvalue adjusted j
  rejects : ∀ level, 0 ≤ level → level < 1 → ∀ order, order.Perm (List.range pvalues.length) →
    (order.Pairwise fun i j => pvalue pvalues i ≤ pvalue pvalues j) →
    ∀ i < pvalues.length, pvalue adjusted i ≤ level ↔ i ∈ rejects level order

theorem corrects_of_adjusts (np : NumPy) {rejects : ℚ → List ℕ → List ℕ} {adjusted : List ℚ}
    (h : ∀ p ∈ pvalues, 0 ≤ p ∧ p ≤ 1)
    (hsound : Sound (pvalue pvalues) rejects (List.range pvalues.length))
    (hlength : adjusted.length = pvalues.length)
    (ha : Adjusts (pvalue pvalues) rejects (List.range pvalues.length) (pvalue adjusted)) :
    Corrects pvalues rejects adjusted := by
  have horder := np.ascending pvalues
  have hperm := np.argsort_perm pvalues
  refine ⟨hlength, fun i hi => ?_, fun i hi => ?_, fun i hi j hj hle => ?_, ?_⟩
  · exact ha.le hsound horder hperm (List.mem_range.mpr hi) (pvalue_le_one h i)
  · exact ha.le_one i (List.mem_range.mpr hi)
  · exact ha.mono hsound horder hperm (List.mem_range.mpr hi) (List.mem_range.mpr hj) hle
  · intro level hlevel hlt order hperm' hsorted i hi
    exact ha.rejects level hlevel hlt order ⟨hperm'.nodup_iff.mpr List.nodup_range, hsorted⟩ hperm'
      i (List.mem_range.mpr hi)

/-- **Both corrections are the procedures**, whatever order `argsort` puts ties in. -/
theorem corrections (np : NumPy) (h : ∀ p ∈ pvalues, 0 ≤ p ∧ p ≤ 1) :
    (∀ other : NumPy, holm other pvalues = holm np pvalues ∧
      benjaminiHochberg other pvalues = benjaminiHochberg np pvalues) ∧
    Corrects pvalues (stepDown (pvalue pvalues)) (holm np pvalues) ∧
    Corrects pvalues (fun level order => stepUp (pvalue pvalues) level order.length order)
      (benjaminiHochberg np pvalues) := by
  refine ⟨fun other => ⟨?_, ?_⟩, ?_, ?_⟩
  · exact eq_of_adjusts np (length_holm other pvalues) (length_holm np pvalues)
      (holm_adjusts other h) (holm_adjusts np h)
  · exact eq_of_adjusts np (length_benjaminiHochberg other pvalues)
      (length_benjaminiHochberg np pvalues) (benjaminiHochberg_adjusts other h)
      (benjaminiHochberg_adjusts np h)
  · exact corrects_of_adjusts np h (sound_holm h) (length_holm np pvalues) (holm_adjusts np h)
  · exact corrects_of_adjusts np h sound_stepUp (length_benjaminiHochberg np pvalues)
      (benjaminiHochberg_adjusts np h)

/-- A numpy that sorts by insertion. -/
def insertionNumPy : NumPy where
  argsort pvalues := (List.range pvalues.length).insertionSort
    fun i j => pvalue pvalues i ≤ pvalue pvalues j
  argsort_perm _ := List.perm_insertionSort _ _
  argsort_sorted pvalues := List.pairwise_insertionSort
    (fun i j => pvalue pvalues i ≤ pvalue pvalues j) _
  empty count := List.replicate count 0
  length_empty _ := List.length_replicate

theorem corrections_four :
    Corrects [1 / 100, 1 / 25, 3 / 100, 1 / 200]
      (stepDown (pvalue [1 / 100, 1 / 25, 3 / 100, 1 / 200]))
      (holm insertionNumPy [1 / 100, 1 / 25, 3 / 100, 1 / 200]) :=
  (corrections insertionNumPy (by norm_num)).2.1

example : holm insertionNumPy [1 / 100, 1 / 25, 3 / 100, 1 / 200] =
    [3 / 100, 3 / 50, 3 / 50, 1 / 50] := by decide +kernel

end Bench

end Valseg
