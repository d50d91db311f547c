import Valseg.HeapStorage
import Valseg.PushIdentity
import Valseg.ReplayedEntries

/-!
# Counts of valid streams

What `structuralCounts` can throw on a valid stream: a count that is not representable, or a vector
of tags that is too long (`structuralCounts_exceeds`). Neither a check of a range or of a version
fails nor is a slot past the end of the tags accessed.
-/

namespace Valseg

open Effect (ThrowsOnly Maintains)

/-- A number or a container had no room for what was asked of it. -/
def Exception.Exceeds (e : Exception) : Prop := e.kind = .overflowError ∨ e.kind = .lengthError

theorem Exception.OutOfRoom.exceeds : ∀ {e : Exception}, e.OutOfRoom → e.Exceeds
  | .lengthError _, _ => .inr rfl
  | .overflowError _, _ => .inl rfl

theorem checkedSizeAdd_exceeds (a b : ℕ) : ThrowsOnly Exception.Exceeds (checkedSizeAdd a b) :=
  fun _ h => (checkedSizeAdd_error h).exceeds

theorem checkedAdd_exceeds (a b : ValueType) : ThrowsOnly Exception.Exceeds (checkedAdd a b) := by
  intro e h
  obtain ⟨rfl, -⟩ := checkedAdd_error h
  exact .inl rfl

theorem apply_exceeds (action aggregate : ValueType) (length : ℕ) :
    ThrowsOnly Exception.Exceeds (SumAddPolicy.apply action aggregate length) := by
  refine .bind (fun e h => ?_) fun _ _ => .bind (fun e h => ?_) fun _ _ => checkedAdd_exceeds _ _
  · unfold checkedLength at h
    split_ifs at h
    cases h
    exact .inl rfl
  · rw [(checkedMultiply_error h).1]
    exact .inl rfl

/-! ## The frontier -/

variable {n l r : ℕ}

/-- The recursion goes on where the range meets the segment, so it ends in a covered leaf. -/
theorem countFrontier_exceeds (l r : ℕ) : ∀ lo hi, lo ≤ hi → l ≤ hi → lo ≤ r →
    ∀ counts, ThrowsOnly Exception.Exceeds (countFrontier lo hi l r counts) := by
  refine Segment.halving_induction ?_ ?_
  · intro m hl hr counts
    rw [countFrontier, if_pos ⟨hl, hr⟩]
    exact (checkedSizeAdd_exceeds _ _).bind fun _ _ => .ok _
  · intro lo hi hlt ihl ihr hl hr counts
    rw [countFrontier]
    by_cases hin : l ≤ lo ∧ hi ≤ r
    · rw [if_pos hin]
      exact (checkedSizeAdd_exceeds _ _).bind fun _ _ => .ok _
    rw [if_neg hin, if_pos hlt]
    refine (checkedSizeAdd_exceeds _ _).bind fun p _ => ThrowsOnly.bind ?_ fun c _ => ?_
    · exact .ite (fun h => ihl h hr _) fun _ => .ok _
    · exact .ite (fun h => ihr hl h _) fun _ => .ok _

theorem frontierCounts_exceeds (hlr : l ≤ r) (hr : r < n) :
    ThrowsOnly Exception.Exceeds (frontierCounts n l r) := by
  unfold frontierCounts
  rw [validateFrontierRange_eq_ok.mpr ⟨hlr, hr⟩, Effect.ok_bind]
  exact countFrontier_exceeds l r 0 (n - 1) (Nat.zero_le _) (by omega) (Nat.zero_le r) _

theorem intersectingNodes_exceeds (hlr : l ≤ r) (hr : r < n) :
    ThrowsOnly Exception.Exceeds (intersectingNodes n l r) := by
  refine (frontierCounts_exceeds hlr hr).bind fun frontier _ => ?_
  refine ThrowsOnly.bind ?_ fun leaves _ => ?_
  · unfold inclusiveLength
    rw [if_neg (by omega)]
    exact checkedSizeAdd_exceeds _ _
  · exact (checkedSizeAdd_exceeds _ _).bind fun _ _ => checkedSizeAdd_exceeds _ _

/-! ## The pushed tags -/

namespace PushCountingModel

/-- There is a tag for every slot of the tree. -/
structure Fits (n : ℕ) (this : State ValueType) : Prop where
  arraySize : this.arraySize = n
  tags : this.tags.length = 4 * n

theorem ofSize_exceeds (hn : 0 < n) : ThrowsOnly Exception.Exceeds (ofSize sumAddPolicy n) := by
  unfold ofSize
  rw [if_neg hn.ne', Effect.ok_bind]
  refine ThrowsOnly.bind ?_ fun count _ => ThrowsOnly.bind ?_ fun _ _ => .ok _
  · exact fun _ h => (checkedSizeMultiply_error h).exceeds
  · exact fun _ h => (checkVectorLength_error h).exceeds

theorem ofSize_fits {this : State ValueType} (h : ofSize sumAddPolicy n = .ok this) :
    Fits n this := by
  obtain ⟨-, rfl⟩ := ofSize_eq_ok h
  exact ⟨rfl, List.length_replicate⟩

/-- What the policy throws is that a sum or a product is not representable. -/
theorem raises_exceeds {e : Exception} (h : sumAddPolicy.Raises e) : e.Exceeds := by
  cases h with
  | combine left right h => exact checkedAdd_exceeds left right e h
  | compose newer older h => exact checkedAdd_exceeds newer older e h
  | apply action aggregate length h => exact apply_exceeds action aggregate length e h

/-- **One update** of the model. The tags stay as many, as the slots that the update is logged to
access are there. -/
theorem apply_maintained (hlr : l ≤ r) (hr : r < n) (value : ValueType) :
    Maintains (Fits n) Exception.Exceeds (apply sumAddPolicy l r value) := by
  intro this hthis
  unfold apply
  rw [Effect.run_bind_ok (Effect.run_get this), hthis.arraySize,
    validateFrontierRange_eq_ok.mpr ⟨hlr, hr⟩, Effect.run_bind_ok (Effect.liftM_ok _ _)]
  by_cases h0 : value = sumAddPolicy.actionIdentity
  · rw [if_pos h0]
    exact .inl ⟨0, this, rfl, hthis⟩
  rw [if_neg h0]
  have hwithin := loggedUpdate_within (P := sumAddPolicy) (by omega) l r value 0 (n - 1)
    (Nat.zero_le _) (by omega) (Nat.zero_le r) .root
  have hupdate := hwithin.maintains (loggedUpdate_erases l r value 0 (n - 1) (Nat.zero_le _) 0)
  rcases hupdate this.tags hthis.tags with ⟨p, tags, h, htags⟩ | ⟨e, tags, h, hraises | hroom⟩
  · exact .inl ⟨p, _, Effect.zoom_ok h, hthis.arraySize, htags⟩
  · exact .inr ⟨e, _, Effect.zoom_error h, raises_exceeds hraises⟩
  · exact .inr ⟨e, _, Effect.zoom_error h, hroom.exceeds⟩

end PushCountingModel

namespace Bench

open PushCountingModel (Fits apply_maintained)

variable {size interval : ℕ} {c c' : Counting} {op : Operation} {stream : List Operation}

/-! ## The operations of a valid stream -/

theorem countUpdate_exceeds (hc : Fits size c.pushes) (hlr : op.left ≤ op.right)
    (hr : op.right < size) : ThrowsOnly Exception.Exceeds (countUpdate size interval c op) := by
  refine (frontierCounts_exceeds hlr hr).bind fun frontier _ => ?_
  have hvisited : ThrowsOnly Exception.Exceeds frontier.visited := checkedSizeAdd_exceeds _ _
  refine (checkedSizeAdd_exceeds _ _).bind fun updates _ => ?_
  refine (checkedSizeAdd_exceeds _ _).bind fun latest _ => ?_
  refine ThrowsOnly.ite (fun _ => .ok _) fun _ => ?_
  refine (checkedSizeAdd_exceeds _ _).bind fun nonZeroUpdates _ => ?_
  refine hvisited.bind fun visits _ => (checkedSizeAdd_exceeds _ _).bind fun updateVisits _ => ?_
  refine ThrowsOnly.bind ?_ fun checkpointVisits _ => ThrowsOnly.bind ?_ fun pushed _ => ?_
  · exact .ite (fun _ => hvisited.bind fun _ _ => checkedSizeAdd_exceeds _ _) fun _ => .ok _
  · intro e he
    rcases apply_maintained hlr hr op.delta c.pushes hc with ⟨p, this, h, -⟩ | ⟨e', this, h, he'⟩
    · rw [Effect.onLocal_ok h] at he
      cases he
    · rw [Effect.onLocal_error h] at he
      cases he
      exact he'
  refine (checkedSizeAdd_exceeds _ _).bind fun pushes _ => ?_
  refine (intersectingNodes_exceeds hlr hr).bind fun meeting _ => ?_
  refine (checkedSizeAdd_exceeds _ _).bind fun intersecting _ => ThrowsOnly.bind ?_ fun _ _ => .ok _
  exact .ite (fun _ => checkedSizeAdd_exceeds _ _) fun _ => .ok _

theorem countQuery_exceeds (hlr : op.left ≤ op.right) (hr : op.right < size)
    (hv : op.version ≤ c.latestVersion) :
    ThrowsOnly Exception.Exceeds (countQuery size interval c op) := by
  refine (frontierCounts_exceeds hlr hr).bind fun frontier _ => ?_
  refine (checkedSizeAdd_exceeds _ _).bind fun visits _ => ?_
  rw [if_neg (Nat.not_lt.mpr hv), Effect.ok_bind]
  refine (checkedSizeAdd_exceeds _ _).bind fun queries _ => ?_
  refine (checkedSizeAdd_exceeds _ _).bind fun queryVisits _ => ThrowsOnly.bind ?_ fun full _ => ?_
  · exact .ite (fun _ => checkedSizeAdd_exceeds _ _) fun _ => .ok _
  refine ThrowsOnly.bind ?_ fun _ _ => ThrowsOnly.ite (fun _ => ?_) fun _ => ?_
  · refine .ite (fun _ e he => ?_) fun _ => .ok _
    cases he
    exact .inl rfl
  · exact (checkedSizeAdd_exceeds _ _).bind fun _ _ => .ok _
  · exact (checkedSizeAdd_exceeds _ _).bind fun _ _ => .ok _

/-- The loop invariant: there are tags for the tree, and the rest of the stream is valid. -/
def Counts (size : ℕ) (c : Counting) (stream : List Operation) : Prop :=
  Fits size c.pushes ∧ ValidFrom size c.latestVersion stream

theorem Counts.exceeds (h : Counts size c (op :: stream)) :
    ThrowsOnly Exception.Exceeds (countOperation size interval c op) := by
  obtain ⟨hc, hlr, hr, hrest⟩ := h
  unfold countOperation
  refine .ite (fun _ => countUpdate_exceeds hc hlr hr) fun hu => ?_
  rw [if_neg hu] at hrest
  exact countQuery_exceeds hlr hr hrest.1

theorem Counts.step (h : Counts size c (op :: stream))
    (hstep : countOperation size interval c op = .ok c') : Counts size c' stream := by
  obtain ⟨hc, hlr, hr, hrest⟩ := h
  by_cases hu : op.isUpdate = true
  · rw [if_pos hu] at hrest
    by_cases h0 : op.delta = 0
    · obtain ⟨-, -, rfl⟩ := countOperation_zero hu h0 hstep
      exact ⟨hc, hrest⟩
    · have hadds := countOperation_update hu h0 hstep
      obtain ⟨p, hp, -⟩ := hadds.pushes
      refine ⟨?_, hadds.latestVersion ▸ hrest⟩
      rcases apply_maintained hlr hr op.delta c.pushes hc with ⟨q, this, h, hthis⟩ | ⟨e, this, h, -⟩
      · rw [hp] at h
        cases h
        exact hthis
      · rw [hp] at h
        cases h
  · rw [if_neg hu] at hrest
    have hadds := countOperation_query (Bool.eq_false_iff.mpr hu) hstep
    exact ⟨hadds.pushes ▸ hc, hadds.latestVersion ▸ hrest.2⟩

/-- **Counts of a valid stream.** -/
theorem structuralCounts_exceeds (hsize : 0 < size) (hvalid : ValidFrom size 0 stream)
    (interval : ℕ) : ThrowsOnly Exception.Exceeds (structuralCounts stream size interval) := by
  unfold structuralCounts
  rw [if_neg hsize.ne', Effect.ok_bind]
  refine (PushCountingModel.ofSize_exceeds hsize).bind fun pushes hpushes => ThrowsOnly.bind ?_
    fun _ _ => .ok _
  exact ThrowsOnly.foldlM (J := Counts size) (fun _ _ _ => Counts.exceeds)
    (fun _ _ _ _ => Counts.step) stream _ ⟨PushCountingModel.ofSize_fits hpushes, hvalid⟩

end Bench

end Valseg
