import Valseg.AllocatingEngine
import Valseg.CheckpointingSegmentTree

/-!
# Checkpointing where allocations may fail

The log grows first, then the copy of the live tree is requested and the checkpoints grow; the
update itself is in place. If the copy or its push fails, the logged update is popped again
(`rangeAdd_failsIn`).
-/

namespace Valseg

open Allocation

namespace CheckpointingSegmentTree.Allocating

/-- The vectors that grow. -/
inductive LogVector where
  | events
  | checkpoints
  deriving DecidableEq, Repr

/-- The memory of a copy. -/
def requestCopy (A : Allocator) (nodes : List Node) : AllocM LogVector Exception State Unit :=
  if nodes = [] then pure () else do
    let _ ← A.request nodes.length

def preflight (A : Allocator) (this : State) (left right : ℕ) (value : ValueType) :
    AllocM LogVector Exception State SumAddDomainGuard :=
  if value ≠ 0 then do
    let nextDomain ← this.numericDomain.preflightStored A this.arraySize left right value
      fun values => materialize this.live 0 0 (this.arraySize - 1) 0 values
    let _ ← validateUpdate this.live 0 0 (this.arraySize - 1) left right value
    return nextDomain
  else return this.numericDomain

/-- The try block of a range addition. -/
def pushCheckpoint (A : Allocator) (version : ℕ) : AllocM LogVector Exception State Unit := do
  let this ← getThe State
  requestCopy A this.live
  A.oneMore .checkpoints State.checkpoints
  modifyThe State fun s => { s with checkpoints := s.checkpoints ++ [⟨version, s.live⟩] }

def rangeAdd (A : Allocator) (left right : ℕ) (value : ValueType) :
    AllocM LogVector Exception State ℕ := do
  let this ← getThe State
  validateInitialized this.checkpoints.length
  validateNonEmpty this.arraySize
  validateRange this.arraySize left right
  let version ← checkedSizeAdd this.events.length 1
  let takeCheckpoint := version % this.interval = 0
  let nextDomain ← preflight A this left right value
  A.oneMore .events State.events
  modifyThe State fun s => { s with events := s.events ++ [⟨left, right, value⟩] }
  (if takeCheckpoint then
    Effect.onThrow (pushCheckpoint A version)
      (modifyThe State fun s => { s with events := s.events.dropLast })
    else pure ())
  if value ≠ 0 then do
    liftM (Effect.zoom State.live (fun nodes s => { s with live := nodes })
      (update 0 0 (this.arraySize - 1) left right value) : EStateM Exception State Unit)
    (if takeCheckpoint then
      liftM (updateBack (update 0 0 (this.arraySize - 1) left right value))
      else pure ())
    modifyThe State fun s => { s with numericDomain := nextDomain }
    return version
  else return version

/-- The log is cleared, and keeps its capacity. -/
def initializeFrom (A : Allocator) (values : List ValueType) (checkpointInterval : ℕ) :
    AllocM LogVector Exception State Unit := do
  if checkpointInterval = 0 then
    throw (.thrown (.invalidArgument "Checkpoint interval must be positive."))
  else do
    let newNumericDomain := SumAddDomainGuard.ofValues values
    let newLive ← (if values ≠ [] then do
        let nodeCount ← canonicalNodeCount values.length
        checkVectorLength "vector::_M_default_append" 16 nodeCount
        let _ ← A.request nodeCount
        let built ← Effect.onLocal (build values 0 0 (values.length - 1))
          (List.replicate nodeCount ⟨0, 0⟩)
        return built.2
      else pure [])
    requestCopy A newLive
    let newCheckpoints ← A.request 1
    swapIn ⟨newLive, [], [⟨0, newLive⟩], checkpointInterval, values.length, newNumericDomain⟩ fun
      | old, .events => old .events
      | _, .checkpoints => newCheckpoints

/-! ## Without failed requests -/

section Follows

variable (A : Allocator) (l r : ℕ) (value : ValueType)

theorem requestCopy_prepares (nodes : List Node) : Prepares (requestCopy A nodes) := by
  unfold requestCopy
  split_ifs
  · exact .pure ()
  · exact .bind (.request _) fun _ => .pure ()

theorem initializeFrom_follows (values : List ValueType) (k : ℕ) :
    Follows (initializeFrom A values k) (CheckpointingSegmentTree.initializeFrom values k) := by
  refine .ite (fun _ => .throw _) fun _ => .bind (.ite (fun _ => ?_) fun _ => .pure _)
    fun live => .prepare_bind (requestCopy_prepares A live) fun _ =>
      .prepare_bind (.request _) fun _ => .swapIn _ _
  exact .bind (.except _) fun count => .bind (.except _) fun _ => .prepare_bind (.request _)
    fun _ => .bind (.except _) fun _ => .pure _

theorem preflight_follows (this : State) : Follows (preflight A this l r value)
    (liftM (CheckpointingSegmentTree.preflight this l r value)) := by
  unfold preflight CheckpointingSegmentTree.preflight
  by_cases h : value ≠ 0
  · rw [if_pos h, if_pos h, Effect.liftM_bind]
    refine .bind SumAddDomainGuard.preflightStored_follows fun domain => ?_
    rw [Effect.liftM_bind]
    exact .bind (.except _) fun _ => .pure _
  · rw [if_neg h, if_neg h]
    exact .pure _

theorem rangeAdd_follows :
    Follows (rangeAdd A l r value) (CheckpointingSegmentTree.rangeAdd l r value) := by
  refine .bind (.lift _) fun this => .bind (.except _) fun _ => .bind (.except _) fun _ =>
    .bind (.except _) fun _ => .bind (.except _) fun version =>
      .bind (preflight_follows A l r value this) fun domain => .prepare_bind (.room _ _) fun _ =>
        .bind (.lift _) fun _ => .bind (.ite (fun _ => .onThrow ?_ _) fun _ => .pure _) fun _ =>
          .ite (fun _ => ?_) fun _ => .pure _
  · exact .bind_get fun this => .prepare_bind (requestCopy_prepares A _) fun _ =>
      .prepare_bind (.room _ _) fun _ => .lift _
  · exact .bind (.lift _) fun _ => .bind (.ite (fun _ => .lift _) fun _ => .pure _) fun _ =>
      .bind (.lift _) fun _ => .pure _

end Follows

/-- The structure and its writing operations; an initialization has its interval. -/
def engine : AllocatingEngine CheckpointingSegmentTree.engine LogVector where
  initializeFrom A argument := initializeFrom A argument.1 argument.2
  rangeAdd := rangeAdd
  initialize_follows A argument := initializeFrom_follows A argument.1 argument.2
  rangeAdd_follows := rangeAdd_follows

/-! ## Failed requests -/

section Fails

variable (A : Allocator) (l r : ℕ) (value : ValueType) (this : State)

/-- The preflight only reads the state. -/
theorem preflight_reads (t : State) :
    Effect.Within (OnState Eq) (preflight A t l r value) := by
  have lift : ∀ {α : Type} (z : Except Exception α), Effect.Within (OnState Eq)
      (liftM z : AllocM LogVector Exception State α) := fun z =>
    within_lift (.lift (fun _ => rfl) z)
  refine .ite (fun _ => ?_) fun _ => lift (.ok _)
  exact .bind (R := OnState Eq) Eq.trans SumAddDomainGuard.preflightStored_reads fun _ =>
    .bind (R := OnState Eq) Eq.trans (lift _) fun _ => lift (.ok _)

/-- Nothing is pushed unless all requests succeed. -/
theorem pushCheckpoint_failsIn (version : ℕ) :
    FailsIn (pushCheckpoint A version) this (this = ·) :=
  .bind_get (.bind_prepares (requestCopy_prepares A _) rfl fun _ =>
    .bind_prepares (.room _ _) rfl fun _ => NeverFails.failsIn (.lift _) _ _)

/-- **Failed requests.** Wherever one fails, the tree is as it was. -/
theorem rangeAdd_failsIn : FailsIn (rangeAdd A l r value) this (this = ·) := by
  refine .bind_get (.bind_except fun _ _ => .bind_except fun _ _ => .bind_except fun _ _ =>
    .bind_except fun version _ => .bind_read (preflight_reads A l r value this) rfl fun domain =>
      .bind_prepares (.room _ _) rfl fun _ => .bind_modify (.bind_never (.ite (fun _ => ?_)
        fun _ => NeverFails.failsIn (.pure _) _ _) fun _ => .ite (fun _ => ?_) fun _ => .pure _))
  · refine .onThrow (pushCheckpoint_failsIn A _ version) _ ?_
    rintro u rfl
    show this = { this with events := (this.events ++ [UpdateEvent.mk l r value]).dropLast }
    rw [List.dropLast_concat]
  · exact .bind (.lift _) fun _ => .bind (.ite (fun _ => .lift _) fun _ => .pure _) fun _ =>
      .bind (.lift _) fun _ => .pure _

theorem initializeFrom_failsIn (values : List ValueType) (k : ℕ) :
    FailsIn (initializeFrom A values k) this (this = ·) := by
  have lift : ∀ {α : Type} (z : Except Exception α), Effect.Within (OnState Eq)
      (liftM z : AllocM LogVector Exception State α) := fun z =>
    within_lift (.lift (fun _ => rfl) z)
  refine .ite (fun _ => NeverFails.failsIn (.throw _) _ _) fun _ =>
    .bind_read (.ite (fun _ => ?_) fun _ => lift (.ok _)) rfl fun live =>
      .bind_prepares (requestCopy_prepares A live) rfl fun _ => .bind_prepares (.request _) rfl
        fun _ => NeverFails.failsIn (.swapIn _ _) _ _
  exact .bind (R := OnState Eq) Eq.trans (lift _) fun _ =>
    .bind (R := OnState Eq) Eq.trans (lift _) fun _ =>
      .bind (R := OnState Eq) Eq.trans ((Prepares.request _).within fun _ => rfl) fun _ =>
        .bind (R := OnState Eq) Eq.trans (lift _) fun _ => lift (.ok _)

end Fails

/-! ## The strong guarantee -/

/-- The state stores valid trees, or none. -/
def Sound (s : State) : Prop := ∃ o, simulation.Inv (s, o)

theorem Sound.rangeAdd_error {s s' : State} {l r : ℕ} {value : ValueType} {e : Exception}
    (h : Sound s) (hx : CheckpointingSegmentTree.rangeAdd l r value s = .error e s') :
    s = s' := by
  obtain ⟨o, ⟨-, hfresh⟩ | ⟨h, m, -, -, hs, hv⟩⟩ := h
  · obtain ⟨e', hr⟩ := simulation.rangeAdd_fresh l r value hfresh
    have hr' : CheckpointingSegmentTree.rangeAdd l r value s = .error e' s := hr
    rw [hr'] at hx
    cases hx
    rfl
  · rcases rangeAdd_outcome hs hv l r value with ⟨m', live, guard, -, hr, -⟩ | ⟨e', hr, -⟩ <;>
      rw [hr] at hx <;> cases hx
    rfl

theorem run_sound (A : Allocator) (calls : List (Call (List ValueType × ℕ))) :
    Sound (engine.run A calls).state :=
  AllocatingEngine.run_induction (P := Sound) ⟨none, .inl ⟨rfl, simulation.empty⟩⟩
    simulation.exists_inv.1 simulation.exists_inv.2
    (fun a s hs => (initializeFrom_failsIn A s a.1 a.2).mono fun _ h => h ▸ hs)
    (fun l r value s hs => (rangeAdd_failsIn A l r value s).mono fun _ h => h ▸ hs)
    calls

/-- **The strong guarantee.** -/
theorem strong : engine.Strong Eq :=
  AllocatingEngine.strong_of run_sound Sound.rangeAdd_error
    fun A l r value s _ => rangeAdd_failsIn A l r value s

end CheckpointingSegmentTree.Allocating

end Valseg
