import Valseg.Lib.Allocation
import Valseg.Arena
import Valseg.Engine
import Valseg.NumericDomain

/-!
# Structures whose allocations may fail

The models of the structures let every vector grow. Here the same operations make room first, and
a request for it may fail. An `AllocatingEngine` has such operations for an engine, which they
follow unless a request fails; its runs are lists of calls with one allocator that chooses for
every request of the run. `run_induction` is the rule for the states of such runs, and `Strong`
the guarantee that a call that throws, for whatever reason, leaves the state as it was.
-/

namespace Valseg

open Allocation

variable {ι κ ρ σ : Type}

/-- The operations of an engine where requests may fail. -/
structure AllocatingEngine (E : Engine ι ρ σ) (κ : Type) where
  initializeFrom : Allocator → ι → AllocM κ Exception σ Unit
  rangeAdd : Allocator → (left right : ℕ) → ValueType → AllocM κ Exception σ ρ
  initialize_follows : ∀ A argument, Follows (initializeFrom A argument) (E.initializeFrom argument)
  rangeAdd_follows : ∀ A left right value,
    Follows (rangeAdd A left right value) (E.rangeAdd left right value)

namespace AllocatingEngine

variable {E : Engine ι ρ σ} (F : AllocatingEngine E κ) (A : Allocator)

/-- One call, however it ends. -/
def step (s : Allocated κ σ) : Call ι → Allocated κ σ
  | .initializeFrom argument => Effect.finalState (F.initializeFrom A argument s)
  | .rangeAdd left right value => Effect.finalState (F.rangeAdd A left right value s)

/-- The calls on a newly constructed structure, whose vectors have no capacity. -/
def run (calls : List (Call ι)) : Allocated κ σ := calls.foldl (F.step A) ⟨E.empty, fun _ => 0, 0⟩

/-- **The strong guarantee.** After every run, an addition that throws leaves the state as it
was. -/
def Strong (Same : σ → σ → Prop) : Prop := ∀ A calls left right value f s',
  F.rangeAdd A left right value (F.run A calls) = .error f s' →
    Same (F.run A calls).state s'.state

variable {F A} {P : σ → Prop}

/-- **One call.** It ends as a call of the engine does, or a request fails. -/
theorem step_keeps (hopening : ∀ a s, P s → P (Effect.finalState (E.initializeFrom a s)))
    (hrangeAdd : ∀ l r value s, P s → P (Effect.finalState (E.rangeAdd l r value s)))
    (hopening_fails : ∀ a s, P s → FailsIn (F.initializeFrom A a) s P)
    (hrangeAdd_fails : ∀ l r value s, P s → FailsIn (F.rangeAdd A l r value) s P)
    {s : Allocated κ σ} (hs : P s.state) (c : Call ι) : P (F.step A s c).state := by
  cases c with
  | initializeFrom a =>
    show P (Effect.finalState (F.initializeFrom A a s)).state
    have hnext := hopening a s.state hs
    rcases hr : F.initializeFrom A a s with ⟨u, t⟩ | ⟨_ | e, t⟩
    · rwa [(F.initialize_follows A a).returns hr] at hnext
    · exact hopening_fails a s.state hs s t rfl hr
    · rwa [(F.initialize_follows A a).throws hr] at hnext
  | rangeAdd l r value =>
    show P (Effect.finalState (F.rangeAdd A l r value s)).state
    have hnext := hrangeAdd l r value s.state hs
    rcases hr : F.rangeAdd A l r value s with ⟨u, t⟩ | ⟨_ | e, t⟩
    · rwa [(F.rangeAdd_follows A l r value).returns hr] at hnext
    · exact hrangeAdd_fails l r value s.state hs s t rfl hr
    · rwa [(F.rangeAdd_follows A l r value).throws hr] at hnext

/-- **Induction over runs.** What the calls of the engine keep, and calls with a failed request
keep, holds after every run. -/
theorem run_induction (hstart : P E.empty)
    (hopening : ∀ a s, P s → P (Effect.finalState (E.initializeFrom a s)))
    (hrangeAdd : ∀ l r value s, P s → P (Effect.finalState (E.rangeAdd l r value s)))
    (hopening_fails : ∀ a s, P s → FailsIn (F.initializeFrom A a) s P)
    (hrangeAdd_fails : ∀ l r value s, P s → FailsIn (F.rangeAdd A l r value) s P)
    (calls : List (Call ι)) : P (F.run A calls).state := by
  have key : ∀ (calls : List (Call ι)) (s : Allocated κ σ), P s.state →
      P (calls.foldl (F.step A) s).state := by
    intro calls
    induction calls with
    | nil => exact fun s hs => hs
    | cons c calls ih =>
      exact fun s hs => ih _ (step_keeps hopening hrangeAdd hopening_fails hrangeAdd_fails hs c)
  exact key calls _ hstart

/-- The guarantee from the two reasons to throw: one that the engine has too, and a failed
request. -/
theorem strong_of {Same : σ → σ → Prop} (hP : ∀ A calls, P (F.run A calls).state)
    (hthrows : ∀ {l r value s e s'}, P s → E.rangeAdd l r value s = .error e s' → Same s s')
    (hfails : ∀ A l r value s, P s → FailsIn (F.rangeAdd A l r value) s (Same s)) :
    F.Strong Same := by
  intro A calls l r value f s' h
  cases f with
  | badAlloc => exact hfails A l r value _ (hP A calls) _ s' rfl h
  | thrown e => exact hthrows (hP A calls) ((F.rangeAdd_follows A l r value).throws h)

end AllocatingEngine

/-- A state that stores valid trees, or none, is left in such a state by every call. -/
theorem Simulation.exists_inv {E : Engine ι ρ σ} {D : Discipline} (S : Simulation E D) :
    (∀ a s, (∃ o, S.Inv (s, o)) → ∃ o, S.Inv (Effect.finalState (E.initializeFrom a s), o)) ∧
      ∀ l r value s, (∃ o, S.Inv (s, o)) →
        ∃ o, S.Inv (Effect.finalState (E.rangeAdd l r value s), o) := by
  constructor
  · rintro a s ⟨o, hs⟩
    refine ⟨(E.step (s, o) (.initializeFrom a)).2, ?_⟩
    rw [← Engine.step_initialize_state (o := o)]
    exact S.inv_step _ _ hs
  · rintro l r value s ⟨o, hs⟩
    refine ⟨(E.step (s, o) (.rangeAdd l r value)).2, ?_⟩
    have hstate : (E.step (s, o) (.rangeAdd l r value)).1 =
        Effect.finalState (E.rangeAdd l r value s) := by
      rcases hr : E.rangeAdd l r value s with ⟨x, t⟩ | ⟨e, t⟩
      · rw [Engine.step_rangeAdd_ok hr]
        rfl
      · rw [Engine.step_rangeAdd_error hr]
        rfl
    rw [← hstate]
    exact S.inv_step _ _ hs

/-! ## What the structures share -/

/-- The vectors of a tree of versions. -/
inductive TreeVector where
  | nodes
  | roots
  deriving DecidableEq, Repr

/-- The preflight of the guard. Where the scalar bound proves nothing, storage for the `size`
leaves is reserved, and the materialization appends as many. -/
def SumAddDomainGuard.preflightStored (A : Allocator) (guard : SumAddDomainGuard)
    (size left right : ℕ) (value : ValueType)
    (materialize : List ValueType → Except Exception (List ValueType)) :
    AllocM κ Exception σ SumAddDomainGuard := do
  if provesCanonicalRepresentability (saturatedAdd guard.magnitudeBound (magnitude value)) size then
    guard.preflight size left right value materialize
  else do
    let _ ← A.request size
    guard.preflight size left right value materialize

section Guard

variable {A : Allocator} {guard : SumAddDomainGuard} {size l r : ℕ} {value : ValueType}
  {materialize : List ValueType → Except Exception (List ValueType)}

theorem SumAddDomainGuard.preflightStored_follows :
    Follows (guard.preflightStored A size l r value materialize :
      AllocM κ Exception σ SumAddDomainGuard)
      (liftM (guard.preflight size l r value materialize)) := by
  unfold preflightStored
  split_ifs with h
  · exact .except _
  · exact .prepare_bind (.request _) fun _ => .except _

/-- It only reads the state. -/
theorem SumAddDomainGuard.preflightStored_reads :
    Effect.Within (OnState Eq) (guard.preflightStored A size l r value materialize :
      AllocM κ Exception σ SumAddDomainGuard) := by
  have hlift : Effect.Within (OnState Eq) (liftM (guard.preflight size l r value materialize) :
      AllocM κ Exception σ SumAddDomainGuard) := within_lift (.lift (fun _ => rfl) _)
  refine .ite (fun _ => hlift) fun _ => .bind (R := OnState Eq) Eq.trans ?_ fun _ => hlift
  exact (Prepares.request size).within fun _ => rfl

end Guard

variable {Node : Type}

/-- `pushBack` where the request for room may fail. -/
def pushBackIn (A : Allocator) (node : Node) : AllocM Unit Exception (List Node) ℕ := do
  A.oneMore () id
  pushBack node

/-- `readNode`, which requests nothing. -/
def readNodeIn (index : ℕ) : AllocM Unit Exception (List Node) Node :=
  liftM (readNode index : ArenaM Node Node)

theorem readNodeIn_follows (index : ℕ) :
    Follows (readNodeIn index : AllocM Unit Exception (List Node) Node) (readNode index) :=
  .lift _

theorem readNodeIn_fits (index : ℕ) :
    Fits 0 (readNodeIn index : AllocM Unit Exception (List Node) Node) :=
  .lift (Effect.Within.of_state (R := fun a b : List Node => b.length = a.length) (fun _ => rfl)
    (readNode_state index))

theorem pushBackIn_follows (A : Allocator) (node : Node) :
    Follows (pushBackIn A node) (pushBack node) :=
  .prepare_bind (.room _ _) fun _ => .lift _

theorem pushBackIn_fits (A : Allocator) (node : Node) : Fits 1 (pushBackIn A node) :=
  .oneMore fun nodes => by
    rw [pushBack_run]
    exact List.length_append

/-- The computation only appends nodes, however it ends. -/
abbrev AppendsIn {α : Type} (x : AllocM Unit Exception (List Node) α) : Prop :=
  Effect.Within (OnState fun a b => a <+: b) x

namespace AppendsIn

variable {α β : Type}

theorem lift {x : EStateM Exception (List Node) α} (hx : Appends x) :
    AppendsIn (liftM x : AllocM Unit Exception (List Node) α) := within_lift hx

theorem except (z : Except Exception α) :
    AppendsIn (liftM z : AllocM Unit Exception (List Node) α) :=
  lift (x := (liftM z : EStateM Exception (List Node) α)) (Appends.lift z)

theorem pure (a : α) : AppendsIn (Pure.pure a : AllocM Unit Exception (List Node) α) :=
  lift (Appends.pure a)

theorem throw (e : Exception) : AppendsIn (MonadExcept.throw (.thrown e) :
    AllocM Unit Exception (List Node) α) := fun _ => List.prefix_rfl

theorem ite {p : Prop} [Decidable p] {x y : AllocM Unit Exception (List Node) α}
    (hx : p → AppendsIn x) (hy : ¬ p → AppendsIn y) : AppendsIn (if p then x else y) :=
  Effect.Within.ite hx hy

theorem bind {x : AllocM Unit Exception (List Node) α}
    {f : α → AllocM Unit Exception (List Node) β} (hx : AppendsIn x)
    (hf : ∀ a, AppendsIn (f a)) : AppendsIn (x >>= f) :=
  Effect.Within.bind (R := OnState fun a b => a <+: b) List.IsPrefix.trans hx hf

theorem readNodeIn (index : ℕ) :
    AppendsIn (readNodeIn index : AllocM Unit Exception (List Node) Node) :=
  lift (Appends.readNode index)

theorem pushBackIn (A : Allocator) (node : Node) : AppendsIn (pushBackIn A node) :=
  bind ((Prepares.room () _).within fun _ => List.prefix_rfl) fun _ => lift (Appends.pushBack node)

end AppendsIn

end Valseg
