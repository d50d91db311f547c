import Valseg.Lib.Effect
import Mathlib.Logic.Function.Basic

/-!
# Computations whose requests for memory may fail

A vector has a capacity, and an operation that would make it longer than that requests memory
first. An `AllocM` computation runs on a state, the capacities of its vectors and the number of
requests made so far; the `Allocator` says which of them fail and how much the others give, so
that one allocator chooses for every request of a whole run.

1. `Follows x y`: unless a request fails, `x` does what `y` does without capacities.
2. `FailsIn x this Q`: a request that fails in `x` leaves a state that satisfies `Q`.
3. `Fits n x`: a vector that has room for `n` elements more is not outgrown in `x`.

What holds between the states before and after every step is `Effect.Within (OnState R)`.
-/

namespace Allocation

open Effect (Within finalState onThrow)

/-- Which requests fail, and the capacity a vector gets from one that succeeds. -/
structure Allocator where
  fails : (request : ℕ) → Bool
  growth : (request needed : ℕ) → ℕ
  le_growth : ∀ request needed, needed ≤ growth request needed

/-- A computation ends without a result because a request failed, or with an exception. -/
inductive Failure (ε : Type) where
  | badAlloc
  | thrown (e : ε)
  deriving DecidableEq, Repr

/-- A state, the capacities of its vectors, and the number of requests so far. -/
structure Allocated (κ σ : Type) where
  state : σ
  capacity : κ → ℕ
  requests : ℕ

/-- A computation whose requests may fail. -/
abbrev AllocM (κ ε σ : Type) := EStateM (Failure ε) (Allocated κ σ)

section Operations

variable {κ ε σ τ ν α : Type}

/-- What requests nothing does the same to the state. -/
instance liftState : MonadLift (EStateM ε σ) (AllocM κ ε σ) where
  monadLift x := fun s => match x s.state with
    | .ok a t => .ok a { s with state := t }
    | .error e t => .error (.thrown e) { s with state := t }

namespace Allocator

/-- A request for `needed` elements; it returns the capacity. -/
def request (A : Allocator) (needed : ℕ) : AllocM κ ε σ ℕ := fun s =>
  if A.fails s.requests then .error .badAlloc { s with requests := s.requests + 1 }
  else .ok (A.growth s.requests needed) { s with requests := s.requests + 1 }

/-- Room for so many elements in a vector, requested where its capacity is less. -/
def room [DecidableEq κ] (A : Allocator) (vector : κ) (needed : σ → ℕ) : AllocM κ ε σ Unit := do
  let s ← get
  if needed s.state ≤ s.capacity vector then pure ()
  else do
    let capacity ← A.request (needed s.state)
    modify fun s => { s with capacity := Function.update s.capacity vector capacity }

/-- Room for the element a `push_back` appends. -/
def oneMore [DecidableEq κ] (A : Allocator) (vector : κ) (elements : σ → List ν) :
    AllocM κ ε σ Unit := A.room vector fun s => (elements s).length + 1

end Allocator

/-- Vectors made next to the state take the place of its own. -/
def swapIn (state : σ) (capacity : (old : κ → ℕ) → κ → ℕ) : AllocM κ ε σ Unit :=
  modify fun s => ⟨state, capacity s.capacity, s.requests⟩

/-- One vector of the state. -/
def Allocated.only (vector : κ) (part : σ → τ) (s : Allocated κ σ) : Allocated Unit τ :=
  ⟨part s.state, fun _ => s.capacity vector, s.requests⟩

/-- The state with one vector put back. -/
def Allocated.putBack [DecidableEq κ] (vector : κ) (put : τ → σ → σ) (t : Allocated Unit τ)
    (s : Allocated κ σ) : Allocated κ σ :=
  ⟨put t.state s.state, Function.update s.capacity vector (t.capacity ()), t.requests⟩

/-- A computation on one vector of the state. -/
def onVector [DecidableEq κ] (vector : κ) (part : σ → τ) (put : τ → σ → σ)
    (x : AllocM Unit ε τ α) : AllocM κ ε σ α :=
  Effect.zoom (Allocated.only vector part) (Allocated.putBack vector put) x

end Operations

variable {κ ε σ τ ν α β : Type} {A : Allocator} {s : Allocated κ σ}

/-! ## How a step ends -/

theorem lift_ok {y : EStateM ε σ α} {a : α} {u : σ} (h : y s.state = .ok a u) :
    (liftM y : AllocM κ ε σ α) s = .ok a { s with state := u } := by
  show (match y s.state with | .ok a t => _ | .error e t => _) = _
  rw [h]

theorem lift_error {y : EStateM ε σ α} {e : ε} {u : σ} (h : y s.state = .error e u) :
    (liftM y : AllocM κ ε σ α) s = .error (.thrown e) { s with state := u } := by
  show (match y s.state with | .ok a t => _ | .error e t => _) = _
  rw [h]

theorem except_ok (a : α) (s : Allocated κ σ) :
    (liftM (.ok a : Except ε α) : AllocM κ ε σ α) s = .ok a s := rfl

/-- A request changes the count of the requests only. -/
theorem request_cases (ε : Type) (A : Allocator) (n : ℕ) (s : Allocated κ σ) :
    (A.request n : AllocM κ ε σ ℕ) s = .error .badAlloc { s with requests := s.requests + 1 } ∨
      (A.request n : AllocM κ ε σ ℕ) s =
        .ok (A.growth s.requests n) { s with requests := s.requests + 1 } := by
  unfold Allocator.request
  split
  · exact .inl rfl
  · exact .inr rfl

section Room

variable [DecidableEq κ] {vector : κ} {needed : σ → ℕ}

/-- Room that is there is not requested. -/
theorem room_of_le (h : needed s.state ≤ s.capacity vector) :
    (A.room vector needed : AllocM κ ε σ Unit) s = .ok () s := by
  unfold Allocator.room
  rw [Effect.run_bind_ok (Effect.run_get s), if_pos h]
  rfl

/-- Making room ends with a failed request or with the room; the state is as it was. -/
theorem room_cases (ε : Type) (A : Allocator) (vector : κ) (needed : σ → ℕ)
    (s : Allocated κ σ) :
    (∃ t, (A.room vector needed : AllocM κ ε σ Unit) s = .error .badAlloc t ∧
        t.state = s.state) ∨
      ∃ t, (A.room vector needed : AllocM κ ε σ Unit) s = .ok () t ∧ t.state = s.state ∧
        needed s.state ≤ t.capacity vector ∧ ∀ w, w ≠ vector → t.capacity w = s.capacity w := by
  by_cases h : needed s.state ≤ s.capacity vector
  · exact .inr ⟨s, room_of_le h, rfl, h, fun _ _ => rfl⟩
  unfold Allocator.room
  rw [Effect.run_bind_ok (Effect.run_get s), if_neg h]
  rcases request_cases ε A (needed s.state) s with hr | hr
  · rw [Effect.run_bind_error hr]
    exact .inl ⟨_, rfl, rfl⟩
  · rw [Effect.run_bind_ok hr, Effect.run_modify]
    refine .inr ⟨_, rfl, rfl, ?_, fun w hw => Function.update_of_ne hw _ _⟩
    show needed s.state ≤ Function.update s.capacity vector (A.growth s.requests _) vector
    rw [Function.update_self]
    exact A.le_growth _ _

end Room

/-- The computation only makes requests, whether one of them fails or none. -/
def Prepares (z : AllocM κ ε σ β) : Prop := ∀ s : Allocated κ σ,
  (∃ t, z s = .error .badAlloc t ∧ t.state = s.state) ∨ ∃ b t, z s = .ok b t ∧ t.state = s.state

theorem Prepares.pure (a : α) : Prepares (Pure.pure a : AllocM κ ε σ α) :=
  fun s => .inr ⟨a, s, rfl, rfl⟩

theorem Prepares.request (n : ℕ) : Prepares (A.request n : AllocM κ ε σ ℕ) := by
  intro s
  rcases request_cases ε A n s with h | h
  · exact .inl ⟨_, h, rfl⟩
  · exact .inr ⟨_, _, h, rfl⟩

theorem Prepares.room [DecidableEq κ] (vector : κ) (needed : σ → ℕ) :
    Prepares (A.room vector needed : AllocM κ ε σ Unit) := by
  intro s
  rcases room_cases ε A vector needed s with h | ⟨t, h, hs, -⟩
  · exact .inl h
  · exact .inr ⟨(), t, h, hs⟩

theorem Prepares.bind {z : AllocM κ ε σ α} {f : α → AllocM κ ε σ β} (hz : Prepares z)
    (hf : ∀ a, Prepares (f a)) : Prepares (z >>= f) := by
  intro s
  rcases hz s with ⟨t, h, hs⟩ | ⟨a, t, h, hs⟩
  · exact .inl ⟨t, by rw [Effect.run_bind_error h], hs⟩
  · rw [Effect.run_bind_ok h, ← hs]
    exact hf a t

/-! ## The same computation without capacities -/

/-- `x` does what `y` does, unless a request fails. -/
structure Follows (x : AllocM κ ε σ α) (y : EStateM ε σ α) : Prop where
  returns : ∀ {s a t}, x s = .ok a t → y s.state = .ok a t.state
  throws : ∀ {s e t}, x s = .error (.thrown e) t → y s.state = .error e t.state

namespace Follows

variable {x : AllocM κ ε σ α} {y : EStateM ε σ α} {f : α → AllocM κ ε σ β}
  {g : α → EStateM ε σ β}

theorem lift (y : EStateM ε σ α) : Follows (liftM y : AllocM κ ε σ α) y where
  returns {s a t} h := by
    rcases hy : y s.state with ⟨b, u⟩ | ⟨e, u⟩
    · rw [lift_ok hy] at h
      cases h
      rfl
    · rw [lift_error hy] at h
      cases h
  throws {s e t} h := by
    rcases hy : y s.state with ⟨b, u⟩ | ⟨e', u⟩
    · rw [lift_ok hy] at h
      cases h
    · rw [lift_error hy] at h
      cases h
      rfl

theorem except (z : Except ε α) :
    Follows (liftM z : AllocM κ ε σ α) (liftM z : EStateM ε σ α) :=
  lift (liftM z : EStateM ε σ α)

theorem pure (a : α) : Follows (Pure.pure a : AllocM κ ε σ α) (Pure.pure a) := lift (Pure.pure a)

theorem throw (e : ε) : Follows (MonadExcept.throw (.thrown e) : AllocM κ ε σ α)
    (MonadExcept.throw e : EStateM ε σ α) := ⟨nofun, fun h => by cases h; rfl⟩

theorem swapIn (u : σ) (capacity : (κ → ℕ) → κ → ℕ) :
    Follows (swapIn u capacity : AllocM κ ε σ Unit) (MonadState.set u : EStateM ε σ PUnit) :=
  ⟨fun h => by cases h; rfl, nofun⟩

theorem bind (hx : Follows x y) (hf : ∀ a, Follows (f a) (g a)) :
    Follows (x >>= f) (y >>= g) where
  returns h := by
    obtain ⟨a, s', h1, h2⟩ := Effect.run_bind_eq_ok.mp h
    rw [Effect.run_bind_ok (hx.returns h1), (hf a).returns h2]
  throws h := by
    rcases Effect.run_bind_eq_error.mp h with h1 | ⟨a, s', h1, h2⟩
    · rw [Effect.run_bind_error (hx.throws h1)]
    · rw [Effect.run_bind_ok (hx.returns h1), (hf a).throws h2]

theorem ite {p : Prop} [Decidable p] {x' : AllocM κ ε σ α} {y' : EStateM ε σ α}
    (hx : p → Follows x y) (hy : ¬ p → Follows x' y') :
    Follows (if p then x else x') (if p then y else y') := by
  by_cases h : p
  · rw [if_pos h, if_pos h]
    exact hx h
  · rw [if_neg h, if_neg h]
    exact hy h

theorem dite {p : Prop} [Decidable p] {x : p → AllocM κ ε σ α} {x' : ¬ p → AllocM κ ε σ α}
    {y : p → EStateM ε σ α} {y' : ¬ p → EStateM ε σ α} (hx : ∀ h, Follows (x h) (y h))
    (hy : ∀ h, Follows (x' h) (y' h)) :
    Follows (if h : p then x h else x' h) (if h : p then y h else y' h) := by
  by_cases h : p
  · rw [dif_pos h, dif_pos h]
    exact hx h
  · rw [dif_neg h, dif_neg h]
    exact hy h

/-- What only reads the state and makes requests may come first. -/
theorem prepare_bind {z : AllocM κ ε σ β} {f : β → AllocM κ ε σ α} (hz : Prepares z)
    (hf : ∀ b, Follows (f b) y) : Follows (z >>= f) y where
  returns {s a t} h := by
    rcases hz s with ⟨s', hr, -⟩ | ⟨b, s', hr, hs⟩
    · rw [Effect.run_bind_error hr] at h
      cases h
    · rw [Effect.run_bind_ok hr] at h
      exact hs ▸ (hf b).returns h
  throws {s e t} h := by
    rcases hz s with ⟨s', hr, -⟩ | ⟨b, s', hr, hs⟩
    · rw [Effect.run_bind_error hr] at h
      cases h
    · rw [Effect.run_bind_ok hr] at h
      exact hs ▸ (hf b).throws h

/-- And so may it come last. -/
theorem bind_prepare {x : AllocM κ ε σ PUnit} {y : EStateM ε σ PUnit} {z : AllocM κ ε σ PUnit}
    (hx : Follows x y) (hz : Prepares z) : Follows (do x; z) y where
  returns {s a t} h := by
    obtain ⟨b, s', h1, h2⟩ := Effect.run_bind_eq_ok.mp h
    rcases hz s' with ⟨t', h', -⟩ | ⟨c, t', h', hs⟩ <;> rw [h'] at h2 <;> cases h2
    rw [hs]
    exact hx.returns h1
  throws {s e t} h := by
    rcases Effect.run_bind_eq_error.mp h with h1 | ⟨b, s', h1, h2⟩
    · exact hx.throws h1
    · rcases hz s' with ⟨t', h', -⟩ | ⟨c, t', h', -⟩ <;> rw [h'] at h2 <;> cases h2

/-- What reads the state first may do so for its requests only. -/
theorem bind_get {f : σ → AllocM κ ε σ α} (hf : ∀ u, Follows (f u) y) :
    Follows (getThe σ >>= f) y := ⟨fun {s _ _} h => (hf s.state).returns h,
      fun {s _ _} h => (hf s.state).throws h⟩

/-- A handler that requests nothing. -/
theorem onThrow (hx : Follows x y) (handler : EStateM ε σ PUnit) :
    Follows (onThrow x (liftM handler)) (Effect.onThrow y handler) where
  returns {s a t} h := by
    rcases hr : x s with ⟨b, u⟩ | ⟨e, u⟩
    · rw [Effect.onThrow_ok hr] at h
      cases h
      exact Effect.onThrow_ok (hx.returns hr)
    · rw [Effect.onThrow_error hr] at h
      cases h
  throws {s e t} h := by
    rcases hr : x s with ⟨b, u⟩ | ⟨e', u⟩
    · rw [Effect.onThrow_ok hr] at h
      cases h
    · rw [Effect.onThrow_error hr] at h
      cases h
      rw [Effect.onThrow_error (hx.throws hr)]
      rcases hh : handler u.state with ⟨b, w⟩ | ⟨e', w⟩
      · rw [lift_ok hh]
        rfl
      · rw [lift_error hh]
        rfl

theorem onVector [DecidableEq κ] {x : AllocM Unit ε τ α} {y : EStateM ε τ α} (hx : Follows x y)
    (vector : κ) (part : σ → τ) (put : τ → σ → σ) :
    Follows (onVector vector part put x) (Effect.zoom part put y) where
  returns {s a t} h := by
    rcases hr : x (s.only vector part) with ⟨b, u⟩ | ⟨e, u⟩
    · rw [Allocation.onVector, Effect.zoom_ok hr] at h
      cases h
      exact Effect.zoom_ok (hx.returns hr)
    · rw [Allocation.onVector, Effect.zoom_error hr] at h
      cases h
  throws {s e t} h := by
    rcases hr : x (s.only vector part) with ⟨b, u⟩ | ⟨e', u⟩
    · rw [Allocation.onVector, Effect.zoom_ok hr] at h
      cases h
    · rw [Allocation.onVector, Effect.zoom_error hr] at h
      cases h
      exact Effect.zoom_error (hx.throws hr)

end Follows

/-! ## What every step keeps -/

/-- A relation between states, whatever the capacities. -/
def OnState (R : σ → σ → Prop) (s t : Allocated κ σ) : Prop := R s.state t.state

section OnState

variable {R : σ → σ → Prop}

theorem within_lift {y : EStateM ε σ α} (h : Within R y) :
    Within (OnState R) (liftM y : AllocM κ ε σ α) := by
  intro s
  have hy := h s.state
  rcases hr : y s.state with ⟨a, u⟩ | ⟨e, u⟩ <;> rw [hr] at hy
  · rw [lift_ok hr]
    exact hy
  · rw [lift_error hr]
    exact hy

/-- Requests leave the state as it is. -/
theorem Prepares.within (hR : ∀ u, R u u) {z : AllocM κ ε σ α} (hz : Prepares z) :
    Within (OnState R) z := by
  intro s
  show R s.state (finalState (z s)).state
  rcases hz s with ⟨t, h, hs⟩ | ⟨a, t, h, hs⟩ <;> rw [h, Effect.finalState, hs] <;> exact hR _

/-- What the steps on one vector keep, the steps on the state keep. -/
theorem within_onVector [DecidableEq κ] {S : τ → τ → Prop} {x : AllocM Unit ε τ α}
    (hx : Within (OnState S) x) (vector : κ) (part : σ → τ) (put : τ → σ → σ)
    (hput : ∀ u t, S (part u) t → R u (put t u)) :
    Within (OnState R) (onVector vector part put x : AllocM κ ε σ α) := by
  intro s
  have h := hx (s.only vector part)
  rcases hr : x (s.only vector part) with ⟨a, t⟩ | ⟨e, t⟩ <;> rw [hr] at h
  · rw [onVector, Effect.zoom_ok hr]
    exact hput _ _ h
  · rw [onVector, Effect.zoom_error hr]
    exact hput _ _ h

end OnState

/-! ## Failed requests -/

/-- Started in `this`, a request that fails in `x` leaves a state that satisfies `Q`. -/
def FailsIn (x : AllocM κ ε σ α) (this : σ) (Q : σ → Prop) : Prop :=
  ∀ s t, s.state = this → x s = .error .badAlloc t → Q t.state

/-- No request fails in `x`. -/
def NeverFails (x : AllocM κ ε σ α) : Prop := ∀ s t, x s ≠ .error .badAlloc t

namespace NeverFails

theorem lift (y : EStateM ε σ α) : NeverFails (liftM y : AllocM κ ε σ α) := by
  intro s t h
  rcases hr : y s.state with ⟨a, u⟩ | ⟨e, u⟩
  · rw [lift_ok hr] at h
    cases h
  · rw [lift_error hr] at h
    cases h

theorem pure (a : α) : NeverFails (Pure.pure a : AllocM κ ε σ α) := nofun

theorem throw (e : ε) : NeverFails (MonadExcept.throw (.thrown e) : AllocM κ ε σ α) := nofun

theorem swapIn (u : σ) (capacity : (κ → ℕ) → κ → ℕ) :
    NeverFails (swapIn u capacity : AllocM κ ε σ Unit) := nofun

theorem bind {x : AllocM κ ε σ α} {f : α → AllocM κ ε σ β} (hx : NeverFails x)
    (hf : ∀ a, NeverFails (f a)) : NeverFails (x >>= f) := by
  intro s t h
  rcases Effect.run_bind_eq_error.mp h with h | ⟨a, s', -, h⟩
  · exact hx s t h
  · exact hf a s' t h

theorem ite {p : Prop} [Decidable p] {x y : AllocM κ ε σ α} (hx : p → NeverFails x)
    (hy : ¬ p → NeverFails y) : NeverFails (if p then x else y) := by
  by_cases h : p
  · rw [if_pos h]
    exact hx h
  · rw [if_neg h]
    exact hy h

theorem failsIn {x : AllocM κ ε σ α} (hx : NeverFails x) (this : σ) (Q : σ → Prop) :
    FailsIn x this Q := fun s t _ h => absurd h (hx s t)

end NeverFails

namespace FailsIn

variable {x : AllocM κ ε σ α} {f : α → AllocM κ ε σ β} {this : σ} {Q : σ → Prop}

/-- What comes first moves the state along `R`. -/
theorem bind {R : σ → σ → Prop} (hx : Within (OnState R) x) (hQ : ∀ u, R this u → Q u)
    (hf : ∀ a u, R this u → FailsIn (f a) u Q) : FailsIn (x >>= f) this Q := by
  intro s t hs h
  have hrel : R s.state (finalState (x s)).state := hx s
  rcases Effect.run_bind_eq_error.mp h with h | ⟨a, s', h1, h⟩
  · rw [h, hs] at hrel
    exact hQ _ hrel
  · rw [h1, hs] at hrel
    exact hf a _ hrel s' t rfl h

/-- What comes first only reads. -/
theorem bind_read (hx : Within (OnState Eq) x) (hQ : Q this) (hf : ∀ a, FailsIn (f a) this Q) :
    FailsIn (x >>= f) this Q :=
  bind hx (fun _ h => h ▸ hQ) fun a _ h => h ▸ hf a

/-- A pure computation comes first. -/
theorem bind_except {z : Except ε α} (hf : ∀ a, z = .ok a → FailsIn (f a) this Q) :
    FailsIn (liftM z >>= f) this Q := by
  rcases z with e | a
  · exact fun s t _ h => nomatch h
  · exact hf a rfl

/-- Requests come first. -/
theorem bind_prepares (hx : Prepares x) (hQ : Q this) (hf : ∀ a, FailsIn (f a) this Q) :
    FailsIn (x >>= f) this Q := bind_read (hx.within fun _ => rfl) hQ hf

/-- What reads the whole state comes first. -/
theorem bind_get {f : σ → AllocM κ ε σ β} (hf : FailsIn (f this) this Q) :
    FailsIn (getThe σ >>= f) this Q := by
  intro s t hs h
  have hget : (getThe σ : AllocM κ ε σ σ) s = .ok s.state s := rfl
  rw [Effect.run_bind_ok hget, hs] at h
  exact hf s t hs h

/-- A write comes first. -/
theorem bind_modify {g : σ → σ} {f : PUnit → AllocM κ ε σ β} (hf : FailsIn (f ⟨⟩) (g this) Q) :
    FailsIn (modifyThe σ g >>= f) this Q := by
  intro s t hs h
  have hwrite : (modifyThe σ g : AllocM κ ε σ PUnit) s = .ok ⟨⟩ { s with state := g s.state } := rfl
  rw [Effect.run_bind_ok hwrite] at h
  exact hf _ t (congrArg g hs) h

/-- What requests nothing comes last. -/
theorem bind_never (hx : FailsIn x this Q) (hf : ∀ a, NeverFails (f a)) :
    FailsIn (x >>= f) this Q := by
  intro s t hs h
  rcases Effect.run_bind_eq_error.mp h with h | ⟨a, s', -, h⟩
  · exact hx s t hs h
  · exact absurd h (hf a s' t)

theorem mono {Q' : σ → Prop} (hx : FailsIn x this Q) (h : ∀ u, Q u → Q' u) :
    FailsIn x this Q' := fun s t hs ht => h _ (hx s t hs ht)

theorem dite {p : Prop} [Decidable p] {x : p → AllocM κ ε σ α} {y : ¬ p → AllocM κ ε σ α}
    (hx : ∀ h, FailsIn (x h) this Q) (hy : ∀ h, FailsIn (y h) this Q) :
    FailsIn (if h : p then x h else y h) this Q := by
  by_cases h : p
  · rw [dif_pos h]
    exact hx h
  · rw [dif_neg h]
    exact hy h

theorem ite {p : Prop} [Decidable p] {y : AllocM κ ε σ α} (hx : p → FailsIn x this Q)
    (hy : ¬ p → FailsIn y this Q) : FailsIn (if p then x else y) this Q := by
  by_cases h : p
  · rw [if_pos h]
    exact hx h
  · rw [if_neg h]
    exact hy h

/-- Making requests fails where it starts. -/
theorem of_prepares (hx : Prepares x) (hQ : Q this) : FailsIn x this Q := by
  intro s t hs h
  rcases hx s with ⟨t', h', ht⟩ | ⟨a, t', h', -⟩ <;> rw [h'] at h <;> cases h
  rwa [ht, hs]

/-- The handler of a failed request puts the state right. -/
theorem onThrow {P : σ → Prop} (hx : FailsIn x this P) (handler : EStateM ε σ PUnit)
    (hP : ∀ u, P u → Q (finalState (handler u))) :
    FailsIn (Effect.onThrow x (liftM handler)) this Q := by
  intro s t hs h
  rcases hr : x s with ⟨a, u⟩ | ⟨e, u⟩
  · rw [Effect.onThrow_ok hr] at h
    cases h
  · rw [Effect.onThrow_error hr] at h
    cases h
    have hu := hP u.state (hx s u hs hr)
    rcases hh : handler u.state with ⟨b, w⟩ | ⟨e', w⟩ <;> rw [hh] at hu
    · rw [lift_ok hh]
      exact hu
    · rw [lift_error hh]
      exact hu

/-- What is followed moves the state along `R`, and so does a failed request. -/
theorem within {R : σ → σ → Prop} {y : EStateM ε σ α} (hx : ∀ this, FailsIn x this (R this))
    (hfollows : Follows x y) (hy : Within R y) : Within (OnState R) x := by
  intro s
  show R s.state (finalState (x s)).state
  have hnext := hy s.state
  rcases hr : x s with ⟨a, t⟩ | ⟨_ | e, t⟩
  · rwa [hfollows.returns hr] at hnext
  · exact hx s.state s t rfl hr
  · rwa [hfollows.throws hr] at hnext

end FailsIn

/-! ## Reserved room -/

/-- Where the vector has room for `n` elements more, no request is made and the vector gets at
most `n` elements more. -/
def Fits (n : ℕ) (x : AllocM Unit ε (List ν) α) : Prop := ∀ s : Allocated Unit (List ν),
  s.state.length + n ≤ s.capacity () → (∀ t, x s ≠ .error .badAlloc t) ∧
    (finalState (x s)).requests = s.requests ∧ (finalState (x s)).capacity = s.capacity ∧
      (finalState (x s)).state.length ≤ s.state.length + n

namespace Fits

variable {m n : ℕ} {x y : AllocM Unit ε (List ν) α}

theorem mono (hx : Fits m x) (h : m ≤ n) : Fits n x := by
  intro s hs
  obtain ⟨h1, h2, h3, h4⟩ := hx s (by omega)
  exact ⟨h1, h2, h3, by omega⟩

/-- What keeps the length of the vector needs no room. -/
theorem lift {y : EStateM ε (List ν) α}
    (hy : Within (fun a b : List ν => b.length = a.length) y) :
    Fits 0 (liftM y : AllocM Unit ε (List ν) α) := by
  intro s _
  have hlen := hy s.state
  refine ⟨NeverFails.lift y s, ?_⟩
  rcases hr : y s.state with ⟨a, u⟩ | ⟨e, u⟩ <;> rw [hr] at hlen
  · rw [lift_ok hr]
    exact ⟨rfl, rfl, hlen.le⟩
  · rw [lift_error hr]
    exact ⟨rfl, rfl, hlen.le⟩

theorem except (z : Except ε α) : Fits 0 (liftM z : AllocM Unit ε (List ν) α) :=
  lift (y := (liftM z : EStateM ε (List ν) α))
    (Within.lift (R := fun a b : List ν => b.length = a.length) (fun _ => rfl) z)

theorem pure (a : α) : Fits 0 (Pure.pure a : AllocM Unit ε (List ν) α) :=
  fun _ _ => ⟨nofun, rfl, rfl, le_rfl⟩

theorem throw (e : ε) : Fits 0 (MonadExcept.throw (.thrown e) : AllocM Unit ε (List ν) α) :=
  fun _ _ => ⟨nofun, rfl, rfl, le_rfl⟩

theorem bind {f : α → AllocM Unit ε (List ν) β} (hx : Fits m x) (hf : ∀ a, Fits n (f a)) :
    Fits (m + n) (x >>= f) := by
  intro s hs
  obtain ⟨h1, h2, h3, h4⟩ := hx s (by omega)
  rcases hr : x s with ⟨a, t⟩ | ⟨e, t⟩ <;> rw [hr] at h1 h2 h3 h4
  · simp only [Effect.finalState_ok] at h2 h3 h4
    obtain ⟨k1, k2, k3, k4⟩ := hf a t (by rw [h3]; omega)
    rw [Effect.run_bind_ok hr]
    exact ⟨k1, k2.trans h2, k3.trans h3, by omega⟩
  · rw [Effect.run_bind_error hr]
    have hlen : t.state.length ≤ s.state.length + m := h4
    exact ⟨fun u hu => h1 u (by cases hu; rfl), h2, h3, hlen.trans (by omega)⟩

/-- What needs no room may come first. -/
theorem bind_read {f : α → AllocM Unit ε (List ν) β} (hx : Fits 0 x) (hf : ∀ a, Fits n (f a)) :
    Fits n (x >>= f) := (hx.bind hf).mono (Nat.zero_add n).le

theorem ite {p : Prop} [Decidable p] (hx : p → Fits n x) (hy : ¬ p → Fits n y) :
    Fits n (if p then x else y) := by
  by_cases h : p
  · rw [if_pos h]
    exact hx h
  · rw [if_neg h]
    exact hy h

/-- A part that is left out needs no room. -/
theorem optional {p : Prop} [Decidable p] {a : α} (hx : p → Fits n x) :
    Fits (if p then n else 0) (if p then x else Pure.pure a) := by
  by_cases h : p
  · rw [if_pos h, if_pos h]
    exact hx h
  · rw [if_neg h, if_neg h]
    exact pure a

/-- One element is appended after room was made for it. -/
theorem oneMore {y : EStateM ε (List ν) α}
    (hy : Within (fun a b : List ν => b.length = a.length + 1) y) :
    Fits 1 (do A.oneMore () id; y : AllocM Unit ε (List ν) α) := by
  intro s hs
  have hroom : (A.oneMore () id : AllocM Unit ε (List ν) Unit) s = .ok () s := room_of_le hs
  have hlen := hy s.state
  rw [Effect.run_bind_ok hroom]
  refine ⟨NeverFails.lift y s, ?_⟩
  rcases hr : y s.state with ⟨a, u⟩ | ⟨e, u⟩ <;> rw [hr] at hlen
  · rw [lift_ok hr]
    exact ⟨rfl, rfl, hlen.le⟩
  · rw [lift_error hr]
    exact ⟨rfl, rfl, hlen.le⟩

/-- On a vector of a larger state. -/
theorem onVector [DecidableEq κ] {x : AllocM Unit ε (List ν) α} (hx : Fits n x) (vector : κ)
    (part : σ → List ν) (put : List ν → σ → σ) {s : Allocated κ σ}
    (hs : (part s.state).length + n ≤ s.capacity vector) :
    (∀ t, Allocation.onVector vector part put x s ≠ .error .badAlloc t) ∧
      (finalState (Allocation.onVector vector part put x s)).requests = s.requests ∧
      (finalState (Allocation.onVector vector part put x s)).capacity = s.capacity := by
  obtain ⟨h1, h2, h3, -⟩ := hx (s.only vector part) hs
  have hback : ∀ t : Allocated Unit (List ν), t.capacity = (s.only vector part).capacity →
      Function.update s.capacity vector (t.capacity ()) = s.capacity := fun t ht => by
    rw [ht]
    exact Function.update_eq_self vector s.capacity
  rcases hr : x (s.only vector part) with ⟨a, t⟩ | ⟨e, t⟩ <;> rw [hr] at h1 h2 h3
  · rw [Allocation.onVector, Effect.zoom_ok hr]
    exact ⟨nofun, h2, hback t h3⟩
  · rw [Allocation.onVector, Effect.zoom_error hr]
    exact ⟨fun u hu => h1 t (by cases hu; rfl), h2, hback t h3⟩

end Fits

end Allocation
