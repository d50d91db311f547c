import Mathlib.Order.Basic
import Mathlib.Data.List.Infix

/-!
# Computations that throw and keep their state

`EStateM ε σ` is a computation over a mutable state that survives a thrown exception: what was
written before the throw is still there for the handler to see. This file has the rules to run
such a computation one step at a time (`run_bind_ok`, `run_bind_error`), the embedding of pure
fallible computations (`liftM_ok`, `liftM_error`), a frame rule for a computation on a part of
the state (`zoom`), and the rules of relations that hold between the states before and after
every step, however the computation ends (`Within`), and of what holds where it returns (`Ends`).
-/

namespace Effect

universe u

variable {ε σ τ α β : Type u}

instance monadLiftExcept : MonadLift (Except ε) (EStateM ε σ) where
  monadLift x := fun s => match x with
    | .ok a => .ok a s
    | .error e => .error e s

/-- The state a computation ends in, whether it returns or throws. -/
def finalState : EStateM.Result ε σ α → σ
  | .ok _ s => s
  | .error _ s => s

/-- The value or the exception a computation ends with. -/
def outcome : EStateM.Result ε σ α → Except ε α
  | .ok a _ => .ok a
  | .error e _ => .error e

@[simp] theorem finalState_ok (a : α) (s : σ) :
    finalState (.ok a s : EStateM.Result ε σ α) = s := rfl

@[simp] theorem finalState_error (e : ε) (s : σ) :
    finalState (.error e s : EStateM.Result ε σ α) = s := rfl

@[simp] theorem outcome_ok (a : α) (s : σ) :
    outcome (.ok a s : EStateM.Result ε σ α) = .ok a := rfl

@[simp] theorem outcome_error (e : ε) (s : σ) :
    outcome (.error e s : EStateM.Result ε σ α) = .error e := rfl

theorem outcome_eq_ok {x : EStateM.Result ε σ α} {a : α} :
    outcome x = .ok a ↔ ∃ s, x = .ok a s := by
  cases x <;> simp

theorem outcome_eq_error {x : EStateM.Result ε σ α} {e : ε} :
    outcome x = .error e ↔ ∃ s, x = .error e s := by
  cases x <;> simp

/-! ## One step at a time -/

theorem run_bind_ok {x : EStateM ε σ α} {f : α → EStateM ε σ β} {s s' : σ} {a : α}
    (h : x s = .ok a s') : (x >>= f) s = f a s' := by
  show EStateM.bind x f s = _
  unfold EStateM.bind; rw [h]

theorem run_bind_error {x : EStateM ε σ α} {f : α → EStateM ε σ β} {s s' : σ} {e : ε}
    (h : x s = .error e s') : (x >>= f) s = .error e s' := by
  show EStateM.bind x f s = _
  unfold EStateM.bind; rw [h]

/-- A sequence returns exactly when both parts do. -/
theorem run_bind_eq_ok {x : EStateM ε σ α} {f : α → EStateM ε σ β} {s t : σ} {b : β} :
    (x >>= f) s = .ok b t ↔ ∃ a s', x s = .ok a s' ∧ f a s' = .ok b t := by
  rcases h : x s with ⟨a, s'⟩ | ⟨e, s'⟩
  · rw [run_bind_ok h]; simp
  · rw [run_bind_error h]; simp

/-- A sequence throws when its first part does, or returns and its second part does. -/
theorem run_bind_eq_error {x : EStateM ε σ α} {f : α → EStateM ε σ β} {s t : σ} {e : ε} :
    (x >>= f) s = .error e t ↔
      x s = .error e t ∨ ∃ a s', x s = .ok a s' ∧ f a s' = .error e t := by
  rcases h : x s with ⟨a, s'⟩ | ⟨e', s'⟩
  · rw [run_bind_ok h]; simp
  · rw [run_bind_error h]; simp

@[simp] theorem run_pure (a : α) (s : σ) : (pure a : EStateM ε σ α) s = .ok a s := rfl

@[simp] theorem run_get (s : σ) : (get : EStateM ε σ σ) s = .ok s s := rfl

@[simp] theorem run_modify (f : σ → σ) (s : σ) :
    (modify f : EStateM ε σ PUnit) s = .ok ⟨⟩ (f s) := rfl

@[simp] theorem run_modifyThe (f : σ → σ) (s : σ) :
    (modifyThe σ f : EStateM ε σ PUnit) s = .ok ⟨⟩ (f s) := rfl

@[simp] theorem liftM_ok (a : α) (s : σ) :
    (liftM (Except.ok a : Except ε α) : EStateM ε σ α) s = .ok a s := rfl

@[simp] theorem liftM_error (e : ε) (s : σ) :
    (liftM (Except.error e : Except ε α) : EStateM ε σ α) s = .error e s := rfl

/-- A pure computation that returned may be left out. -/
theorem liftM_ok_bind (a : α) (f : α → EStateM ε σ β) :
    ((liftM (Except.ok a : Except ε α) : EStateM ε σ α) >>= f) = f a := rfl

theorem liftM_bind (x : Except ε α) (f : α → Except ε β) :
    (liftM (x >>= f) : EStateM ε σ β) = liftM x >>= fun a => liftM (f a) := by
  cases x <;> rfl

theorem run_liftM_eq_ok {x : Except ε α} {s s' : σ} {a : α} :
    (liftM x : EStateM ε σ α) s = .ok a s' ↔ x = .ok a ∧ s' = s := by
  cases x <;> simp [eq_comm]

theorem run_liftM_eq_error {x : Except ε α} {s s' : σ} {e : ε} :
    (liftM x : EStateM ε σ α) s = .error e s' ↔ x = .error e ∧ s' = s := by
  cases x <;> simp [eq_comm]

theorem run_liftM_bind_eq_ok {x : Except ε α} {f : α → EStateM ε σ β} {s s' : σ} {b : β} :
    (liftM x >>= f) s = .ok b s' ↔ ∃ a, x = .ok a ∧ f a s = .ok b s' := by
  constructor
  · intro h
    obtain ⟨a, t, ht, hf⟩ := run_bind_eq_ok.mp h
    obtain ⟨hx, rfl⟩ := run_liftM_eq_ok.mp ht
    exact ⟨a, hx, hf⟩
  · rintro ⟨a, hx, hf⟩
    exact run_bind_eq_ok.mpr ⟨a, s, run_liftM_eq_ok.mpr ⟨hx, rfl⟩, hf⟩

/-- An action that makes the checks of a value, one after another, throws what they throw. -/
theorem run_checks_error {γ : Type u} {x : Except ε α} {g : α → Except ε γ}
    {f : α → EStateM ε σ β} {s : σ} {e : ε} (h : x >>= g = .error e)
    (hf : ∀ a, g a = .error e → f a s = .error e s) :
    (liftM x >>= f) s = .error e s := by
  cases x with
  | ok a => exact (run_bind_ok (liftM_ok a s)).trans (hf a h)
  | error e' =>
    cases h
    exact run_bind_error (liftM_error e s)

theorem run_liftM_bind_eq_error {x : Except ε α} {f : α → EStateM ε σ β} {s s' : σ} {e : ε} :
    (liftM x >>= f) s = .error e s' ↔
      (x = .error e ∧ s' = s) ∨ ∃ a, x = .ok a ∧ f a s = .error e s' := by
  cases x with
  | ok a =>
    rw [run_bind_ok (liftM_ok a s)]
    simp
  | error e' =>
    rw [run_bind_error (liftM_error e' s)]
    simp [eq_comm]

/-! ## Pure fallible computations -/

theorem bind_eq_ok {x : Except ε α} {f : α → Except ε β} {b : β} :
    (x >>= f) = .ok b ↔ ∃ a, x = .ok a ∧ f a = .ok b := by
  cases x <;> simp [bind, Except.bind]

theorem bind_eq_error {x : Except ε α} {f : α → Except ε β} {e : ε} :
    (x >>= f) = .error e ↔ x = .error e ∨ ∃ a, x = .ok a ∧ f a = .error e := by
  cases x <;> simp [bind, Except.bind]

@[simp] theorem ok_bind (a : α) (f : α → Except ε β) : (Except.ok a >>= f) = f a := rfl

@[simp] theorem error_bind (e : ε) (f : α → Except ε β) :
    (Except.error e >>= f) = .error e := rfl

/-! ## A part of the state -/

/-- Run a computation on a part of the state, and put the part back however it ends. -/
def zoom (part : σ → τ) (put : τ → σ → σ) (x : EStateM ε τ α) : EStateM ε σ α := fun s =>
  match x (part s) with
  | .ok a t => .ok a (put t s)
  | .error e t => .error e (put t s)

/-- Run a computation on a local variable, which is dropped when it throws. -/
def onLocal (x : EStateM ε σ α) (s : σ) : Except ε (α × σ) :=
  match x s with
  | .ok a t => .ok (a, t)
  | .error e _ => .error e

/-- Run a computation, and a handler before its exception goes on. -/
def onThrow (x : EStateM ε σ α) (handler : EStateM ε σ PUnit) : EStateM ε σ α := fun s =>
  match x s with
  | .ok a t => .ok a t
  | .error e t => .error e (finalState (handler t))

section Parts

variable {part : σ → τ} {put : τ → σ → σ} {s t : σ} {a : α} {e : ε}

theorem zoom_ok {x : EStateM ε τ α} {p : τ} (h : x (part s) = .ok a p) :
    zoom part put x s = .ok a (put p s) := by
  unfold zoom; rw [h]

theorem zoom_error {x : EStateM ε τ α} {p : τ} (h : x (part s) = .error e p) :
    zoom part put x s = .error e (put p s) := by
  unfold zoom; rw [h]

theorem zoom_eq_ok {x : EStateM ε τ α} :
    zoom part put x s = .ok a t ↔ ∃ p, x (part s) = .ok a p ∧ put p s = t := by
  unfold zoom
  rcases x (part s) with ⟨b, p⟩ | ⟨e, p⟩
  · simp
  · exact iff_of_false nofun nofun

theorem onLocal_ok {x : EStateM ε σ α} (h : x s = .ok a t) : onLocal x s = .ok (a, t) := by
  unfold onLocal; rw [h]

theorem onLocal_eq_ok {x : EStateM ε σ α} : onLocal x s = .ok (a, t) ↔ x s = .ok a t := by
  unfold onLocal
  rcases x s with ⟨b, u⟩ | ⟨e, u⟩
  · simp
  · exact iff_of_false nofun nofun

theorem onLocal_eq_error {x : EStateM ε σ α} :
    onLocal x s = .error e ↔ ∃ t, x s = .error e t := by
  unfold onLocal
  rcases x s with ⟨b, u⟩ | ⟨e', u⟩
  · exact iff_of_false nofun nofun
  · simp

theorem onLocal_error {x : EStateM ε σ α} (h : x s = .error e t) : onLocal x s = .error e := by
  unfold onLocal; rw [h]

theorem onThrow_ok {x : EStateM ε σ α} {handler : EStateM ε σ PUnit} (h : x s = .ok a t) :
    onThrow x handler s = .ok a t := by
  unfold onThrow; rw [h]

theorem onThrow_error {x : EStateM ε σ α} {handler : EStateM ε σ PUnit} (h : x s = .error e t) :
    onThrow x handler s = .error e (finalState (handler t)) := by
  unfold onThrow; rw [h]

end Parts

/-! ## Relations between the states before and after -/

/-- Every run of `x` moves the state along `R`, whether it returns or throws. -/
def Within (R : σ → σ → Prop) (x : EStateM ε σ α) : Prop := ∀ s, R s (finalState (x s))

namespace Within

variable {R : σ → σ → Prop}

theorem of_state (hR : ∀ s, R s s) {x : EStateM ε σ α} (h : ∀ s, finalState (x s) = s) :
    Within R x := fun s => by rw [h]; exact hR s

theorem pure (hR : ∀ s, R s s) (a : α) : Within R (pure a : EStateM ε σ α) := hR

theorem throw (hR : ∀ s, R s s) (e : ε) : Within R (throw e : EStateM ε σ α) := hR

theorem lift (hR : ∀ s, R s s) (x : Except ε α) : Within R (liftM x : EStateM ε σ α) :=
  of_state hR fun s => by cases x <;> rfl

theorem bind (hT : ∀ {a b c}, R a b → R b c → R a c) {x : EStateM ε σ α}
    {f : α → EStateM ε σ β} (hx : Within R x) (hf : ∀ a, Within R (f a)) :
    Within R (x >>= f) := by
  intro s
  have h := hx s
  rcases hs : x s with ⟨a, t⟩ | ⟨e, t⟩
  · rw [run_bind_ok hs]
    rw [hs] at h
    exact hT h (hf a t)
  · rw [run_bind_error hs]
    rw [hs] at h
    exact h

theorem ite {p : Prop} [Decidable p] {x y : EStateM ε σ α} (hx : p → Within R x)
    (hy : ¬ p → Within R y) : Within R (if p then x else y) := by
  by_cases h : p
  · rw [if_pos h]; exact hx h
  · rw [if_neg h]; exact hy h

/-- A computation on a part of the state. -/
theorem zoom {Q : τ → τ → Prop} {part : σ → τ} {put : τ → σ → σ} {x : EStateM ε τ α}
    (hx : Within Q x) (h : ∀ s t, Q (part s) t → R s (put t s)) :
    Within R (Effect.zoom part put x) := by
  intro s
  have hs := h s _ (hx (part s))
  unfold Effect.zoom
  rcases hx : x (part s) with ⟨a, t⟩ | ⟨e, t⟩ <;> rw [hx] at hs <;> exact hs

/-- A pure fallible computation reads only, and so does what it is followed by. -/
theorem eq_lift_bind {x : Except ε α} {f : α → EStateM ε σ β} (hf : ∀ a, Within Eq (f a)) :
    Within Eq (liftM x >>= f) :=
  bind (R := Eq) (fun h1 h2 => h1.trans h2) (lift (fun _ => rfl) x) hf

end Within

/-! ## Where a computation returns -/

/-- Wherever it starts, if it returns then the value and the state satisfy `Q`. -/
def Ends (Q : α → σ → Prop) (x : EStateM ε σ α) : Prop := ∀ s a t, x s = .ok a t → Q a t

namespace Ends

theorem throw {Q : α → σ → Prop} (e : ε) : Ends Q (throw e : EStateM ε σ α) :=
  fun _ _ _ h => by cases h

theorem bind {Q : β → σ → Prop} {x : EStateM ε σ α} {f : α → EStateM ε σ β}
    (hf : ∀ a, Ends Q (f a)) : Ends Q (x >>= f) := by
  intro s b t h
  obtain ⟨a, s', -, h⟩ := run_bind_eq_ok.mp h
  exact hf a s' b t h

theorem ite {Q : α → σ → Prop} {p : Prop} [Decidable p] {x y : EStateM ε σ α}
    (hx : p → Ends Q x) (hy : ¬ p → Ends Q y) : Ends Q (if p then x else y) := by
  by_cases h : p
  · rw [if_pos h]; exact hx h
  · rw [if_neg h]; exact hy h

/-- A computation on a part of the state. -/
theorem zoom {Q : α → τ → Prop} {Q' : α → σ → Prop} {part : σ → τ} {put : τ → σ → σ}
    {x : EStateM ε τ α} (hx : Ends Q x) (h : ∀ s a t, Q a t → Q' a (put t s)) :
    Ends Q' (Effect.zoom part put x) := by
  intro s a s' hs
  unfold Effect.zoom at hs
  rcases ht : x (part s) with ⟨b, t⟩ | ⟨e, t⟩ <;> rw [ht] at hs <;> cases hs
  exact h s _ t (hx _ _ _ ht)

end Ends

/-! ## The same computation on an image of the state -/

/-- An ending, with the state and the value seen through maps. -/
def mapEnd (f : σ → τ) (g : α → β) : EStateM.Result ε σ α → EStateM.Result ε τ β
  | .ok a s => .ok (g a) (f s)
  | .error e s => .error e (f s)

/-- `y` does to the image of a state what `x` does to the state. -/
def Image (f : σ → τ) (g : α → β) (x : EStateM ε σ α) (y : EStateM ε τ β) : Prop :=
  ∀ s, y (f s) = mapEnd f g (x s)

namespace Image

variable {γ δ : Type u} {f : σ → τ} {g : α → β}

theorem pure (a : α) : Image f g (Pure.pure a : EStateM ε σ α) (Pure.pure (g a)) := fun _ => rfl

theorem throw (e : ε) : Image f g (MonadExcept.throw e : EStateM ε σ α)
    (MonadExcept.throw e : EStateM ε τ β) := fun _ => rfl

theorem lift (x : Except ε α) : Image f id (liftM x : EStateM ε σ α) (liftM x) := fun s => by
  cases x <;> rfl

theorem liftMap (h : α → β) (x : Except ε α) :
    Image f h (liftM x : EStateM ε σ α) (liftM (h <$> x)) := fun s => by
  cases x <;> rfl

theorem refl (x : EStateM ε σ α) : Image id id x x := fun s => by
  change x s = _
  cases x s <;> rfl

theorem get : Image f f (MonadState.get : EStateM ε σ σ) (MonadState.get : EStateM ε τ τ) :=
  fun _ => rfl

/-- A computation on a part of the state, and the same on the part of the image. -/
theorem zoom {ρ ρ' : Type u} {k : ρ → ρ'} {part : σ → ρ} {put : ρ → σ → σ} {part' : τ → ρ'}
    {put' : ρ' → τ → τ} {x : EStateM ε ρ α} {y : EStateM ε ρ' β} (hx : Image k g x y)
    (hpart : ∀ s, part' (f s) = k (part s)) (hput : ∀ t s, put' (k t) (f s) = f (put t s)) :
    Image f g (Effect.zoom part put x) (Effect.zoom part' put' y) := by
  intro s
  unfold Effect.zoom
  rw [hpart, hx (part s)]
  rcases x (part s) with ⟨a, t⟩ | ⟨e, t⟩
  · exact congrArg _ (hput t s)
  · exact congrArg _ (hput t s)

/-- A computation on a local variable, and the same on the image of the variable. -/
theorem liftLocal {ρ : Type u} {r : σ → ρ} {h : γ → δ} {x : EStateM ε γ α} {y : EStateM ε δ β}
    (hx : Image h g x y) (c : γ) :
    Image r (fun p => (g p.1, h p.2)) (liftM (onLocal x c) : EStateM ε σ (α × γ))
      (liftM (onLocal y (h c))) := fun s => by
  unfold onLocal
  rw [hx c]
  cases x c <;> rfl

theorem set (s : σ) : Image f id (MonadState.set s : EStateM ε σ PUnit)
    (MonadState.set (f s) : EStateM ε τ PUnit) := fun _ => rfl

theorem bind {h : γ → δ} {x : EStateM ε σ α} {y : EStateM ε τ β} {k : α → EStateM ε σ γ}
    {k' : β → EStateM ε τ δ} (hx : Image f g x y) (hk : ∀ a, Image f h (k a) (k' (g a))) :
    Image f h (x >>= k) (y >>= k') := by
  intro s
  rcases hs : x s with ⟨a, t⟩ | ⟨e, t⟩
  · rw [run_bind_ok hs, run_bind_ok ((hx s).trans (by rw [hs]; rfl))]
    exact hk a t
  · rw [run_bind_error hs, run_bind_error ((hx s).trans (by rw [hs]; rfl))]
    rfl

theorem ite {p : Prop} [Decidable p] {x x' : EStateM ε σ α} {y y' : EStateM ε τ β}
    (hx : p → Image f g x y) (hy : ¬ p → Image f g x' y') :
    Image f g (if p then x else x') (if p then y else y') := by
  by_cases h : p
  · rw [if_pos h, if_pos h]; exact hx h
  · rw [if_neg h, if_neg h]; exact hy h

/-- Where the computation on the image returns, so does the computation. -/
theorem exists_ok {x : EStateM ε σ α} {y : EStateM ε τ β} (h : Image f g x y) {s : σ} {b : β}
    {t : τ} (hy : y (f s) = .ok b t) : ∃ a s', x s = .ok a s' ∧ g a = b ∧ f s' = t := by
  rw [h s] at hy
  rcases hx : x s with ⟨a, s'⟩ | ⟨e, s'⟩ <;> rw [hx] at hy <;> cases hy
  exact ⟨a, s', rfl, rfl, rfl⟩

/-- The states they end in are images. -/
theorem finalState_eq {x : EStateM ε σ α} {y : EStateM ε τ β} (h : Image f g x y) (s : σ) :
    finalState (y (f s)) = f (finalState (x s)) := by
  rw [h s]
  cases x s <;> rfl

end Image

/-! ## Atomic computations -/

/-- A computation that throws leaves the state as it was. -/
def Atomic (x : EStateM ε σ α) : Prop := ∀ s e t, x s = .error e t → t = s

namespace Atomic

theorem throw (e : ε) : Atomic (throw e : EStateM ε σ α) := fun _ _ _ h => by cases h; rfl

theorem set (s : σ) : Atomic (set s : EStateM ε σ PUnit) := fun _ _ _ h => by cases h

/-- What reads only may come first. -/
theorem bind {x : EStateM ε σ α} {f : α → EStateM ε σ β} (hx : Within Eq x)
    (hf : ∀ a, Atomic (f a)) : Atomic (x >>= f) := by
  intro s e t h
  have hs := hx s
  rcases run_bind_eq_error.mp h with hx | ⟨a, s', hx, hy⟩
  · rw [hx] at hs
    exact hs.symm
  · rw [hx] at hs
    exact (hf a _ _ _ hy).trans hs.symm

/-- A pure fallible computation reads only. -/
theorem bind_lift {x : Except ε α} {f : α → EStateM ε σ β} (hf : ∀ a, Atomic (f a)) :
    Atomic (liftM x >>= f) := bind (Within.lift (fun _ => rfl) x) hf

theorem ite {p : Prop} [Decidable p] {x y : EStateM ε σ α} (hx : p → Atomic x)
    (hy : ¬ p → Atomic y) : Atomic (if p then x else y) := by
  by_cases h : p
  · rw [if_pos h]; exact hx h
  · rw [if_neg h]; exact hy h

end Atomic

end Effect
