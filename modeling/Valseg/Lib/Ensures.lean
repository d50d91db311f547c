import Valseg.Lib.Effect

/-!
# What a computation ensures

`Ensures F x s P` says that `x`, started in `s`, returns a value and a state that satisfy `P`, or
throws, and then `F` holds. With `F` a condition on the input it is both results at once: what is
returned is right (`Ensures.apply`), and where `F` is false it returns (`Ensures.returns`). There
is one rule for each way to put computations together, and one for two computations of which the
language does not say which comes first.
-/

namespace Effect

universe u

variable {ε σ α β γ : Type u} {F G : Prop}

/-- From `s` the computation returns what satisfies `P`, or it throws and `F` holds. -/
def Ensures (F : Prop) (x : EStateM ε σ α) (s : σ) (P : α → σ → Prop) : Prop :=
  match x s with
  | .ok a t => P a t
  | .error _ _ => F

/-- Two computations in the order that was chosen. -/
def inOrder (leftFirst : Bool) (x : EStateM ε σ α) (y : EStateM ε σ β) :
    EStateM ε σ (α × β) :=
  if leftFirst then do
    let a ← x
    let b ← y
    return (a, b)
  else do
    let b ← y
    let a ← x
    return (a, b)

/-- Where both leave the state as it is, the order does not matter. -/
theorem inOrder_run (leftFirst : Bool) {x : EStateM ε σ α} {y : EStateM ε σ β} {s : σ} {a : α}
    {b : β} (hx : x s = .ok a s) (hy : y s = .ok b s) : inOrder leftFirst x y s = .ok (a, b) s := by
  unfold inOrder
  cases leftFirst with
  | true =>
    rw [if_pos rfl, run_bind_ok hx, run_bind_ok hy]
    rfl
  | false =>
    rw [if_neg Bool.false_ne_true, run_bind_ok hy, run_bind_ok hx]
    rfl

namespace Ensures

variable {s t : σ} {a : α} {e : ε} {P Q : α → σ → Prop} {x : EStateM ε σ α}

theorem of_ok (h : x s = .ok a t) (hP : P a t) : Ensures F x s P := by
  unfold Ensures
  rw [h]
  exact hP

theorem of_error (h : x s = .error e t) (hF : F) : Ensures F x s P := by
  unfold Ensures
  rw [h]
  exact hF

/-- What is returned is right. -/
theorem apply (h : Ensures F x s P) (hx : x s = .ok a t) : P a t := by
  unfold Ensures at h
  rwa [hx] at h

/-- Where the condition does not hold, it returns. -/
theorem returns (h : Ensures F x s P) (hF : ¬ F) : ∃ a t, x s = .ok a t ∧ P a t := by
  unfold Ensures at h
  rcases hx : x s with ⟨a, t⟩ | ⟨e, t⟩
  · exact ⟨a, t, rfl, by rwa [hx] at h⟩
  · rw [hx] at h
    exact absurd h hF

theorem mono (h : Ensures F x s P) (hPQ : ∀ a t, P a t → Q a t) : Ensures F x s Q := by
  unfold Ensures at *
  rcases hx : x s with ⟨a, t⟩ | ⟨e, t⟩ <;> rw [hx] at h
  · exact hPQ a t h
  · exact h

theorem weaken (h : Ensures F x s P) (hFG : F → G) : Ensures G x s P := by
  unfold Ensures at *
  rcases hx : x s with ⟨a, t⟩ | ⟨e, t⟩ <;> rw [hx] at h
  · exact h
  · exact hFG h

theorem pure (h : P a s) : Ensures F (pure a : EStateM ε σ α) s P := h

theorem bind {R : β → σ → Prop} {f : α → EStateM ε σ β} (hx : Ensures F x s P)
    (hf : ∀ a t, P a t → Ensures F (f a) t R) : Ensures F (x >>= f) s R := by
  unfold Ensures at hx
  rcases hs : x s with ⟨a, t⟩ | ⟨e, t⟩ <;> rw [hs] at hx
  · have h := hf a t hx
    unfold Ensures at *
    rwa [run_bind_ok hs]
  · exact of_error (run_bind_error hs) hx

/-- A step that is known to return. -/
theorem bind_ok {R : β → σ → Prop} {f : α → EStateM ε σ β} (hx : x s = .ok a t)
    (hf : Ensures F (f a) t R) : Ensures F (x >>= f) s R :=
  bind (P := fun b u => b = a ∧ u = t) (of_ok hx ⟨rfl, rfl⟩) fun b u h => by
    rw [h.1, h.2]
    exact hf

/-- A pure computation that is known to return. -/
theorem lift_ok {R : β → σ → Prop} {z : Except ε α} {f : α → EStateM ε σ β} (hz : z = .ok a)
    (hf : Ensures F (f a) s R) : Ensures F (liftM z >>= f) s R := by
  rw [hz]
  exact bind_ok (liftM_ok a s) hf

/-- A pure computation that returns unless `F` holds. -/
theorem lift {R : β → σ → Prop} {z : Except ε α} {f : α → EStateM ε σ β}
    (hz : (∃ e, z = .error e) → F) (hf : ∀ a, z = .ok a → Ensures F (f a) s R) :
    Ensures F (liftM z >>= f) s R := by
  rcases h : z with e | a
  · exact of_error (run_bind_error (liftM_error e s)) (hz ⟨e, h⟩)
  · exact bind_ok (liftM_ok a s) (hf a h)

theorem ite {p : Prop} [Decidable p] {y : EStateM ε σ α} (hx : p → Ensures F x s P)
    (hy : ¬ p → Ensures F y s P) : Ensures F (if p then x else y) s P := by
  by_cases h : p
  · rw [if_pos h]
    exact hx h
  · rw [if_neg h]
    exact hy h

/-- **Either order.** `I` holds at the start and between the two computations, whichever comes
first; the states move along `R`, which what is known of a value survives. -/
theorem inOrder {leftFirst : Bool} {y : EStateM ε σ β} {I : σ → Prop} {R : σ → σ → Prop}
    {A : α → σ → Prop} {B : β → σ → Prop} (hs : I s)
    (hx : ∀ u, I u → Ensures F x u fun a t => A a t ∧ R u t ∧ I t)
    (hy : ∀ u, I u → Ensures F y u fun b t => B b t ∧ R u t ∧ I t)
    (hA : ∀ a u t, A a u → R u t → A a t) (hB : ∀ b u t, B b u → R u t → B b t)
    (hR : ∀ u v t, R u v → R v t → R u t) :
    Ensures F (inOrder leftFirst x y) s fun p t => A p.1 t ∧ B p.2 t ∧ R s t ∧ I t := by
  unfold Effect.inOrder
  cases leftFirst with
  | true =>
    refine bind (hx s hs) fun a u hu => bind (hy u hu.2.2) fun b t ht => pure ?_
    exact ⟨hA a u t hu.1 ht.2.1, ht.1, hR s u t hu.2.1 ht.2.1, ht.2.2⟩
  | false =>
    refine bind (hy s hs) fun b u hu => bind (hx u hu.2.2) fun a t ht => pure ?_
    exact ⟨ht.1, hB b u t hu.1 ht.2.1, hR s u t hu.2.1 ht.2.1, ht.2.2⟩

end Ensures

end Effect
