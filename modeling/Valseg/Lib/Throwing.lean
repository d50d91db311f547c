import Valseg.Lib.Effect

/-!
# What a computation throws

`ThrowsOnly Q x` says that whatever `x` throws satisfies `Q`; `Maintains I Q x` says so of a
computation with a state that starts with the invariant `I`, which holds again where it returns.
There is one rule for each way to put computations together, and one for a loop over a list.
`Yields P x` says that `x` throws nothing and returns what satisfies `P`.
-/

namespace Effect

universe u

variable {ε σ α β : Type u} {I : σ → Prop} {Q : ε → Prop} {p : Prop} [Decidable p]

/-- Whatever the computation throws satisfies `Q`. -/
def ThrowsOnly (Q : ε → Prop) (x : Except ε α) : Prop := ∀ e, x = .error e → Q e

namespace ThrowsOnly

variable {x y : Except ε α}

theorem ok (a : α) : ThrowsOnly Q (.ok a : Except ε α) := fun _ h => nomatch h

theorem bind {f : α → Except ε β} (hx : ThrowsOnly Q x)
    (hf : ∀ a, x = .ok a → ThrowsOnly Q (f a)) : ThrowsOnly Q (x >>= f) := by
  intro e he
  rcases bind_eq_error.mp he with he | ⟨a, ha, he⟩
  · exact hx e he
  · exact hf a ha e he

theorem ite (hx : p → ThrowsOnly Q x) (hy : ¬ p → ThrowsOnly Q y) :
    ThrowsOnly Q (if p then x else y) := by
  by_cases h : p
  · rw [if_pos h]
    exact hx h
  · rw [if_neg h]
    exact hy h

/-- The rule for a loop: the invariant is about the variables and what is still to come. -/
theorem foldlM {J : β → List α → Prop} {f : β → α → Except ε β}
    (hthrows : ∀ b a xs, J b (a :: xs) → ThrowsOnly Q (f b a))
    (hstep : ∀ b a xs b', J b (a :: xs) → f b a = .ok b' → J b' xs) :
    ∀ xs b, J b xs → ThrowsOnly Q (xs.foldlM f b) := by
  intro xs
  induction xs with
  | nil =>
    intro b _
    exact ok b
  | cons a xs ih =>
    intro b hb
    rw [List.foldlM_cons]
    exact bind (hthrows b a xs hb) fun b' hb' => ih b' (hstep b a xs b' hb hb')

end ThrowsOnly

/-- From a state with the invariant the computation returns in one, or throws what satisfies
`Q`. -/
def Maintains (I : σ → Prop) (Q : ε → Prop) (x : EStateM ε σ α) : Prop :=
  ∀ s, I s → (∃ a t, x s = .ok a t ∧ I t) ∨ ∃ e t, x s = .error e t ∧ Q e

namespace Maintains

theorem pure (a : α) : Maintains I Q (pure a : EStateM ε σ α) := fun s hs => .inl ⟨a, s, rfl, hs⟩

theorem lift {x : Except ε α} (hx : ThrowsOnly Q x) : Maintains I Q (liftM x : EStateM ε σ α) := by
  intro s hs
  cases x with
  | ok a => exact .inl ⟨a, s, rfl, hs⟩
  | error e => exact .inr ⟨e, s, rfl, hx e rfl⟩

theorem bind {x : EStateM ε σ α} {f : α → EStateM ε σ β} (hx : Maintains I Q x)
    (hf : ∀ a, Maintains I Q (f a)) : Maintains I Q (x >>= f) := by
  intro s hs
  rcases hx s hs with ⟨a, t, h, ht⟩ | ⟨e, t, h, he⟩
  · rw [run_bind_ok h]
    exact hf a t ht
  · exact .inr ⟨e, t, run_bind_error h, he⟩

theorem ite {x y : EStateM ε σ α} (hx : p → Maintains I Q x) (hy : ¬ p → Maintains I Q y) :
    Maintains I Q (if p then x else y) := by
  by_cases h : p
  · rw [if_pos h]
    exact hx h
  · rw [if_neg h]
    exact hy h

/-- The rule for a loop that has no variables. -/
theorem forM {γ : Type*} {f : γ → EStateM ε σ PUnit} {l : List γ}
    (hf : ∀ c ∈ l, Maintains I Q (f c)) : Maintains I Q (l.forM f) := by
  induction l with
  | nil => exact pure _
  | cons c l ih =>
    exact bind (hf c List.mem_cons_self) fun _ => ih fun d hd => hf d (List.mem_cons_of_mem _ hd)

/-- A computation on a part of the state. -/
theorem zoom {τ : Type u} {J : τ → Prop} {part : σ → τ} {put : τ → σ → σ} {x : EStateM ε τ α}
    (hx : Maintains J Q x) (hpart : ∀ s, I s → J (part s))
    (hput : ∀ s t, I s → J t → I (put t s)) : Maintains I Q (Effect.zoom part put x) := by
  intro s hs
  rcases hx (part s) (hpart s hs) with ⟨a, t, h, ht⟩ | ⟨e, t, h, he⟩
  · exact .inl ⟨a, put t s, zoom_ok h, hput s t hs ht⟩
  · exact .inr ⟨e, put t s, zoom_error h, he⟩

/-- Where the value is known before, it may be used. -/
theorem lift_bind {z : Except ε α} {f : α → EStateM ε σ β} (hz : ThrowsOnly Q z)
    (hf : ∀ a, z = .ok a → Maintains I Q (f a)) : Maintains I Q (liftM z >>= f) := by
  cases z with
  | ok a => exact hf a rfl
  | error e => exact fun s _ => .inr ⟨e, s, rfl, hz e rfl⟩

theorem trivial (x : EStateM ε σ α) : Maintains (fun _ => True) (fun _ => True) x := by
  intro s _
  rcases x s with ⟨a, t⟩ | ⟨e, t⟩
  · exact .inl ⟨a, t, rfl, True.intro⟩
  · exact .inr ⟨e, t, rfl, True.intro⟩

end Maintains

/-- From every state the computation returns, and the value satisfies `P`. -/
def Yields (P : α → Prop) (x : EStateM ε σ α) : Prop := ∀ s, ∃ a t, x s = .ok a t ∧ P a

namespace Yields

variable {P P' : α → Prop} {x y : EStateM ε σ α}

theorem pure {a : α} (h : P a) : Yields P (pure a : EStateM ε σ α) := fun s => ⟨a, s, rfl, h⟩

theorem lift {z : Except ε α} {a : α} (hz : z = .ok a) (h : P a) :
    Yields P (liftM z : EStateM ε σ α) := by
  intro s
  rw [hz]
  exact ⟨a, s, rfl, h⟩

theorem mono (hx : Yields P x) (h : ∀ a, P a → P' a) : Yields P' x := by
  intro s
  obtain ⟨a, t, hs, ha⟩ := hx s
  exact ⟨a, t, hs, h a ha⟩

theorem bind {R : β → Prop} {f : α → EStateM ε σ β} (hx : Yields P x)
    (hf : ∀ a, P a → Yields R (f a)) : Yields R (x >>= f) := by
  intro s
  obtain ⟨a, t, hs, ha⟩ := hx s
  rw [run_bind_ok hs]
  exact hf a ha t

/-- A pure fallible computation that returns may be left out. -/
theorem lift_bind {R : β → Prop} {z : Except ε α} {a : α} {f : α → EStateM ε σ β}
    (hz : z = .ok a) (hf : Yields R (f a)) : Yields R (liftM z >>= f) := by
  rw [hz]
  exact hf

theorem ite (hx : p → Yields P x) (hy : ¬ p → Yields P y) : Yields P (if p then x else y) := by
  by_cases h : p
  · rw [if_pos h]
    exact hx h
  · rw [if_neg h]
    exact hy h

end Yields

end Effect
