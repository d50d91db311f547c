/-!
# Loops

A loop runs its body until that returns. It is given fuel, and stuck without; `EndsIn k` says that
fuel for `k` rounds is enough and that more makes no difference, so a loop that ends in any number
of rounds terminates.
-/

namespace Loop

variable {σ ε α : Type}

/-- The body goes on with a new state or returns. -/
def run (stuck : ε) (body : σ → Except ε (σ ⊕ α)) : (fuel : Nat) → σ → Except ε α
  | 0, _ => .error stuck
  | fuel + 1, s =>
    match body s with
    | .error e => .error e
    | .ok (.inr a) => .ok a
    | .ok (.inl s) => run stuck body fuel s

/-- The loop ends after at most `k` rounds, with `x`. -/
def EndsIn (stuck : ε) (body : σ → Except ε (σ ⊕ α)) (k : Nat) (s : σ) (x : Except ε α) : Prop :=
  ∀ fuel, k ≤ fuel → run stuck body fuel s = x

namespace EndsIn

variable {stuck : ε} {body : σ → Except ε (σ ⊕ α)} {j k : Nat} {s t : σ} {x : Except ε α}

theorem mono (h : EndsIn stuck body j s x) (hle : j ≤ k) : EndsIn stuck body k s x :=
  fun fuel hf => h fuel (Nat.le_trans hle hf)

theorem ret {a : α} (h : body s = .ok (.inr a)) : EndsIn stuck body 1 s (.ok a) := by
  intro fuel hf
  obtain ⟨fuel, rfl⟩ := Nat.exists_eq_add_of_le' hf
  rw [run, h]

theorem throw {e : ε} (h : body s = .error e) : EndsIn stuck body 1 s (.error e) := by
  intro fuel hf
  obtain ⟨fuel, rfl⟩ := Nat.exists_eq_add_of_le' hf
  rw [run, h]

theorem next (h : body s = .ok (.inl t)) (ht : EndsIn stuck body k t x) :
    EndsIn stuck body (k + 1) s x := by
  intro fuel hf
  obtain ⟨fuel, rfl⟩ := Nat.exists_eq_add_of_le' (Nat.le_trans (Nat.le_add_left 1 k) hf)
  rw [run, h]
  exact ht fuel (Nat.le_of_succ_le_succ hf)

end EndsIn

end Loop
