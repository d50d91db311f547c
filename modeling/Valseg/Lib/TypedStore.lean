import Mathlib.Data.List.Basic
import Mathlib.Logic.Function.Basic

/-!
# Typed stores

A store is a list of records with pointers to each other, which are indices of the list. Records
are appended and overwritten. A `Typing` says of some of the addresses, for good, what the record
there stands for, whatever is written to it; `Fits Γ t x` says that the record `x` stands for `t`,
given what the typing says of the addresses it points to. `Typed` says so of the whole store.

An address that the typing says nothing of is free to hold anything: a record that is still being
put together is given a type when it fits one (`Typed.declare`).
-/

namespace TypedStore

variable {α τ : Type*}

/-- What is known of the addresses. -/
abbrev Typing (τ : Type*) := ℕ → Option τ

/-- The later typing knows what the earlier one does. -/
def Extends (Γ Δ : Typing τ) : Prop := ∀ a t, Γ a = some t → Δ a = some t

/-- What fits keeps fitting when more becomes known. -/
def Monotone (Fits : Typing τ → τ → α → Prop) : Prop :=
  ∀ Γ Δ t x, Extends Γ Δ → Fits Γ t x → Fits Δ t x

/-- The record at every typed address fits its type. -/
def Typed (Fits : Typing τ → τ → α → Prop) (Γ : Typing τ) (store : List α) : Prop :=
  ∀ a t, Γ a = some t → ∃ x, store[a]? = some x ∧ Fits Γ t x

variable {Fits Fits' : Typing τ → τ → α → Prop} {Γ Δ Λ : Typing τ} {store : List α} {a b : ℕ}
  {t : τ} {x y : α}

namespace Extends

theorem refl (Γ : Typing τ) : Extends Γ Γ := fun _ _ h => h

theorem trans (h1 : Extends Γ Δ) (h2 : Extends Δ Λ) : Extends Γ Λ :=
  fun a t h => h2 a t (h1 a t h)

/-- One more address. -/
theorem update (h : Γ a = none) (t : τ) : Extends Γ (Function.update Γ a (some t)) := by
  intro b u hb
  have hne : b ≠ a := by
    rintro rfl
    rw [h] at hb
    cases hb
  rw [Function.update_of_ne hne]
  exact hb

end Extends

/-- What is known after one more address. -/
theorem update_eq_some {u : τ} (h : Function.update Γ a (some t) b = some u) :
    (b = a ∧ u = t) ∨ (b ≠ a ∧ Γ b = some u) := by
  by_cases hb : b = a
  · subst hb
    rw [Function.update_self] at h
    cases h
    exact .inl ⟨rfl, rfl⟩
  · rw [Function.update_of_ne hb] at h
    exact .inr ⟨hb, h⟩

namespace Typed

theorem lt (h : Typed Fits Γ store) (ha : Γ a = some t) : a < store.length := by
  obtain ⟨x, hx, -⟩ := h a t ha
  exact (List.getElem?_eq_some_iff.mp hx).1

/-- Nothing is known of the address a record is appended at. -/
theorem fresh (h : Typed Fits Γ store) : Γ store.length = none := by
  rcases hg : Γ store.length with _ | t
  · rfl
  · exact absurd (h.lt hg) (Nat.lt_irrefl _)

/-- The record that is read fits. -/
theorem read (h : Typed Fits Γ store) (ha : Γ a = some t) (hx : store[a]? = some x) :
    Fits Γ t x := by
  obtain ⟨y, hy, hf⟩ := h a t ha
  cases hx.symm.trans hy
  exact hf

/-- A record is appended. -/
theorem push (h : Typed Fits Γ store) (x : α) : Typed Fits Γ (store ++ [x]) := by
  intro a t ha
  obtain ⟨y, hy, hf⟩ := h a t ha
  exact ⟨y, by rwa [List.getElem?_append_left (h.lt ha)], hf⟩

/-- An address of which nothing is known is overwritten. -/
theorem write_free (h : Typed Fits Γ store) (ha : Γ a = none) (x : α) :
    Typed Fits Γ (store.set a x) := by
  intro b t hb
  obtain ⟨y, hy, hf⟩ := h b t hb
  have hne : a ≠ b := by
    rintro rfl
    rw [ha] at hb
    cases hb
  exact ⟨y, by rwa [List.getElem?_set_ne hne], hf⟩

/-- A record is overwritten with one that stands for the same. -/
theorem write (h : Typed Fits Γ store) (ha : Γ a = some t) (hx : Fits Γ t x) :
    Typed Fits Γ (store.set a x) := by
  intro b u hb
  by_cases hab : a = b
  · subst hab
    cases ha.symm.trans hb
    exact ⟨x, List.getElem?_set_self (h.lt ha), hx⟩
  · obtain ⟨y, hy, hf⟩ := h b u hb
    exact ⟨y, by rwa [List.getElem?_set_ne hab], hf⟩

/-- An address is given the type its record fits. -/
theorem declare (hF : Monotone Fits) (h : Typed Fits Γ store) (ha : Γ a = none)
    (hx : store[a]? = some x) (hf : Fits Γ t x) :
    Typed Fits (Function.update Γ a (some t)) store := by
  have hext := Extends.update ha t
  intro b u hb
  rcases update_eq_some hb with ⟨rfl, rfl⟩ | ⟨-, hb⟩
  · exact ⟨x, hx, hF _ _ _ _ hext hf⟩
  · obtain ⟨y, hy, hfy⟩ := h b u hb
    exact ⟨y, hy, hF _ _ _ _ hext hfy⟩

/-- The types come to mean more. -/
theorem mono (h : Typed Fits Γ store)
    (hfits : ∀ a t x, Γ a = some t → Fits Γ t x → Fits' Γ t x) : Typed Fits' Γ store := by
  intro a t ha
  obtain ⟨x, hx, hf⟩ := h a t ha
  exact ⟨x, hx, hfits a t x ha hf⟩

end Typed

end TypedStore
