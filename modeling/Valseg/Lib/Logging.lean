import Valseg.Lib.Throwing
import Mathlib.Data.List.Perm.Basic

/-!
# Computations with a log

A computation on a state with a log next to it. The log has what the computation does on its way
and never decides anything: `Erases x y` says that `x` is `y` once its log is left out. `Logs` is
what is known of the entries that a computation adds, where it returns and where it throws;
`Confined` is the case of one property of every entry, with an invariant of the state and with
what may be thrown, and `Covers` the case of a list that some of the entries make up.
-/

namespace Effect

universe u

variable {ε σ ω α β : Type u}

/-- A state with a log. -/
structure Logged (σ ω : Type u) where
  state : σ
  log : List ω

/-- A computation on a state with a log. -/
abbrev LoggedM (ε σ ω : Type u) := EStateM ε (Logged σ ω)

/-- One more entry. -/
def note (w : ω) : LoggedM ε σ ω PUnit := modify fun s => { s with log := s.log ++ [w] }

/-- A computation on the state, which adds nothing to the log. -/
def quietly (x : EStateM ε σ α) : LoggedM ε σ ω α :=
  zoom Logged.state (fun t s => { s with state := t }) x

theorem note_run (w : ω) (s : Logged σ ω) :
    (note w : LoggedM ε σ ω PUnit) s = .ok ⟨⟩ { s with log := s.log ++ [w] } := rfl

theorem quietly_ok {x : EStateM ε σ α} {s : Logged σ ω} {a : α} {t : σ}
    (h : x s.state = .ok a t) : (quietly x : LoggedM ε σ ω α) s = .ok a { s with state := t } :=
  zoom_ok h

theorem quietly_error {x : EStateM ε σ α} {s : Logged σ ω} {e : ε} {t : σ}
    (h : x s.state = .error e t) :
    (quietly x : LoggedM ε σ ω α) s = .error e { s with state := t } := zoom_error h

/-! ## Without the log -/

/-- Without its log the computation is `y`. -/
def Erases (x : LoggedM ε σ ω α) (y : EStateM ε σ α) : Prop := Image Logged.state id x y

namespace Erases

variable {x x' : LoggedM ε σ ω α} {y y' : EStateM ε σ α}

theorem pure (a : α) : Erases (Pure.pure a : LoggedM ε σ ω α) (Pure.pure a) := fun _ => rfl

theorem throw (e : ε) : Erases (MonadExcept.throw e : LoggedM ε σ ω α) (MonadExcept.throw e) :=
  fun _ => rfl

theorem lift (z : Except ε α) : Erases (liftM z : LoggedM ε σ ω α) (liftM z) := Image.lift z

theorem quietly (y : EStateM ε σ α) : Erases (quietly y : LoggedM ε σ ω α) y := by
  intro s
  unfold Effect.quietly zoom
  rcases y s.state with ⟨a, t⟩ | ⟨e, t⟩ <;> rfl

theorem bind {f : α → LoggedM ε σ ω β} {g : α → EStateM ε σ β} (hx : Erases x y)
    (hf : ∀ a, Erases (f a) (g a)) : Erases (x >>= f) (y >>= g) := Image.bind hx hf

/-- An entry leaves no trace. -/
theorem note_bind {w : ω} {f : PUnit → LoggedM ε σ ω α} (hf : Erases (f ⟨⟩) y) :
    Erases (note w >>= f) y := by
  intro s
  rw [run_bind_ok (note_run w s)]
  exact hf { s with log := s.log ++ [w] }

theorem ite {p : Prop} [Decidable p] (hx : p → Erases x y) (hx' : ¬ p → Erases x' y') :
    Erases (if p then x else x') (if p then y else y') := Image.ite hx hx'

theorem onThrow {h : LoggedM ε σ ω PUnit} {k : EStateM ε σ PUnit} (hx : Erases x y)
    (hh : Erases h k) : Erases (onThrow x h) (onThrow y k) := by
  intro s
  rcases hs : x s with ⟨a, t⟩ | ⟨e, t⟩
  · rw [onThrow_ok hs, onThrow_ok ((hx s).trans (by rw [hs]; rfl))]
    rfl
  · rw [onThrow_error hs, onThrow_error ((hx s).trans (by rw [hs]; rfl)), hh.finalState_eq t]
    rfl

/-! The rules for what only reads. -/

theorem lift_bind {z : Except ε α} {f : α → LoggedM ε σ ω β} {g : α → Except ε β}
    (hx : Erases x (liftM z)) (hf : ∀ a, Erases (f a) (liftM (g a))) :
    Erases (x >>= f) (liftM (z >>= g)) := by
  rw [liftM_bind]
  exact hx.bind hf

theorem lift_ite {p : Prop} [Decidable p] {z z' : Except ε α} (hx : p → Erases x (liftM z))
    (hx' : ¬ p → Erases x' (liftM z')) :
    Erases (if p then x else x') (liftM (if p then z else z')) := by
  by_cases h : p
  · rw [if_pos h, if_pos h]; exact hx h
  · rw [if_neg h, if_neg h]; exact hx' h

end Erases

/-! ## What is logged -/

/-- From a state with the invariant: where the computation returns, the invariant holds again and
the entries it added satisfy `R`; what it throws satisfies `Q`, and then the entries satisfy `E`. -/
def Logs (I : σ → Prop) (Q : ε → Prop) (R E : List ω → Prop) (x : LoggedM ε σ ω α) : Prop :=
  ∀ s, I s.state → (∃ a t more, x s = .ok a ⟨t, s.log ++ more⟩ ∧ I t ∧ R more) ∨
    ∃ e t more, x s = .error e ⟨t, s.log ++ more⟩ ∧ Q e ∧ E more

namespace Logs

variable {I : σ → Prop} {Q : ε → Prop} {R R' R'' E E' E'' : List ω → Prop}
  {x x' : LoggedM ε σ ω α}

theorem pure (a : α) (h : R []) : Logs I Q R E (Pure.pure a : LoggedM ε σ ω α) :=
  fun s hs => .inl ⟨a, s.state, [], by rw [List.append_nil]; rfl, hs, h⟩

theorem lift {z : Except ε α} (hz : ThrowsOnly Q z) (h : R []) (h' : E []) :
    Logs I Q R E (liftM z : LoggedM ε σ ω α) := by
  intro s hs
  cases z with
  | ok a => exact .inl ⟨a, s.state, [], by rw [List.append_nil]; rfl, hs, h⟩
  | error e => exact .inr ⟨e, s.state, [], by rw [List.append_nil]; rfl, hz e rfl, h'⟩

theorem note (w : ω) (h : R [w]) : Logs I Q R E (note w : LoggedM ε σ ω PUnit) :=
  fun s hs => .inl ⟨⟨⟩, s.state, [w], rfl, hs, h⟩

theorem quietly {y : EStateM ε σ α} (hy : Maintains I Q y) (h : R []) (h' : E []) :
    Logs I Q R E (quietly y : LoggedM ε σ ω α) := by
  intro s hs
  rcases hy s.state hs with ⟨a, t, hy, ht⟩ | ⟨e, t, hy, he⟩
  · exact .inl ⟨a, t, [], by rw [List.append_nil, quietly_ok hy], ht, h⟩
  · exact .inr ⟨e, t, [], by rw [List.append_nil, quietly_error hy], he, h'⟩

theorem bind {f : α → LoggedM ε σ ω β} (hx : Logs I Q R E x) (hf : ∀ a, Logs I Q R' E' (f a))
    (hreturns : ∀ m m', R m → R' m' → R'' (m ++ m')) (hfirst : ∀ m, E m → E'' m)
    (hsecond : ∀ m m', R m → E' m' → E'' (m ++ m')) : Logs I Q R'' E'' (x >>= f) := by
  intro s hs
  rcases hx s hs with ⟨a, t, m, h, ht, hm⟩ | ⟨e, t, m, h, he, hm⟩
  · rw [run_bind_ok h]
    rcases hf a ⟨t, s.log ++ m⟩ ht with ⟨b, t', m', h', ht', hm'⟩ | ⟨e, t', m', h', he, hm'⟩
    · exact .inl ⟨b, t', m ++ m', by rw [h', List.append_assoc], ht', hreturns m m' hm hm'⟩
    · exact .inr ⟨e, t', m ++ m', by rw [h', List.append_assoc], he, hsecond m m' hm hm'⟩
  · exact .inr ⟨e, t, m, run_bind_error h, he, hfirst m hm⟩

theorem ite {p : Prop} [Decidable p] (hx : p → Logs I Q R E x) (hx' : ¬ p → Logs I Q R E x') :
    Logs I Q R E (if p then x else x') := by
  by_cases h : p
  · rw [if_pos h]; exact hx h
  · rw [if_neg h]; exact hx' h

theorem mono (hx : Logs I Q R E x) (hR : ∀ m, R m → R' m) (hE : ∀ m, E m → E' m) :
    Logs I Q R' E' x := by
  intro s hs
  rcases hx s hs with ⟨a, t, m, h, ht, hm⟩ | ⟨e, t, m, h, he, hm⟩
  · exact .inl ⟨a, t, m, h, ht, hR m hm⟩
  · exact .inr ⟨e, t, m, h, he, hE m hm⟩

end Logs

/-- From a state with the invariant, however the computation ends, every entry it adds satisfies
`P`; where it returns the invariant holds again, and what it throws satisfies `Q`. -/
def Confined (I : σ → Prop) (Q : ε → Prop) (P : ω → Prop) (x : LoggedM ε σ ω α) : Prop :=
  Logs I Q (∀ w ∈ ·, P w) (∀ w ∈ ·, P w) x

namespace Confined

variable {I : σ → Prop} {Q : ε → Prop} {P P' : ω → Prop} {x x' : LoggedM ε σ ω α}

theorem pure (a : α) : Confined I Q P (Pure.pure a : LoggedM ε σ ω α) :=
  Logs.pure a fun _ h => nomatch h

theorem lift {z : Except ε α} (hz : ThrowsOnly Q z) :
    Confined I Q P (liftM z : LoggedM ε σ ω α) :=
  Logs.lift hz (fun _ h => nomatch h) fun _ h => nomatch h

theorem note {w : ω} (hw : P w) : Confined I Q P (note w : LoggedM ε σ ω PUnit) :=
  Logs.note w fun v hv => by rwa [List.mem_singleton.mp hv]

theorem quietly {y : EStateM ε σ α} (hy : Maintains I Q y) :
    Confined I Q P (quietly y : LoggedM ε σ ω α) :=
  Logs.quietly hy (fun _ h => nomatch h) fun _ h => nomatch h

theorem bind {f : α → LoggedM ε σ ω β} (hx : Confined I Q P x) (hf : ∀ a, Confined I Q P (f a)) :
    Confined I Q P (x >>= f) := by
  have both : ∀ m m' : List ω, (∀ w ∈ m, P w) → (∀ w ∈ m', P w) → ∀ w ∈ m ++ m', P w :=
    fun m m' hm hm' w hw => (List.mem_append.mp hw).elim (hm w) (hm' w)
  exact Logs.bind hx hf both (fun _ hm => hm) both

/-- A pure fallible computation before the rest, which may use what it returned. -/
theorem lift_bind {z : Except ε α} {f : α → LoggedM ε σ ω β} (hz : ThrowsOnly Q z)
    (hf : ∀ a, z = .ok a → Confined I Q P (f a)) : Confined I Q P (liftM z >>= f) := by
  intro s hs
  cases z with
  | ok a => exact hf a rfl s hs
  | error e =>
    exact .inr ⟨e, s.state, [], by rw [List.append_nil]; rfl, hz e rfl, fun _ h => nomatch h⟩

theorem ite {p : Prop} [Decidable p] (hx : p → Confined I Q P x)
    (hx' : ¬ p → Confined I Q P x') : Confined I Q P (if p then x else x') := Logs.ite hx hx'

theorem mono (hx : Confined I Q P x) (h : ∀ w, P w → P' w) : Confined I Q P' x :=
  Logs.mono hx (fun _ hm w hw => h w (hm w hw)) fun _ hm w hw => h w (hm w hw)

/-- The computation without the log maintains the invariant. -/
theorem maintains {y : EStateM ε σ α} (hx : Confined I Q P x) (he : Erases x y) :
    Maintains I Q y := by
  intro s hs
  have hy : y s = mapEnd Logged.state id (x ⟨s, []⟩) := he ⟨s, []⟩
  rcases hx ⟨s, []⟩ hs with ⟨a, t, m, h, ht, -⟩ | ⟨e, t, m, h, hq, -⟩ <;> rw [h] at hy
  · exact .inl ⟨a, t, hy, ht⟩
  · exact .inr ⟨e, t, hy, hq⟩

end Confined

/-- The entries that are picked make up the list where the computation returns, in some order,
and a part of it where it throws. -/
def Covers {κ : Type*} (pick : ω → Option κ) (l : List κ) (x : LoggedM ε σ ω α) : Prop :=
  Logs (fun _ => True) (fun _ => True) (fun m => (m.filterMap pick).Perm l)
    (fun m => (m.filterMap pick).Subperm l) x

namespace Covers

variable {κ : Type*} {pick : ω → Option κ} {l l' : List κ} {x : LoggedM ε σ ω α}

theorem note (w : ω) : Covers pick (pick w).toList (note w : LoggedM ε σ ω PUnit) := by
  refine Logs.note w ?_
  rcases h : pick w with _ | k <;> simp [h]

theorem quietly (y : EStateM ε σ α) : Covers pick [] (quietly y : LoggedM ε σ ω α) :=
  Logs.quietly (.trivial y) (.refl _) (.refl _)

theorem bind {f : α → LoggedM ε σ ω β} (hx : Covers pick l x) (hf : ∀ a, Covers pick l' (f a)) :
    Covers pick (l ++ l') (x >>= f) := by
  refine Logs.bind hx hf (fun m m' hm hm' => ?_) (fun m hm => ?_) fun m m' hm hm' => ?_
  · rw [List.filterMap_append]
    exact hm.append hm'
  · exact hm.trans (List.sublist_append_left l l').subperm
  · rw [List.filterMap_append]
    exact ((List.subperm_append_left _).mpr hm').trans (hm.append_right l').subperm

/-- What adds no entry that is picked may come first. -/
theorem silent_bind {f : α → LoggedM ε σ ω β} (hx : Covers pick [] x)
    (hf : ∀ a, Covers pick l (f a)) : Covers pick l (x >>= f) := bind hx hf

theorem lift_bind {z : Except ε α} {f : α → LoggedM ε σ ω β}
    (hf : ∀ a, z = .ok a → Covers pick l (f a)) : Covers pick l (liftM z >>= f) := by
  intro s hs
  cases z with
  | ok a => exact hf a rfl s hs
  | error e =>
    exact .inr ⟨e, s.state, [], by rw [List.append_nil]; rfl, trivial, List.nil_subperm⟩

theorem perm (hx : Covers pick l x) (h : l.Perm l') : Covers pick l' x :=
  Logs.mono hx (fun _ hm => hm.trans h) fun _ hm => hm.trans h.subperm

end Covers

end Effect
