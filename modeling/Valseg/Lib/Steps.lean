import Valseg.Lib.Effect

/-!
# Steps

Nested loops do one thing after another, at points that can be listed beforehand. `Through` says
that a run that returns is a chain of steps at such points (`Steps`), and one that throws a chain at
the first of them, with a rule for each form of a program; what holds of a chain is an induction
over its points.
-/

namespace Effect

universe u v

variable {ε σ α β : Type u} {π : Type v}

/-! ## Chains -/

/-- One step at each point, in order. -/
inductive Steps (S : π → σ → σ → Prop) : List π → σ → σ → Prop
  | nil (s : σ) : Steps S [] s s
  | cons {p : π} {ps : List π} {s t u : σ} (h : S p s t) (hs : Steps S ps t u) : Steps S (p :: ps) s u

namespace Steps

variable {S : π → σ → σ → Prop} {ps qs : List π} {s t u : σ}

theorem append (h : Steps S ps s t) (h' : Steps S qs t u) : Steps S (ps ++ qs) s u := by
  induction h with
  | nil s => exact h'
  | cons h hs ih => exact .cons h (ih h')

theorem one {p : π} (h : S p s t) : Steps S [p] s t := .cons h (.nil t)

/-- What every step keeps holds at the end. -/
theorem invariant {I : σ → Prop} (hI : ∀ p ∈ ps, ∀ s t, S p s t → I s → I t)
    (h : Steps S ps s t) (hs : I s) : I t := by
  induction h with
  | nil s => exact hs
  | cons h _ ih =>
    exact ih (fun p hp => hI p (List.mem_cons_of_mem _ hp)) (hI _ List.mem_cons_self _ _ h hs)

/-- What the step at a point brings about, and the others keep, holds of every point at the end. -/
theorem each {I : σ → Prop} {P : π → σ → Prop} (hI : ∀ p ∈ ps, ∀ s t, S p s t → I s → I t)
    (hP : ∀ p ∈ ps, ∀ s t, S p s t → I s → P p t)
    (hkeep : ∀ p q, q ∈ ps → ∀ s t, S q s t → I s → P p s → P p t)
    (h : Steps S ps s t) (hs : I s) : ∀ p ∈ ps, P p t := by
  induction h with
  | nil s => exact fun p hp => absurd hp List.not_mem_nil
  | @cons c cs s t u h hsteps ih =>
    have htail : ∀ q ∈ cs, q ∈ c :: cs := fun q hq => List.mem_cons_of_mem _ hq
    have hmid := hI c List.mem_cons_self s t h hs
    intro p hp
    rcases List.mem_cons.mp hp with rfl | hp
    · -- kept by the steps that follow
      have hpair : ∀ q ∈ cs, ∀ s t, S q s t → I s ∧ P p s → I t ∧ P p t := fun q hq s t hq' hs =>
        ⟨hI q (htail q hq) s t hq' hs.1, hkeep p q (htail q hq) s t hq' hs.1 hs.2⟩
      exact (hsteps.invariant hpair ⟨hmid, hP p List.mem_cons_self s t h hs⟩).2
    · exact ih (fun q hq => hI q (htail q hq)) (fun q hq => hP q (htail q hq))
        (fun p q hq => hkeep p q (htail q hq)) hmid p hp

/-- Steps that each append one entry append an entry for each point. -/
theorem appends {ρ : Type u} {S : π → List ρ → List ρ → Prop} {R : π → ρ → Prop} {s t : List ρ}
    (hS : ∀ p s t, S p s t → ∃ r, R p r ∧ t = s ++ [r]) (h : Steps S ps s t) :
    ∃ rs, List.Forall₂ R ps rs ∧ t = s ++ rs := by
  induction h with
  | nil s => exact ⟨[], .nil, (List.append_nil s).symm⟩
  | cons h hs ih =>
    obtain ⟨r, hr, rfl⟩ := hS _ _ _ h
    obtain ⟨rs, hrs, rfl⟩ := ih
    exact ⟨r :: rs, .cons hr hrs, List.append_assoc ..⟩

/-- Each of the entries belongs to a point. -/
theorem exists_point {ρ : Type u} {R : π → ρ → Prop} {rs : List ρ} {r : ρ}
    (h : List.Forall₂ R ps rs) (hr : r ∈ rs) : ∃ p ∈ ps, R p r := by
  induction h with
  | nil => exact absurd hr List.not_mem_nil
  | cons h _ ih =>
    rcases List.mem_cons.mp hr with rfl | hr
    · exact ⟨_, List.mem_cons_self, h⟩
    · obtain ⟨p, hp, hrel⟩ := ih hr
      exact ⟨p, List.mem_cons_of_mem _ hp, hrel⟩

end Steps

/-! ## Programs -/

/-- A run that throws has moved the state along `R` before. -/
def Aborts (R : σ → σ → Prop) (x : EStateM ε σ α) : Prop := ∀ s e t, x s = .error e t → R s t

namespace Aborts

variable {R : σ → σ → Prop}

theorem pure (a : α) : Aborts R (pure a : EStateM ε σ α) := fun _ _ _ h => by cases h

theorem modify (f : σ → σ) : Aborts R (modify f : EStateM ε σ PUnit) := fun _ _ _ h => by cases h

theorem of_within {x : EStateM ε σ α} (hx : Within R x) : Aborts R x := fun s e t h => by
  have hs := hx s
  rwa [h] at hs

theorem bind (hT : ∀ {a b c}, R a b → R b c → R a c) {x : EStateM ε σ α}
    {f : α → EStateM ε σ β} (hx : Within R x) (hf : ∀ a, Aborts R (f a)) :
    Aborts R (x >>= f) := by
  intro s e u h
  rcases run_bind_eq_error.mp h with h | ⟨a, t, hat, h⟩
  · exact of_within hx s e u h
  · have hs := hx s
    rw [hat] at hs
    exact hT hs (hf a t e u h)

theorem ite {p : Prop} [Decidable p] {x y : EStateM ε σ α} (hx : p → Aborts R x)
    (hy : ¬ p → Aborts R y) : Aborts R (if p then x else y) := by
  by_cases h : p
  · rw [if_pos h]
    exact hx h
  · rw [if_neg h]
    exact hy h

end Aborts

/-- A run that returns is a chain of steps at the points. One that throws is a chain at the first of
them, and what `R` says of the step that it throws in. -/
structure Through (S : π → σ → σ → Prop) (R : σ → σ → Prop) (ps : List π) (x : EStateM ε σ α) :
    Prop where
  returns : ∀ s a t, x s = .ok a t → Steps S ps s t
  throws : ∀ s e t, x s = .error e t → ∃ done u, done <+: ps ∧ Steps S done s u ∧ R u t

/-- The points after a fallible computation, if it returns. -/
def pointsAfter (z : Except ε α) (ps : α → List π) : List π :=
  match z with
  | .ok a => ps a
  | .error _ => []

namespace Through

variable {S : π → σ → σ → Prop} {R : σ → σ → Prop} {ps qs : List π}

theorem step {p : π} {x : EStateM ε σ α} (h : ∀ s a t, x s = .ok a t → S p s t)
    (hR : Aborts R x) : Through S R [p] x where
  returns := fun s a t hx => .one (h s a t hx)
  throws := fun s e t hx => ⟨[], s, List.nil_prefix, .nil s, hR s e t hx⟩

theorem pure (a : α) : Through S R [] (pure a : EStateM ε σ α) where
  returns := fun s b t h => by
    cases h
    exact .nil s
  throws := fun s e t h => by cases h

theorem bind {x : EStateM ε σ α} {f : α → EStateM ε σ β} (hx : Through S R ps x)
    (hf : ∀ a, Through S R qs (f a)) : Through S R (ps ++ qs) (x >>= f) where
  returns := fun s b u h => by
    obtain ⟨a, t, h1, h2⟩ := run_bind_eq_ok.mp h
    exact (hx.returns s a t h1).append ((hf a).returns t b u h2)
  throws := fun s e u h => by
    rcases run_bind_eq_error.mp h with h1 | ⟨a, t, h1, h2⟩
    · obtain ⟨done, v, hdone, hsteps, hR⟩ := hx.throws s e u h1
      exact ⟨done, v, hdone.trans (List.prefix_append ps qs), hsteps, hR⟩
    · obtain ⟨done, v, hdone, hsteps, hR⟩ := (hf a).throws t e u h2
      exact ⟨ps ++ done, v, (List.prefix_append_right_inj ps).mpr hdone,
        (hx.returns s a t h1).append hsteps, hR⟩

theorem lift {z : Except ε α} {ps : α → List π} {f : α → EStateM ε σ β} (hR : ∀ s, R s s)
    (hf : ∀ a, z = .ok a → Through S R (ps a) (f a)) :
    Through S R (pointsAfter z ps) (liftM z >>= f) := by
  cases z with
  | ok a => exact hf a rfl
  | error e =>
    constructor
    · intro s b t h
      cases h
    · intro s e t h
      cases h
      exact ⟨[], s, List.nil_prefix, .nil s, hR s⟩

theorem ite {p : Prop} [Decidable p] {x y : EStateM ε σ α} (hx : p → Through S R ps x)
    (hy : ¬ p → Through S R qs y) :
    Through S R (if p then ps else qs) (if p then x else y) := by
  by_cases h : p
  · rw [if_pos h, if_pos h]
    exact hx h
  · rw [if_neg h, if_neg h]
    exact hy h

/-- The rule for a loop. -/
theorem forM {γ : Type v} {f : γ → EStateM ε σ PUnit} {ps : γ → List π} {l : List γ}
    (hf : ∀ c ∈ l, Through S R (ps c) (f c)) : Through S R (l.flatMap ps) (l.forM f) := by
  induction l with
  | nil => exact pure _
  | cons c l ih =>
    rw [List.flatMap_cons]
    show Through S R _ (f c >>= fun _ => l.forM f)
    exact bind (hf c List.mem_cons_self) fun _ => ih fun d hd => hf d (List.mem_cons_of_mem _ hd)

end Through

/-- A loop that returns has run its body for each element. -/
theorem exists_of_forM {γ : Type v} {f : γ → EStateM ε σ PUnit} {l : List γ} {c : γ} {s t : σ}
    (h : l.forM f s = .ok ⟨⟩ t) (hc : c ∈ l) : ∃ s' t', f c s' = .ok ⟨⟩ t' := by
  induction l generalizing s with
  | nil => exact absurd hc List.not_mem_nil
  | cons d l ih =>
    obtain ⟨⟨⟩, u, hd, h⟩ := run_bind_eq_ok.mp (show (f d >>= fun _ => l.forM f) s = _ from h)
    rcases List.mem_cons.mp hc with rfl | hc
    · exact ⟨s, u, hd⟩
    · exact ih h hc

/-! ## Tables -/

/-- A fallible map that returns has mapped each entry. -/
theorem forall₂_of_mapM {γ ρ : Type u} {f : γ → Except ε ρ} {l : List γ} {rs : List ρ}
    (h : l.mapM f = .ok rs) : List.Forall₂ (fun c r => f c = .ok r) l rs := by
  induction l generalizing rs with
  | nil =>
    cases h
    exact .nil
  | cons c l ih =>
    rw [List.mapM_cons] at h
    obtain ⟨r, hr, h⟩ := bind_eq_ok.mp h
    obtain ⟨rs', hrs, h⟩ := bind_eq_ok.mp h
    cases h
    exact .cons hr (ih hrs)

/-! ## Points of nested loops -/

/-- The points of a loop differ when the rounds can be told apart, and the points of each round. -/
theorem nodup_map_flatMap {γ δ κ : Type v} {ps : γ → List π} {tag : π → δ} {r : δ → κ}
    {n : γ → κ} {l : List γ} (hnames : (l.map n).Nodup)
    (hround : ∀ c ∈ l, ∀ p ∈ ps c, r (tag p) = n c)
    (hps : ∀ c ∈ l, ((ps c).map tag).Nodup) : ((l.flatMap ps).map tag).Nodup := by
  induction l with
  | nil => exact List.nodup_nil
  | cons c l ih =>
    rw [List.map_cons, List.nodup_cons] at hnames
    rw [List.flatMap_cons, List.map_append]
    refine List.nodup_append.mpr ⟨hps c List.mem_cons_self, ih hnames.2
      (fun d hd => hround d (List.mem_cons_of_mem _ hd))
      fun d hd => hps d (List.mem_cons_of_mem _ hd), fun x hx y hy heq => hnames.1 ?_⟩
    obtain ⟨p, hp, rfl⟩ := List.mem_map.mp hx
    obtain ⟨q, hq, rfl⟩ := List.mem_map.mp hy
    obtain ⟨d, hd, hq⟩ := List.mem_flatMap.mp hq
    refine List.mem_map.mpr ⟨d, hd, ?_⟩
    rw [← hround d (List.mem_cons_of_mem _ hd) q hq, ← heq, hround c List.mem_cons_self p hp]

theorem nodup_pointsAfter {δ : Type v} {z : Except ε α} {ps : α → List π} {tag : π → δ}
    (hps : ∀ a, z = .ok a → ((ps a).map tag).Nodup) : ((pointsAfter z ps).map tag).Nodup := by
  rcases z with e | a
  · exact List.nodup_nil
  · exact hps a rfl

end Effect
