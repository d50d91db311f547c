import Valseg.VersionedTrees

/-!
# Runs of a structure

An `Engine` is a structure with its two writing operations. A run is any list of calls, whether
they return or throw; next to the state it keeps the `History`, which the calls that returned
determine. `Simulation` is what a structure has to show to have published versioned trees, and
`Simulation.reaches` and `Simulation.steady` are what it gets: after every run its state stores
valid trees of its history, and as long as no initialization succeeds the trees published before
stay.
-/

namespace Valseg

/-- A call of a writing operation; `ι` is what an initialization is given. -/
inductive Call (ι : Type) where
  | initializeFrom (argument : ι)
  | rangeAdd (left right : ℕ) (value : ValueType)

/-- The calls that returned since the last successful initialization, and that one. -/
structure History (ι : Type) where
  argument : ι
  size : ℕ
  adds : RangeAdds ℤ

/-- The later history goes on from the earlier one. -/
structure History.Extends {ι : Type} (h h' : History ι) : Prop where
  argument : h'.argument = h.argument
  size : h'.size = h.size
  initial : h'.adds.initial = h.adds.initial
  updates : h.adds.updates <+: h'.adds.updates

/-- One more addition. -/
def History.add {ι : Type} (h : History ι) (u : RangeAdd ℤ) : History ι :=
  ⟨h.argument, h.size, h.adds.add u⟩

namespace History.Extends

variable {ι : Type} {h h' h'' : History ι}

theorem refl (h : History ι) : h.Extends h := ⟨rfl, rfl, rfl, List.prefix_rfl⟩

theorem trans (h1 : h.Extends h') (h2 : h'.Extends h'') : h.Extends h'' :=
  ⟨h2.argument.trans h1.argument, h2.size.trans h1.size, h2.initial.trans h1.initial,
    h1.updates.trans h2.updates⟩

theorem add (h : History ι) (u : RangeAdd ℤ) : h.Extends (h.add u) :=
  ⟨rfl, rfl, rfl, List.prefix_append _ _⟩

/-- A version has the same array in every later history. -/
theorem array {v : ℕ} (he : h.Extends h') (hv : v < h.adds.versionCount) :
    h'.adds.array v = h.adds.array v := by
  obtain ⟨rest, hrest⟩ := he.updates
  unfold RangeAdds.versionCount at hv
  unfold RangeAdds.array
  rw [← hrest, he.initial, List.take_append_of_le_length (by omega)]

end History.Extends

/-- A structure: the state it is constructed in, the initial array in an argument, and the
writing operations. -/
structure Engine (ι ρ σ : Type) where
  empty : σ
  values : ι → List ValueType
  initializeFrom : ι → EStateM Exception σ Unit
  rangeAdd : (left right : ℕ) → ValueType → EStateM Exception σ ρ

namespace Engine

variable {ι ρ σ : Type} (E : Engine ι ρ σ)

/-- The history of a successful initialization and the updates after it. -/
def historyOf (argument : ι) (updates : List (RangeAdd ℤ)) : History ι :=
  ⟨argument, (E.values argument).length, ⟨leafArray (E.values argument), updates⟩⟩

/-- The history a successful initialization starts. -/
def start (argument : ι) : History ι := E.historyOf argument []

/-- One call; only a call that returns enters the history. -/
def step (p : σ × Option (History ι)) : Call ι → σ × Option (History ι)
  | .initializeFrom argument => match E.initializeFrom argument p.1 with
    | .ok _ s => (s, some (E.start argument))
    | .error _ s => (s, p.2)
  | .rangeAdd left right value => match E.rangeAdd left right value p.1 with
    | .ok _ s => (s, p.2.map fun h => h.add ⟨left, right, value.toInt⟩)
    | .error _ s => (s, p.2)

/-- The calls one after another. -/
def runFrom (p : σ × Option (History ι)) (calls : List (Call ι)) : σ × Option (History ι) :=
  calls.foldl E.step p

/-- The calls on a newly constructed structure. -/
def run (calls : List (Call ι)) : σ × Option (History ι) := E.runFrom (E.empty, none) calls

/-- Some run ends in the state with the history. -/
def Reachable (s : σ) (h : History ι) : Prop := ∃ calls, E.run calls = (s, some h)

/-- No initialization succeeds along the calls. -/
def Steady (p : σ × Option (History ι)) : List (Call ι) → Prop
  | [] => True
  | c :: calls => (∀ argument, c = .initializeFrom argument →
      ∃ e s, E.initializeFrom argument p.1 = .error e s) ∧ Steady (E.step p c) calls

variable {E}

section Step

variable {s s' : σ} {o : Option (History ι)} {a : ι} {l r : ℕ} {value : ValueType}
  {e : Exception} {u : Unit} {x : ρ}

theorem step_initialize_ok (h : E.initializeFrom a s = .ok u s') :
    E.step (s, o) (.initializeFrom a) = (s', some (E.start a)) := by
  simp only [step, h]

theorem step_initialize_error (h : E.initializeFrom a s = .error e s') :
    E.step (s, o) (.initializeFrom a) = (s', o) := by
  simp only [step, h]

theorem step_initialize_state :
    (E.step (s, o) (.initializeFrom a)).1 = Effect.finalState (E.initializeFrom a s) := by
  rcases hi : E.initializeFrom a s with ⟨u, s'⟩ | ⟨e, s'⟩
  · rw [step_initialize_ok hi]
    rfl
  · rw [step_initialize_error hi]
    rfl

theorem step_rangeAdd_ok (h : E.rangeAdd l r value s = .ok x s') :
    E.step (s, o) (.rangeAdd l r value) = (s', o.map fun h => h.add ⟨l, r, value.toInt⟩) := by
  simp only [step, h]

theorem step_rangeAdd_error (h : E.rangeAdd l r value s = .error e s') :
    E.step (s, o) (.rangeAdd l r value) = (s', o) := by
  simp only [step, h]

/-- An addition that returns enters the history. -/
theorem step_returns {h : History ι} (hx : Returns (Effect.outcome (E.rangeAdd l r value s))) :
    ∃ s', E.step (s, some h) (.rangeAdd l r value) = (s', some (h.add ⟨l, r, value.toInt⟩)) := by
  rcases hi : E.rangeAdd l r value s with ⟨x, s'⟩ | ⟨e, s'⟩
  · exact ⟨s', step_rangeAdd_ok hi⟩
  · rw [hi] at hx
    obtain ⟨x, hx⟩ := hx
    cases hx

/-- One that throws does not. -/
theorem step_throws {h : History ι} (hx : ¬ Returns (Effect.outcome (E.rangeAdd l r value s))) :
    ∃ s', E.step (s, some h) (.rangeAdd l r value) = (s', some h) := by
  rcases hi : E.rangeAdd l r value s with ⟨x, s'⟩ | ⟨e, s'⟩
  · rw [hi] at hx
    exact absurd ⟨x, rfl⟩ hx
  · exact ⟨s', step_rangeAdd_error hi⟩

end Step

@[simp] theorem runFrom_cons (p : σ × Option (History ι)) (c : Call ι) (calls : List (Call ι)) :
    E.runFrom p (c :: calls) = E.runFrom (E.step p c) calls := rfl

theorem runFrom_append (p : σ × Option (History ι)) (c d : List (Call ι)) :
    E.runFrom p (c ++ d) = E.runFrom (E.runFrom p c) d := List.foldl_append

/-- **Induction over runs.** What every step keeps holds after every run. -/
theorem runFrom_induction {P : σ × Option (History ι) → Prop}
    (hstep : ∀ p c, P p → P (E.step p c)) (calls : List (Call ι)) :
    ∀ p, P p → P (E.runFrom p calls) := by
  induction calls with
  | nil => exact fun p hp => hp
  | cons c calls ih => exact fun p hp => ih _ (hstep p c hp)

section Image

variable {τ : Type} {E' : Engine ι ρ τ} {f : σ → τ}

/-- A call does to the image of a state what it does to the state. -/
theorem step_image (hvalues : E'.values = E.values)
    (hopening : ∀ a, Effect.Image f id (E.initializeFrom a) (E'.initializeFrom a))
    (hadd : ∀ l r value, Effect.Image f id (E.rangeAdd l r value) (E'.rangeAdd l r value))
    (s : σ) (o : Option (History ι)) (c : Call ι) :
    E'.step (f s, o) c = (f (E.step (s, o) c).1, (E.step (s, o) c).2) := by
  cases c with
  | initializeFrom a =>
    have hi := hopening a s
    rcases hx : E.initializeFrom a s with ⟨u, t⟩ | ⟨e, t⟩ <;> rw [hx] at hi
    · rw [step_initialize_ok hx, step_initialize_ok hi]
      simp only [start, historyOf, hvalues]
    · rw [step_initialize_error hx, step_initialize_error hi]
  | rangeAdd l r value =>
    have ha := hadd l r value s
    rcases hx : E.rangeAdd l r value s with ⟨u, t⟩ | ⟨e, t⟩ <;> rw [hx] at ha
    · rw [step_rangeAdd_ok hx, step_rangeAdd_ok ha]
    · rw [step_rangeAdd_error hx, step_rangeAdd_error ha]

/-- **Images of runs.** -/
theorem run_image (hempty : E'.empty = f E.empty) (hvalues : E'.values = E.values)
    (hopening : ∀ a, Effect.Image f id (E.initializeFrom a) (E'.initializeFrom a))
    (hadd : ∀ l r value, Effect.Image f id (E.rangeAdd l r value) (E'.rangeAdd l r value))
    (calls : List (Call ι)) : E'.run calls = (f (E.run calls).1, (E.run calls).2) := by
  have key : ∀ (calls : List (Call ι)) (p : σ × Option (History ι)),
      E'.runFrom (f p.1, p.2) calls = (f (E.runFrom p calls).1, (E.runFrom p calls).2) := by
    intro calls
    induction calls with
    | nil => exact fun p => rfl
    | cons c calls ih =>
      intro p
      rw [runFrom_cons, runFrom_cons, step_image hvalues hopening hadd]
      exact ih (E.step p c)
  unfold run
  rw [hempty]
  exact key calls (E.empty, none)

end Image

/-- A call leads from a reachable state to a reachable state. -/
theorem Reachable.step {s s' : σ} {h h' : History ι} {c : Call ι} (hr : E.Reachable s h)
    (hs : E.step (s, some h) c = (s', some h')) : E.Reachable s' h' := by
  obtain ⟨calls, hrun⟩ := hr
  refine ⟨calls ++ [c], ?_⟩
  have hrun' : E.runFrom (E.empty, none) calls = (s, some h) := hrun
  rw [run, runFrom_append, hrun']
  exact hs

/-- A reachable history starts from the array of its argument. -/
theorem Reachable.start {s : σ} {h : History ι} (hr : E.Reachable s h) :
    h.size = (E.values h.argument).length ∧ h.adds.initial = leafArray (E.values h.argument) := by
  have key : ∀ calls, ∀ h ∈ (E.run calls).2, h.size = (E.values h.argument).length ∧
      h.adds.initial = leafArray (E.values h.argument) := by
    intro calls
    refine runFrom_induction (E := E) (P := fun p => ∀ h ∈ p.2,
      h.size = (E.values h.argument).length ∧
        h.adds.initial = leafArray (E.values h.argument)) (fun p c hp => ?_) calls _
      (fun h hh => nomatch hh)
    obtain ⟨s, o⟩ := p
    cases c with
    | initializeFrom a =>
      rcases hi : E.initializeFrom a s with ⟨u, s'⟩ | ⟨e, s'⟩
      · rw [step_initialize_ok hi]
        rintro h ⟨⟩
        exact ⟨rfl, rfl⟩
      · rw [step_initialize_error hi]
        exact hp
    | rangeAdd l r value =>
      rcases hi : E.rangeAdd l r value s with ⟨x, s'⟩ | ⟨e, s'⟩
      · rw [step_rangeAdd_ok hi]
        intro h hh
        obtain ⟨h', hh', rfl⟩ := Option.map_eq_some_iff.mp hh
        exact hp h' hh'
      · rw [step_rangeAdd_error hi]
        exact hp
  obtain ⟨calls, hrun⟩ := hr
  exact key calls h (by rw [hrun]; rfl)

/-- A run that ends with the argument and the updates. -/
theorem run_eq_historyOf {calls : List (Call ι)} {a : ι} {updates : List (RangeAdd ℤ)}
    (h : (E.run calls).2.map (fun h => (h.argument, h.adds.updates)) = some (a, updates)) :
    E.run calls = ((E.run calls).1, some (E.historyOf a updates)) := by
  rcases hrun : E.run calls with ⟨s, _ | ⟨a', n, initial, updates'⟩⟩ <;> rw [hrun] at h
  · cases h
  · have hr : E.Reachable s ⟨a', n, initial, updates'⟩ := ⟨calls, hrun⟩
    obtain ⟨rfl, rfl⟩ : n = (E.values a').length ∧ initial = leafArray (E.values a') := hr.start
    cases h
    rfl

/-- Its state is reachable. -/
theorem reachable_run {calls : List (Call ι)} {a : ι} {updates : List (RangeAdd ℤ)}
    (h : (E.run calls).2.map (fun h => (h.argument, h.adds.updates)) = some (a, updates)) :
    E.Reachable (E.run calls).1 (E.historyOf a updates) := ⟨calls, run_eq_historyOf h⟩

/-! ## Steady runs -/

theorem Steady.append {p : σ × Option (History ι)} {c d : List (Call ι)} (hc : E.Steady p c)
    (hd : E.Steady (E.runFrom p c) d) : E.Steady p (c ++ d) := by
  induction c generalizing p with
  | nil => exact hd
  | cons x c ih => exact ⟨hc.1, ih hc.2 hd⟩

/-- An addition is steady, and so is an initialization that throws. -/
theorem steady_single {p : σ × Option (History ι)} {c : Call ι}
    (h : ∀ argument, c = .initializeFrom argument →
      ∃ e s, E.initializeFrom argument p.1 = .error e s) : E.Steady p [c] := ⟨h, trivial⟩

/-! ## The same calls on several structures -/

variable (E)

/-- How an addition ends in a state. -/
def answer (s : σ) (u : RangeAdd ValueType) : Except Exception ρ :=
  Effect.outcome (E.rangeAdd u.left u.right u.amount s)

/-- The state an addition leaves, whether it returns or throws. -/
def next (s : σ) (u : RangeAdd ValueType) : σ :=
  Effect.finalState (E.rangeAdd u.left u.right u.amount s)

/-- How the initialization of a new structure ends. -/
def opening (a : ι) : Except Exception Unit := Effect.outcome (E.initializeFrom a E.empty)

/-- The state after an initialization and additions, each of which returns or throws. -/
def after (a : ι) (adds : List (RangeAdd ValueType)) : σ :=
  adds.foldl E.next (Effect.finalState (E.initializeFrom a E.empty))

/-- No addition of the run ends for lack of room. -/
def HasRoom (a : ι) (adds : List (RangeAdd ValueType)) : Prop :=
  ∀ k (hk : k < adds.length), ¬ OutOfRoom (E.answer (E.after a (adds.take k)) adds[k])

instance decidableHasRoom (a : ι) (adds : List (RangeAdd ValueType)) :
    Decidable (E.HasRoom a adds) := Nat.decidableBallLT _ _

variable {E} {a : ι} {adds : List (RangeAdd ValueType)} {u : RangeAdd ValueType}

theorem answer_ok {s s' : σ} {x : ρ} (h : E.rangeAdd u.left u.right u.amount s = .ok x s') :
    E.answer s u = .ok x ∧ E.next s u = s' := by
  unfold answer next
  rw [h]
  exact ⟨rfl, rfl⟩

theorem answer_error {s s' : σ} {e : Exception}
    (h : E.rangeAdd u.left u.right u.amount s = .error e s') :
    E.answer s u = .error e ∧ E.next s u = s' := by
  unfold answer next
  rw [h]
  exact ⟨rfl, rfl⟩

theorem returns_answer {s s' : σ} {x : ρ} (h : E.rangeAdd u.left u.right u.amount s = .ok x s') :
    Returns (E.answer s u) := ⟨x, (answer_ok h).1⟩

theorem not_returns_answer {s s' : σ} {e : Exception}
    (h : E.rangeAdd u.left u.right u.amount s = .error e s') : ¬ Returns (E.answer s u) := by
  rintro ⟨x, hx⟩
  rw [(answer_error h).1] at hx
  cases hx

theorem returns_opening {s' : σ} {x : Unit} (h : E.initializeFrom a E.empty = .ok x s') :
    Returns (E.opening a) := ⟨x, by rw [opening, h]; rfl⟩

theorem not_returns_opening {s' : σ} {e : Exception}
    (h : E.initializeFrom a E.empty = .error e s') : ¬ Returns (E.opening a) := by
  rintro ⟨x, hx⟩
  rw [opening, h] at hx
  cases hx

theorem after_concat : E.after a (adds ++ [u]) = E.next (E.after a adds) u := by
  unfold after
  rw [List.foldl_append]
  rfl

/-- The run without its last addition, and that addition. -/
theorem HasRoom.concat (h : E.HasRoom a (adds ++ [u])) :
    E.HasRoom a adds ∧ ¬ OutOfRoom (E.answer (E.after a adds) u) := by
  constructor
  · intro k hk
    have hlt : k < (adds ++ [u]).length := by rw [List.length_append]; omega
    have := h k hlt
    rwa [List.take_append_of_le_length hk.le, List.getElem_append_left hk] at this
  · have hlt : adds.length < (adds ++ [u]).length := by
      rw [List.length_append]; exact Nat.lt_succ_self _
    have := h adds.length hlt
    rwa [List.take_left, List.getElem_concat_length rfl] at this

end Engine

/-! ## Simulation -/

/-- What relates a structure to versioned trees: `Fresh` states have no version, `Rel` states
store the trees, and no call leaves the relation. -/
structure Simulation {ι ρ σ : Type} (E : Engine ι ρ σ) (D : Discipline) where
  Fresh : σ → Prop
  Rel : History ι → σ → VersionedTrees → Prop
  empty : Fresh E.empty
  initialize_ok : ∀ {a : ι} {s s' : σ} {u : Unit}, E.initializeFrom a s = .ok u s' →
    (E.values a).length ≤ maxLength ∧
      ∃ m, VersionedTrees.initializeFrom (E.values a) = .ok m ∧ Rel (E.start a) s' m
  initialize_error : ∀ {a : ι} {s s' : σ} {e : Exception},
    E.initializeFrom a s = .error e s' → s' = s
  rangeAdd_fresh : ∀ {s : σ} (l r : ℕ) (value : ValueType), Fresh s →
    ∃ e, E.rangeAdd l r value s = .error e s
  rangeAdd_ok : ∀ {h : History ι} {l r : ℕ} {value : ValueType} {s s' : σ} {x : ρ}
    {m : VersionedTrees}, Rel h s m → m.Valid D h.adds →
    E.rangeAdd l r value s = .ok x s' → ∃ m', m.rangeAdd D l r value = .ok m' ∧
      Rel (h.add ⟨l, r, value.toInt⟩) s' m'
  rangeAdd_error : ∀ {h : History ι} {l r : ℕ} {value : ValueType} {s s' : σ} {e : Exception}
    {m : VersionedTrees}, Rel h s m → m.Valid D h.adds →
    E.rangeAdd l r value s = .error e s' → Rel h s' m

namespace Simulation

variable {ι ρ σ : Type} {E : Engine ι ρ σ} {D : Discipline} (S : Simulation E D)

/-- The state stores valid trees of its history, or has no version and no history. -/
def Inv (p : σ × Option (History ι)) : Prop :=
  (p.2 = none ∧ S.Fresh p.1) ∨
    ∃ h m, p.2 = some h ∧ m.size = h.size ∧ S.Rel h p.1 m ∧ m.Valid D h.adds

/-- **One call.** -/
theorem inv_step (p : σ × Option (History ι)) (c : Call ι) (hp : S.Inv p) :
    S.Inv (E.step p c) := by
  obtain ⟨s, o⟩ := p
  cases c with
  | initializeFrom a =>
    rcases hi : E.initializeFrom a s with ⟨u, s'⟩ | ⟨e, s'⟩
    · rw [Engine.step_initialize_ok hi]
      obtain ⟨hlen, m, hm, hrel⟩ := S.initialize_ok hi
      obtain ⟨hsize, hvalid⟩ := VersionedTrees.Valid.initializeFrom (D := D) hlen hm
      exact .inr ⟨E.start a, m, rfl, hsize, hrel, hvalid⟩
    · rw [Engine.step_initialize_error hi, S.initialize_error hi]
      exact hp
  | rangeAdd l r value =>
    rcases hp with ⟨hn, hfresh⟩ | ⟨h, m, hn, hsize, hrel, hvalid⟩
    · obtain ⟨e, he⟩ := S.rangeAdd_fresh l r value hfresh
      rw [Engine.step_rangeAdd_error he]
      exact .inl ⟨hn, hfresh⟩
    · obtain rfl : o = some h := hn
      rcases hi : E.rangeAdd l r value s with ⟨x, s'⟩ | ⟨e, s'⟩
      · rw [Engine.step_rangeAdd_ok hi]
        obtain ⟨m', hm', hrel'⟩ := S.rangeAdd_ok hrel hvalid hi
        obtain ⟨hsize', -, hvalid'⟩ := hvalid.rangeAdd hm'
        exact .inr ⟨_, m', rfl, hsize'.trans hsize, hrel', hvalid'⟩
      · rw [Engine.step_rangeAdd_error hi]
        exact .inr ⟨h, m, rfl, hsize, S.rangeAdd_error hrel hvalid hi, hvalid⟩

theorem inv_run (calls : List (Call ι)) : S.Inv (E.run calls) :=
  Engine.runFrom_induction S.inv_step calls _ (.inl ⟨rfl, S.empty⟩)

/-- **Reachable states.** With a history, the state stores valid trees of it. -/
theorem reaches {s : σ} {h : History ι} (hr : E.Reachable s h) :
    ∃ m, m.size = h.size ∧ S.Rel h s m ∧ m.Valid D h.adds := by
  obtain ⟨calls, hrun⟩ := hr
  have hinv := S.inv_run calls
  rw [hrun] at hinv
  rcases hinv with ⟨hn, -⟩ | ⟨h', m, hn, hsize, hrel, hvalid⟩
  · cases hn
  · obtain rfl : h = h' := Option.some.inj hn
    exact ⟨m, hsize, hrel, hvalid⟩

/-- Without one, it has no version. -/
theorem fresh_of_run {calls : List (Call ι)} {s : σ} (hrun : E.run calls = (s, none)) :
    S.Fresh s := by
  have hinv := S.inv_run calls
  rw [hrun] at hinv
  rcases hinv with ⟨-, hf⟩ | ⟨h', m, hn, -⟩
  · exact hf
  · cases hn

/-- **Induction over steady runs.** While no initialization succeeds, what every addition keeps
holds to the end. -/
theorem steady_induction {P : History ι → σ → VersionedTrees → Prop}
    (hadd : ∀ {h : History ι} {s s' : σ} {m m' : VersionedTrees} {l r : ℕ} {value : ValueType}
      {x : ρ}, P h s m → S.Rel h s m → m.Valid D h.adds → E.rangeAdd l r value s = .ok x s' →
      m.rangeAdd D l r value = .ok m' → P (h.add ⟨l, r, value.toInt⟩) s' m')
    (herr : ∀ {h : History ι} {s s' : σ} {m : VersionedTrees} {l r : ℕ} {value : ValueType}
      {e : Exception}, P h s m → S.Rel h s m → m.Valid D h.adds →
      E.rangeAdd l r value s = .error e s' → P h s' m) {calls : List (Call ι)} :
    ∀ {s : σ} {h : History ι} {m : VersionedTrees}, P h s m → S.Rel h s m → m.Valid D h.adds →
      E.Steady (s, some h) calls → ∃ s' h' m', E.runFrom (s, some h) calls = (s', some h') ∧
        P h' s' m' ∧ S.Rel h' s' m' ∧ m'.Valid D h'.adds := by
  induction calls with
  | nil => exact fun hp hrel hvalid _ => ⟨_, _, _, rfl, hp, hrel, hvalid⟩
  | cons c calls ih =>
    intro s h m hp hrel hvalid hsteady
    obtain ⟨hc, hsteady⟩ := hsteady
    rw [Engine.runFrom_cons]
    cases c with
    | initializeFrom a =>
      obtain ⟨e, s', he⟩ := hc a rfl
      rw [Engine.step_initialize_error he, S.initialize_error he] at hsteady ⊢
      exact ih hp hrel hvalid hsteady
    | rangeAdd l r value =>
      rcases hi : E.rangeAdd l r value s with ⟨x, s'⟩ | ⟨e, s'⟩
      · rw [Engine.step_rangeAdd_ok hi] at hsteady ⊢
        obtain ⟨m', hm', hrel'⟩ := S.rangeAdd_ok hrel hvalid hi
        exact ih (hadd hp hrel hvalid hi hm') hrel' (hvalid.rangeAdd hm').2.2 hsteady
      · rw [Engine.step_rangeAdd_error hi] at hsteady ⊢
        exact ih (herr hp hrel hvalid hi) (S.rangeAdd_error hrel hvalid hi) hvalid hsteady

/-- **Steady runs.** The trees published before stay. -/
theorem steady {calls : List (Call ι)} {s : σ} {h : History ι} {m : VersionedTrees}
    (hrel : S.Rel h s m) (hvalid : m.Valid D h.adds) (hsteady : E.Steady (s, some h) calls) :
    ∃ s' h' m', E.runFrom (s, some h) calls = (s', some h') ∧
      (h.Extends h' ∧ m'.size = m.size ∧ m.trees <+: m'.trees) ∧
      S.Rel h' s' m' ∧ m'.Valid D h'.adds :=
  S.steady_induction
    (P := fun h' _ m' => h.Extends h' ∧ m'.size = m.size ∧ m.trees <+: m'.trees)
    (fun ⟨h1, h2, h3⟩ _ hvalid _ hm => ⟨h1.trans (History.Extends.add _ _),
      (hvalid.rangeAdd hm).1.trans h2, h3.trans (hvalid.rangeAdd hm).2.1⟩)
    (fun hp _ _ _ => hp) ⟨.refl h, rfl, List.prefix_rfl⟩ hrel hvalid hsteady

/-- Sums read from the stored trees stay while no initialization succeeds. -/
theorem steady_sums (rangeSum : σ → (v l r : ℕ) → Except Exception ValueType)
    (hsum : ∀ {h : History ι} {s : σ} {m : VersionedTrees}, S.Rel h s m → m.size ≤ maxLength →
      ∀ v l r, rangeSum s v l r = m.rangeSum v l r)
    {calls : List (Call ι)} {s : σ} {h : History ι} {v : ℕ} (hr : E.Reachable s h)
    (hsteady : E.Steady (s, some h) calls) (hv : v < h.adds.versionCount) (l r : ℕ) :
    rangeSum (E.runFrom (s, some h) calls).1 v l r = rangeSum s v l r := by
  obtain ⟨m, -, hrel, hvalid⟩ := S.reaches hr
  obtain ⟨s', h', m', hrun, ⟨-, hsize, hpre⟩, hrel', hvalid'⟩ := S.steady hrel hvalid hsteady
  rw [hrun]
  show rangeSum s' v l r = rangeSum s v l r
  rw [hsum hrel hvalid.size_le, hsum hrel' hvalid'.size_le,
    VersionedTrees.rangeSum_of_prefix hpre hsize (hvalid.versions ▸ hv)]

end Simulation

end Valseg
