import Valseg.CampaignShards

/-!
# What ends a campaign early

`main` of `bench/bench_main.cpp` exits with 2 where `run` throws. With room for the arrays and the
streams of a campaign, it throws what one of its trials has thrown, and nothing else (`run_fails`).
-/

namespace Valseg

namespace Bench

namespace Process

open Effect (Maintains ThrowsOnly Yields)

variable {G D : Type} {P : Process G D} {original : FrozenWorkload D} {size attempt : ℕ}
  {initial : List ValueType} {variant : D} {v : Visit D} {s t : Campaign} {e : Exception}

variable (P) in
/-- The trial of a planned visit, or the replay that prices its instrumentation, throws. -/
def TrialThrows (e : Exception) : Prop :=
  ∃ v, P.Planned v ∧ ∃ r r', P.trialOf v r = .error e r' ∨ P.batchOf v r = .error e r'

variable (P) in
/-- Vectors of the elements and of the operations are possible. -/
structure Roomy : Prop where
  sizes : ∀ original ∈ P.plan, ∀ size ∈ (P.scaled original).sizes, size ≤ vectorMaxSize 8
  streams : ∀ original ∈ workloads P.platform, ∀ variant ∈ (P.scaled original).variants,
    totalOperations P.platform.toFloatingPoint (P.scaled original).toWorkload variant ≤
      vectorMaxSize 40

/-! ## Arrays and streams -/

theorem drawValues_yields (rng : RandomEngine G) (n : ℕ) :
    Yields (fun _ => True) (drawValues rng n) := by
  induction n with
  | zero => exact .pure trivial
  | succ n ih =>
    exact .bind (below_yields rng (by decide)) fun _ _ => .bind ih fun _ _ => .pure trivial

theorem exists_initialArray (rng : RandomEngine G) (seed : UInt64)
    (hroom : size ≤ vectorMaxSize 8) : ∃ values, initialArray rng size seed = .ok values := by
  obtain ⟨values, g, hdraw, -⟩ :=
    drawValues_yields rng size (rng.seeded (seed ^^^ 0x9e3779b97f4a7c15))
  refine ⟨values, ?_⟩
  unfold initialArray drawArray
  rw [checkVectorLength_eq_ok.mpr hroom, Effect.liftM_ok_bind, hdraw, Effect.outcome_ok]

/-- **Streams** are drawn where there is room. -/
theorem exists_streamOf (hroomy : P.Roomy) (hplan : original ∈ P.plan)
    (hsize : size ∈ (P.scaled original).sizes) (hvariant : variant ∈ (P.scaled original).variants)
    (seed : UInt64) : ∃ stream, P.streamOf (P.scaled original) size variant seed = .ok stream := by
  unfold streamOf
  rw [scaled_replayed]
  split_ifs with hreplayed
  · exact ⟨_, rfl⟩
  have horiginal : original ∈ workloads P.platform := by
    rcases List.mem_append.mp hplan with horiginal | htrace
    · exact horiginal
    · rcases htr : P.trace with _ | trace
      · rw [htr] at htrace
        exact absurd htrace List.not_mem_nil
      · rw [htr] at htrace
        rw [List.mem_singleton.mp htrace, traceWorkload_replayed] at hreplayed
        exact absurd rfl hreplayed
  obtain ⟨hpos, hmax⟩ := scaled_bounds horiginal hsize
  have hle : size ≤ sizeMax := hmax.trans (by decide)
  obtain ⟨stream, g, hdraw, -⟩ := drawStream_yields P.rng hpos hle
    (hroomy.streams original horiginal variant hvariant) (P.rng.seeded seed)
  refine ⟨stream, ?_⟩
  unfold generate
  rw [hdraw, Effect.outcome_ok]

/-! ## Loops -/

/-- **One visit** throws what its replays throw. -/
theorem measure_fails (hv : P.Planned v) :
    Maintains (fun _ => True) P.TrialThrows (P.measure v) := by
  have htrial : Maintains (fun _ => True) P.TrialThrows (P.trialOf v) := fun r _ => by
    rcases h : P.trialOf v r with ⟨result, r'⟩ | ⟨e, r'⟩
    · exact .inl ⟨result, r', rfl, trivial⟩
    · exact .inr ⟨e, r', rfl, v, hv, r, r', .inl h⟩
  have hbatch : Maintains (fun _ => True) P.TrialThrows (P.batchOf v) := fun r _ => by
    rcases h : P.batchOf v r with ⟨result, r'⟩ | ⟨e, r'⟩
    · exact .inl ⟨result, r', rfl, trivial⟩
    · exact .inr ⟨e, r', rfl, v, hv, r, r', .inr h⟩
  have hreplaying : ∀ {α : Type} {x : EStateM Exception ℕ α},
      Maintains (fun _ => True) P.TrialThrows x →
        Maintains (fun _ => True) P.TrialThrows (replaying x) := fun hx =>
    hx.zoom (fun _ _ => trivial) fun _ _ _ _ => trivial
  have hmodify : ∀ f, Maintains (fun _ => True) P.TrialThrows (modify f : CampaignM Unit) :=
    fun f s _ => .inl ⟨(), f s, rfl, trivial⟩
  unfold measure
  refine .bind (fun s _ => .inl ⟨s, s, rfl, trivial⟩) fun this => ?_
  refine .ite (fun _ => .pure _) fun _ => ?_
  refine .bind (.ite (fun _ => hreplaying hbatch) fun _ => .pure _) fun _ => ?_
  refine .bind (hreplaying htrial) fun result => ?_
  refine .ite (fun _ => .pure _) fun _ => ?_
  refine .bind (.ite (fun _ => hmodify _) fun _ => .pure _) fun _ => ?_
  refine .bind (.ite (fun _ => hreplaying hbatch) fun _ => .pure _) fun _ => ?_
  exact .bind (hmodify _) fun _ => hmodify _

/-- **The loops** throw what a trial throws. -/
theorem run_maintains (hshuffle : P.Permutes) (hroomy : P.Roomy) :
    Maintains (fun _ => True) P.TrialThrows P.run := by
  unfold run
  refine .bind (.forM fun original hplan => ?_) fun _ =>
    .bind (fun s _ => .inl ⟨s, s, rfl, trivial⟩) fun _ => .pure _
  refine .ite (fun hselects => .forM fun size hsize => ?_) fun _ => .pure _
  refine .ite (fun _ => .pure _) fun hfilter => .forM fun attempt hattempt => ?_
  refine .ite (fun _ => .pure _) fun hskips => ?_
  obtain ⟨values, hvalues⟩ := exists_initialArray P.rng (P.options.seedAt attempt)
    (hroomy.sizes original hplan size hsize)
  refine .lift_bind (fun e he => by rw [hvalues] at he; cases he) fun initial hinitial => ?_
  refine .forM fun variant hvariant => .ite (fun _ => .pure _) fun hskip =>
    .ite (fun _ => .pure _) fun _ => ?_
  obtain ⟨stream, hstream⟩ := exists_streamOf hroomy hplan hsize hvariant
    (P.options.seedAt attempt)
  refine .lift_bind (fun e he => by rw [hstream] at he; cases he) fun stream hstream => ?_
  exact .forM fun entry hentry => measure_fails (planned_of_entry hshuffle hplan hselects hsize
    hfilter hattempt hskips hinitial hvariant hskip hstream hentry)

/-- A trace whose updates add up past 64 bits. -/
def steepProcess : Process UInt64 ℚ :=
  { mixedProcess [Structure.of "persistent"
      (fun interval => (PersistentStructure.persistent.adapter interval).writing) true] with
    trace := some ([⟨true, 0, 0, 0, Int64.maxValue⟩, ⟨true, 0, 0, 0, Int64.maxValue⟩], 3) }

/-- The processes of a campaign have the same arrays and streams. -/
theorem sibling_roomy {shuffle : UInt64 → List (Job D) → List (Job D)} {clock : ℕ → ℤ}
    {options : Options D} (ho : P.options.SameStreams options) (hroomy : P.Roomy) :
    (P.sibling shuffle clock options).Roomy where
  sizes := by
    intro original hplan size hsize
    rw [sibling_plan ho] at hplan
    rw [sibling_scaled ho] at hsize
    exact hroomy.sizes original hplan size hsize
  streams := by
    intro original horiginal variant hvariant
    rw [sibling_scaled ho] at hvariant ⊢
    exact hroomy.streams original horiginal variant hvariant

/-- Where no trial throws the campaign returns. -/
theorem run_returns (hshuffle : P.Permutes) (hroomy : P.Roomy) (htrials : ∀ e, ¬ P.TrialThrows e)
    (s : Campaign) : ∃ code t, P.run s = .ok code t := by
  rcases run_maintains hshuffle hroomy s trivial with ⟨code, t, hrun, -⟩ | ⟨e, t, -, hthrows⟩
  · exact ⟨code, t, hrun⟩
  · exact absurd hthrows (htrials e)

end Process

end Bench

end Valseg
