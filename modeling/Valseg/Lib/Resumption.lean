import Mathlib.Data.List.AList
import Valseg.Lib.Steps

/-!
# Loops that are resumed

A loop makes a file for each of its jobs. It skips the jobs whose files look finished and runs the
others. A session can be cut off at any job, of which a part of a file may be left, and files that
were not yet written out may be lost with it. The next session starts from what is there.

`passed` says what is known of the files that a session has come past, after any number of sessions
that were cut off: each of them was made by a run that went through, or it was left by one that was
cut off, looked finished, and was never run again. `exists_resumed` says that sessions come through
where no job is left without such a file for ever.
-/

namespace Resumption

variable {π κ φ : Type}

/-- The file of each job, which files look finished, and what is left of a job that goes through
and of one that is cut off. -/
structure Loop (π κ φ : Type) where
  name : π → κ
  finished : φ → Bool
  runs : π → φ → Prop
  leaves : π → φ → Prop

abbrev Directory (κ φ : Type) := AList fun _ : κ => φ

namespace Loop

open Effect (Steps)

variable [DecidableEq κ] (L : Loop π κ φ)

def isFinished (d : Directory κ φ) (k : κ) : Bool := (d.lookup k).any L.finished

/-- One job of a session. -/
inductive Pass (job : π) : Directory κ φ → Directory κ φ → Prop
  | reuse {d : Directory κ φ} (h : L.isFinished d (L.name job) = true) : Pass job d d
  | run {d : Directory κ φ} {f : φ} (h : L.isFinished d (L.name job) = false) (hf : L.runs job f) :
      Pass job d (d.insert (L.name job) f)

/-- The job that a session is cut off at. Its file has been cleared, or is there in part. -/
inductive Cut (job : π) : Directory κ φ → Directory κ φ → Prop
  | cleared {d : Directory κ φ} (h : L.isFinished d (L.name job) = false) :
      Cut job d (d.erase (L.name job))
  | left {d : Directory κ φ} {f : φ} (h : L.isFinished d (L.name job) = false)
      (hf : L.leaves job f) : Cut job d (d.insert (L.name job) f)

/-- Files that were not yet written out do not look finished any more. -/
def Loses (d d' : Directory κ φ) : Prop :=
  ∀ k, d'.lookup k = d.lookup k ∨ L.isFinished d' k = false

/-- What is there after any number of sessions that were cut off. -/
inductive Resumed (jobs : List π) (start : Directory κ φ) : Directory κ φ → Prop
  | start : Resumed jobs start start
  | session {d d₁ d₂ d₃ : Directory κ φ} {done : List π} (h : Resumed jobs start d)
      (hdone : done <+: jobs) (hsteps : Steps L.Pass done d d₁)
      (hcut : d₂ = d₁ ∨ ∃ job, done ++ [job] <+: jobs ∧ L.Cut job d₁ d₂) (hloses : L.Loses d₂ d₃) :
      Resumed jobs start d₃

variable {L} {jobs done : List π} {job job' : π} {d d' start : Directory κ φ} {k : κ} {f : φ}

theorem isFinished_iff : L.isFinished d k = true ↔ ∃ f, d.lookup k = some f ∧ L.finished f = true :=
  Option.any_eq_true _ _

/-! ## One job -/

/-- The files of other jobs stay as they are. -/
theorem Pass.frame (h : L.Pass job d d') (hk : k ≠ L.name job) : d'.lookup k = d.lookup k := by
  rcases h with _ | _
  · rfl
  · exact AList.lookup_insert_ne hk

theorem Cut.frame (h : L.Cut job d d') (hk : k ≠ L.name job) : d'.lookup k = d.lookup k := by
  rcases h with _ | _
  · exact AList.lookup_erase_ne hk
  · exact AList.lookup_insert_ne hk

/-- A file that looks finished is not touched. -/
theorem Pass.keeps (h : L.Pass job d d') (hk : L.isFinished d k = true) :
    d'.lookup k = d.lookup k := by
  by_cases hname : k = L.name job
  · rcases h with _ | ⟨hnot, -⟩
    · rfl
    · rw [hname, hnot] at hk
      cases hk
  · exact h.frame hname

theorem Cut.keeps (h : L.Cut job d d') (hk : L.isFinished d k = true) :
    d'.lookup k = d.lookup k := by
  refine h.frame fun hname => ?_
  rw [hname] at hk
  rcases h with hnot | ⟨hnot, -⟩
  all_goals
    rw [hnot] at hk
    cases hk

/-! ## Sessions -/

/-- Files that look finished stay as they are for the rest of the session. -/
theorem Pass.keep (hsteps : Steps L.Pass done d d') (hk : L.isFinished d k = true) :
    d'.lookup k = d.lookup k := by
  have hkeep : ∀ job ∈ done, ∀ s t, L.Pass job s t → s.lookup k = d.lookup k →
      t.lookup k = d.lookup k := fun job _ s t hpass hs => by
    have hfinished : L.isFinished s k = true := by
      unfold isFinished at hk ⊢
      rwa [hs]
    rw [hpass.keeps hfinished, hs]
  exact hsteps.invariant (I := fun s => s.lookup k = d.lookup k) hkeep rfl

variable (L jobs) in
/-- Files that look finished are those of a run, or left by one. -/
def Sound (d : Directory κ φ) : Prop :=
  ∀ job ∈ jobs, ∀ f, d.lookup (L.name job) = some f → L.finished f = true →
    L.runs job f ∨ L.leaves job f

section Nodup

variable (hnames : (jobs.map L.name).Nodup)

include hnames

theorem Pass.sound (hjob : job ∈ jobs) (h : L.Pass job d d') (hd : L.Sound jobs d) :
    L.Sound jobs d' := by
  intro job' hjob' f hf hfinished
  by_cases hname : L.name job' = L.name job
  · obtain rfl := List.inj_on_of_nodup_map hnames hjob' hjob hname
    rcases h with _ | ⟨-, hruns⟩
    · exact hd _ hjob' f hf hfinished
    · rw [AList.lookup_insert, Option.some_inj] at hf
      exact .inl (hf ▸ hruns)
  · rw [h.frame hname] at hf
    exact hd job' hjob' f hf hfinished

theorem Cut.sound (hjob : job ∈ jobs) (h : L.Cut job d d') (hd : L.Sound jobs d) :
    L.Sound jobs d' := by
  intro job' hjob' f hf hfinished
  by_cases hname : L.name job' = L.name job
  · obtain rfl := List.inj_on_of_nodup_map hnames hjob' hjob hname
    rcases h with _ | ⟨-, hleaves⟩
    · rw [AList.lookup_erase] at hf
      cases hf
    · rw [AList.lookup_insert, Option.some_inj] at hf
      exact .inr (hf ▸ hleaves)
  · rw [h.frame hname] at hf
    exact hd job' hjob' f hf hfinished

/-- **Any number of sessions** leaves sound files. -/
theorem Resumed.sound (hstart : L.Sound jobs start) (h : L.Resumed jobs start d) :
    L.Sound jobs d := by
  induction h with
  | start => exact hstart
  | @session d d₁ d₂ d₃ done _ hdone hsteps hcut hloses ih =>
    have h₁ : L.Sound jobs d₁ := hsteps.invariant
      (fun job hjob _ _ hpass hs => hpass.sound hnames (hdone.subset hjob) hs) ih
    have h₂ : L.Sound jobs d₂ := by
      rcases hcut with rfl | ⟨job, hjob, hcut⟩
      · exact h₁
      · exact hcut.sound hnames (hjob.subset (List.mem_append_right _ List.mem_cons_self)) h₁
    intro job hjob f hf hfinished
    rcases hloses (L.name job) with hsame | hnot
    · exact h₂ job hjob f (hsame ▸ hf) hfinished
    · rw [isFinished_iff.mpr ⟨f, hf, hfinished⟩] at hnot
      cases hnot

/-- **The files a session has come past** look finished. Each was made by a run that went through,
or had been left before the session. -/
theorem passed (hruns : ∀ job f, L.runs job f → L.finished f = true) (hd : L.Sound jobs d)
    (hdone : done.Sublist jobs) (hsteps : Steps L.Pass done d d') :
    ∀ job ∈ done, ∃ f, d'.lookup (L.name job) = some f ∧ L.finished f = true ∧
      (L.runs job f ∨ L.leaves job f ∧ d.lookup (L.name job) = some f) := by
  induction hsteps with
  | nil => exact fun _ hjob => absurd hjob List.not_mem_nil
  | @cons c cs s t u hpass hsteps ih =>
    have hc : c ∈ jobs := hdone.subset List.mem_cons_self
    intro job hjob
    rcases List.mem_cons.mp hjob with rfl | hjob
    · cases hpass with
      | reuse hreuse =>
        obtain ⟨f, hf, hfinished⟩ := isFinished_iff.mp hreuse
        refine ⟨f, (Pass.keep hsteps hreuse).trans hf, hfinished, ?_⟩
        exact (hd job hc f hf hfinished).imp_right fun hleaves => ⟨hleaves, hf⟩
      | @run f _ hf =>
        have hlookup : (s.insert (L.name job) f).lookup (L.name job) = some f :=
          AList.lookup_insert s
        have hfinished := isFinished_iff.mpr ⟨f, hlookup, hruns job f hf⟩
        exact ⟨f, (Pass.keep hsteps hfinished).trans hlookup, hruns job f hf, .inl hf⟩
    · have hne : L.name job ≠ L.name c := by
        have hnodup := hnames.sublist (hdone.map L.name)
        rw [List.map_cons, List.nodup_cons] at hnodup
        exact fun heq => hnodup.1 (heq ▸ List.mem_map_of_mem hjob)
      obtain ⟨f, hf, hfinished, hmade⟩ := ih (hpass.sound hnames hc hd)
        ((List.sublist_cons_self c cs).trans hdone) job hjob
      exact ⟨f, hf, hfinished, hmade.imp_right fun hleft => ⟨hleft.1, hpass.frame hne ▸ hleft.2⟩⟩

end Nodup

/-! ## Going through -/

section Through

variable (hruns : ∀ job f, L.runs job f → L.finished f = true)

include hruns

/-- The files a session has come past look finished. -/
theorem finished_of_steps (hsteps : Steps L.Pass done d d') :
    ∀ job ∈ done, L.isFinished d' (L.name job) = true := by
  have hkeep : ∀ job job', job' ∈ done → ∀ s t, L.Pass job' s t → True →
      L.isFinished s (L.name job) = true → L.isFinished t (L.name job) = true :=
    fun job job' _ s t hpass _ hs => by
      have hsame := hpass.keeps hs
      unfold isFinished at hs ⊢
      rwa [hsame]
  refine hsteps.each (I := fun _ => True) (P := fun job d => L.isFinished d (L.name job) = true)
    (fun _ _ _ _ _ _ => trivial) (fun job _ s t hpass _ => ?_) hkeep trivial
  cases hpass with
  | reuse h => exact h
  | run _ hf => exact isFinished_iff.mpr ⟨_, AList.lookup_insert s, hruns job _ hf⟩

omit hruns in
/-- Where every file looks finished there is nothing to do. -/
theorem reuses (h : ∀ job ∈ jobs, L.isFinished d (L.name job) = true) : Steps L.Pass jobs d d := by
  induction jobs with
  | nil => exact .nil d
  | cons job jobs ih =>
    exact .cons (.reuse (h job List.mem_cons_self))
      (ih fun job' hjob' => h job' (List.mem_cons_of_mem _ hjob'))

variable (L) in
/-- **Sessions come through** where every job can be run, or be cut off with a file that looks
finished. -/
theorem exists_resumed (jobs : List π) (start : Directory κ φ)
    (hends : ∀ job ∈ jobs, (∃ f, L.runs job f) ∨ ∃ f, L.leaves job f ∧ L.finished f = true) :
    ∃ d d', L.Resumed jobs start d ∧ Steps L.Pass jobs d d' := by
  suffices hprefix : ∀ done, done <+: jobs →
      ∃ d d', L.Resumed jobs start d ∧ Steps L.Pass done d d' from hprefix jobs List.prefix_rfl
  intro done
  induction done using List.reverseRecOn with
  | nil => exact fun _ => ⟨start, start, .start, .nil start⟩
  | append_singleton done job ih =>
    intro hjob
    have hdone : done <+: jobs := (List.prefix_append done [job]).trans hjob
    obtain ⟨d, d', hresumed, hsteps⟩ := ih hdone
    cases hfinished : L.isFinished d' (L.name job) with
    | true => exact ⟨d, d', hresumed, hsteps.append (.one (.reuse hfinished))⟩
    | false =>
      rcases hends job (hjob.subset (List.mem_append_right _ List.mem_cons_self)) with
        ⟨f, hf⟩ | ⟨f, hf, hlooks⟩
      · exact ⟨d, _, hresumed, hsteps.append (.one (.run hfinished hf))⟩
      · -- the next session finds its file, and those of the jobs before
        have hinserted : ∀ job' ∈ done ++ [job],
            L.isFinished (d'.insert (L.name job) f) (L.name job') = true := by
          intro job' hjob'
          by_cases hname : L.name job' = L.name job
          · rw [hname]
            exact isFinished_iff.mpr ⟨f, AList.lookup_insert d', hlooks⟩
          · have hmem : job' ∈ done := (List.mem_append.mp hjob').resolve_right fun hlast =>
              hname (congrArg L.name (List.mem_singleton.mp hlast))
            have hbefore := finished_of_steps hruns hsteps job' hmem
            unfold isFinished at hbefore ⊢
            rwa [AList.lookup_insert_ne hname]
        exact ⟨_, _, .session hresumed hdone hsteps (.inr ⟨job, hjob, .left hfinished hf⟩)
          fun _ => .inl rfl, reuses hinserted⟩

end Through

/-! ## Counting files -/

variable (L) in
/-- The files of a kind that look finished. -/
def produced (p : κ → Bool) (d : Directory κ φ) : ℕ :=
  (d.entries.filter fun entry => p entry.1 && L.finished entry.2).length

theorem le_produced {p : κ → Bool} (hnames : (jobs.map L.name).Nodup)
    (hp : ∀ job ∈ jobs, p (L.name job) = true)
    (h : ∀ job ∈ jobs, L.isFinished d (L.name job) = true) : jobs.length ≤ L.produced p d := by
  have hsub : jobs.map L.name ⊆
      (d.entries.filter fun entry => p entry.1 && L.finished entry.2).map Sigma.fst := by
    intro k hk
    obtain ⟨job, hjob, rfl⟩ := List.mem_map.mp hk
    obtain ⟨f, hf, hfinished⟩ := isFinished_iff.mp (h job hjob)
    refine List.mem_map.mpr ⟨⟨L.name job, f⟩, List.mem_filter.mpr ⟨AList.mem_lookup_iff.mp hf, ?_⟩,
      rfl⟩
    rw [hp job hjob, hfinished]
    rfl
  have hlength := (List.subperm_of_subset hnames hsub).length_le
  rwa [List.length_map, List.length_map] at hlength

end Loop

end Resumption
