import Valseg.CampaignShards
import Valseg.Numerals

/-!
# The command line

`parse` of `bench/bench_main.cpp`. An option is a word of its own or a word with the next one as its
value. Where one is given more than once the last of them counts, whatever stands between them
(`parseFlags_eq_ok`, `foldl_reads`), and what is accepted has passed the checks (`parse_eq_ok`).

`strtod` is the platform's. The usage text of `--help` is left out.
-/

namespace Valseg

namespace Bench

variable {D : Type}

/-! ## Options -/

/-- `Options`, with those that a campaign does not read. -/
structure CommandLine (D : Type) extends Options D where
  outDir : String := "bench/results/raw"
  tag : String := ""
  warmupSeconds : ℕ := 20
  trace : String := ""
  structural : Bool := false
  list : Bool := false
  listCells : Bool := false
  outDirGiven : Bool := false

/-- `std::exit` before anything is run. -/
inductive Exit
  | help
  | failed (message : String)
  deriving DecidableEq, Repr

abbrev failed {α : Type} (x : Failing α) : Except Exit α := x.mapError .failed

/-- A number that is all of its text. -/
def parseNumber {α : Type} (conversion : List Char → Option (Converted α)) (kind : String)
    (text : List Char) (flag : String) : Failing α :=
  if text = [] then fail (flag ++ kind ++ .ofList text)
  else match conversion (cString text) with
    | none => fail (flag ++ kind ++ .ofList text)
    | some parsed =>
      if parsed.rest ≠ [] then fail (flag ++ kind ++ .ofList text)
      else if parsed.outOfRange then fail (flag ++ " is out of range: " ++ .ofList text)
      else .ok parsed.value

/-- `long` has 64 bits. -/
def parseLong : (text : List Char) → (flag : String) → Failing ℤ :=
  parseNumber strtoll " must be an integer: "

def parseDouble (strtod : List Char → Option (Converted D)) :
    (text : List Char) → (flag : String) → Failing D :=
  parseNumber strtod " must be a number: "

theorem parseNumber_eq_ok {α : Type} {conversion : List Char → Option (Converted α)}
    {kind flag : String} {text : List Char} {v : α} :
    parseNumber conversion kind text flag = .ok v ↔
      text ≠ [] ∧ conversion (cString text) = some ⟨v, [], false⟩ := by
  unfold parseNumber
  by_cases hempty : text = []
  · rw [if_pos hempty]
    exact iff_of_false (by rintro ⟨⟩) fun h => h.1 hempty
  rw [if_neg hempty, and_iff_right hempty]
  rcases conversion (cString text) with _ | ⟨value, rest, outOfRange⟩
  · exact iff_of_false (by rintro ⟨⟩) (by rintro ⟨⟩)
  simp only [Option.some.injEq, Converted.mk.injEq]
  split_ifs with hrest hrange
  · exact iff_of_false (by rintro ⟨⟩) fun h => hrest h.2.1
  · exact iff_of_false (by rintro ⟨⟩) fun h => by rw [h.2.2] at hrange; cases hrange
  · rw [Except.ok.injEq]
    exact ⟨fun h => ⟨h, not_not.mp hrest, Bool.eq_false_iff.mpr hrange⟩, fun h => h.1⟩

def timingMode (value : String) : Failing TimingMode :=
  if value = "interleaved" then .ok .interleaved
  else if value = "batch" then .ok .batch
  else if value = "latency" then .ok .latency
  else fail "--mode must be interleaved, batch or latency"

/-! ## Flags -/

/-- What follows an option, and what it sets. -/
inductive Flag (D : Type)
  | alone (set : CommandLine D → CommandLine D)
  | valued (read : (flag value : String) → Failing (CommandLine D → CommandLine D))
  | help

/-- An option whose value is a text. -/
def Flag.text (set : String → CommandLine D → CommandLine D) : Flag D :=
  .valued fun _ value => .ok (set value)

/-- An option whose value is not negative. -/
def Flag.unsigned (set : ℕ → CommandLine D → CommandLine D) : Flag D :=
  .valued fun flag value => do return set (← parseUnsigned value.toList flag)

def Flag.long (set : ℤ → CommandLine D → CommandLine D) : Flag D :=
  .valued fun flag value => do return set (← parseLong value.toList flag)

section Parse

variable (strtod : List Char → Option (Converted D))

/-- The branches of the loop, in its order. -/
def flags : List (String × Flag D) :=
  [("--list", .alone fun o => { o with list := true }),
    ("--list-cells", .alone fun o => { o with listCells := true }),
    ("--smoke", .alone fun o => { o with smoke := true }),
    ("--structural", .alone fun o => { o with structural := true }),
    ("--warmup-seconds", .unsigned fun n o => { o with warmupSeconds := n }),
    ("--batch-trials", .unsigned fun n o => { o with batchTrials := n }),
    ("--mode", .valued fun _ value => do
      let mode ← timingMode value
      return fun o => { o with mode := mode }),
    ("--sample-every", .unsigned fun n o => { o with sampleEvery := n }),
    ("--n", .unsigned fun n o => { o with sizeFilter := n }),
    ("--variant", .valued fun flag value => do
      let variant ← parseDouble strtod value.toList flag
      return fun o => { o with variantFilter := some variant }),
    ("--trial-index", .long fun k o => { o with trialIndex := k }),
    ("--exec-order", .long fun k o => { o with execOrder := k }),
    ("--process-seq", .long fun k o => { o with processSeq := k }),
    ("--trace-id", .text fun value o => { o with traceId := value }),
    ("--no-shuffle", .alone fun o => { o with shuffle := false }),
    ("--workload", .text fun value o => { o with workloadFilter := value }),
    ("--structure", .text fun value o => { o with structureFilter := value }),
    ("--out-dir", .text fun value o => { o with outDir := value, outDirGiven := true }),
    ("--tag", .text fun value o => { o with tag := value }),
    ("--seed", .unsigned fun n o => { o with seed := .ofNat n }),
    ("--trials", .unsigned fun n o => { o with trials := n }),
    ("--warmup", .unsigned fun n o => { o with warmup := n }),
    ("--capped-trials", .unsigned fun n o => { o with cappedTrials := n }),
    ("--trace", .text fun value o => { o with trace := value }),
    ("--cap-mib", .unsigned fun n o => { o with capMiB := .ofNat n }),
    ("--help", .help)]

/-- The loop over the words. -/
def parseFlags : List String → CommandLine D → Except Exit (CommandLine D)
  | [], options => .ok options
  | flag :: rest, options =>
    match (flags strtod).lookup flag, rest with
    | some (.alone set), rest => parseFlags rest (set options)
    | some (.valued read), value :: rest => do
      let set ← failed (read flag value)
      parseFlags rest (set options)
    | some .help, _ => .error .help
    | _, _ => failed (fail ("unknown or incomplete option: " ++ flag))

def findWorkload (platform : Platform D) (id : String) : Option (FrozenWorkload D) :=
  (workloads platform).find? fun workload => workload.id = id

/-- A smoke run that is told no directory writes into its own. -/
def CommandLine.placed (options : CommandLine D) : CommandLine D :=
  if options.smoke ∧ ¬ options.outDirGiven then { options with outDir := "." } else options

/-- The checks after the loop. -/
def checkOptions (platform : Platform D) (table : List Structure) (options : CommandLine D) :
    Failing (CommandLine D) :=
  if options.trials = 0 then fail "--trials must be at least 1"
  else if options.cappedTrials = 0 then fail "--capped-trials must be at least 1"
  else if options.sampleEvery = 0 then fail "--sample-every must be at least 1"
  else if 0 ≤ options.trialIndex ∧ options.trials ≤ options.trialIndex then
    fail "--trial-index must be below --trials"
  else
    let options := options.placed
    let traceFilter := options.workloadFilter = "WT" ∧ options.trace ≠ ""
    if options.workloadFilter ≠ "all" ∧ ¬ traceFilter ∧
        findWorkload platform options.workloadFilter = none then
      fail ("no such workload: " ++ options.workloadFilter)
    else if options.structureFilter ≠ "all" ∧
        ¬ ∃ subject ∈ table, options.structureFilter = subject.name then
      fail ("no such structure: " ++ options.structureFilter)
    else .ok options

def parse (platform : Platform D) (table : List Structure) (args : List String) :
    Except Exit (CommandLine D) := do
  let options ← parseFlags strtod args {}
  failed (checkOptions platform table options)

end Parse

/-! ## Arguments -/

/-- An option as it is given, with its value if it has one. -/
abbrev Argument := String × Option String

def Argument.words (s : Argument) : List String := s.1 :: s.2.toList

/-- The last value of each option that is given, which is empty for those without one. -/
def lastOf (given : List Argument) (flag : String) : Option String :=
  (given.reverse.lookup flag).map fun value => value.getD ""

theorem lastOf_append (given : List Argument) (s : Argument) :
    lastOf (given ++ [s]) = Function.update (lastOf given) s.1 (some (s.2.getD "")) := by
  funext flag
  unfold lastOf
  rw [List.reverse_append, List.reverse_singleton, List.singleton_append, List.lookup_cons]
  by_cases h : flag = s.1
  · rw [h, Function.update_self, beq_self_eq_true]
    rfl
  · rw [Function.update_of_ne h, beq_eq_false_iff_ne.mpr h]

section Arguments

variable (strtod : List Char → Option (Converted D))

/-- An argument that is accepted, with what it sets. -/
inductive Reads : Argument → (CommandLine D → CommandLine D) → Prop
  | alone {flag : String} {set : CommandLine D → CommandLine D}
      (h : (flags strtod).lookup flag = some (.alone set)) : Reads (flag, none) set
  | valued {flag value : String} {set : CommandLine D → CommandLine D}
      {read : (flag value : String) → Failing (CommandLine D → CommandLine D)}
      (h : (flags strtod).lookup flag = some (.valued read)) (hread : read flag value = .ok set) :
      Reads (flag, some value) set

omit strtod in
theorem mapError_eq_ok {α : Type} {x : Failing α} {a : α} : failed x = .ok a ↔ x = .ok a := by
  rcases x with _ | _ <;> simp [Except.mapError]

/-- The words of an argument are read together. -/
theorem parseFlags_reads {a : Argument} {set : CommandLine D → CommandLine D}
    (h : Reads strtod a set) (args : List String) (options : CommandLine D) :
    parseFlags strtod (a.words ++ args) options = parseFlags strtod args (set options) := by
  cases h with
  | alone h =>
    show parseFlags strtod (_ :: args) options = _
    rw [parseFlags.eq_def]
    simp only [h]
  | @valued flag value set read h hread =>
    show parseFlags strtod (flag :: value :: args) options = _
    rw [parseFlags.eq_def]
    simp only [h, hread]
    rfl

/-- **The loop** reads arguments one after another. -/
theorem parseFlags_eq_ok {args : List String} {options options' : CommandLine D} :
    parseFlags strtod args options = .ok options' ↔ ∃ given sets,
      args = given.flatMap Argument.words ∧ List.Forall₂ (Reads strtod) given sets ∧
        options' = sets.foldl (fun o set => set o) options := by
  constructor
  · intro h
    induction args, options using parseFlags.induct strtod with
    | case1 options =>
      cases h
      exact ⟨[], [], rfl, .nil, rfl⟩
    | case2 flag options set rest hlookup ih =>
      rw [parseFlags.eq_def] at h
      simp only [hlookup] at h
      obtain ⟨given, sets, rfl, hreads, rfl⟩ := ih h
      exact ⟨(flag, none) :: given, set :: sets, rfl, .cons (.alone hlookup) hreads, rfl⟩
    | case3 flag options read value rest hlookup ih =>
      rw [parseFlags.eq_def] at h
      simp only [hlookup] at h
      obtain ⟨set, hset, h⟩ := Effect.bind_eq_ok.mp h
      have hread := mapError_eq_ok.mp hset
      obtain ⟨given, sets, rfl, hreads, rfl⟩ := ih set h
      exact ⟨(flag, some value) :: given, set :: sets, rfl, .cons (.valued hlookup hread) hreads, rfl⟩
    | case4 flag rest options hlookup =>
      rw [parseFlags.eq_def] at h
      simp only [hlookup] at h
      cases h
    | case5 flag rest options halone hvalued hhelp =>
      rw [parseFlags.eq_def] at h
      simp only at h
      cases h
  · rintro ⟨given, sets, rfl, hreads, rfl⟩
    induction hreads generalizing options with
    | nil => rfl
    | cons h _ ih =>
      rw [List.flatMap_cons, parseFlags_reads strtod h]
      exact ih

def unsignedOf (value : String) : ℕ := (parseUnsigned value.toList "").toOption.getD 0

def longOf (value : String) : ℤ := (parseLong value.toList "").toOption.getD 0

def modeOf (value : String) : TimingMode := (timingMode value).toOption.getD .interleaved

/-- The options with these values, and the defaults for the others. -/
def optionsOf (last : String → Option String) : CommandLine D where
  workloadFilter := (last "--workload").getD "all"
  structureFilter := (last "--structure").getD "all"
  seed := (last "--seed").elim 20260818 fun value => .ofNat (unsignedOf value)
  trials := (last "--trials").elim 5 unsignedOf
  capMiB := (last "--cap-mib").elim 4096 fun value => .ofNat (unsignedOf value)
  warmup := (last "--warmup").elim 1 unsignedOf
  cappedTrials := (last "--capped-trials").elim 2 unsignedOf
  batchTrials := (last "--batch-trials").elim 2 unsignedOf
  mode := (last "--mode").elim .interleaved modeOf
  sampleEvery := (last "--sample-every").elim 64 unsignedOf
  sizeFilter := (last "--n").elim 0 unsignedOf
  variantFilter := (last "--variant").bind fun value =>
    (parseDouble strtod value.toList "").toOption
  trialIndex := (last "--trial-index").elim (-1) longOf
  smoke := (last "--smoke").isSome
  shuffle := (last "--no-shuffle").isNone
  traceId := (last "--trace-id").getD ""
  execOrder := (last "--exec-order").elim (-1) longOf
  processSeq := (last "--process-seq").elim (-1) longOf
  outDir := (last "--out-dir").getD "bench/results/raw"
  tag := (last "--tag").getD ""
  warmupSeconds := (last "--warmup-seconds").elim 20 unsignedOf
  trace := (last "--trace").getD ""
  structural := (last "--structural").isSome
  list := (last "--list").isSome
  listCells := (last "--list-cells").isSome
  outDirGiven := (last "--out-dir").isSome

variable {strtod} {last : String → Option String} {flag value : String}
  {set : CommandLine D → CommandLine D}

theorem lookup_mem {f : Flag D} (h : (flags strtod).lookup flag = some f) :
    (flag, f) ∈ flags strtod := by
  obtain ⟨l, r, hflags, -⟩ := List.lookup_eq_some_iff.mp h
  rw [hflags]
  exact List.mem_append_right _ List.mem_cons_self

theorem optionsOf_none : optionsOf strtod (fun _ => none) = {} := rfl

theorem optionsOf_alone (h : (flags strtod).lookup flag = some (.alone set)) :
    set (optionsOf strtod last) = optionsOf strtod (Function.update last flag (some "")) := by
  have hmem := lookup_mem h
  unfold flags at hmem
  simp only [List.mem_cons, List.not_mem_nil, or_false, Prod.mk.injEq, Flag.alone.injEq,
    Flag.text, Flag.unsigned, Flag.long, reduceCtorEq, and_false, false_or] at hmem
  rcases hmem with ⟨rfl, rfl⟩ | ⟨rfl, rfl⟩ | ⟨rfl, rfl⟩ | ⟨rfl, rfl⟩ | ⟨rfl, rfl⟩ <;> rfl

/-- A number is read the same whatever the message would have said. -/
theorem unsigned_eq_ok {put : ℕ → CommandLine D → CommandLine D}
    (h : (do return put (← parseUnsigned value.toList flag) : Failing _) = .ok set) :
    set = put (unsignedOf value) := by
  obtain ⟨n, hn, h⟩ := Effect.bind_eq_ok.mp h
  cases h
  unfold unsignedOf
  rw [(parseUnsigned_flag "").mp hn]
  rfl

theorem long_eq_ok {put : ℤ → CommandLine D → CommandLine D}
    (h : (do return put (← parseLong value.toList flag) : Failing _) = .ok set) :
    set = put (longOf value) := by
  obtain ⟨v, hv, h⟩ := Effect.bind_eq_ok.mp h
  cases h
  unfold longOf
  rw [show parseLong value.toList "" = .ok v from parseNumber_eq_ok.mpr (parseNumber_eq_ok.mp hv)]
  rfl

theorem optionsOf_valued {read : (flag value : String) → Failing (CommandLine D → CommandLine D)}
    (h : (flags strtod).lookup flag = some (.valued read)) (hread : read flag value = .ok set) :
    set (optionsOf strtod last) = optionsOf strtod (Function.update last flag (some value)) := by
  have hmem := lookup_mem h
  unfold flags at hmem
  simp only [List.mem_cons, List.not_mem_nil, or_false, Prod.mk.injEq, Flag.valued.injEq,
    Flag.text, Flag.unsigned, Flag.long, reduceCtorEq, and_false, false_or] at hmem
  rcases hmem with ⟨rfl, rfl⟩ | ⟨rfl, rfl⟩ | ⟨rfl, rfl⟩ | ⟨rfl, rfl⟩ | ⟨rfl, rfl⟩ | ⟨rfl, rfl⟩ |
    ⟨rfl, rfl⟩ | ⟨rfl, rfl⟩ | ⟨rfl, rfl⟩ | ⟨rfl, rfl⟩ | ⟨rfl, rfl⟩ | ⟨rfl, rfl⟩ | ⟨rfl, rfl⟩ |
    ⟨rfl, rfl⟩ | ⟨rfl, rfl⟩ | ⟨rfl, rfl⟩ | ⟨rfl, rfl⟩ | ⟨rfl, rfl⟩ | ⟨rfl, rfl⟩ | ⟨rfl, rfl⟩
  -- the mode and the variant are read in their own ways
  case inr.inr.inl =>
    obtain ⟨mode, hmode, hset⟩ := Effect.bind_eq_ok.mp hread
    cases hset
    have hvalue : modeOf value = mode := by
      unfold modeOf
      rw [hmode]
      rfl
    rw [← hvalue]
    rfl
  case inr.inr.inr.inr.inr.inl =>
    obtain ⟨variant, hvariant, hset⟩ := Effect.bind_eq_ok.mp hread
    cases hset
    have hvalue : some variant = (parseDouble strtod value.toList "").toOption := by
      rw [show parseDouble strtod value.toList "" = .ok variant from
        parseNumber_eq_ok.mpr (parseNumber_eq_ok.mp hvariant)]
      rfl
    rw [hvalue]
    rfl
  all_goals first
    | (rw [unsigned_eq_ok hread]; rfl)
    | (rw [long_eq_ok hread]; rfl)
    | (cases hread; rfl)

theorem optionsOf_reads {a : Argument} (h : Reads strtod a set) (before : List Argument) :
    set (optionsOf strtod (lastOf before)) = optionsOf strtod (lastOf (before ++ [a])) := by
  rw [lastOf_append]
  cases h with
  | alone h => exact optionsOf_alone h
  | valued h hread => exact optionsOf_valued h hread

/-- **The last value counts.** -/
theorem foldl_reads (before : List Argument) {given : List Argument}
    {sets : List (CommandLine D → CommandLine D)} (h : List.Forall₂ (Reads strtod) given sets) :
    sets.foldl (fun o set => set o) (optionsOf strtod (lastOf before)) =
      optionsOf strtod (lastOf (before ++ given)) := by
  induction h generalizing before with
  | nil => rw [List.append_nil, List.foldl_nil]
  | @cons a set given sets h _ ih =>
    rw [List.foldl_cons, optionsOf_reads h, ih, List.append_assoc, List.singleton_append]

end Arguments

/-! ## What is accepted -/

section Accepted

variable {strtod : List Char → Option (Converted D)} {platform : Platform D}
  {table : List Structure} {options options' : CommandLine D}

variable (platform table) in
/-- Options that pass the checks. -/
structure CommandLine.Checked (options : CommandLine D) : Prop where
  trials : 0 < options.trials
  cappedTrials : 0 < options.cappedTrials
  sampleEvery : 0 < options.sampleEvery
  trialIndex : options.trialIndex < options.trials
  workload : options.workloadFilter = "all" ∨
    (options.workloadFilter = "WT" ∧ options.trace ≠ "") ∨
      ∃ workload ∈ workloads platform, workload.id = options.workloadFilter
  subject : options.structureFilter = "all" ∨
    ∃ subject ∈ table, options.structureFilter = subject.name

theorem placed_filters (options : CommandLine D) :
    options.placed.workloadFilter = options.workloadFilter ∧
      options.placed.trace = options.trace ∧
        options.placed.structureFilter = options.structureFilter := by
  unfold CommandLine.placed
  split_ifs <;> exact ⟨rfl, rfl, rfl⟩

theorem checkOptions_eq_ok : checkOptions platform table options = .ok options' ↔
    options.Checked platform table ∧ options' = options.placed := by
  obtain ⟨hworkload, htrace, hstructure⟩ := placed_filters options
  have hfind : findWorkload platform options.workloadFilter = none ↔
      ¬ ∃ workload ∈ workloads platform, workload.id = options.workloadFilter := by
    unfold findWorkload
    simp only [List.find?_eq_none, decide_eq_true_eq, not_exists, not_and]
  unfold checkOptions
  simp only [hworkload, htrace, hstructure, hfind]
  constructor
  · intro h
    split_ifs at h with h1 h2 h3 h4 h5 h6
    all_goals cases h
    refine ⟨⟨by omega, by omega, by omega, by omega, ?_, ?_⟩, rfl⟩
    · by_contra hno
      simp only [not_or] at hno
      exact h5 ⟨hno.1, hno.2.1, hno.2.2⟩
    · by_contra hno
      simp only [not_or] at hno
      exact h6 hno
  · rintro ⟨h, rfl⟩
    rw [if_neg h.trials.ne', if_neg h.cappedTrials.ne', if_neg h.sampleEvery.ne',
      if_neg fun hc => absurd h.trialIndex (by omega), if_neg, if_neg]
    · rintro ⟨hall, hnone⟩
      rcases h.subject with heq | hmem
      · exact hall heq
      · exact hnone hmem
    · rintro ⟨hall, htrace, hnone⟩
      rcases h.workload with heq | heq | hmem
      · exact hall heq
      · exact htrace heq
      · exact hnone hmem

theorem exists_sets {given : List Argument} (h : ∀ a ∈ given, ∃ set, Reads strtod a set) :
    ∃ sets, List.Forall₂ (Reads strtod) given sets := by
  induction given with
  | nil => exact ⟨[], .nil⟩
  | cons a given ih =>
    obtain ⟨set, hset⟩ := h a List.mem_cons_self
    obtain ⟨sets, hsets⟩ := ih fun b hb => h b (List.mem_cons_of_mem _ hb)
    exact ⟨set :: sets, .cons hset hsets⟩

/-- **Command lines.** What is accepted is a list of known options with values of their kinds,
whose last values pass the checks and are the options; the others have their defaults. -/
theorem parse_eq_ok {args : List String} : parse strtod platform table args = .ok options' ↔
    ∃ given : List Argument, args = given.flatMap Argument.words ∧
      (∀ a ∈ given, ∃ set, Reads strtod a set) ∧
        (optionsOf strtod (lastOf given)).Checked platform table ∧
          options' = (optionsOf strtod (lastOf given)).placed := by
  unfold parse
  constructor
  · intro h
    obtain ⟨options, hflags, hcheck⟩ := Effect.bind_eq_ok.mp h
    obtain ⟨given, sets, hargs, hreads, rfl⟩ := (parseFlags_eq_ok strtod).mp hflags
    have hlast := foldl_reads [] hreads
    rw [show optionsOf strtod (lastOf []) = {} from optionsOf_none, List.nil_append] at hlast
    rw [mapError_eq_ok, hlast, checkOptions_eq_ok] at hcheck
    refine ⟨given, hargs, fun a ha => ?_, hcheck⟩
    obtain ⟨set, -, hset⟩ := Effect.Steps.exists_point (R := fun set a => Reads strtod a set)
      hreads.flip ha
    exact ⟨set, hset⟩
  · rintro ⟨given, rfl, hreads, hcheck⟩
    obtain ⟨sets, hsets⟩ := exists_sets hreads
    have hlast := foldl_reads [] hsets
    rw [show optionsOf strtod (lastOf []) = {} from optionsOf_none, List.nil_append] at hlast
    refine Effect.bind_eq_ok.mpr ⟨_, (parseFlags_eq_ok strtod).mpr ⟨given, sets, rfl, hsets, rfl⟩, ?_⟩
    rw [mapError_eq_ok, hlast, checkOptions_eq_ok]
    exact hcheck

end Accepted

end Bench

end Valseg
