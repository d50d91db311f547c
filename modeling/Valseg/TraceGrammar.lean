import Valseg.Numerals

/-!
# The grammar of traces

Which files `loadTrace` accepts. `TraceGrammar` is what its comment documents: the size, then one
operation a line, each with a range inside the array and a version that is published by then.
`loadTrace_eq_ok` says what is accepted: the grammar, after any number of lines that declare the
size zero, which the loop takes for no declaration at all. `loadTrace_grammar` is where that
matters.
-/

namespace Valseg

namespace Bench

/-! ## Fields -/

/-- The loop that cuts a line at its commas: `find` from `start` on, and the field up to there. -/
def fieldsFrom (line : List Char) (start : ℕ) : List (List Char) :=
  if start ≤ line.length then
    match (line.drop start).findIdx? (· = ',') with
    | none => [line.drop start]
    | some length => (line.drop start).take length :: fieldsFrom line (start + length + 1)
  else []
termination_by line.length + 1 - start
decreasing_by omega

/-- It splits the line. -/
theorem fieldsFrom_eq (line : List Char) (start : ℕ) (h : start ≤ line.length) :
    fieldsFrom line start = (line.drop start).splitOn ',' := by
  induction hk : line.length - start using Nat.strong_induction_on generalizing start with
  | _ k ih =>
    rw [fieldsFrom, if_pos h]
    rcases hfind : (line.drop start).findIdx? (· = ',') with _ | length
    · have hnone : ',' ∉ line.drop start := by
        intro hmem
        have := List.findIdx?_eq_none_iff.mp hfind ',' hmem
        simp at this
      rw [List.splitOn_eq_singleton hnone]
    · obtain ⟨hlt, hcomma, hbefore⟩ := List.findIdx?_eq_some_iff_getElem.mp hfind
      have hcut : line.drop start =
          (line.drop start).take length ++ ',' :: line.drop (start + length + 1) := by
        conv_lhs => rw [← List.take_append_drop length (line.drop start)]
        rw [List.drop_eq_getElem_cons hlt, List.drop_drop, decide_eq_true_eq.mp hcomma]
        rfl
      have hnone : ',' ∉ (line.drop start).take length := by
        intro hmem
        obtain ⟨i, hi, heq⟩ := List.getElem_of_mem hmem
        rw [List.length_take] at hi
        rw [List.getElem_take] at heq
        simpa [heq] using hbefore i (by omega)
      rw [List.length_drop] at hlt
      simp only
      conv_rhs => rw [hcut]
      rw [List.splitOn_append_cons_self_of_not_mem hnone, ih _ (by omega) _ (by omega) rfl]

theorem not_mem_of_splitOn {line field : List Char} (h : field ∈ line.splitOn ',') :
    ',' ∉ field := by
  induction line generalizing field with
  | nil =>
    simp only [List.splitOn_nil, List.mem_singleton] at h
    simp [h]
  | cons c line ih =>
    rw [List.splitOn_cons_eq_if_modifyHead] at h
    split_ifs at h with hc
    · rcases List.mem_cons.mp h with rfl | h
      · simp
      · exact ih h
    · obtain ⟨first, others, hsplit⟩ := List.exists_cons_of_ne_nil (List.splitOn_ne_nil ',' line)
      rw [hsplit] at h ih
      rcases List.mem_cons.mp h with rfl | h
      · have hfirst := ih (List.mem_cons_self (a := first))
        have hne : ',' ≠ c := by
          rintro rfl
          simp at hc
        simp [hne, hfirst]
      · exact ih (List.mem_cons_of_mem _ h)

theorem splitOn_eq_iff {line : List Char} {fields : List (List Char)} (hne : fields ≠ []) :
    line.splitOn ',' = fields ↔
      line = [','].intercalate fields ∧ ∀ field ∈ fields, ',' ∉ field := by
  constructor
  · rintro rfl
    exact ⟨(List.intercalate_splitOn ',').symm, fun _ => not_mem_of_splitOn⟩
  · rintro ⟨rfl, hfields⟩
    exact List.splitOn_intercalate ',' hfields hne

/-! ## The documented grammar -/

/-- The line is empty or starts with `#`. -/
def Skipped (line : List Char) : Prop := line = [] ∨ line.head? = some '#'

instance : DecidablePred Skipped := fun line => by unfold Skipped; infer_instance

/-- The lines of a file that are not dropped. -/
def keptLines (contents : List Char) : List (List Char) :=
  (linesOf contents).filter fun line => ¬ Skipped line

/-- `n,<size>`. -/
def DeclaresSize (line : List Char) (size : ℕ) : Prop :=
  ∃ text, ',' ∉ text ∧ line = ['n', ','] ++ text ∧ parseUnsigned text "" = .ok size

/-- `<kind>,<left>,<right>,<argument>`. -/
structure HasFields (line : List Char) (kind : Char) (left right argument : List Char) : Prop where
  line : line = [kind, ','] ++ left ++ [','] ++ right ++ [','] ++ argument
  left : ',' ∉ left
  right : ',' ∉ right
  argument : ',' ∉ argument

/-- `u,l,r,delta`, or `q,l,r,version` after so many `u` lines, with a range of the array. -/
def ReadsOperation (size updates : ℕ) (line : List Char) (op : Operation) : Prop :=
  op.left ≤ op.right ∧ op.right < size ∧ ∃ left right argument,
    parseUnsigned left "" = .ok op.left ∧ parseUnsigned right "" = .ok op.right ∧
    if op.isUpdate then
      HasFields line 'u' left right argument ∧ parseLongLong argument "" = .ok op.delta ∧
        op.version = 0
    else
      HasFields line 'q' left right argument ∧ parseUnsigned argument "" = .ok op.version ∧
        op.version ≤ updates ∧ op.delta = 0

/-- Each line is an operation, and they are those of the stream in the order of the file. -/
def ReadsOperations (size : ℕ) : (updates : ℕ) → List (List Char) → List Operation → Prop
  | _, [], [] => True
  | updates, line :: lines, op :: stream => ReadsOperation size updates line op ∧
      ReadsOperations size (if op.isUpdate then updates + 1 else updates) lines stream
  | _, _, _ => False

/-- The first line declares the size, and the others, at least one, are the operations. -/
def TraceGrammar (lines : List (List Char)) (size : ℕ) (stream : List Operation) : Prop :=
  ∃ first rest, lines = first :: rest ∧ DeclaresSize first size ∧ 1 ≤ size ∧ rest ≠ [] ∧
    ReadsOperations size 0 rest stream

/-! ## One line -/

variable {place : String} {line : List Char} {this next : Loading} {size : ℕ}

theorem parseLongLong_flag {text : List Char} {v : ValueType} (flag : String) :
    parseLongLong text flag = .ok v ↔ parseLongLong text "" = .ok v := by
  unfold parseLongLong
  split_ifs with hempty
  · exact iff_of_false nofun nofun
  rcases strtoll (cString text) with _ | parsed
  · exact iff_of_false nofun nofun
  simp only
  split_ifs
  · exact iff_of_false nofun nofun
  · exact iff_of_false nofun nofun
  · exact Iff.rfl

/-- The variables after an operation. -/
def Loading.push (this : Loading) (op : Operation) : Loading :=
  ⟨this.size, if op.isUpdate then this.published + 1 else this.published, this.stream ++ [op]⟩

theorem hasFields_iff {kind : Char} (hkind : ',' ≠ kind) {left right argument : List Char} :
    HasFields line kind left right argument ↔
      line.splitOn ',' = [[kind], left, right, argument] := by
  rw [splitOn_eq_iff (List.cons_ne_nil _ _)]
  constructor
  · intro h
    refine ⟨by rw [h.line]; simp [List.intercalate], ?_⟩
    simp [hkind, h.left, h.right, h.argument]
  · rintro ⟨rfl, h⟩
    simp only [List.mem_cons, List.not_mem_nil, or_false, forall_eq_or_imp, forall_eq] at h
    exact ⟨by simp [List.intercalate], h.2.1, h.2.2.1, h.2.2.2⟩

theorem declaresSize_iff : DeclaresSize line size ↔
    ∃ text, line.splitOn ',' = [['n'], text] ∧ parseUnsigned text "" = .ok size := by
  refine exists_congr fun text => ?_
  rw [splitOn_eq_iff (List.cons_ne_nil _ _)]
  simp only [List.mem_cons, List.not_mem_nil, or_false, forall_eq_or_imp, forall_eq]
  constructor
  · rintro ⟨hcomma, rfl, hsize⟩
    exact ⟨⟨by simp [List.intercalate], by simp, hcomma⟩, hsize⟩
  · rintro ⟨⟨rfl, -, hcomma⟩, hsize⟩
    exact ⟨hcomma, by simp [List.intercalate], hsize⟩

section OperationLine

variable {kind left right argument : List Char} {updates : ℕ}

/-- An operation line that is accepted. -/
theorem readsOperation_of_load (hsplit : line.splitOn ',' = [kind, left, right, argument])
    (hpublished : this.published = updates + 1)
    (h : loadOperation place kind left right argument this = .ok next) :
    this.size ≠ 0 ∧ ∃ op, ReadsOperation this.size updates line op ∧ next = this.push op := by
  unfold loadOperation at h
  by_cases hkind : kind ≠ ['u'] ∧ kind ≠ ['q']
  · rw [if_pos hkind] at h
    cases h
  rw [if_neg hkind] at h
  by_cases h0 : this.size = 0
  · rw [if_pos h0] at h
    cases h
  rw [if_neg h0] at h
  obtain ⟨l, hl, h⟩ := Effect.bind_eq_ok.mp h
  obtain ⟨r, hr, h⟩ := Effect.bind_eq_ok.mp h
  rw [parseUnsigned_flag ""] at hl hr
  by_cases hrange : l > r ∨ r ≥ this.size
  · rw [if_pos hrange] at h
    cases h
  rw [if_neg hrange] at h
  have hlr : l ≤ r := by omega
  have hsize : r < this.size := by omega
  by_cases hu : kind = ['u']
  · rw [if_pos hu] at h
    obtain ⟨delta, hdelta, h⟩ := Effect.bind_eq_ok.mp h
    rw [parseLongLong_flag] at hdelta
    cases h
    subst hu
    exact ⟨h0, ⟨true, l, r, 0, delta⟩, ⟨hlr, hsize, left, right, argument, hl, hr,
      (hasFields_iff (by decide)).mpr hsplit, hdelta, rfl⟩, rfl⟩
  · rw [if_neg hu] at h
    obtain ⟨version, hversion, h⟩ := Effect.bind_eq_ok.mp h
    rw [parseUnsigned_flag ""] at hversion
    by_cases hlate : version ≥ this.published
    · rw [if_pos hlate] at h
      cases h
    rw [if_neg hlate] at h
    cases h
    have hq : kind = ['q'] := not_not.mp fun hne => hkind ⟨hu, hne⟩
    subst hq
    have hle : version ≤ updates := by omega
    exact ⟨h0, ⟨false, l, r, version, 0⟩, ⟨hlr, hsize, left, right, argument, hl, hr,
      (hasFields_iff (by decide)).mpr hsplit, hversion, hle, rfl⟩, rfl⟩

/-- An operation of the grammar is accepted. -/
theorem load_of_readsOperation (place : String) {op : Operation} (h0 : this.size ≠ 0)
    (hpublished : this.published = updates + 1) (h : ReadsOperation this.size updates line op) :
    ∃ kind left right argument, line.splitOn ',' = [kind, left, right, argument] ∧
      loadOperation place kind left right argument this = .ok (this.push op) := by
  obtain ⟨hlr, hr, left, right, argument, hl, hright, hop⟩ := h
  have hflags : ∀ flag, parseUnsigned left flag = .ok op.left ∧
      parseUnsigned right flag = .ok op.right := fun flag =>
    ⟨(parseUnsigned_flag "").mpr hl, (parseUnsigned_flag "").mpr hright⟩
  have hrange : ¬ (op.left > op.right ∨ op.right ≥ this.size) := by omega
  rcases op with ⟨_ | _, l, r, version, delta⟩
  · obtain ⟨hfields, hversion, hle, rfl⟩ := hop
    refine ⟨['q'], left, right, argument, (hasFields_iff (by decide)).mp hfields, ?_⟩
    have hpublish : ¬ version ≥ this.published := by simp only at hle; omega
    unfold loadOperation
    simp only [(hflags _).1, (hflags _).2, (parseUnsigned_flag "").mpr hversion, if_neg h0,
      if_neg hrange, if_neg hpublish, Effect.ok_bind]
    rfl
  · obtain ⟨hfields, hdelta, rfl⟩ := hop
    refine ⟨['u'], left, right, argument, (hasFields_iff (by decide)).mp hfields, ?_⟩
    unfold loadOperation
    simp only [(hflags _).1, (hflags _).2, (parseLongLong_flag _).mpr hdelta, if_neg h0,
      if_neg hrange, Effect.ok_bind]
    rfl

end OperationLine

/-- **One line.** One that is not dropped declares the size, while there is none, or is an
operation. -/
theorem loadLine_eq_ok (hkept : ¬ Skipped line) (updates : ℕ)
    (hpublished : this.published = updates + 1) : loadLine place line this = .ok next ↔
      (this.size = 0 ∧ ∃ size, DeclaresSize line size ∧ next = { this with size := size }) ∨
        this.size ≠ 0 ∧ ∃ op, ReadsOperation this.size updates line op ∧ next = this.push op := by
  have hskip : ¬ (line = [] ∨ line.head? = some '#') := hkept
  unfold loadLine
  rw [if_neg hskip]
  constructor
  · intro h
    split at h
    · rename_i kind text hsplit
      split_ifs at h with hkind hsize
      · cases h
      · obtain ⟨size, hparse, h⟩ := Effect.bind_eq_ok.mp h
        cases h
        subst hkind
        exact .inl ⟨not_not.mp hsize, size, declaresSize_iff.mpr
          ⟨text, hsplit, (parseUnsigned_flag _).mpr hparse⟩, rfl⟩
      · cases h
    · rename_i hsplit
      exact .inr (readsOperation_of_load hsplit hpublished h)
    · cases h
  · rintro (⟨hsize, size, hdeclares, rfl⟩ | ⟨h0, op, hreads, rfl⟩)
    · obtain ⟨text, hsplit, hparse⟩ := declaresSize_iff.mp hdeclares
      rw [hsplit]
      simp only [if_true, (parseUnsigned_flag "").mpr hparse, hsize, Effect.ok_bind]
      rfl
    · obtain ⟨kind, left, right, argument, hsplit, hload⟩ :=
        load_of_readsOperation place h0 hpublished hreads
      rw [hsplit]
      exact hload

/-! ## All lines -/

variable {path : String} {lines : List (List Char)} {lineNumber updates : ℕ}
  {stream : List Operation}

theorem loadLines_skipped (h : Skipped line) :
    loadLines path (line :: lines) lineNumber this = loadLines path lines (lineNumber + 1) this := by
  have hline : loadLine (path ++ ":" ++ toString lineNumber) line this = .ok this := if_pos h
  rw [loadLines, hline]
  rfl

@[simp] theorem filter_skipped (h : Skipped line) :
    (line :: lines).filter (fun line => ¬ Skipped line) =
      lines.filter fun line => ¬ Skipped line := by
  simp [h]

@[simp] theorem filter_kept (h : ¬ Skipped line) :
    (line :: lines).filter (fun line => ¬ Skipped line) =
      line :: lines.filter fun line => ¬ Skipped line := by
  simp [h]

theorem foldl_push (this : Loading) (stream : List Operation) :
    (stream.foldl Loading.push this).size = this.size ∧
      (stream.foldl Loading.push this).stream = this.stream ++ stream := by
  induction stream generalizing this with
  | nil => simp
  | cons op stream ih =>
    obtain ⟨hsize, hstream⟩ := ih (this.push op)
    rw [List.foldl_cons, hsize, hstream]
    simp [Loading.push]

/-- Once the size is declared, every line that is not dropped is an operation. -/
theorem loadLines_declared (updates : ℕ) (h0 : this.size ≠ 0)
    (hpublished : this.published = updates + 1) :
    loadLines path lines lineNumber this = .ok next ↔
      ∃ stream, ReadsOperations this.size updates (lines.filter fun line => ¬ Skipped line) stream ∧
        next = stream.foldl Loading.push this := by
  induction lines generalizing this updates lineNumber with
  | nil =>
    rw [loadLines, Except.ok.injEq]
    constructor
    · rintro rfl
      exact ⟨[], trivial, rfl⟩
    · rintro ⟨_ | ⟨op, stream⟩, hreads, rfl⟩
      · rfl
      · exact hreads.elim
  | cons line lines ih =>
    by_cases hskip : Skipped line
    · rw [loadLines_skipped hskip, filter_skipped hskip, ih updates h0 hpublished]
    rw [filter_kept hskip, loadLines, Effect.bind_eq_ok]
    have hpush : ∀ op, (this.push op).published =
        (if op.isUpdate then updates + 1 else updates) + 1 := by
      intro op
      simp only [Loading.push, hpublished]
      split_ifs <;> rfl
    have hsize : ∀ op, (this.push op).size ≠ 0 := fun _ => h0
    constructor
    · rintro ⟨mid, hline, hlines⟩
      rcases (loadLine_eq_ok hskip updates hpublished).mp hline with ⟨hzero, -⟩ | ⟨-, op, hop, rfl⟩
      · exact absurd hzero h0
      obtain ⟨stream, hreads, rfl⟩ := (ih _ (hsize op) (hpush op)).mp hlines
      exact ⟨op :: stream, ⟨hop, hreads⟩, rfl⟩
    · rintro ⟨_ | ⟨op, stream⟩, hreads, rfl⟩
      · exact hreads.elim
      obtain ⟨hop, hreads⟩ := hreads
      exact ⟨this.push op, (loadLine_eq_ok hskip updates hpublished).mpr (.inr ⟨h0, op, hop, rfl⟩),
        (ih _ (hsize op) (hpush op)).mpr ⟨stream, hreads, rfl⟩⟩

/-- Lines that declare the size zero leave it undeclared. -/
theorem loadLines_undeclared :
    loadLines path lines lineNumber ⟨0, 1, []⟩ = .ok next ↔ ∃ zeros rest,
      (lines.filter fun line => ¬ Skipped line) = zeros ++ rest ∧
      (∀ line ∈ zeros, DeclaresSize line 0) ∧
      ((rest = [] ∧ next = ⟨0, 1, []⟩) ∨ ∃ first others size stream, rest = first :: others ∧
        DeclaresSize first size ∧ size ≠ 0 ∧ ReadsOperations size 0 others stream ∧
        next = stream.foldl Loading.push ⟨size, 1, []⟩) := by
  induction lines generalizing lineNumber with
  | nil =>
    rw [loadLines, Except.ok.injEq]
    constructor
    · rintro rfl
      exact ⟨[], [], rfl, by simp, .inl ⟨rfl, rfl⟩⟩
    · rintro ⟨zeros, rest, hsplit, -, ⟨-, rfl⟩ | ⟨first, others, size, stream, rfl, -⟩⟩
      · rfl
      · simp at hsplit
  | cons line lines ih =>
    by_cases hskip : Skipped line
    · rw [loadLines_skipped hskip, filter_skipped hskip, ih]
    rw [filter_kept hskip, loadLines, Effect.bind_eq_ok]
    constructor
    · rintro ⟨mid, hline, hlines⟩
      rcases (loadLine_eq_ok hskip 0 rfl).mp hline with
        ⟨-, size, hsize, rfl⟩ | ⟨h0, -⟩
      swap
      · exact absurd rfl h0
      by_cases h0 : size = 0
      · subst h0
        obtain ⟨zeros, rest, hsplit, hzeros, hrest⟩ := ih.mp hlines
        refine ⟨line :: zeros, rest, by rw [hsplit]; rfl, ?_, hrest⟩
        simpa using ⟨hsize, hzeros⟩
      · obtain ⟨stream, hreads, rfl⟩ := (loadLines_declared 0 h0 rfl).mp hlines
        exact ⟨[], _, rfl, by simp, .inr ⟨line, _, size, stream, rfl, hsize, h0, hreads, rfl⟩⟩
    · rintro ⟨_ | ⟨zero, zeros⟩, rest, hsplit, hzeros, hrest⟩
      · rcases hrest with ⟨rfl, -⟩ | ⟨first, others, size, stream, rfl, hsize, h0, hreads, rfl⟩
        · simp at hsplit
        obtain ⟨rfl, rfl⟩ := List.cons.inj hsplit
        exact ⟨⟨size, 1, []⟩,
          (loadLine_eq_ok hskip 0 rfl).mpr (.inl ⟨rfl, size, hsize, rfl⟩),
          (loadLines_declared 0 h0 rfl).mpr ⟨stream, hreads, rfl⟩⟩
      · obtain ⟨rfl, htail⟩ := List.cons.inj hsplit
        refine ⟨⟨0, 1, []⟩, (loadLine_eq_ok hskip 0 rfl).mpr
          (.inl ⟨rfl, 0, hzeros _ List.mem_cons_self, rfl⟩), ?_⟩
        exact ih.mpr ⟨zeros, rest, htail, fun z hz => hzeros z (List.mem_cons_of_mem _ hz), hrest⟩

theorem ReadsOperations.nil_iff (h : ReadsOperations size updates lines stream) :
    lines = [] ↔ stream = [] := by
  cases lines <;> cases stream <;> simp_all [ReadsOperations]

/-! ## Files -/

/-- **Accepted files.** Lines that declare the size zero, and then the grammar. -/
theorem loadTrace_eq_ok {contents : List Char} :
    loadTrace path (some contents) 0 = .ok (stream, size) ↔ ∃ zeros rest,
      keptLines contents = zeros ++ rest ∧ (∀ line ∈ zeros, DeclaresSize line 0) ∧
        TraceGrammar rest size stream := by
  simp only [loadTrace, Effect.bind_eq_ok]
  constructor
  · rintro ⟨this, hlines, h⟩
    obtain ⟨zeros, rest, hsplit, hzeros, hrest⟩ := loadLines_undeclared.mp hlines
    refine ⟨zeros, rest, hsplit, hzeros, ?_⟩
    rcases hrest with ⟨-, rfl⟩ | ⟨first, others, n, ops, rfl, hsize, h0, hreads, rfl⟩
    · cases h
    obtain ⟨hn, hops⟩ := foldl_push ⟨n, 1, []⟩ ops
    rw [hn, hops] at h
    split_ifs at h with hempty
    · cases h
    cases h
    rw [not_or] at hempty
    exact ⟨first, others, rfl, hsize, Nat.one_le_iff_ne_zero.mpr h0,
      fun h => hempty.2 (hreads.nil_iff.mp h), hreads⟩
  · rintro ⟨zeros, rest, hsplit, hzeros, first, others, rfl, hsize, hpos, hne, hreads⟩
    have h0 : size ≠ 0 := by omega
    refine ⟨_, loadLines_undeclared.mpr ⟨zeros, _, hsplit, hzeros,
      .inr ⟨first, others, size, stream, rfl, hsize, h0, hreads, rfl⟩⟩, ?_⟩
    obtain ⟨hn, hops⟩ := foldl_push ⟨size, 1, []⟩ stream
    have hstream : stream ≠ [] := fun h => hne (hreads.nil_iff.mpr h)
    rw [hn, hops, if_neg (by simp [h0, hstream])]
    rfl

/-- The files of the grammar are accepted and no others, with the size they declare and their
operations in order. -/
def AcceptsGrammar (path : String) (contents : List Char) : Prop :=
  ((∃ result, loadTrace path (some contents) 0 = .ok result) ↔
    ∃ size stream, TraceGrammar (keptLines contents) size stream) ∧
  ∀ stream size, loadTrace path (some contents) 0 = .ok (stream, size) →
    TraceGrammar (keptLines contents) size stream

/-- One or more lines that declare the size zero, and then the grammar. -/
def ZeroDeclaredBefore (lines : List (List Char)) : Prop :=
  ∃ zeros rest, lines = zeros ++ rest ∧ zeros ≠ [] ∧ (∀ line ∈ zeros, DeclaresSize line 0) ∧
    ∃ size stream, TraceGrammar rest size stream

theorem DeclaresSize.unique {n : ℕ} (h : DeclaresSize line size) (h' : DeclaresSize line n) :
    size = n := by
  obtain ⟨text, -, rfl, hparse⟩ := h
  obtain ⟨text', -, htext, hparse'⟩ := h'
  rw [← List.append_cancel_left htext, hparse] at hparse'
  exact Except.ok.inj hparse'

/-- A file of the grammar starts with no such line. -/
theorem TraceGrammar.not_zero {zeros rest : List (List Char)}
    (h : TraceGrammar (zeros ++ rest) size stream) (hzeros : ∀ line ∈ zeros, DeclaresSize line 0) :
    zeros = [] := by
  obtain ⟨first, others, hlines, hsize, hpos, -⟩ := h
  rcases zeros with _ | ⟨zero, zeros⟩
  · rfl
  · obtain ⟨rfl, -⟩ := List.cons.inj hlines
    have := (hzeros _ List.mem_cons_self).unique hsize
    omega

/-- **Exactly where the size zero is declared first another grammar is accepted.** -/
theorem loadTrace_grammar (path : String) (contents : List Char) :
    AcceptsGrammar path contents ↔ ¬ ZeroDeclaredBefore (keptLines contents) := by
  constructor
  · rintro ⟨-, haccepted⟩ ⟨zeros, rest, hsplit, hne, hzeros, size, stream, hgrammar⟩
    have h := haccepted stream size (loadTrace_eq_ok.mpr ⟨zeros, rest, hsplit, hzeros, hgrammar⟩)
    rw [hsplit] at h
    exact hne (h.not_zero hzeros)
  · intro hslip
    have haccepted : ∀ stream size, loadTrace path (some contents) 0 = .ok (stream, size) →
        TraceGrammar (keptLines contents) size stream := by
      intro stream size h
      obtain ⟨zeros, rest, hsplit, hzeros, hgrammar⟩ := loadTrace_eq_ok.mp h
      rcases zeros with _ | ⟨zero, zeros⟩
      · rw [hsplit]
        exact hgrammar
      · exact absurd ⟨_, rest, hsplit, List.cons_ne_nil _ _, hzeros, size, stream, hgrammar⟩ hslip
    refine ⟨⟨?_, ?_⟩, haccepted⟩
    · rintro ⟨⟨stream, size⟩, h⟩
      exact ⟨size, stream, haccepted stream size h⟩
    · rintro ⟨size, stream, h⟩
      exact ⟨(stream, size), loadTrace_eq_ok.mpr ⟨[], _, rfl, by simp, h⟩⟩

/-- A size that is declared zero and then two. -/
def redeclaredTrace : List Char :=
  ['n', ',', '0', '\n', 'n', ',', '2', '\n', 'u', ',', '0', ',', '1', ',', '5', '\n']

theorem redeclared_trace_accepted :
    loadTrace "redeclared" (some redeclaredTrace) 0 = .ok ([⟨true, 0, 1, 0, 5⟩], 2) ∧
      ¬ AcceptsGrammar "redeclared" redeclaredTrace := by
  have haccepted : loadTrace "redeclared" (some redeclaredTrace) 0 =
      .ok ([⟨true, 0, 1, 0, 5⟩], 2) := by decide +kernel
  refine ⟨haccepted, fun h => ?_⟩
  have hgrammar := h.2 _ _ haccepted
  have hkept : keptLines redeclaredTrace = [['n', ',', '0']] ++
      [['n', ',', '2'], ['u', ',', '0', ',', '1', ',', '5']] := by decide +kernel
  rw [hkept] at hgrammar
  refine List.cons_ne_nil _ _ (hgrammar.not_zero ?_)
  simp only [List.mem_singleton, forall_eq]
  exact ⟨['0'], by decide, rfl, by decide⟩

end Bench

end Valseg
