import Valseg.ReplayOrder

/-!
# Traces

`loadTrace` of `bench/bench_main.cpp`: the stream of operations in a file, one operation a line
after a line with the size. The whole file is checked before anything is replayed, and what is
accepted is a valid stream of a positive size (`loadTrace_valid`).

A file is a list of bytes, written as characters. `strtoull` and `strtoll` are those of the C
standard in base 10 and the "C" locale.
-/

namespace Valseg

namespace Bench

/-! ## Numbers -/

/-- `std::isspace`. -/
def isSpace (c : Char) : Bool := c = ' ' ∨ ('\t' ≤ c ∧ c ≤ '\r')

/-- The text of `c_str()`, which ends at the first zero byte. -/
def cString (text : List Char) : List Char := text.takeWhile fun c => c.toNat ≠ 0

/-- A sign and the text after it. -/
def signOf : List Char → Bool × List Char
  | '-' :: text => (true, text)
  | '+' :: text => (false, text)
  | text => (false, text)

def digitsValue (digits : List Char) : ℕ :=
  digits.foldl (fun value c => 10 * value + (c.toNat - '0'.toNat)) 0

/-- A conversion: the value, the text where it ended, and whether `errno` is `ERANGE`. -/
structure Converted (α : Type) where
  value : α
  rest : List Char
  outOfRange : Bool

/-- White space, a sign and at least one digit; without a digit nothing is converted. -/
def convert {α : Type} (value : (negative : Bool) → ℕ → α × Bool) (text : List Char) :
    Option (Converted α) :=
  let (negative, text) := signOf (text.dropWhile isSpace)
  let digits := text.takeWhile Char.isDigit
  if digits = [] then none
  else
    let (value, outOfRange) := value negative (digitsValue digits)
    some ⟨value, text.dropWhile Char.isDigit, outOfRange⟩

/-- A negative number is negated in `unsigned long long`. -/
def strtoull : List Char → Option (Converted ℕ) := convert fun negative value =>
  if value ≥ 2 ^ 64 then (2 ^ 64 - 1, true)
  else (if negative then (2 ^ 64 - value) % 2 ^ 64 else value, false)

def strtoll : List Char → Option (Converted ℤ) := convert fun negative value =>
  if negative then (if value > 2 ^ 63 then (-2 ^ 63, true) else (-value, false))
  else if value ≥ 2 ^ 63 then (2 ^ 63 - 1, true) else (value, false)

/-- `fail` prints its message and ends the program. -/
abbrev Failing (α : Type) := Except String α

def fail {α : Type} (message : String) : Failing α := .error ("valseg_bench: " ++ message)

def parseUnsigned (text : List Char) (flag : String) : Failing ℕ :=
  if text = [] ∨ text.head? = some '-' then
    fail (flag ++ " must be a non-negative integer: " ++ .ofList text)
  else match strtoull (cString text) with
    | none => fail (flag ++ " must be a non-negative integer: " ++ .ofList text)
    | some parsed =>
      if parsed.rest ≠ [] then fail (flag ++ " must be a non-negative integer: " ++ .ofList text)
      else if parsed.outOfRange then fail (flag ++ " is out of range: " ++ .ofList text)
      else .ok parsed.value

def parseLongLong (text : List Char) (flag : String) : Failing ValueType :=
  if text = [] then fail (flag ++ " must be an integer: " ++ .ofList text)
  else match strtoll (cString text) with
    | none => fail (flag ++ " must be an integer: " ++ .ofList text)
    | some parsed =>
      if parsed.rest ≠ [] then fail (flag ++ " must be an integer: " ++ .ofList text)
      else if parsed.outOfRange then fail (flag ++ " is out of range: " ++ .ofList text)
      else .ok (.ofInt parsed.value)

/-! ## Lines -/

/-- What `std::getline` reads one after another: there is no line after a last newline. -/
def linesOf (contents : List Char) : List (List Char) :=
  let lines := contents.splitOn '\n'
  if lines.getLast? = some [] then lines.dropLast else lines

/-- The variables of the loop over the lines. -/
structure Loading where
  size : ℕ
  published : ℕ
  stream : List Operation
  deriving DecidableEq, Repr

/-- `u,left,right,delta` or `q,left,right,version`. -/
def loadOperation (place : String) (kind left right argument : List Char) (this : Loading) :
    Failing Loading := do
  if kind ≠ ['u'] ∧ kind ≠ ['q'] then fail (place ++ ": expected n,<size> or u|q,l,r,arg")
  else if this.size = 0 then
    fail (place ++ ": n must be declared before the first operation")
  else
    let left ← parseUnsigned left (place ++ " left")
    let right ← parseUnsigned right (place ++ " right")
    if left > right ∨ right ≥ this.size then
      fail (place ++ ": range [" ++ toString left ++ ", " ++ toString right ++
        "] is not inside [0, " ++ toString this.size ++ ")")
    else if kind = ['u'] then
      let delta ← parseLongLong argument (place ++ " delta")
      return { this with
        stream := this.stream ++ [⟨true, left, right, 0, delta⟩]
        published := this.published + 1 }
    else
      let version ← parseUnsigned argument (place ++ " version")
      if version ≥ this.published then
        fail (place ++ ": version " ++ toString version ++ " is not published yet (" ++
          toString this.published ++ " versions exist at this point)")
      else return { this with stream := this.stream ++ [⟨false, left, right, version, 0⟩] }

def loadLine (place : String) (line : List Char) (this : Loading) : Failing Loading :=
  if line = [] ∨ line.head? = some '#' then .ok this
  else match line.splitOn ',' with
    | [kind, size] =>
      if kind = ['n'] then
        if this.size ≠ 0 then fail (place ++ ": n is declared more than once")
        else do return { this with size := ← parseUnsigned size (place ++ " n") }
      else fail (place ++ ": expected n,<size> or u|q,l,r,arg")
    | [kind, left, right, argument] => loadOperation place kind left right argument this
    | _ => fail (place ++ ": expected n,<size> or u|q,l,r,arg")

def loadLines (path : String) : List (List Char) → (lineNumber : ℕ) → Loading → Failing Loading
  | [], _, this => .ok this
  | line :: lines, lineNumber, this => do
    loadLines path lines (lineNumber + 1)
      (← loadLine (path ++ ":" ++ toString lineNumber) line this)

/-- The stream and the size; there is no file where it cannot be read. -/
def loadTrace (path : String) (file : Option (List Char)) (size : ℕ) :
    Failing (List Operation × ℕ) :=
  match file with
  | none => fail ("cannot read trace " ++ path)
  | some contents => do
    let this ← loadLines path (linesOf contents) 1 ⟨size, 1, []⟩
    if this.size = 0 ∨ this.stream = [] then
      fail (path ++ ": trace must declare a non-zero n and contain at least one operation")
    else return (this.stream, this.size)

/-! ## What is accepted -/

variable {size latest : ℕ} {stream : List Operation}

theorem validFrom_append (more : List Operation) : ValidFrom size latest (stream ++ more) ↔
    ValidFrom size latest stream ∧ ValidFrom size (latest + updateCount stream) more := by
  induction stream generalizing latest with
  | nil => exact (iff_of_eq (true_and _)).symm
  | cons op stream ih =>
    rw [List.cons_append, ValidFrom, ValidFrom]
    by_cases hu : op.isUpdate = true
    · rw [if_pos hu, if_pos hu, ih, updateCount_update hu, Nat.add_right_comm, Nat.add_assoc]
      tauto
    · rw [if_neg hu, if_neg hu, ih, updateCount_query hu]
      tauto

/-- The counters are those of the operations so far, and there is no operation without a size. -/
structure Loaded (this : Loading) : Prop where
  published : this.published = updateCount this.stream + 1
  undeclared : this.size = 0 → this.stream = []
  valid : ValidFrom this.size 0 this.stream

variable {this this' : Loading} {place : String}

/-- One more operation, of the version that is the latest by then. -/
theorem Loaded.push {op : Operation} {published : ℕ} (h : Loaded this) (h0 : this.size ≠ 0)
    (hlr : op.left ≤ op.right) (hr : op.right < this.size)
    (hop : if op.isUpdate then published = this.published + 1
      else published = this.published ∧ op.version < this.published) :
    Loaded ⟨this.size, published, this.stream ++ [op]⟩ := by
  have hpublished := h.published
  have hcount : updateCount (this.stream ++ [op]) = updateCount this.stream + updateCount [op] := by
    unfold updateCount
    rw [List.filter_append, List.length_append]
  refine ⟨?_, fun hsize => absurd hsize h0, (validFrom_append [op]).mpr ⟨h.valid, hlr, hr, ?_⟩⟩
  · show published = updateCount (this.stream ++ [op]) + 1
    rw [hcount]
    by_cases hu : op.isUpdate = true
    · rw [if_pos hu] at hop
      rw [updateCount_update hu, hop, hpublished]
      rfl
    · rw [if_neg hu] at hop
      rw [updateCount_query hu, hop.1, hpublished]
      rfl
  · by_cases hu : op.isUpdate = true
    · rw [if_pos hu]
      trivial
    · rw [if_neg hu] at hop ⊢
      exact ⟨by omega, trivial⟩

/-- **One operation.** -/
theorem Loaded.operation {kind left right argument : List Char} (h : Loaded this)
    (hl : loadOperation place kind left right argument this = .ok this') : Loaded this' := by
  unfold loadOperation at hl
  by_cases hkind : kind ≠ ['u'] ∧ kind ≠ ['q']
  · rw [if_pos hkind] at hl
    cases hl
  rw [if_neg hkind] at hl
  by_cases h0 : this.size = 0
  · rw [if_pos h0] at hl
    cases hl
  rw [if_neg h0] at hl
  obtain ⟨l, -, hl⟩ := Effect.bind_eq_ok.mp hl
  obtain ⟨r, -, hl⟩ := Effect.bind_eq_ok.mp hl
  by_cases hrange : l > r ∨ r ≥ this.size
  · rw [if_pos hrange] at hl
    cases hl
  rw [if_neg hrange] at hl
  have hlr : l ≤ r := by omega
  have hr : r < this.size := by omega
  by_cases hu : kind = ['u']
  · rw [if_pos hu] at hl
    obtain ⟨delta, -, hl⟩ := Effect.bind_eq_ok.mp hl
    cases hl
    exact h.push h0 hlr hr rfl
  · rw [if_neg hu] at hl
    obtain ⟨version, -, hl⟩ := Effect.bind_eq_ok.mp hl
    by_cases hv : version ≥ this.published
    · rw [if_pos hv] at hl
      cases hl
    rw [if_neg hv] at hl
    cases hl
    exact h.push h0 hlr hr ⟨rfl, Nat.lt_of_not_le hv⟩

/-- **One line.** A size is declared once, before every operation. -/
theorem Loaded.line {line : List Char} (h : Loaded this) (hl : loadLine place line this = .ok this') :
    Loaded this' := by
  unfold loadLine at hl
  by_cases hskip : line = [] ∨ line.head? = some '#'
  · rw [if_pos hskip] at hl
    cases hl
    exact h
  rw [if_neg hskip] at hl
  split at hl
  · split_ifs at hl with hkind hsize
    · cases hl
    · obtain ⟨size, -, hl⟩ := Effect.bind_eq_ok.mp hl
      cases hl
      have hnone : this.stream = [] := h.undeclared (not_not.mp hsize)
      exact ⟨h.published, fun _ => hnone, by rw [hnone]; trivial⟩
    · cases hl
  · exact h.operation hl
  · cases hl

theorem Loaded.lines {path : String} {lines : List (List Char)} {lineNumber : ℕ} (h : Loaded this)
    (hl : loadLines path lines lineNumber this = .ok this') : Loaded this' := by
  induction lines generalizing this lineNumber with
  | nil =>
    cases hl
    exact h
  | cons line lines ih =>
    obtain ⟨next, h1, hl⟩ := Effect.bind_eq_ok.mp hl
    exact ih (h.line h1) hl

/-- **Accepted traces are valid streams.** -/
theorem loadTrace_valid {path : String} {file : Option (List Char)}
    (h : loadTrace path file 0 = .ok (stream, size)) :
    0 < size ∧ stream ≠ [] ∧ ValidFrom size 0 stream := by
  unfold loadTrace at h
  rcases file with _ | contents
  · cases h
  obtain ⟨this, hl, h⟩ := Effect.bind_eq_ok.mp h
  have hstart : Loaded ⟨0, 1, []⟩ := ⟨rfl, fun _ => rfl, trivial⟩
  have hthis : Loaded this := hstart.lines hl
  by_cases hempty : this.size = 0 ∨ this.stream = []
  · rw [if_pos hempty] at h
    cases h
  rw [if_neg hempty] at h
  rw [not_or] at hempty
  cases h
  exact ⟨Nat.pos_of_ne_zero hempty.1, hempty.2, hthis.valid⟩

end Bench

end Valseg
