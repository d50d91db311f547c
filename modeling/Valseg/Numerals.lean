import Mathlib.Data.List.TakeWhile
import Valseg.Traces

/-!
# Numbers in texts

`parseUnsigned` of `bench/bench_main.cpp` rejects a text that starts with a minus sign and leaves
the rest to `strtoull`, which skips white space, takes a sign and negates modulo `2 ^ 64`. A
`Numeral` is the form `strtoull` converts (`convert_eq_some`); `parseUnsigned_eq_ok` says which
texts are accepted and with which number, and `parseUnsigned_reads` for which of them that number
is the one the text denotes.
-/

namespace Valseg

namespace Bench

/-! ## Numerals -/

/-- White space, a sign or none, and decimal digits. -/
structure Numeral (spaces sign digits : List Char) : Prop where
  spaces : ∀ c ∈ spaces, isSpace c = true
  sign : sign = [] ∨ sign = ['+'] ∨ sign = ['-']
  nonempty : digits ≠ []
  digits : ∀ c ∈ digits, c.isDigit = true

/-- The text is the integer, in decimal. -/
def Denotes (text : List Char) (v : ℤ) : Prop :=
  ∃ spaces sign digits, Numeral spaces sign digits ∧ text = spaces ++ (sign ++ digits) ∧
    v = if sign = ['-'] then -(digitsValue digits : ℤ) else (digitsValue digits : ℤ)

variable {spaces sign digits text rest : List Char}

theorem isDigit_iff {c : Char} : c.isDigit = true ↔ 48 ≤ c.toNat ∧ c.toNat ≤ 57 := by
  simp only [Char.isDigit, Bool.and_eq_true, decide_eq_true_eq, ge_iff_le,
    UInt32.le_iff_toNat_le]
  exact Iff.rfl

theorem isSpace_iff {c : Char} : isSpace c = true ↔ c.toNat = 32 ∨ (9 ≤ c.toNat ∧ c.toNat ≤ 13) := by
  have hblank : c = ' ' ↔ c.toNat = 32 := by
    rw [← Char.toNat_inj]
    rfl
  simp only [isSpace, decide_eq_true_eq, hblank]
  exact Iff.rfl

namespace Numeral

/-- The first character after the white space is none. -/
theorem head_not_space (h : Numeral spaces sign digits) (rest : List Char) :
    ∀ c ∈ (sign ++ (digits ++ rest)).head?, isSpace c = false := by
  obtain ⟨d, ds, rfl⟩ := List.exists_cons_of_ne_nil h.nonempty
  have hd := isDigit_iff.mp (h.digits d List.mem_cons_self)
  intro c hc
  rw [Bool.eq_false_iff, ne_eq, isSpace_iff]
  rcases h.sign with rfl | rfl | rfl <;> simp at hc <;> subst hc
  · omega
  · simp
  · simp

/-- No character of a numeral is the zero byte. -/
theorem toNat_ne_zero (h : Numeral spaces sign digits) :
    ∀ c ∈ spaces ++ (sign ++ digits), c.toNat ≠ 0 := by
  intro c hc
  simp only [List.mem_append] at hc
  rcases hc with hc | hc | hc
  · have := isSpace_iff.mp (h.spaces c hc)
    omega
  · rcases h.sign with rfl | rfl | rfl <;> simp at hc <;> subst hc <;> simp
  · have := isDigit_iff.mp (h.digits c hc)
    omega

theorem signOf_eq (h : Numeral spaces sign digits) (rest : List Char) :
    signOf (sign ++ (digits ++ rest)) = (decide (sign = ['-']), digits ++ rest) := by
  obtain ⟨d, ds, rfl⟩ := List.exists_cons_of_ne_nil h.nonempty
  have hd := isDigit_iff.mp (h.digits d List.mem_cons_self)
  have hminus : d ≠ '-' := by
    rintro rfl
    simp at hd
  have hplus : d ≠ '+' := by
    rintro rfl
    simp at hd
  rcases h.sign with rfl | rfl | rfl
  · simp only [List.nil_append, List.cons_append]
    unfold signOf
    split
    · simp_all
    · simp_all
    · rfl
  · rfl
  · rfl

end Numeral

theorem dropWhile_append {p : Char → Bool} {xs ys : List Char} (hx : ∀ c ∈ xs, p c = true)
    (hy : ∀ c ∈ ys.head?, p c = false) : (xs ++ ys).dropWhile p = ys := by
  rw [List.dropWhile_append_of_pos hx]
  cases ys with
  | nil => rfl
  | cons y ys => simp [hy y rfl]

theorem takeWhile_append {p : Char → Bool} {xs ys : List Char} (hx : ∀ c ∈ xs, p c = true)
    (hy : ∀ c ∈ ys.head?, p c = false) : (xs ++ ys).takeWhile p = xs := by
  rw [List.takeWhile_append_of_pos hx]
  cases ys with
  | nil => simp
  | cons y ys => simp [hy y rfl]

/-! ## What is converted -/

section Convert

variable {α : Type} {value : Bool → ℕ → α × Bool} {c : Converted α}

theorem convert_numeral (rest : List Char) (value : Bool → ℕ → α × Bool)
    (h : Numeral spaces sign digits)
    (hrest : ∀ d ∈ rest.head?, d.isDigit = false) :
    convert value (spaces ++ (sign ++ (digits ++ rest))) =
      some ⟨(value (decide (sign = ['-'])) (digitsValue digits)).1, rest,
        (value (decide (sign = ['-'])) (digitsValue digits)).2⟩ := by
  unfold convert
  rw [dropWhile_append h.spaces (h.head_not_space rest), h.signOf_eq rest]
  simp only [takeWhile_append h.digits hrest, dropWhile_append h.digits hrest, if_neg h.nonempty]

theorem exists_sign (text : List Char) : ∃ sign, (sign = [] ∨ sign = ['+'] ∨ sign = ['-']) ∧
    text = sign ++ (signOf text).2 ∧ (signOf text).1 = decide (sign = ['-']) := by
  unfold signOf
  split
  · exact ⟨['-'], by simp, rfl, rfl⟩
  · exact ⟨['+'], by simp, rfl, rfl⟩
  · exact ⟨[], by simp, rfl, rfl⟩

/-- **Conversions.** What is converted is a numeral, and the text goes on with no digit. -/
theorem convert_eq_some : convert value text = some c ↔ ∃ spaces sign digits,
    Numeral spaces sign digits ∧ text = spaces ++ (sign ++ (digits ++ c.rest)) ∧
      (∀ d ∈ c.rest.head?, d.isDigit = false) ∧
      (c.value, c.outOfRange) = value (decide (sign = ['-'])) (digitsValue digits) := by
  constructor
  · intro h
    obtain ⟨sign, hsign, htext, hneg⟩ := exists_sign (text.dropWhile isSpace)
    unfold convert at h
    simp only at h
    split_ifs at h with hdigits
    cases h
    refine ⟨text.takeWhile isSpace, sign, (signOf (text.dropWhile isSpace)).2.takeWhile Char.isDigit,
      ⟨fun c hc => List.mem_takeWhile_imp hc, hsign, hdigits,
        fun c hc => List.mem_takeWhile_imp hc⟩, ?_, ?_, ?_⟩
    · simp only
      rw [List.takeWhile_append_dropWhile, ← htext, List.takeWhile_append_dropWhile]
    · intro d hd
      have := List.head?_dropWhile_not Char.isDigit (signOf (text.dropWhile isSpace)).2
      simp only [Option.mem_def] at hd
      rw [hd] at this
      simpa using this
    · rw [← hneg]
  · rintro ⟨spaces, sign, digits, h, rfl, hrest, hvalue⟩
    rw [convert_numeral _ _ h hrest, ← hvalue]

end Convert

/-! ## Unsigned numbers -/

/-- A number, or its negative in `unsigned long long`. -/
def wordOf (negative : Bool) (value : ℕ) : ℕ :=
  if negative then (2 ^ 64 - value) % 2 ^ 64 else value

variable {flag : String} {v : ℕ}

theorem strtoull_numeral (h : Numeral spaces sign digits) (hlt : digitsValue digits < 2 ^ 64) :
    strtoull (spaces ++ (sign ++ digits)) =
      some ⟨wordOf (decide (sign = ['-'])) (digitsValue digits), [], false⟩ := by
  have hconvert := convert_numeral [] (fun negative value =>
    if value ≥ 2 ^ 64 then (2 ^ 64 - 1, true)
    else (if negative then (2 ^ 64 - value) % 2 ^ 64 else value, false)) h (by simp)
  rw [List.append_nil, if_neg (by omega)] at hconvert
  exact hconvert

/-- **Accepted texts.** Up to the first zero byte they are numerals below `2 ^ 64`. -/
theorem parseUnsigned_eq_ok : parseUnsigned text flag = .ok v ↔ text.head? ≠ some '-' ∧
    ∃ spaces sign digits, Numeral spaces sign digits ∧
      cString text = spaces ++ (sign ++ digits) ∧ digitsValue digits < 2 ^ 64 ∧
      v = wordOf (decide (sign = ['-'])) (digitsValue digits) := by
  constructor
  · intro h
    unfold parseUnsigned at h
    split_ifs at h with hguard
    · cases h
    rw [not_or] at hguard
    rcases hc : strtoull (cString text) with _ | c
    · rw [hc] at h
      cases h
    rw [hc] at h
    simp only at h
    split_ifs at h with hrest hrange
    · cases h
    · cases h
    cases h
    obtain ⟨spaces, sign, digits, h, htext, -, hvalue⟩ := convert_eq_some.mp hc
    rw [not_not.mp hrest, List.append_nil] at htext
    refine ⟨hguard.2, spaces, sign, digits, h, htext, ?_, ?_⟩
    · by_contra hlt
      rw [if_pos (by omega)] at hvalue
      exact hrange (congrArg Prod.snd hvalue)
    · by_cases hlt : digitsValue digits < 2 ^ 64
      · rw [if_neg (by omega)] at hvalue
        exact congrArg Prod.fst hvalue
      · rw [if_pos (by omega)] at hvalue
        exact absurd (congrArg Prod.snd hvalue) hrange
  · rintro ⟨hhead, spaces, sign, digits, h, htext, hlt, rfl⟩
    have hne : text ≠ [] := by
      rintro rfl
      have hnil : spaces ++ (sign ++ digits) = [] := htext.symm
      simp [h.nonempty] at hnil
    unfold parseUnsigned
    rw [if_neg (by simp [hne, hhead]), htext, strtoull_numeral h hlt]
    rfl

/-- A text is accepted with the same number whatever the message would have said. -/
theorem parseUnsigned_flag (other : String) :
    parseUnsigned text flag = .ok v ↔ parseUnsigned text other = .ok v := by
  rw [parseUnsigned_eq_ok, parseUnsigned_eq_ok]

/-! ## Texts that are read as written -/

/-- An accepted text denotes the number that is returned, and one of a negative number is
rejected. -/
def ReadsAsWritten (text : List Char) (flag : String) : Prop :=
  (∀ value, parseUnsigned text flag = .ok value →
    ∃ v : ℤ, Denotes text v ∧ 0 ≤ v ∧ v < 2 ^ 64 ∧ (value : ℤ) = v) ∧
  ∀ v : ℤ, Denotes text v → v < 0 → ∀ value, parseUnsigned text flag ≠ .ok value

/-- White space in front of a minus sign and a number from 1 to `2 ^ 64 - 1`. -/
def NegatedAfterSpace (text : List Char) : Prop :=
  ∃ spaces digits, Numeral spaces ['-'] digits ∧ text = spaces ++ ('-' :: digits) ∧ spaces ≠ [] ∧
    0 < digitsValue digits ∧ digitsValue digits < 2 ^ 64

/-- A number below `2 ^ 64`, not starting with a minus sign, in front of a zero byte. -/
def GoesOnAfterZero (text : List Char) : Prop :=
  ∃ spaces sign digits rest, Numeral spaces sign digits ∧
    text = spaces ++ (sign ++ digits) ++ Char.ofNat 0 :: rest ∧ text.head? ≠ some '-' ∧
    digitsValue digits < 2 ^ 64

theorem cString_eq (text : List Char) :
    cString text = text ∨ ∃ rest, text = cString text ++ Char.ofNat 0 :: rest := by
  have hsplit : cString text ++ text.dropWhile (fun c => decide (c.toNat ≠ 0)) = text :=
    List.takeWhile_append_dropWhile
  rcases hdrop : text.dropWhile (fun c => decide (c.toNat ≠ 0)) with _ | ⟨c, rest⟩
  · rw [hdrop, List.append_nil] at hsplit
    exact .inl hsplit
  · have hzero := List.head?_dropWhile_not (fun c : Char => decide (c.toNat ≠ 0)) text
    simp only [hdrop, List.head?_cons] at hzero
    have hc : c = Char.ofNat 0 := by
      rw [← Char.toNat_inj]
      simpa using hzero
    rw [hdrop, hc] at hsplit
    exact .inr ⟨rest, hsplit.symm⟩

theorem cString_numeral (h : Numeral spaces sign digits) :
    cString (spaces ++ (sign ++ digits)) = spaces ++ (sign ++ digits) := by
  unfold cString
  rw [List.takeWhile_eq_self_iff]
  intro c hc
  simpa using h.toNat_ne_zero c hc

/-- A text denotes one number at most. -/
theorem Denotes.unique {v w : ℤ} (hv : Denotes text v) (hw : Denotes text w) : v = w := by
  have key : ∀ {x : ℤ}, Denotes text x → convert (fun negative value =>
      (if negative then -(value : ℤ) else (value : ℤ), false)) text = some ⟨x, [], false⟩ := by
    rintro x ⟨spaces, sign, digits, h, rfl, rfl⟩
    have hconvert := convert_numeral [] (fun negative value =>
      (if negative then -(value : ℤ) else (value : ℤ), false)) h (by simp)
    rw [List.append_nil] at hconvert
    simpa using hconvert
  have heq := (key hv).symm.trans (key hw)
  simpa using heq

/-- The guard looks at the white space only. -/
theorem NegatedAfterSpace.accepted (h : NegatedAfterSpace text) :
    ∃ v : ℤ, Denotes text v ∧ v < 0 ∧ ∃ value, parseUnsigned text flag = .ok value := by
  obtain ⟨spaces, digits, h, htext, hspaces, hpos, hlt⟩ := h
  have hnumeral : text = spaces ++ (['-'] ++ digits) := htext
  have hhead : text.head? ≠ some '-' := by
    obtain ⟨c, cs, rfl⟩ := List.exists_cons_of_ne_nil hspaces
    have hc := h.spaces c List.mem_cons_self
    rw [htext]
    simp only [List.cons_append, List.head?_cons, ne_eq, Option.some.injEq]
    rintro rfl
    exact absurd hc (by decide)
  exact ⟨-(digitsValue digits : ℤ), ⟨spaces, ['-'], digits, h, hnumeral, rfl⟩, by omega, _,
    parseUnsigned_eq_ok.mpr ⟨hhead, spaces, ['-'], digits, h,
      by rw [hnumeral, cString_numeral h], hlt, rfl⟩⟩

/-- The conversion stops at the zero byte. -/
theorem GoesOnAfterZero.accepted (h : GoesOnAfterZero text) :
    (∃ value, parseUnsigned text flag = .ok value) ∧ ∀ v, ¬ Denotes text v := by
  obtain ⟨spaces, sign, digits, rest, h, htext, hhead, hlt⟩ := h
  have hcut : cString text = spaces ++ (sign ++ digits) := by
    rw [htext]
    refine takeWhile_append (fun c hc => ?_) (by simp)
    simpa using h.toNat_ne_zero c hc
  refine ⟨⟨_, parseUnsigned_eq_ok.mpr ⟨hhead, spaces, sign, digits, h, hcut, hlt, rfl⟩⟩, ?_⟩
  rintro v ⟨spaces', sign', digits', h', htext', -⟩
  have hmem : Char.ofNat 0 ∈ spaces' ++ (sign' ++ digits') := by
    rw [← htext', htext]
    simp
  exact h'.toNat_ne_zero _ hmem rfl

/-- Every other text that is accepted denotes the number that is returned. -/
theorem denotes_of_accepted {value : ℕ} (hnegated : ¬ NegatedAfterSpace text)
    (hzero : ¬ GoesOnAfterZero text) (haccepted : parseUnsigned text flag = .ok value) :
    Denotes text value ∧ value < 2 ^ 64 := by
  obtain ⟨hhead, spaces, sign, digits, h, hcut, hlt, rfl⟩ := parseUnsigned_eq_ok.mp haccepted
  rcases cString_eq text with hall | ⟨rest, hrest⟩
  swap
  · rw [hcut] at hrest
    exact absurd ⟨spaces, sign, digits, rest, h, hrest, hhead, hlt⟩ hzero
  rw [hall] at hcut
  by_cases hsign : sign = ['-']
  · subst hsign
    have hnone : digitsValue digits = 0 := by
      by_contra hne
      refine hnegated ⟨spaces, digits, h, hcut, ?_, Nat.pos_of_ne_zero hne, hlt⟩
      rintro rfl
      rw [hcut] at hhead
      exact hhead rfl
    exact ⟨⟨spaces, ['-'], digits, h, hcut, by simp [hnone, wordOf]⟩, by simp [hnone, wordOf]⟩
  · have hword : wordOf (decide (sign = ['-'])) (digitsValue digits) = digitsValue digits := by
      simp [hsign, wordOf]
    rw [hword]
    exact ⟨⟨spaces, sign, digits, h, hcut, by rw [if_neg hsign]⟩, hlt⟩

/-- **Exactly these texts are misread.** -/
theorem parseUnsigned_reads : ReadsAsWritten text flag ↔
    ¬ (NegatedAfterSpace text ∨ GoesOnAfterZero text) := by
  rw [not_or]
  constructor
  · rintro ⟨hdenotes, hrejects⟩
    constructor
    · intro hslip
      obtain ⟨v, hv, hneg, value, haccepted⟩ := hslip.accepted
      exact hrejects v hv hneg value haccepted
    · intro hslip
      obtain ⟨⟨value, haccepted⟩, hnone⟩ := hslip.accepted
      obtain ⟨v, hv, -⟩ := hdenotes value haccepted
      exact hnone v hv
  · rintro ⟨hnegated, hzero⟩
    refine ⟨fun value haccepted => ?_, fun v hv hneg value haccepted => ?_⟩
    · obtain ⟨hvalue, hlt⟩ := denotes_of_accepted hnegated hzero haccepted
      exact ⟨value, hvalue, by omega, by omega, rfl⟩
    · obtain ⟨hvalue, -⟩ := denotes_of_accepted hnegated hzero haccepted
      have := hv.unique hvalue
      omega

/-- `" -5"` is accepted as `2 ^ 64 - 5`. -/
theorem negative_text_accepted :
    parseUnsigned [' ', '-', '5'] "--n" = .ok (2 ^ 64 - 5) ∧ Denotes [' ', '-', '5'] (-5) ∧
      ¬ ReadsAsWritten [' ', '-', '5'] "--n" := by
  have haccepted : parseUnsigned [' ', '-', '5'] "--n" = .ok (2 ^ 64 - 5) := by decide
  have hdenotes : Denotes [' ', '-', '5'] (-5) :=
    ⟨[' '], ['-'], ['5'], ⟨List.forall_mem_singleton.mpr (by decide), by decide, by decide,
      List.forall_mem_singleton.mpr (by decide)⟩, rfl, by decide⟩
  exact ⟨haccepted, hdenotes, fun h => h.2 _ hdenotes (by decide) _ haccepted⟩

end Bench

end Valseg
