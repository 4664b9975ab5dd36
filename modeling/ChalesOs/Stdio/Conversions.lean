import ChalesOs.Stdio.Numbers

/-!
# What `printk` and `snprintk` have in common

The arguments of a call, the conversions the two formatters know between them, and the scan of
flag and width that both begin a directive with. `conversionText` says what each conversion makes
of its argument, given the width to fill; which conversions a formatter recognises and for which
ones it uses the width is its own, in its `FormatString.Language`.
-/

namespace ChalesOs

open ByteMemory FormatString

/-- An argument behind the format: a word, or a pointer to a string. -/
inductive VaArg
  | word (w : UInt32)
  | string (s : CString)
  deriving DecidableEq

/-- `va_arg` for `int`, `unsigned int`, `unsigned long` and `void *`. -/
def vaWord : List VaArg → Option (UInt32 × List VaArg)
  | .word w :: args => some (w, args)
  | _ => none

/-- `va_arg` for `const char *`. -/
def vaString : List VaArg → Option (CString × List VaArg)
  | .string s :: args => some (s, args)
  | _ => none

/-- `INT_MAX`. -/
def intMax : ℕ := 0x7FFFFFFF

/-- Arithmetic on `int`, modulo `2 ^ 32`. -/
def i32 (z : ℤ) : ℤ := z.bmod 0x100000000

/-- `*format`, the `NUL` at the end included. -/
def peek (format : CString) : UInt8 := format.headD 0

/-- `while (*format >= '0' && *format <= '9') { width = width * 10 + (*format - '0'); format++; }`:
the width, and what follows it. -/
def parseWidth : (width : ℕ) → CString → ℕ × CString
  | width, [] => (width, [])
  | width, c :: format =>
    if 0x30 ≤ c ∧ c ≤ 0x39 then parseWidth (width * 10 + (c.toNat - 0x30)) format
    else (width, c :: format)

/-- `pad_char` and `width` of a directive, and the format from the conversion on. -/
def parseFlags (format : CString) : Flags :=
  let padChar := if peek format = 0x30 then 0x30 else 0x20
  let format := if peek format = 0x30 then format.tail else format
  let r := parseWidth 0 format
  { pad := padChar, width := r.1, rest := r.2 }

/-- The conversions of the two formatters. -/
inductive Conversion
  | char
  | string
  | signed
  | unsigned
  | hex (upper : Bool)
  | pointer
  /-- A conversion that is skipped without a trace. -/
  | dropped
  deriving DecidableEq

/-- The conversions of one letter that both formatters know. -/
def shortConversion (c : UInt8) : Option Conversion :=
  if c = 0x63 then some .char
  else if c = 0x73 then some .string
  else if c = 0x64 ∨ c = 0x69 then some .signed
  else if c = 0x75 then some .unsigned
  else if c = 0x78 then some (.hex false)
  else if c = 0x70 then some .pointer
  else none

/-- A number in decimal. -/
def decimal (n : ℕ) : List UInt8 := numeral (digitOf lowerDigits) 10 n

/-- A number in hexadecimal. -/
def hexadecimal (upper : Bool) (n : ℕ) : List UInt8 :=
  numeral (digitOf (if upper then upperDigits else lowerDigits)) 16 n

/-- A signed number in decimal; the padding stands between the sign and the digits. -/
def signedText (padChar : UInt8) (width : ℕ) (z : ℤ) : List UInt8 :=
  if z < 0 then 0x2D :: (decimal z.natAbs).leftpad (width - 1) padChar
  else (decimal z.natAbs).leftpad width padChar

/-- What a conversion makes of its argument. -/
def conversionText (padChar : UInt8) (width : ℕ) : Conversion → VaArg → Option (List UInt8)
  | .char, .word w => some [w.toUInt8]
  | .string, .string s => some s
  | .signed, .word w => some (signedText padChar width w.toInt32.toInt)
  | .unsigned, .word w => some ((decimal w.toNat).leftpad width padChar)
  | .hex upper, .word w => some ((hexadecimal upper w.toNat).leftpad width padChar)
  | .pointer, .word w => some (0x30 :: 0x78 :: hexadecimal false w.toNat)
  | _, _ => none

/-- What a directive makes of the arguments, for a formatter that uses the width for the
conversions in `padded`. -/
def convertArgs (padded : Conversion → Bool) (k : Conversion) (padChar : UInt8) (width : ℕ)
    (args : List VaArg) : Option (List UInt8 × List VaArg) :=
  if k = .dropped then some ([], args)
  else
    match args with
    | [] => none
    | a :: args =>
      (conversionText padChar (if padded k then width else 0) k a).map fun t => (t, args)

variable {args : List VaArg} {format : CString} {width n : ℕ} {w : UInt32} {off : ℕ}
  {buffer : ℕ → UInt8} {padChar : UInt8}

/-! ### The scan of flag and width -/

/-- How the loops tell ordinary characters and `%%` from directives. -/
theorem peek_iff {c : UInt8} : peek (c :: format) ≠ percent ∨ peek (c :: format).tail = percent ↔
    c ≠ percent ∨ format.head? = some percent := by
  have hnul : (0 : UInt8) ≠ percent := by decide
  cases format <;> simp [peek, hnul]

theorem parseWidth_eq :
    parseWidth width format = (decimalValue width (format.takeWhile fun c => IsDigit c),
      format.dropWhile fun c => IsDigit c) := by
  induction format generalizing width with
  | nil => rfl
  | cons c format ih =>
    rw [parseWidth]
    by_cases hc : 0x30 ≤ c ∧ c ≤ 0x39
    · have hdigit : IsDigit c := hc
      rw [if_pos hc, ih, List.takeWhile_cons, List.dropWhile_cons]
      simp only [hdigit, decide_true, if_true]
      rfl
    · have hdigit : ¬IsDigit c := hc
      rw [if_neg hc, List.takeWhile_cons, List.dropWhile_cons]
      simp only [hdigit, decide_false, Bool.false_eq_true, if_false]
      rfl

/-- The scan is the one of the format language. -/
theorem parseFlags_eq : parseFlags format = flags format := by
  have hpeek : peek format = 0x30 ↔ format.head? = some 0x30 := by
    cases format <;> simp [peek]
  simp only [parseFlags, flags, hpeek, parseWidth_eq]

/-- The letters of the conversions. -/
theorem shortConversion_eq_some {c : UInt8} {k : Conversion} (h : shortConversion c = some k) :
    c = 0x63 ∧ k = .char ∨ c = 0x73 ∧ k = .string ∨ (c = 0x64 ∨ c = 0x69) ∧ k = .signed ∨
      c = 0x75 ∧ k = .unsigned ∨ c = 0x78 ∧ k = .hex false ∨ c = 0x70 ∧ k = .pointer := by
  rw [shortConversion] at h
  split_ifs at h <;> (obtain rfl := Option.some.inj h; simp [*])

/-- A letter without a conversion is none of the letters that have one. -/
theorem ne_of_shortConversion {c d : UInt8} (h : shortConversion c = none)
    (hd : shortConversion d ≠ none) : c ≠ d :=
  fun heq => hd (heq ▸ h)

/-! ### Arguments -/

variable {padded : Conversion → Bool} {k : Conversion} {q : List UInt8 × List VaArg}

/-- `%s` takes a string and prints it. -/
theorem vaString_of_convertArgs (h : convertArgs padded .string padChar width args = some q) :
    vaString args = some q := by
  rw [convertArgs.eq_def, if_neg (by decide)] at h
  cases args with
  | nil => cases h
  | cons a args =>
    cases a with
    | word w => cases h
    | string s => exact h

/-- The other conversions that print something take a word. -/
theorem vaWord_of_convertArgs (hk : k ≠ .string) (hk' : k ≠ .dropped)
    (h : convertArgs padded k padChar width args = some q) :
    ∃ w, vaWord args = some (w, q.2) ∧
      conversionText padChar (if padded k then width else 0) k (.word w) = some q.1 := by
  rw [convertArgs.eq_def, if_neg hk'] at h
  cases args with
  | nil => cases h
  | cons a args =>
    obtain ⟨t, ht, rfl⟩ := Option.map_eq_some_iff.mp h
    cases a with
    | word w => exact ⟨w, rfl, ht⟩
    | string s => cases k <;> first | exact absurd rfl hk | cases ht

/-! ### Words and their numerals -/

/-- The table without letters has the same decimal digits. -/
theorem numeral_decimalDigits : numeral (digitOf decimalDigits) 10 n = decimal n := by
  have hdigit : ∀ d < 10, digitOf decimalDigits d = digitOf lowerDigits d := by decide
  rw [decimal, numeral, numeral]
  split_ifs
  · rw [hdigit 0 (by omega)]
  · exact congrArg List.reverse (List.map_congr_left fun d hd =>
      hdigit d (Nat.digits_lt_base (by omega) hd))

/-- A word has at most ten digits, and `temp` has room for them. -/
theorem length_numeral_word (digit : ℕ → UInt8) {base : ℕ} (hbase : 10 ≤ base) (w : UInt32) :
    (numeral digit base w.toNat).length ≤ 10 ∧ w.toNat < base ^ tempSize := by
  have hw := w.toNat_lt
  have hpow : (10 : ℕ) ^ 10 ≤ base ^ 10 := Nat.pow_le_pow_left hbase 10
  have hpow' : base ^ 10 ≤ base ^ tempSize := Nat.pow_le_pow_right (by omega) (by decide)
  exact ⟨length_numeral_le (by omega) (by omega) (by omega), by omega⟩

theorem i32_of_mem {z : ℤ} (hlo : -0x80000000 ≤ z) (hhi : z < 0x80000000) : i32 z = z :=
  Int.bmod_eq_of_le_mul_two (by omega) (by omega)

theorem toInt32_neg_iff : w.toInt32 < 0 ↔ w.toInt32.toInt < 0 := Int32.lt_iff_toInt_lt

/-- The magnitude of a negative `int` is the word's negation. -/
theorem toNat_neg_of_neg (h : w.toInt32.toInt < 0) : (-w).toNat = w.toInt32.toInt.natAbs := by
  have hsize : UInt32.size = 0x100000000 := rfl
  have := w.toNat_lt
  rw [toInt_toInt32] at h ⊢
  rw [UInt32.toNat_neg, hsize]
  split_ifs at h ⊢ <;> omega

/-- A non-negative `int` is its word. -/
theorem toNat_of_not_neg (h : ¬w.toInt32.toInt < 0) : w.toNat = w.toInt32.toInt.natAbs := by
  have := w.toNat_lt
  rw [toInt_toInt32] at h ⊢
  split_ifs at h ⊢ <;> omega

end ChalesOs
