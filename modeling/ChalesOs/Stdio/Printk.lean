import ChalesOs.Stdio.Conversions

/-!
# `printk`

The formatter of `printk.c`, which sends its output to the terminal character by character. The
characters sent to `putchar` are collected in a list; `putchar` returns the character and never
`EOF`. The loop has the shape of the one in `snprintk`, with its own conversions: `printk` knows
`%X`, `%lx` and `%lX`, uses the width for every number but a pointer, and skips a `%l` in front of
any other character.

`printk_eq` is the contract: `printk` sends the text the format stands for.
-/

namespace ChalesOs

open ByteMemory FormatString

/-- `EOF`. -/
def eof : ℤ := -1

/-- `putchar`, for a kernel: the character goes to the terminal, and comes back as an `int`. -/
def putchar (c : UInt8) (out : List UInt8) : ℤ × List UInt8 := (c.toNat, out ++ [c])

/-- `print`. -/
def print : (data : List UInt8) → (out : List UInt8) → Bool × List UInt8
  | [], out => (true, out)
  | c :: data, out =>
    let r := putchar c out
    if r.1 = eof then (false, r.2) else print data r.2

namespace Printk

/-- `utoa_padded_custom`. -/
def utoaPaddedCustom (value : ℕ) (buffer : ℕ → UInt8) (off base : ℕ) (digits : List UInt8)
    (width : ℤ) (padChar : UInt8) : Option (ℕ × (ℕ → UInt8)) :=
  utoaPaddedWith digits value buffer off base width padChar

/-- `ultoa_custom`; `unsigned long` has 32 bits. -/
def ultoaCustom (value : ℕ) (buffer : ℕ → UInt8) (base : ℕ) (digits : List UInt8) :
    Option (ℕ × (ℕ → UInt8)) :=
  utoaWith digits value buffer 0 base

/-- `ultoa_padded_custom`. -/
def ultoaPaddedCustom (value : ℕ) (buffer : ℕ → UInt8) (base : ℕ) (digits : List UInt8)
    (width : ℤ) (padChar : UInt8) : Option (ℕ × (ℕ → UInt8)) :=
  utoaPaddedWith digits value buffer 0 base width padChar

/-- `itoa`. -/
def itoa (value : UInt32) (buffer : ℕ → UInt8) (width : ℤ) (padChar : UInt8) :
    Option (ℕ × (ℕ → UInt8)) :=
  if value.toInt32 < 0 then
    (store bufSize buffer 0 0x2D).bind fun buffer =>
      (utoaPaddedCustom (-value).toNat buffer 1 10 decimalDigits (i32 (width - 1)) padChar).map
        fun r => (1 + r.1, r.2)
  else utoaPaddedCustom value.toNat buffer 0 10 decimalDigits width padChar

/-- `char buf[64]`, whose first contents nothing reads. -/
def uninitBuf : ℕ → UInt8 := fun _ => 0

/-- How an iteration of the loop ends: with the next one, or with `return -1`. -/
inductive Step
  | next (format : CString) (args : List VaArg) (written : ℕ) (out : List UInt8)
  | giveUp (out : List UInt8)

/-- `if (maxrem < len || !print(data, len)) return -1; written += len;`, and the format and the
arguments to go on with. -/
def emit (data : List UInt8) (format : CString) (args : List VaArg) (written : ℕ)
    (out : List UInt8) : Step :=
  if intMax - written < data.length then .giveUp out
  else
    let r := print data out
    if r.1 then .next format args (written + data.length) r.2 else .giveUp r.2

/-- The part of the loop for normal characters and `%%`. -/
def ordinary (format : CString) (args : List VaArg) (written : ℕ) (out : List UInt8) : Step :=
  let format := if peek format = percent then format.tail else format
  let amount := 1 + (format.tail.takeWhile fun c => c ≠ percent).length
  emit (format.take amount) (format.drop amount) args written out

/-- The part of the loop for directives; `begunAt` is `format_begun_at`. -/
def directive (begunAt : CString) (args : List VaArg) (written : ℕ) (out : List UInt8) :
    Option Step :=
  let f := parseFlags begunAt.tail
  let format := f.rest
  if peek format = 0x63 then
    -- %c
    (vaWord args).map fun v =>
      if intMax - written = 0 then .giveUp out
      else
        let r := print [v.1.toUInt8] out
        if r.1 then .next format.tail v.2 (written + 1) r.2 else .giveUp r.2
  else if peek format = 0x73 then
    -- %s
    (vaString args).map fun v => emit v.1 format.tail v.2 written out
  else if peek format = 0x64 ∨ peek format = 0x69 then
    -- %d and %i
    (vaWord args).bind fun v =>
      (itoa v.1 uninitBuf f.width f.pad).map fun r =>
        emit (slice r.2 0 r.1) format.tail v.2 written out
  else if peek format = 0x75 then
    -- %u
    (vaWord args).bind fun v =>
      (utoaPaddedCustom v.1.toNat uninitBuf 0 10 decimalDigits f.width f.pad).map fun r =>
        emit (slice r.2 0 r.1) format.tail v.2 written out
  else if peek format = 0x78 ∨ peek format = 0x58 then
    -- %x and %X
    let digits := if peek format = 0x58 then upperDigits else lowerDigits
    (vaWord args).bind fun v =>
      (utoaPaddedCustom v.1.toNat uninitBuf 0 16 digits f.width f.pad).map fun r =>
        emit (slice r.2 0 r.1) format.tail v.2 written out
  else if peek format = 0x6C then
    let format := format.tail
    if peek format = 0x75 then
      -- %lu
      (vaWord args).bind fun v =>
        (ultoaPaddedCustom v.1.toNat uninitBuf 10 decimalDigits f.width f.pad).map fun r =>
          emit (slice r.2 0 r.1) format.tail v.2 written out
    else if peek format = 0x78 ∨ peek format = 0x58 then
      -- %lx and %lX
      let digits := if peek format = 0x58 then upperDigits else lowerDigits
      (vaWord args).bind fun v =>
        (ultoaPaddedCustom v.1.toNat uninitBuf 16 digits f.width f.pad).map fun r =>
          emit (slice r.2 0 r.1) format.tail v.2 written out
    else
      -- any other %l prints nothing
      some (.next format args written out)
  else if peek format = 0x70 then
    -- %p, in two pieces
    (vaWord args).bind fun v =>
      (ultoaCustom v.1.toNat uninitBuf 16 lowerDigits).map fun r =>
        if intMax - written < 2 + r.1 then .giveUp out
        else
          let p := print [0x30, 0x78] out
          if p.1 then
            let p := print (slice r.2 0 r.1) p.2
            if p.1 then .next format.tail v.2 (written + (2 + r.1)) p.2 else .giveUp p.2
          else .giveUp p.2
  else
    -- unknown: the rest of the format is printed literally
    some (emit begunAt [] args written out)

/-- `while (*format)`, for at most `fuel` iterations: the result, and the characters sent. -/
def loop : (fuel : ℕ) → CString → List VaArg → (written : ℕ) → (out : List UInt8) →
    Option (ℤ × List UInt8)
  | 0, _, _, _, _ => none
  | fuel + 1, format, args, written, out =>
    if format = [] then some (written, out)
    else
      let step :=
        if peek format ≠ percent ∨ peek format.tail = percent then
          some (ordinary format args written out)
        else directive format args written out
      match step with
      | none => none
      | some (.next format args written out) => loop fuel format args written out
      | some (.giveUp out) => some (-1, out)

end Printk

/-- `printk(format, ...)`: the result, and the characters sent to `putchar`. -/
def printk (format : CString) (args : List VaArg) : Option (ℤ × List UInt8) :=
  Printk.loop (format.length + 1) format args 0 []

/-- The conversions `printk` uses the width for. -/
def Printk.padded : Conversion → Bool
  | .signed | .unsigned | .hex _ => true
  | _ => false

/-- The conversions of `printk` that begin with `l`. -/
def Printk.longConversion (c : UInt8) : Option Conversion :=
  if c = 0x75 then some .unsigned
  else if c = 0x78 then some (.hex false)
  else if c = 0x58 then some (.hex true)
  else none

/-- The conversions of `printk`. -/
def printkLanguage : Language Conversion VaArg where
  recognize s :=
    if peek s = 0x58 then some (.hex true, s.tail)
    else if peek s = 0x6C then
      match Printk.longConversion (peek s.tail) with
      | some k => some (k, s.tail.tail)
      | none => some (.dropped, s.tail)
    else (shortConversion (peek s)).map fun k => (k, s.tail)
  convert := convertArgs Printk.padded
  length_of_recognize {s r} h := by
    have htail : s.tail.length ≤ s.length := by simp
    have htail' : s.tail.tail.length ≤ s.tail.length := by simp
    by_cases hX : peek s = 0x58
    · rw [if_pos hX] at h
      exact Option.some.inj h ▸ htail
    by_cases hl : peek s = 0x6C
    · rw [if_neg hX, if_pos hl] at h
      cases hk : Printk.longConversion (peek s.tail) with
      | none =>
        rw [hk] at h
        exact Option.some.inj h ▸ htail
      | some k =>
        rw [hk] at h
        exact Option.some.inj h ▸ htail'.trans htail
    · rw [if_neg hX, if_neg hl] at h
      obtain ⟨k, -, rfl⟩ := Option.map_eq_some_iff.mp h
      exact htail

/-! ### Printing -/

namespace Printk

variable {buffer : ℕ → UInt8} {written : ℕ} {out data t : List UInt8} {format s : CString}
  {args : List VaArg} {r : Conversion × List UInt8} {padChar : UInt8} {width : ℕ} {w : UInt32}
  {q : List UInt8 × List VaArg}

/-- Printing always succeeds. -/
theorem print_eq : print data out = (true, out ++ data) := by
  induction data generalizing out with
  | nil => rw [print, List.append_nil]
  | cons c data ih =>
    have hc : (putchar c out).1 ≠ eof := by
      simp only [putchar, eof]
      omega
    rw [print, if_neg hc, ih, putchar, List.append_assoc, List.singleton_append]

theorem emit_eq (h : out.length + data.length ≤ intMax) :
    emit data format args out.length out =
      .next format args (out ++ data).length (out ++ data) := by
  rw [emit, if_neg (by omega), print_eq, if_pos rfl, List.length_append]

/-! ### Directives -/

/-- A padded word, for each base and table. -/
theorem utoaPadded_eq {digits : List UInt8} {base : ℕ} {width : ℤ}
    (hdigits : digitOf digits 0 = 0x30) (hbase : 10 ≤ base) (hwidth : width ≤ 64) :
    utoaPaddedWith digits w.toNat buffer 0 base width padChar =
      some (((numeral (digitOf digits) base w.toNat).leftpad width.toNat padChar).length,
        write buffer 0 ((numeral (digitOf digits) base w.toNat).leftpad width.toNat padChar)) := by
  obtain ⟨hlen, hvalue⟩ := length_numeral_word (digitOf digits) hbase w
  refine utoaPaddedWith_eq hdigits (by omega) hvalue ?_
  rw [List.length_leftpad, bufSize]
  omega

/-- `itoa` writes the sign of a negative number, and then the padded magnitude. -/
theorem itoa_of_neg {width : ℤ} (hneg : w.toInt32.toInt < 0) (hlow : -0x80000000 < width)
    (hwidth : width ≤ 64) : itoa w buffer width padChar =
      some ((0x2D :: (decimal w.toInt32.toInt.natAbs).leftpad (width.toNat - 1) padChar).length,
        write buffer 0
          (0x2D :: (decimal w.toInt32.toInt.natAbs).leftpad (width.toNat - 1) padChar)) := by
  obtain ⟨hlen, hvalue⟩ := length_numeral_word (digitOf lowerDigits) le_rfl (-w)
  have hrest : (width - 1).toNat = width.toNat - 1 := by omega
  rw [itoa, if_pos (toInt32_neg_iff.mpr hneg), store_of_lt (by decide), Option.bind_some,
    i32_of_mem (by omega) (by omega), utoaPaddedCustom, utoaPaddedWith_eq rfl (by omega) hvalue (by
      rw [numeral_decimalDigits, decimal, hrest, List.length_leftpad, bufSize]
      omega),
    Option.map_some, numeral_decimalDigits, hrest, toNat_neg_of_neg hneg, List.length_cons,
    ← write_singleton, ← write_cons, Nat.add_comm]

/-- `itoa` writes any other number padded. -/
theorem itoa_of_not_neg {width : ℤ} (hneg : ¬w.toInt32.toInt < 0) (hwidth : width ≤ 64) :
    itoa w buffer width padChar =
      some (((decimal w.toInt32.toInt.natAbs).leftpad width.toNat padChar).length,
        write buffer 0 ((decimal w.toInt32.toInt.natAbs).leftpad width.toNat padChar)) := by
  rw [itoa, if_neg (mt toInt32_neg_iff.mp hneg), utoaPaddedCustom, utoaPadded_eq rfl le_rfl hwidth,
    numeral_decimalDigits, toNat_of_not_neg hneg]

/-- `itoa` writes the sign and the padded magnitude. -/
theorem itoa_eq (hwidth : width ≤ 64) : itoa w buffer width padChar =
    some ((signedText padChar width w.toInt32.toInt).length,
      write buffer 0 (signedText padChar width w.toInt32.toInt)) := by
  have hwidth' : (width : ℤ) ≤ 64 := Int.ofNat_le.mpr hwidth
  rw [signedText]
  split_ifs with hneg
  · exact itoa_of_neg hneg (by omega) hwidth'
  · exact itoa_of_not_neg hneg hwidth'

/-- The digit table of a hexadecimal conversion. -/
theorem utoaPadded_hex (upper : Bool) (hwidth : width ≤ 64) :
    utoaPaddedWith (if upper then upperDigits else lowerDigits) w.toNat buffer 0 16 width padChar =
      some (((hexadecimal upper w.toNat).leftpad width padChar).length,
        write buffer 0 ((hexadecimal upper w.toNat).leftpad width padChar)) := by
  have hwidth' : (width : ℤ) ≤ 64 := Int.ofNat_le.mpr hwidth
  cases upper <;> exact utoaPadded_eq rfl (by omega) hwidth'

/-- The other decimal conversions. -/
theorem utoaPadded_decimal (hwidth : width ≤ 64) :
    utoaPaddedWith decimalDigits w.toNat buffer 0 10 width padChar =
      some (((decimal w.toNat).leftpad width padChar).length,
        write buffer 0 ((decimal w.toNat).leftpad width padChar)) := by
  rw [utoaPadded_eq rfl le_rfl (Int.ofNat_le.mpr hwidth), numeral_decimalDigits, Int.toNat_natCast]

/-- A decimal conversion takes a word, and its text is in the buffer. -/
theorem exists_decimal (hq : convertArgs padded .unsigned padChar width args = some q)
    (hwidth : width ≤ 64) :
    ∃ w, vaWord args = some (w, q.2) ∧
      utoaPaddedWith decimalDigits w.toNat uninitBuf 0 10 width padChar =
        some (q.1.length, write uninitBuf 0 q.1) := by
  obtain ⟨w, hw, ht⟩ := vaWord_of_convertArgs (k := .unsigned) (by decide) (by decide) hq
  exact ⟨w, hw, Option.some.inj ht ▸ utoaPadded_decimal hwidth⟩

/-- A hexadecimal conversion takes a word, and its text is in the buffer. -/
theorem exists_hex (digits : List UInt8) (upper : Bool)
    (hdigits : digits = if upper then upperDigits else lowerDigits)
    (hq : convertArgs padded (.hex upper) padChar width args = some q) (hwidth : width ≤ 64) :
    ∃ w, vaWord args = some (w, q.2) ∧
      utoaPaddedWith digits w.toNat uninitBuf 0 16 width padChar =
        some (q.1.length, write uninitBuf 0 q.1) := by
  obtain ⟨w, hw, ht⟩ := vaWord_of_convertArgs (k := .hex upper) (by simp) (by simp) hq
  exact ⟨w, hw, Option.some.inj ht ▸ hdigits ▸ utoaPadded_hex upper hwidth⟩

theorem longConversion_eq_some {c : UInt8} {k : Conversion} (h : longConversion c = some k) :
    c = 0x75 ∧ k = .unsigned ∨ c = 0x78 ∧ k = .hex false ∨ c = 0x58 ∧ k = .hex true := by
  rw [longConversion] at h
  split_ifs at h <;> (obtain rfl := Option.some.inj h; simp [*])

/-- **Directives.** A directive prints what the language makes of it. -/
theorem directive_recognized (h : printkLanguage.recognize (flags s).rest = some r)
    (hq : printkLanguage.convert r.1 (flags s).pad (flags s).width args = some q)
    (hwidth : (flags s).width ≤ 64) (hlen : out.length + q.1.length ≤ intMax) :
    directive (percent :: s) args out.length out =
      some (.next r.2 q.2 (out ++ q.1).length (out ++ q.1)) := by
  rw [directive, List.tail_cons, parseFlags_eq]
  dsimp only [printkLanguage] at h hq ⊢
  by_cases hX : peek (flags s).rest = 0x58
  · -- %X
    rw [if_pos hX] at h
    obtain rfl := Option.some.inj h
    obtain ⟨w, hw, hutoa⟩ := exists_hex upperDigits true rfl hq hwidth
    simp +decide only [hX, ↓reduceIte, hw, Option.bind_some, utoaPaddedCustom, hutoa,
      Option.map_some, slice_write, emit_eq hlen]
  rw [if_neg hX] at h
  by_cases hl : peek (flags s).rest = 0x6C
  · rw [if_pos hl] at h
    cases hk : longConversion (peek (flags s).rest.tail) with
    | none =>
      -- another %l
      rw [hk] at h
      obtain rfl := Option.some.inj h
      obtain rfl : ([], args) = q := Option.some.inj hq
      have hne : ∀ d, longConversion d ≠ none → peek (flags s).rest.tail ≠ d := fun d hd heq =>
        hd (heq ▸ hk)
      have hxX : ¬(peek (flags s).rest.tail = 0x78 ∨ peek (flags s).rest.tail = 0x58) :=
        not_or_intro (hne _ (by decide)) (hne _ (by decide))
      simp +decide only [hl, ↓reduceIte, List.append_nil]
      rw [if_neg (hne 0x75 (by decide)), if_neg hxX]
    | some k =>
      rw [hk] at h
      obtain rfl := Option.some.inj h
      obtain ⟨hp, rfl⟩ | ⟨hp, rfl⟩ | ⟨hp, rfl⟩ := longConversion_eq_some hk
      · -- %lu
        obtain ⟨w, hw, hutoa⟩ := exists_decimal hq hwidth
        simp +decide only [hl, hp, ↓reduceIte, hw, Option.bind_some, ultoaPaddedCustom, hutoa,
          Option.map_some, slice_write, emit_eq hlen]
      · -- %lx
        obtain ⟨w, hw, hutoa⟩ := exists_hex lowerDigits false rfl hq hwidth
        simp +decide only [hl, hp, ↓reduceIte, hw, Option.bind_some, ultoaPaddedCustom, hutoa,
          Option.map_some, slice_write, emit_eq hlen]
      · -- %lX
        obtain ⟨w, hw, hutoa⟩ := exists_hex upperDigits true rfl hq hwidth
        simp +decide only [hl, hp, ↓reduceIte, hw, Option.bind_some, ultoaPaddedCustom, hutoa,
          Option.map_some, slice_write, emit_eq hlen]
  rw [if_neg hl] at h
  obtain ⟨k, hk, rfl⟩ := Option.map_eq_some_iff.mp h
  obtain ⟨hp, rfl⟩ | ⟨hp, rfl⟩ | ⟨hp, rfl⟩ | ⟨hp, rfl⟩ | ⟨hp, rfl⟩ | ⟨hp, rfl⟩ :=
    shortConversion_eq_some hk
  · -- %c
    obtain ⟨w, hw, ht⟩ := vaWord_of_convertArgs (k := .char) (by decide) (by decide) hq
    have ht : [w.toUInt8] = q.1 := Option.some.inj ht
    rw [← ht, List.length_singleton] at hlen
    rw [if_pos hp, hw, Option.map_some, ← ht, print_eq, if_neg (by omega), if_pos rfl,
      List.length_append, List.length_singleton]
  · -- %s
    simp +decide only [hp, ↓reduceIte, vaString_of_convertArgs hq, Option.map_some, emit_eq hlen]
  · -- %d and %i
    obtain ⟨w, hw, ht⟩ := vaWord_of_convertArgs (k := .signed) (by decide) (by decide) hq
    have hitoa : itoa w uninitBuf (flags s).width (flags s).pad =
        some (q.1.length, write uninitBuf 0 q.1) :=
      Option.some.inj ht ▸ itoa_eq hwidth
    obtain hp | hp := hp <;>
      simp +decide only [hp, ↓reduceIte, hw, hitoa, Option.bind_some, Option.map_some, slice_write,
        emit_eq hlen]
  · -- %u
    obtain ⟨w, hw, hutoa⟩ := exists_decimal hq hwidth
    simp +decide only [hp, ↓reduceIte, hw, Option.bind_some, utoaPaddedCustom, hutoa,
      Option.map_some, slice_write, emit_eq hlen]
  · -- %x
    obtain ⟨w, hw, hutoa⟩ := exists_hex lowerDigits false rfl hq hwidth
    simp +decide only [hp, ↓reduceIte, hw, Option.bind_some, utoaPaddedCustom, hutoa,
      Option.map_some, slice_write, emit_eq hlen]
  · -- %p
    obtain ⟨w, hw, ht⟩ := vaWord_of_convertArgs (k := .pointer) (by decide) (by decide) hq
    have hsplit : q.1 = [0x30, 0x78] ++ hexadecimal false w.toNat := (Option.some.inj ht).symm
    obtain ⟨hdigits, hvalue⟩ := length_numeral_word (digitOf lowerDigits)
      (show 10 ≤ 16 by omega) w
    have hhex : ultoaCustom w.toNat uninitBuf 16 lowerDigits =
        some ((hexadecimal false w.toNat).length,
          write uninitBuf 0 (hexadecimal false w.toNat)) :=
      utoaWith_eq rfl (by omega) hvalue (by rw [bufSize]; omega)
    have hlength : q.1.length = 2 + (hexadecimal false w.toNat).length := by
      rw [hsplit, List.length_append]
      rfl
    simp +decide only [hp, ↓reduceIte, hw, hhex, Option.bind_some, Option.map_some, slice_write,
      print_eq]
    rw [if_neg (by omega), List.length_append, hlength, hsplit, List.append_assoc]

/-- Behind a percent sign without a conversion the format is printed as it stands. -/
theorem directive_unknown (h : printkLanguage.recognize (flags s).rest = none) :
    directive (percent :: s) args written out =
      some (emit (percent :: s) [] args written out) := by
  rw [directive, List.tail_cons, parseFlags_eq]
  dsimp only [printkLanguage] at h ⊢
  by_cases hX : peek (flags s).rest = 0x58
  · rw [if_pos hX] at h
    cases h
  rw [if_neg hX] at h
  by_cases hl : peek (flags s).rest = 0x6C
  · rw [if_pos hl] at h
    cases hk : longConversion (peek (flags s).rest.tail) <;> rw [hk] at h <;> cases h
  rw [if_neg hl] at h
  have hnone := Option.map_eq_none_iff.mp h
  have hc := ne_of_shortConversion hnone (d := 0x63) (by decide)
  have hs := ne_of_shortConversion hnone (d := 0x73) (by decide)
  have hd := ne_of_shortConversion hnone (d := 0x64) (by decide)
  have hi := ne_of_shortConversion hnone (d := 0x69) (by decide)
  have hu := ne_of_shortConversion hnone (d := 0x75) (by decide)
  have hx := ne_of_shortConversion hnone (d := 0x78) (by decide)
  have hp := ne_of_shortConversion hnone (d := 0x70) (by decide)
  rw [if_neg hc, if_neg hs, if_neg (not_or_intro hd hi), if_neg hu, if_neg (not_or_intro hx hX),
    if_neg hl, if_neg hp]

/-! ### The loop -/

/-- The iteration the loop makes at the front of a format. -/
private def iterationOf (format : CString) (args : List VaArg) (written : ℕ)
    (out : List UInt8) : Option Step :=
  if peek format ≠ percent ∨ peek format.tail = percent then some (ordinary format args written out)
  else directive format args written out

/-- One iteration prints a piece of the text and leaves the rest of it to the rest of the
format. -/
private theorem exists_iterationOf_eq {c : UInt8} (ht : printkLanguage.text (c :: s) args = some t)
    (hw : printkLanguage.WidthsLe 64 (c :: s)) (hlen : out.length + t.length ≤ intMax) :
    ∃ data format' args' t', iterationOf (c :: s) args out.length out =
        some (.next format' args' (out ++ data).length (out ++ data)) ∧ t = data ++ t' ∧
      format'.length ≤ s.length ∧ printkLanguage.text format' args' = some t' ∧
      printkLanguage.WidthsLe 64 format' := by
  obtain ⟨d, s', t', hrun, hskip, rfl, ht', hw'⟩ |
    ⟨r, q, t', rfl, hs, hr, hq, hwidth, rfl, ht', hw'⟩ | ⟨rfl, hs, hr, rfl⟩ :=
    Language.text_cases ht hw
  · -- ordinary characters
    have hdrop := (List.dropWhile_sublist (l := s') fun c => decide (c ≠ percent)).length_le
    have hlength : s'.length ≤ s.length := by
      have := congrArg List.length hskip
      split_ifs at this <;> (simp only [List.length_cons] at this; omega)
    have hcut : d :: s' = (d :: s'.takeWhile fun c => c ≠ percent) ++
        s'.dropWhile fun c => c ≠ percent :=
      congrArg (d :: ·) List.takeWhile_append_dropWhile.symm
    have hamount : 1 + ((d :: s').tail.takeWhile fun c => c ≠ percent).length =
        (d :: s'.takeWhile fun c => c ≠ percent).length := Nat.add_comm ..
    rw [List.length_append] at hlen
    have hskip' : (if peek (c :: s) = percent then (c :: s).tail else c :: s) = d :: s' := hskip
    refine ⟨_, _, args, t', ?_, rfl, hdrop.trans hlength, ht', hw'⟩
    rw [iterationOf, if_pos (peek_iff.mpr hrun), ordinary, hskip', hamount, hcut, List.take_left,
      List.drop_left, emit_eq (by omega)]
  · -- a conversion
    rw [List.length_append] at hlen
    refine ⟨q.1, r.2, q.2, t', ?_, rfl, Language.length_le_of_recognize hr, ht', hw'⟩
    rw [iterationOf, if_neg (mt peek_iff.mp (not_or_intro (not_not.mpr rfl) hs))]
    exact directive_recognized hr hq hwidth (by omega)
  · -- a percent sign without a conversion
    refine ⟨percent :: s, [], args, [], ?_, (List.append_nil _).symm, Nat.zero_le _,
      Language.text_nil, Language.widthsLe_nil⟩
    rw [iterationOf, if_neg (mt peek_iff.mp (not_or_intro (not_not.mpr rfl) hs)),
      directive_unknown hr, emit_eq hlen]

/-- **The loop.** It prints the text of the format. -/
theorem loop_eq {fuel : ℕ} (hfuel : format.length < fuel)
    (ht : printkLanguage.text format args = some t) (hw : printkLanguage.WidthsLe 64 format)
    (hlen : out.length + t.length ≤ intMax) :
    loop fuel format args out.length out = some (((out ++ t).length : ℤ), out ++ t) := by
  induction fuel generalizing format args out t with
  | zero => exact absurd hfuel (Nat.not_lt_zero _)
  | succ fuel ih =>
    cases format with
    | nil =>
      obtain rfl : [] = t := Option.some.inj (Language.text_nil.symm.trans ht)
      rw [loop, if_pos rfl, List.append_nil]
    | cons c s =>
      obtain ⟨data, format', args', t', hstep, rfl, hformat, ht', hw'⟩ :=
        exists_iterationOf_eq ht hw hlen
      rw [loop, if_neg (List.cons_ne_nil c s)]
      dsimp only
      rw [← iterationOf, hstep]
      dsimp only
      rw [List.length_append] at hlen
      rw [ih (by rw [List.length_cons] at hfuel; omega) ht' hw'
        (by rw [List.length_append]; omega), List.append_assoc]

end Printk

/-- **`printk`.** It sends the text of the format, and returns its length. -/
theorem printk_eq {format : CString} {args : List VaArg} {t : List UInt8}
    (ht : printkLanguage.text format args = some t) (hw : printkLanguage.WidthsLe 64 format)
    (hlen : t.length ≤ intMax) : printk format args = some ((t.length : ℤ), t) := by
  have hloop : Printk.loop (format.length + 1) format args ([] : List UInt8).length [] = _ :=
    Printk.loop_eq (Nat.lt_succ_self _) ht hw (by simpa using hlen)
  rwa [List.nil_append] at hloop

end ChalesOs
