import ChalesOs.Lib.Numerals
import ChalesOs.Stdio.Printk
import ChalesOs.Stdio.Snprintk

/-!
# Reading the output of the number conversions

What the conversions of `printk.c` and `snprintk.c` leave in `char buf[64]`, for a reader who knows
nothing of how the digits got there. An unsigned number is its numeral with padding in front of it
(`unsigned_formats`).

A signed number can be read back, as C reads a decimal integer, as long as nothing stands between
the sign and the digits. `itoa` puts the sign first and leaves the padding to the unsigned helper,
so spaces come between the two; `readsBack_iff` is the exact condition.
-/

namespace ChalesOs

open ByteMemory FormatString

/-- The digit tables of the two files. -/
def digitTables : List (List UInt8) := [decimalDigits, lowerDigits, upperDigits]

/-- What a conversion of `value` to a buffer is meant to do: return the number of characters, and
leave the numeral in the buffer with padding in front, up to the width. -/
def FormatsUnsigned (value base : ℕ) (width : ℤ) (padChar : UInt8) (buffer : ℕ → UInt8)
    (outcome : Option (ℕ × (ℕ → UInt8))) : Prop :=
  ∃ n buffer' t, outcome = some (n, buffer') ∧ IsNumeral base value t ∧
    (n : ℤ) = max width t.length ∧ n ≤ bufSize ∧
    slice buffer' 0 n = List.replicate (n - t.length) padChar ++ t ∧
    ∀ i, n ≤ i → buffer' i = buffer i

/-- The decimal numeral of an integer. -/
def intNumeral (z : ℤ) : List UInt8 :=
  if z < 0 then 0x2D :: decimal z.natAbs else decimal z.natAbs

/-- The characters `itoa` produces have the width, and are read as the value behind the leading
spaces. -/
def ReadsBack (value : UInt32) (width : ℤ) (padChar : UInt8) (buffer : ℕ → UInt8) : Prop :=
  ∃ n buffer', Printk.itoa value buffer width padChar = some (n, buffer') ∧
    (n : ℤ) = max width (intNumeral value.toInt32.toInt).length ∧
    readInt ((slice buffer' 0 n).dropWhile (· = 0x20)) = some value.toInt32.toInt

variable {digits t : List UInt8} {base value : ℕ} {width : ℤ} {padChar : UInt8}
  {buffer : ℕ → UInt8} {w : UInt32}

/-! ### Unsigned numbers -/

/-- The characters of the tables are digits. -/
theorem readDigit_digitOf (hdigits : digits ∈ digitTables) (hlen : base ≤ digits.length) (d : ℕ)
    (hd : d < base) : readDigit base (digitOf digits d) = some d := by
  have hall : ∀ digits ∈ digitTables, ∀ d < digits.length,
      digitValue (digitOf digits d) = some d := by decide
  rw [readDigit, hall digits hdigits d (hd.trans_le hlen), Option.filter_some,
    if_pos (decide_eq_true hd)]

/-- A padded numeral in the buffer. -/
theorem formatsUnsigned_leftpad (ht : IsNumeral base value t) (hlen : t.length ≤ bufSize)
    (hwidth : width ≤ 64) : FormatsUnsigned value base width padChar buffer
      (some ((t.leftpad width.toNat padChar).length,
        write buffer 0 (t.leftpad width.toNat padChar))) := by
  have hsize : bufSize = 64 := rfl
  have hlength : (t.leftpad width.toNat padChar).length = max width.toNat t.length :=
    List.length_leftpad ..
  refine ⟨_, _, t, rfl, ht, ?_, ?_, ?_, fun i hi => eqOn_write ?_⟩
  · rw [hlength]
    omega
  · rw [hlength]
    omega
  · rw [slice_write, hlength, List.leftpad, show max width.toNat t.length - t.length =
      width.toNat - t.length by omega]
  · simp only [Set.mem_compl_iff, Set.mem_Ico]
    omega

/-- **Unsigned numbers.** The three conversions leave the numeral of the value in the buffer, padded
to the width, and store nothing outside of the 64 bytes. -/
theorem unsigned_formats (hbase : base = 10 ∨ base = 16) (hdigits : digits ∈ digitTables)
    (hlen : base ≤ digits.length) (value : UInt32) (width : Int32) (hwidth : width.toInt ≤ 64)
    (padChar : UInt8) (buffer : ℕ → UInt8) :
    FormatsUnsigned value.toNat base width.toInt padChar buffer
        (Printk.utoaPaddedCustom value.toNat buffer 0 base digits width.toInt padChar) ∧
      FormatsUnsigned value.toNat base width.toInt padChar buffer
        (Printk.ultoaPaddedCustom value.toNat buffer base digits width.toInt padChar) ∧
      FormatsUnsigned value.toNat base width.toInt padChar buffer
        (Snprintk.utoaPadded value.toNat buffer base width.toInt padChar) := by
  have hbase' : 10 ≤ base := by omega
  have hsize : bufSize = 64 := rfl
  have hzero : ∀ digits ∈ digitTables, digitOf digits 0 = 0x30 := by decide
  have hnumeral : ∀ digits ∈ digitTables, base ≤ digits.length →
      IsNumeral base value.toNat (numeral (digitOf digits) base value.toNat) :=
    fun digits hdigits hlen =>
      isNumeral_numeral (by omega) (readDigit_digitOf hdigits hlen) (hzero digits hdigits)
  have hlength : ∀ digits, (numeral (digitOf digits) base value.toNat).length ≤ bufSize :=
    fun digits => (length_numeral_word _ hbase' value).1.trans (by omega)
  have hprintk : FormatsUnsigned value.toNat base width.toInt padChar buffer
      (utoaPaddedWith digits value.toNat buffer 0 base width.toInt padChar) := by
    rw [Printk.utoaPadded_eq (hzero digits hdigits) hbase' hwidth]
    exact formatsUnsigned_leftpad (hnumeral digits hdigits hlen) (hlength digits) hwidth
  refine ⟨hprintk, hprintk, ?_⟩
  rw [Snprintk.utoaPadded_eq hbase' hwidth]
  refine formatsUnsigned_leftpad (hnumeral lowerDigits (by decide) ?_) (hlength lowerDigits) hwidth
  have htable : lowerDigits.length = 16 := rfl
  omega

/-- The word `0xBEEF`, in eight columns. -/
theorem unsigned_formats_sample :
    FormatsUnsigned 0xBEEF 16 8 0x30 (fun _ => 0)
        (Printk.utoaPaddedCustom 0xBEEF (fun _ => 0) 0 16 upperDigits 8 0x30) ∧
      FormatsUnsigned 0xBEEF 16 8 0x30 (fun _ => 0)
        (Printk.ultoaPaddedCustom 0xBEEF (fun _ => 0) 16 upperDigits 8 0x30) ∧
      FormatsUnsigned 0xBEEF 16 8 0x30 (fun _ => 0)
        (Snprintk.utoaPadded 0xBEEF (fun _ => 0) 16 8 0x30) :=
  unsigned_formats (.inr rfl) (by decide) (by decide) 0xBEEF 8 (by decide) 0x30 fun _ => 0

/-! ### Signed numbers -/

theorem readNat_decimal (n : ℕ) : readNat 10 (decimal n) = some n :=
  readNat_numeral (by omega) (readDigit_digitOf (by decide) (by decide))

/-- The width of the sign of a negative number cannot be taken off the least width. -/
theorem itoa_intMin (hneg : w.toInt32.toInt < 0) :
    Printk.itoa w buffer (-0x80000000) padChar = none := by
  obtain ⟨hlen, hvalue⟩ := length_numeral_word (digitOf decimalDigits) le_rfl (-w)
  have hpos : 0 < (numeral (digitOf decimalDigits) 10 (-w).toNat).length :=
    List.length_pos_iff.mpr numeral_ne_nil
  have hsize : bufSize = 64 := rfl
  have hwidth : (i32 (-0x80000000 - 1)).toNat = 0x7FFFFFFF := by decide
  rw [Printk.itoa, if_pos (toInt32_neg_iff.mpr hneg), store_of_lt (by decide), Option.bind_some,
    Printk.utoaPaddedCustom, utoaPaddedWith, utoaWith_eq rfl (by omega) hvalue (by omega),
    Option.bind_some]
  dsimp only
  -- the first digit is moved to the end of the width
  rw [if_pos (by omega), forRange_eq_none hpos (store_of_le (by omega)), Option.bind_none,
    Option.map_none]

/-- A negative number is read back if its padding is not made of spaces. -/
theorem readsBack_of_neg_iff (hneg : w.toInt32.toInt < 0) (hwidth : width ≤ 64)
    (hpad : padChar = 0x20 ∨ padChar = 0x30) (hlow : -0x80000000 ≤ width) :
    ReadsBack w width padChar buffer ↔
      ¬(padChar = 0x20 ∧ (intNumeral w.toInt32.toInt).length < width ∨ width = -0x80000000) := by
  set z := w.toInt32.toInt with hz
  have habs : z = -(z.natAbs : ℤ) := by omega
  have hlength : (intNumeral z).length = (decimal z.natAbs).length + 1 := by
    rw [intNumeral, if_pos hneg, List.length_cons]
  obtain hmin | hmin := hlow.eq_or_lt
  · refine iff_of_false ?_ (by simp [← hmin])
    rintro ⟨n, buffer', hrun, -⟩
    rw [← hmin, itoa_intMin hneg] at hrun
    cases hrun
  have hrun : Printk.itoa w buffer width padChar = _ := Printk.itoa_of_neg hneg hmin hwidth
  rw [← hz] at hrun
  have hcount : ((0x2D :: (decimal z.natAbs).leftpad (width.toNat - 1) padChar).length : ℤ) =
      max width (intNumeral z).length := by
    rw [hlength, List.length_cons, List.length_leftpad]
    omega
  have hread := readInt_minus_iff (t := (decimal z.natAbs).leftpad (width.toNat - 1) padChar)
    (n := z.natAbs)
  rw [readNat_leftpad_iff hpad (readNat_decimal _), ← habs] at hread
  have hroom : (decimal z.natAbs).length < width.toNat - 1 ↔
      ((intNumeral z).length : ℤ) < width := by
    omega
  have hne : width ≠ -0x80000000 := by omega
  rw [hroom] at hread
  simp only [ReadsBack, hrun, Option.some_inj, Prod.mk.injEq, hne, or_false, ← hread, ← hz]
  constructor
  · rintro ⟨n, buffer', ⟨rfl, rfl⟩, -, h⟩
    rwa [slice_write] at h
  · intro h
    refine ⟨_, _, ⟨rfl, rfl⟩, hcount, ?_⟩
    rwa [slice_write]

/-- Any other number is read back. -/
theorem readsBack_of_not_neg (hneg : ¬w.toInt32.toInt < 0) (hwidth : width ≤ 64)
    (hpad : padChar = 0x20 ∨ padChar = 0x30) : ReadsBack w width padChar buffer := by
  have habs : w.toInt32.toInt = (w.toInt32.toInt.natAbs : ℤ) := by omega
  refine ⟨_, _, Printk.itoa_of_not_neg hneg hwidth, ?_, ?_⟩
  · rw [intNumeral, if_neg hneg, List.length_leftpad]
    omega
  · rw [slice_write, readInt_leftpad hpad (readNat_decimal _), ← habs]

/-- **Signed numbers.** `itoa` produces a number that reads back, unless it puts spaces between a
minus sign and the digits, or takes the sign off the least width there is. -/
theorem readsBack_iff (value : UInt32) (width : Int32) (hwidth : width.toInt ≤ 64) (padChar : UInt8)
    (hpad : padChar = 0x20 ∨ padChar = 0x30) (buffer : ℕ → UInt8) :
    ReadsBack value width.toInt padChar buffer ↔
      ¬(value.toInt32.toInt < 0 ∧
        (padChar = 0x20 ∧ (intNumeral value.toInt32.toInt).length < width.toInt ∨
          width.toInt = -0x80000000)) := by
  by_cases hneg : value.toInt32.toInt < 0
  · rw [readsBack_of_neg_iff hneg hwidth hpad width.le_toInt]
    simp only [hneg, true_and]
  · exact iff_of_true (readsBack_of_not_neg hneg hwidth hpad) fun h => hneg h.1

/-- The most negative number, in twelve columns with zeros, is read back. -/
theorem readsBack_iff_sample :
    ReadsBack 0x80000000 12 0x30 (fun _ => 0) ↔
      ¬((0x80000000 : UInt32).toInt32.toInt < 0 ∧
        ((0x30 : UInt8) = 0x20 ∧
            (intNumeral (0x80000000 : UInt32).toInt32.toInt).length < (12 : Int32).toInt ∨
          (12 : Int32).toInt = -0x80000000)) :=
  readsBack_iff 0x80000000 12 (by decide) 0x30 (.inr rfl) fun _ => 0

/-- The number `-5` in five columns is a sign, three spaces and a digit. -/
theorem not_readsBack : ¬ReadsBack (-5) 5 0x20 fun _ => 0 := by
  have hdigits : (decimal (-5 : ℤ).natAbs).length ≤ 1 :=
    length_numeral_le (by omega) (by omega) (by omega)
  have hlength : ((intNumeral (-5 : UInt32).toInt32.toInt).length : ℤ) < 5 := by
    have hneg : (-5 : UInt32).toInt32.toInt = -5 := by decide
    rw [hneg, intNumeral, if_pos (by omega), List.length_cons]
    omega
  rw [readsBack_of_neg_iff (by decide) (by omega) (.inl rfl) (by omega)]
  exact not_not.mpr (.inl ⟨rfl, hlength⟩)

end ChalesOs
