import ChalesOs.Lib.FormatString

/-!
# Reading numerals back

`readNat b` reads a text as a number in the base `b`, the way `strtoul` does: letters of either
case follow the digit nine, leading zeros are allowed, and any other character makes it fail.
`readInt` reads an optional minus sign and a decimal number directly behind it.

`IsNumeral b n t` says that `t` is the text of the number `n` in the base `b`: it reads back, and
has no leading zeros. `isNumeral_numeral` is the round trip. `readNat_leftpad_iff` tells which
padding a number survives.
-/

namespace FormatString

/-- The value of a digit, in any base it is a digit of. -/
def digitValue (c : UInt8) : Option ℕ :=
  if 0x30 ≤ c ∧ c ≤ 0x39 then some (c.toNat - 0x30)
  else if 0x61 ≤ c ∧ c ≤ 0x7A then some (c.toNat - 0x61 + 10)
  else if 0x41 ≤ c ∧ c ≤ 0x5A then some (c.toNat - 0x41 + 10)
  else none

/-- A digit of the base `b`. -/
def readDigit (b : ℕ) (c : UInt8) : Option ℕ := (digitValue c).filter (· < b)

/-- The number with the given digits, continuing from `w`. -/
def readDigits (b : ℕ) : (w : ℕ) → List UInt8 → Option ℕ
  | w, [] => some w
  | w, c :: s => (readDigit b c).bind fun d => readDigits b (w * b + d) s

/-- A number without a sign, of at least one digit. -/
def readNat (b : ℕ) (s : List UInt8) : Option ℕ := if s = [] then none else readDigits b 0 s

/-- A decimal number behind an optional minus sign. -/
def readInt (s : List UInt8) : Option ℤ :=
  if s.head? = some 0x2D then (readNat 10 s.tail).map fun n : ℕ => -(n : ℤ)
  else (readNat 10 s).map fun n : ℕ => (n : ℤ)

/-- The text is the numeral of `n` in the base `b`. -/
structure IsNumeral (b n : ℕ) (t : List UInt8) : Prop where
  read : readNat b t = some n
  zero : n = 0 → t = [0x30]
  head_ne : n ≠ 0 → t.head? ≠ some 0x30

variable {b n w k : ℕ} {digit : ℕ → UInt8} {c : UInt8} {s t : List UInt8} {l : List ℕ}

/-! ### The round trip -/

theorem readDigits_append :
    readDigits b w (s ++ t) = (readDigits b w s).bind fun w => readDigits b w t := by
  induction s generalizing w with
  | nil => rfl
  | cons c s ih =>
    rw [List.cons_append, readDigits, readDigits, Option.bind_assoc]
    exact congrArg _ (funext fun d => ih)

/-- Digits that are written last one first. -/
theorem readDigits_reverse (hdigit : ∀ d, d < b → readDigit b (digit d) = some d)
    (hl : ∀ d ∈ l, d < b) : readDigits b 0 (l.map digit).reverse = some (Nat.ofDigits b l) := by
  induction l with
  | nil => rfl
  | cons d l ih =>
    obtain ⟨hd, hl⟩ := List.forall_mem_cons.mp hl
    rw [List.map_cons, List.reverse_cons, readDigits_append, ih hl, Option.bind_some, readDigits,
      hdigit d hd, Option.bind_some, readDigits, Nat.ofDigits_cons, Nat.mul_comm, Nat.add_comm]

/-- **Round trip.** The numeral of a number is read back as the number. -/
theorem readNat_numeral (hb : 1 < b) (hdigit : ∀ d, d < b → readDigit b (digit d) = some d) :
    readNat b (numeral digit b n) = some n := by
  rw [readNat, if_neg numeral_ne_nil, numeral]
  split_ifs with hn
  · rw [readDigits, hdigit 0 (by omega), Option.bind_some, readDigits, Nat.zero_mul, hn]
  · rw [readDigits_reverse hdigit fun d hd => Nat.digits_lt_base hb hd, Nat.ofDigits_digits]

/-- The first digit of a number other than `0` is not a zero. -/
theorem head?_numeral (digit : ℕ → UInt8) (hb : 1 < b) (hn : n ≠ 0) :
    ∃ d, 0 < d ∧ d < b ∧ (numeral digit b n).head? = some (digit d) := by
  have hnil : Nat.digits b n ≠ [] := Nat.digits_ne_nil_iff_ne_zero.mpr hn
  refine ⟨(Nat.digits b n).getLast hnil, Nat.pos_of_ne_zero (Nat.getLast_digit_ne_zero b hn),
    Nat.digits_lt_base hb (List.getLast_mem hnil), ?_⟩
  rw [numeral, if_neg hn, List.head?_reverse, List.getLast?_map, List.getLast?_eq_some_getLast hnil,
    Option.map_some]

theorem isNumeral_numeral (hb : 1 < b) (hdigit : ∀ d, d < b → readDigit b (digit d) = some d)
    (hzero : digit 0 = 0x30) : IsNumeral b n (numeral digit b n) where
  read := readNat_numeral hb hdigit
  zero hn := by rw [numeral, if_pos hn, hzero]
  head_ne hn heq := by
    obtain ⟨d, hpos, hd, hhead⟩ := head?_numeral digit hb hn
    have hsame : digit d = digit 0 := by rw [hzero, ← Option.some_inj, ← hhead, heq]
    have := hdigit 0 (by omega)
    rw [← hsame, hdigit d hd, Option.some_inj] at this
    omega

/-! ### Padding -/

/-- What is read begins with a digit. -/
theorem readDigit_ne_none (h : readNat b (c :: s) = some n) : readDigit b c ≠ none := by
  intro hc
  rw [readNat, if_neg (List.cons_ne_nil c s), readDigits, hc] at h
  cases h

/-- Leading zeros do not count. -/
theorem readNat_zeros (hc : readDigit b c = some 0) (h : readNat b t = some n) :
    readNat b (List.replicate k c ++ t) = some n := by
  induction k with
  | zero => exact h
  | succ k ih =>
    have hne : List.replicate k c ++ t ≠ [] := by
      intro hnil
      rw [hnil] at ih
      cases ih
    rw [readNat, if_neg hne] at ih
    rw [List.replicate_succ, List.cons_append, readNat, if_neg (List.cons_ne_nil _ _), readDigits,
      hc, Option.bind_some, Nat.zero_mul, Nat.add_zero, ih]

/-- A padded number can be read if it is padded with zeros, or not at all. -/
theorem readNat_leftpad_iff (hc : c = 0x20 ∨ c = 0x30) (h : readNat 10 t = some n) :
    readNat 10 (t.leftpad k c) = some n ↔ ¬(c = 0x20 ∧ t.length < k) := by
  obtain rfl | rfl := hc
  · constructor
    · rintro hread ⟨-, hlt⟩
      obtain ⟨m, hm⟩ : ∃ m, k - t.length = m + 1 := ⟨k - t.length - 1, by omega⟩
      rw [List.leftpad, hm, List.replicate_succ, List.cons_append] at hread
      exact readDigit_ne_none hread rfl
    · intro hshort
      rw [leftpad_of_le (by simpa using hshort)]
      exact h
  · exact iff_of_true (readNat_zeros rfl h) (by simp)

/-- Skipping the spaces in front of a number. -/
theorem dropWhile_of_readNat (h : readNat b t = some n) (hspace : readDigit b c = none) :
    (List.replicate k c ++ t).dropWhile (· = c) = t := by
  induction k with
  | zero =>
    cases t with
    | nil => rfl
    | cons d s =>
      have hne : d ≠ c := fun hd => readDigit_ne_none h (hd ▸ hspace)
      rw [List.replicate_zero, List.nil_append, List.dropWhile_cons_of_neg (by simpa using hne)]
  | succ k ih =>
    rw [List.replicate_succ, List.cons_append, List.dropWhile_cons_of_pos (by simp), ih]

/-- A number without a sign. -/
theorem readInt_of_readNat (h : readNat 10 t = some n) : readInt t = some (n : ℤ) := by
  have hsign : t.head? ≠ some 0x2D := by
    intro hhead
    obtain ⟨s, rfl⟩ := List.head?_eq_some_iff.mp hhead
    exact readDigit_ne_none h rfl
  rw [readInt, if_neg hsign, h, Option.map_some]

/-- A number without a sign can be padded with spaces or zeros. -/
theorem readInt_leftpad (hc : c = 0x20 ∨ c = 0x30) (h : readNat 10 t = some n) :
    readInt ((t.leftpad k c).dropWhile (· = 0x20)) = some (n : ℤ) := by
  rw [List.leftpad]
  obtain rfl | rfl := hc
  · rw [dropWhile_of_readNat h rfl]
    exact readInt_of_readNat h
  · have hzeros := readNat_zeros (k := k - t.length) (c := 0x30) rfl h
    have hdrop := dropWhile_of_readNat (k := 0) (c := 0x20) hzeros rfl
    rw [List.replicate_zero, List.nil_append] at hdrop
    rw [hdrop]
    exact readInt_of_readNat hzeros

/-- A number behind a minus sign. -/
theorem readInt_minus_iff :
    readInt ((0x2D :: t).dropWhile (· = 0x20)) = some (-(n : ℤ)) ↔ readNat 10 t = some n := by
  rw [List.dropWhile_cons_of_neg (by decide), readInt, if_pos List.head?_cons, List.tail_cons,
    Option.map_eq_some_iff]
  simp

end FormatString
