import ChalesOs.Lib.ArrayLoops
import ChalesOs.Lib.FormatString
import ChalesOs.Memory.Words

/-!
# Numbers as text

The conversions of numbers that `printk.c` and `snprintk.c` each bring along: `utoa` collects the
digits of a number in a temporary array, last digit first, and copies them to the caller's buffer
in reverse; `utoa_padded` then moves them up and fills the room in front of them. The functions
differ in their names and their digit tables, so each is one definition with the table as a
parameter; the `utoa_padded` of `snprintk.c` has loops of its own and is in `Stdio/Snprintk.lean`.

The callers' buffer is `char buf[64]`, the temporary array `char temp[32]`; stores outside of them
have no outcome. `utoaWith_eq` and `utoaPaddedWith_eq` say what is in the buffer in the end.
-/

namespace ChalesOs

open ByteMemory FormatString

/-- `"0123456789abcdef"`. -/
def lowerDigits : List UInt8 :=
  [0x30, 0x31, 0x32, 0x33, 0x34, 0x35, 0x36, 0x37, 0x38, 0x39, 0x61, 0x62, 0x63, 0x64, 0x65, 0x66]

/-- `"0123456789ABCDEF"`. -/
def upperDigits : List UInt8 :=
  [0x30, 0x31, 0x32, 0x33, 0x34, 0x35, 0x36, 0x37, 0x38, 0x39, 0x41, 0x42, 0x43, 0x44, 0x45, 0x46]

/-- `"0123456789"`. -/
def decimalDigits : List UInt8 :=
  [0x30, 0x31, 0x32, 0x33, 0x34, 0x35, 0x36, 0x37, 0x38, 0x39]

/-- `digits[d]`. -/
def digitOf (digits : List UInt8) (d : ℕ) : UInt8 := digits.getD d 0

/-- The size of `char buf[64]`. -/
def bufSize : ℕ := 64

/-- The size of `char temp[32]`. -/
def tempSize : ℕ := 32

/-- `while (value > 0) { temp[i++] = digits[value % base]; value /= base; }`, with `room` cells of
`temp` left. -/
def utoaLoop (digits : List UInt8) (base : ℕ) :
    (room value i : ℕ) → (temp : ℕ → UInt8) → Option (ℕ × (ℕ → UInt8))
  | 0, value, i, temp => if value = 0 then some (i, temp) else none
  | room + 1, value, i, temp =>
    if value = 0 then some (i, temp)
    else
      (store tempSize temp i (digitOf digits (value % base))).bind fun temp =>
        utoaLoop digits base room (value / base) (i + 1) temp

/-- `utoa(value, buffer + off, base)` with the digit table `digits`: the number of characters, and
the buffer. -/
def utoaWith (digits : List UInt8) (value : ℕ) (buffer : ℕ → UInt8) (off base : ℕ) :
    Option (ℕ × (ℕ → UInt8)) :=
  if value = 0 then (store bufSize buffer off 0x30).map fun buffer => (1, buffer)
  else
    (utoaLoop digits base tempSize value 0 fun _ => 0).bind fun r =>
      (forRange r.1 (fun j buffer => store bufSize buffer (off + j) (r.2 (r.1 - j - 1)))
        buffer).map fun buffer => (r.1, buffer)

/-- `utoa_padded(value, buffer + off, base, width, pad_char)` with the digit table `digits`. -/
def utoaPaddedWith (digits : List UInt8) (value : ℕ) (buffer : ℕ → UInt8) (off base : ℕ)
    (width : ℤ) (padChar : UInt8) : Option (ℕ × (ℕ → UInt8)) :=
  (utoaWith digits value buffer off base).bind fun r =>
    let len := r.1
    if 0 < width ∧ len < width.toNat then
      let pad := width.toNat - len
      -- the digits move up, the last one first
      (forRange len (fun k buffer =>
        store bufSize buffer (off + (len - 1 - k) + pad) (buffer (off + (len - 1 - k))))
        r.2).bind fun buffer =>
      (forRange pad (fun i buffer => store bufSize buffer (off + i) padChar) buffer).map
        fun buffer => (width.toNat, buffer)
    else some r

variable {digits : List UInt8} {value base off room i : ℕ} {buffer temp : ℕ → UInt8} {width : ℤ}
  {padChar : UInt8}

/-- The loop puts the digits into the temporary array, the last one first. -/
theorem utoaLoop_eq (hbase : 1 < base) (hroom : value < base ^ room)
    (hi : i + room ≤ tempSize) :
    utoaLoop digits base room value i temp =
      some (i + (Nat.digits base value).length,
        write temp i ((Nat.digits base value).map (digitOf digits))) := by
  induction room generalizing value i temp with
  | zero =>
    obtain rfl : value = 0 := by simpa using hroom
    rw [utoaLoop, if_pos rfl, Nat.digits_zero, List.map_nil, write_nil, List.length_nil,
      Nat.add_zero]
  | succ room ih =>
    rw [utoaLoop]
    by_cases hvalue : value = 0
    · rw [if_pos hvalue, hvalue, Nat.digits_zero, List.map_nil, write_nil, List.length_nil,
        Nat.add_zero]
    have hdigits := Nat.digits_def' hbase (Nat.pos_of_ne_zero hvalue)
    have hquot : value / base < base ^ room :=
      Nat.div_lt_of_lt_mul (by rwa [pow_succ'] at hroom)
    rw [if_neg hvalue, store_of_lt (by omega), Option.bind_some,
      ih hquot (by omega), hdigits, List.map_cons, List.length_cons, ← write_singleton,
      ← write_cons]
    congr 2
    omega

/-- **`utoa`.** The buffer holds the numeral. -/
theorem utoaWith_eq (hdigits : digitOf digits 0 = 0x30) (hbase : 1 < base)
    (hvalue : value < base ^ tempSize)
    (hoff : off + (numeral (digitOf digits) base value).length ≤ bufSize) :
    utoaWith digits value buffer off base =
      some ((numeral (digitOf digits) base value).length,
        write buffer off (numeral (digitOf digits) base value)) := by
  rw [utoaWith]
  by_cases h0 : value = 0
  · have hnum : numeral (digitOf digits) base value = [0x30] := by
      rw [numeral, if_pos h0, hdigits]
    rw [hnum, List.length_singleton] at hoff
    rw [if_pos h0, hnum, List.length_singleton, store_of_lt (by omega), Option.map_some,
      write_singleton]
  rw [if_neg h0, utoaLoop_eq hbase hvalue (by omega), Option.bind_some]
  set l := (Nat.digits base value).map (digitOf digits) with hl
  have hnum : numeral (digitOf digits) base value = l.reverse := by
    rw [numeral, if_neg h0]
  have hlen : 0 + (Nat.digits base value).length = l.reverse.length := by
    rw [Nat.zero_add, List.length_reverse, hl, List.length_map]
  rw [hnum] at hoff ⊢
  dsimp only
  rw [hlen, forRange_store_list (fun j hj => ?_) hoff, Option.map_some]
  -- the reversal reads the temporary array from its end
  rw [List.length_reverse] at hj ⊢
  rw [List.getElem_reverse, write, if_pos (Nat.zero_le _), Nat.sub_zero, Nat.sub_right_comm,
    List.getElem?_eq_getElem (by omega), Option.getD_some]

/-- Moving a text up and filling the room in front of it pads it. -/
theorem fill_copy_write {t : List UInt8} {pad : ℕ} :
    fill (copy (write buffer off t) (off + pad) (write buffer off t) off t.length) off pad
        padChar = write buffer off (List.replicate pad padChar ++ t) := by
  funext a
  by_cases hfill : off ≤ a ∧ a < off + pad
  · rw [fill_of_mem hfill, write, if_pos hfill.1, List.getElem?_append_left (by
      rw [List.length_replicate]; omega), List.getElem?_replicate_of_lt (by omega),
      Option.getD_some]
  rw [fill_of_not_mem hfill]
  by_cases hcopy : off + pad ≤ a ∧ a < off + pad + t.length
  · rw [copy_of_mem hcopy, write, if_pos (by omega), write, if_pos (by omega),
      List.getElem?_append_right (by rw [List.length_replicate]; omega), List.length_replicate,
      show off + (a - (off + pad)) - off = a - off - pad by omega,
      List.getElem?_eq_getElem (by omega), Option.getD_some, Option.getD_some]
  · rw [copy_of_not_mem hcopy, write, write]
    split_ifs with hle
    · rw [List.getElem?_eq_none (by omega), List.getElem?_eq_none (by
        rw [List.length_append, List.length_replicate]; omega)]
    · rfl

/-- **`utoa_padded`.** The buffer holds the numeral, padded to the width. -/
theorem utoaPaddedWith_eq (hdigits : digitOf digits 0 = 0x30) (hbase : 1 < base)
    (hvalue : value < base ^ tempSize)
    (hoff : off + ((numeral (digitOf digits) base value).leftpad width.toNat padChar).length ≤
      bufSize) :
    utoaPaddedWith digits value buffer off base width padChar =
      some (((numeral (digitOf digits) base value).leftpad width.toNat padChar).length,
        write buffer off ((numeral (digitOf digits) base value).leftpad width.toNat padChar)) := by
  set t := numeral (digitOf digits) base value with ht
  rw [List.length_leftpad] at hoff ⊢
  rw [utoaPaddedWith, utoaWith_eq hdigits hbase hvalue (by rw [← ht]; omega), Option.bind_some,
    ← ht]
  dsimp only
  by_cases hpad : 0 < width ∧ t.length < width.toNat
  · rw [if_pos hpad, forRange_store_below (by omega), Option.bind_some,
      forRange_store_const (by omega), Option.map_some, fill_copy_write, List.leftpad,
      max_eq_left (by omega)]
  · have hle : width.toNat ≤ t.length := by omega
    rw [if_neg hpad, leftpad_of_le hle, max_eq_right hle]

end ChalesOs
