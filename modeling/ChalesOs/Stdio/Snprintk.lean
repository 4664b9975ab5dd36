import ChalesOs.Stdio.Conversions

/-!
# `snprintk`

The formatter of `snprintk.c`, which writes into a buffer of `size` bytes. The loop over the
format is `Snprintk.loop`: a run of ordinary characters is printed at once (`Snprintk.ordinary`),
a percent sign starts a directive (`Snprintk.directive`). Every branch of a directive ends in the
same four steps, which are `Snprintk.emit`. Stores outside of the buffer or of `char buf[64]` have
no outcome.

As long as the buffer has room, its state is determined by the text printed so far
(`Snprintk.holding`), and printing appends (`snprintkPrint_holding`); `loop_holding` is the same
for the whole loop. `snprintk_truncates` is the contract: the buffer gets what fits of the text
the format stands for, and a `NUL`.
-/

namespace ChalesOs

open ByteMemory FormatString

/-- `snprintk_state_t`. -/
structure SnprintkState where
  buffer : ℕ → UInt8
  position : ℕ
  size : ℕ

/-- `snprintk_putchar`. -/
def snprintkPutchar (c : UInt8) (state : SnprintkState) : Option (Bool × SnprintkState) :=
  if state.position ≥ state.size - 1 then some (false, state)
  else
    (store state.size state.buffer state.position c).map fun buffer =>
      (true, { state with buffer := buffer, position := state.position + 1 })

/-- `snprintk_print`. -/
def snprintkPrint : (data : List UInt8) → SnprintkState → Option (Bool × SnprintkState)
  | [], state => some (true, state)
  | c :: data, state =>
    (snprintkPutchar c state).bind fun r =>
      if r.1 then snprintkPrint data r.2 else some (false, r.2)

namespace Snprintk

/-- `utoa`. -/
def utoa (value : ℕ) (buffer : ℕ → UInt8) (off base : ℕ) : Option (ℕ × (ℕ → UInt8)) :=
  utoaWith lowerDigits value buffer off base

/-- `utoa_padded`. -/
def utoaPadded (value : ℕ) (buffer : ℕ → UInt8) (base : ℕ) (width : ℤ) (padChar : UInt8) :
    Option (ℕ × (ℕ → UInt8)) :=
  (utoa value buffer 0 base).bind fun r =>
    let len := r.1
    if 0 < width ∧ len < width.toNat then
      (forDown len (fun i buffer => store bufSize buffer (i + width.toNat - len) (buffer i))
        r.2).bind fun buffer =>
      (forRange (width.toNat - len) (fun i buffer => store bufSize buffer i padChar) buffer).map
        fun buffer => (width.toNat, buffer)
    else some r

/-- `itoa`. -/
def itoa (value : UInt32) (buffer : ℕ → UInt8) : Option (ℕ × (ℕ → UInt8)) :=
  if value.toInt32 < 0 then
    (store bufSize buffer 0 0x2D).bind fun buffer =>
      (utoa (-value).toNat buffer 1 10).map fun r => (1 + r.1, r.2)
  else utoa value.toNat buffer 0 10

/-- `char buf[64]`, whose first contents nothing reads. -/
def freshBuf : ℕ → UInt8 := fun _ => 0

/-- How an iteration of the loop ends. -/
inductive Step
  /-- With the next iteration. -/
  | next (format : CString) (args : List VaArg) (written : ℕ) (state : SnprintkState)
  /-- At the label `overflow`. -/
  | overflow (state : SnprintkState)
  /-- With `return -1`. -/
  | giveUp (state : SnprintkState)

/-- `if (maxrem < len || !snprintk_print(data, len, &state)) goto overflow; written += len;`, and
the format and the arguments to go on with. -/
def emit (data : List UInt8) (format : CString) (args : List VaArg) (written : ℕ)
    (state : SnprintkState) : Option Step :=
  if intMax - written < data.length then some (.overflow state)
  else
    (snprintkPrint data state).map fun r =>
      if r.1 then .next format args (written + data.length) r.2 else .overflow r.2

/-- The part of the loop for normal characters and `%%`. -/
def ordinary (format : CString) (args : List VaArg) (written : ℕ) (state : SnprintkState) :
    Option Step :=
  let format := if peek format = percent then format.tail else format
  let amount := 1 + (format.tail.takeWhile fun c => c ≠ percent).length
  if intMax - written < amount then some (.giveUp state)
  else
    (snprintkPrint (format.take amount) state).map fun r =>
      if r.1 then .next (format.drop amount) args (written + amount) r.2 else .overflow r.2

/-- The part of the loop for directives; `begunAt` is `format_begun_at`. -/
def directive (begunAt : CString) (args : List VaArg) (written : ℕ) (state : SnprintkState) :
    Option Step :=
  let f := parseFlags begunAt.tail
  let format := f.rest
  if peek format = 0x63 then
    -- %c
    (vaWord args).bind fun v =>
      if intMax - written = 0 then some (.overflow state)
      else
        (snprintkPutchar v.1.toUInt8 state).map fun r =>
          if r.1 then .next format.tail v.2 (written + 1) r.2 else .overflow r.2
  else if peek format = 0x73 then
    -- %s
    (vaString args).bind fun v => emit v.1 format.tail v.2 written state
  else if peek format = 0x64 ∨ peek format = 0x69 then
    -- %d and %i
    (vaWord args).bind fun v =>
      (itoa v.1 freshBuf).bind fun r => emit (slice r.2 0 r.1) format.tail v.2 written state
  else if peek format = 0x75 ∨ peek format = 0x6C then
    -- %u and %lu; behind another %l the rest of the format is printed literally
    if peek format = 0x6C ∧ peek format.tail ≠ 0x75 then emit begunAt [] args written state
    else
      let format := if peek format = 0x6C then format.tail else format
      (vaWord args).bind fun v =>
        (utoaPadded v.1.toNat freshBuf 10 f.width f.pad).bind fun r =>
          emit (slice r.2 0 r.1) format.tail v.2 written state
  else if peek format = 0x78 then
    -- %x
    (vaWord args).bind fun v =>
      (utoa v.1.toNat freshBuf 0 16).bind fun r =>
        emit (slice r.2 0 r.1) format.tail v.2 written state
  else if peek format = 0x70 then
    -- %p, in two pieces
    (vaWord args).bind fun v =>
      (utoa v.1.toNat freshBuf 0 16).bind fun r =>
        if intMax - written < 2 + r.1 then some (.overflow state)
        else
          (snprintkPrint [0x30, 0x78] state).bind fun q =>
            if q.1 then
              (snprintkPrint (slice r.2 0 r.1) q.2).map fun q =>
                if q.1 then .next format.tail v.2 (written + (2 + r.1)) q.2 else .overflow q.2
            else some (.overflow q.2)
  else
    -- unknown: the rest of the format is printed literally
    emit begunAt [] args written state

/-- How the loop ends. -/
inductive Exit
  | done (written : ℕ) (state : SnprintkState)
  | overflow (state : SnprintkState)
  | giveUp (state : SnprintkState)

/-- `while (*format != '\0')`, for at most `fuel` iterations. -/
def loop : (fuel : ℕ) → CString → List VaArg → (written : ℕ) → SnprintkState → Option Exit
  | 0, _, _, _, _ => none
  | fuel + 1, format, args, written, state =>
    if format = [] then some (.done written state)
    else
      let step :=
        if peek format ≠ percent ∨ peek format.tail = percent then
          ordinary format args written state
        else directive format args written state
      match step with
      | none => none
      | some (.next format args written state) => loop fuel format args written state
      | some (.overflow state) => some (.overflow state)
      | some (.giveUp state) => some (.giveUp state)

end Snprintk

/-- `snprintk(buffer, size, format, ...)`: the result, and the buffer. -/
def snprintk (buffer : ℕ → UInt8) (size : ℕ) (format : CString) (args : List VaArg) :
    Option (ℤ × (ℕ → UInt8)) :=
  if size = 0 then some (-1, buffer)
  else
    match Snprintk.loop (format.length + 1) format args 0 ⟨buffer, 0, size⟩ with
    | none => none
    | some (.done written state) =>
      (store state.size state.buffer state.position 0).map fun buffer => ((written : ℤ), buffer)
    | some (.overflow state) =>
      (store state.size state.buffer
        (if state.position < state.size - 1 then state.position else state.size - 1) 0).map
        fun buffer => (-1, buffer)
    | some (.giveUp state) => some (-1, state.buffer)

/-- The conversions of `snprintk`; only `%u` and `%lu` use the width. -/
def snprintkLanguage : Language Conversion VaArg where
  recognize s :=
    if peek s = 0x6C ∧ peek s.tail = 0x75 then some (.unsigned, s.tail.tail)
    else (shortConversion (peek s)).map fun k => (k, s.tail)
  convert := convertArgs fun k => k = .unsigned
  length_of_recognize {s r} h := by
    split_ifs at h
    · obtain rfl := Option.some.inj h
      simp only [List.length_tail]
      omega
    · obtain ⟨k, -, rfl⟩ := Option.map_eq_some_iff.mp h
      simp

/-! ### Printing into the buffer -/

namespace Snprintk

/-- The state of a call that has printed `out` into `buffer`. -/
def holding (buffer : ℕ → UInt8) (size : ℕ) (out : List UInt8) : SnprintkState :=
  { buffer := write buffer 0 out, position := out.length, size := size }

variable {buffer : ℕ → UInt8} {size written : ℕ} {out data t : List UInt8} {format s : CString}
  {args : List VaArg} {state : SnprintkState} {r : Conversion × List UInt8} {padChar : UInt8}
  {width : ℕ} {w : UInt32} {k : Conversion} {q : List UInt8 × List VaArg}

/-- A full buffer takes no character. -/
theorem snprintkPutchar_full {c : UInt8} (h : state.size - 1 ≤ state.position) :
    snprintkPutchar c state = some (false, state) :=
  if_pos h

/-- A character is appended if it fits. -/
theorem snprintkPutchar_holding {c : UInt8} (h : out.length < size - 1) :
    snprintkPutchar c (holding buffer size out) =
      some (true, holding buffer size (out ++ [c])) := by
  have hroom : ¬(holding buffer size out).position ≥ (holding buffer size out).size - 1 :=
    not_le.mpr h
  have hcell := update_write (m := buffer) (d := 0) (l := out) (v := c)
  rw [Nat.zero_add] at hcell
  rw [snprintkPutchar, if_neg hroom, holding, store_of_lt (by dsimp only; omega), hcell,
    Option.map_some, holding, List.length_append, List.length_singleton]

/-- Printing appends what fits. -/
theorem snprintkPrint_holding (hout : out.length ≤ size - 1) :
    snprintkPrint data (holding buffer size out) =
      some (decide (out.length + data.length ≤ size - 1),
        holding buffer size ((out ++ data).take (size - 1))) := by
  induction data generalizing out with
  | nil =>
    rw [snprintkPrint, List.append_nil, List.take_of_length_le hout, List.length_nil, Nat.add_zero,
      decide_eq_true hout]
  | cons c data ih =>
    rw [snprintkPrint]
    by_cases hfull : size - 1 ≤ out.length
    · have htake : (out ++ c :: data).take (size - 1) = out := by
        rw [show size - 1 = out.length by omega, List.take_left]
      rw [snprintkPutchar_full hfull, Option.bind_some, htake, if_neg Bool.false_ne_true,
        decide_eq_false (by rw [List.length_cons]; omega)]
    · have hlen : (out ++ [c]).length = out.length + 1 := List.length_append
      rw [snprintkPutchar_holding (by omega), Option.bind_some, if_pos rfl, ih (by omega), hlen,
        List.length_cons, List.append_assoc, List.singleton_append, Nat.add_assoc, Nat.add_comm 1]

/-- Printing in two pieces is printing both at once. -/
theorem snprintkPrint_append :
    snprintkPrint (data ++ t) state = (snprintkPrint data state).bind fun r =>
      if r.1 then snprintkPrint t r.2 else some (false, r.2) := by
  induction data generalizing state with
  | nil => rfl
  | cons c data ih =>
    rw [List.cons_append, snprintkPrint, snprintkPrint, Option.bind_assoc]
    congr 1
    funext r
    split_ifs
    · exact ih
    · rfl

/-- One branch of a directive, on a buffer that has room for the text so far. -/
theorem emit_holding (hout : out.length ≤ size - 1)
    (hlen : out.length + data.length ≤ intMax) :
    emit data format args out.length (holding buffer size out) =
      some (if out.length + data.length ≤ size - 1 then
          .next format args (out ++ data).length (holding buffer size (out ++ data))
        else .overflow (holding buffer size ((out ++ data).take (size - 1)))) := by
  rw [emit, if_neg (by omega), snprintkPrint_holding hout, Option.map_some]
  by_cases hfit : out.length + data.length ≤ size - 1
  · simp only [hfit, decide_true, if_true]
    rw [List.take_of_length_le (by rw [List.length_append]; omega), List.length_append]
  · simp only [hfit, decide_false, Bool.false_eq_true, if_false]

/-! ### Directives -/

theorem utoa_eq {base off : ℕ} (hbase : 10 ≤ base) (hoff : off ≤ 1) :
    utoa w.toNat buffer off base =
      some ((numeral (digitOf lowerDigits) base w.toNat).length,
        write buffer off (numeral (digitOf lowerDigits) base w.toNat)) := by
  obtain ⟨hlen, hvalue⟩ := length_numeral_word (digitOf lowerDigits) hbase w
  exact utoaWith_eq rfl (by omega) hvalue (by rw [bufSize]; omega)

/-- `itoa` writes the sign and the magnitude. -/
theorem itoa_eq : itoa w buffer =
    some ((signedText padChar 0 w.toInt32.toInt).length,
      write buffer 0 (signedText padChar 0 w.toInt32.toInt)) := by
  rw [itoa, signedText]
  by_cases hneg : w.toInt32.toInt < 0
  · rw [if_pos (toInt32_neg_iff.mpr hneg), if_pos hneg, store_of_lt (by decide), Option.bind_some,
      utoa_eq le_rfl le_rfl,
      Option.map_some, toNat_neg_of_neg hneg, Nat.zero_sub, leftpad_zero, List.length_cons,
      ← write_singleton, ← write_cons, decimal, Nat.add_comm]
  · rw [if_neg (mt toInt32_neg_iff.mp hneg), if_neg hneg, utoa_eq le_rfl (Nat.zero_le _),
      toNat_of_not_neg hneg, leftpad_zero, decimal]

/-- `utoa_padded` writes a padded word. -/
theorem utoaPadded_eq {base : ℕ} {width : ℤ} (hbase : 10 ≤ base) (hwidth : width ≤ 64) :
    utoaPadded w.toNat buffer base width padChar =
      some (((numeral (digitOf lowerDigits) base w.toNat).leftpad width.toNat padChar).length,
        write buffer 0
          ((numeral (digitOf lowerDigits) base w.toNat).leftpad width.toNat padChar)) := by
  have hlen := (length_numeral_word (digitOf lowerDigits) hbase w).1
  set t := numeral (digitOf lowerDigits) base w.toNat with ht
  have hsize : bufSize = 64 := rfl
  rw [utoaPadded, utoa_eq hbase (Nat.zero_le _), Option.bind_some, ← ht, List.length_leftpad]
  dsimp only
  by_cases hpad : 0 < width ∧ t.length < width.toNat
  · set pad := width.toNat - t.length with hpad'
    have hmoved : forDown t.length
        (fun i buffer => store bufSize buffer (i + width.toNat - t.length) (buffer i))
        (write buffer 0 t) = some (copy (write buffer 0 t) pad (write buffer 0 t) 0 t.length) :=
      forDown_copy (Nat.zero_le _) fun i hi m => by
        rw [store_of_lt (by omega), Nat.zero_add,
          show i + width.toNat - t.length = pad + i by omega]
    have hfilled : ∀ m : ℕ → UInt8, forRange pad (fun i m => store bufSize m (0 + i) padChar) m =
        some (fill m 0 pad padChar) := fun m => forRange_store_const (by omega)
    have htext : fill (copy (write buffer 0 t) (0 + pad) (write buffer 0 t) 0 t.length) 0 pad
        padChar = write buffer 0 (List.replicate pad padChar ++ t) := fill_copy_write
    simp only [Nat.zero_add] at hfilled htext
    rw [if_pos hpad, hmoved, Option.bind_some, hfilled, Option.map_some, htext, List.leftpad,
      max_eq_left (by omega)]
  · have hle : width.toNat ≤ t.length := by omega
    rw [if_neg hpad, leftpad_of_le hle, max_eq_right hle]

/-- The decimal conversions. -/
theorem utoaPadded_decimal (hwidth : width ≤ 64) :
    utoaPadded w.toNat buffer 10 width padChar =
      some (((decimal w.toNat).leftpad width padChar).length,
        write buffer 0 ((decimal w.toNat).leftpad width padChar)) :=
  utoaPadded_eq le_rfl (Int.ofNat_le.mpr hwidth)

/-- **Directives.** A directive prints what the language makes of it. -/
theorem directive_recognized (h : snprintkLanguage.recognize (flags s).rest = some r)
    (hq : snprintkLanguage.convert r.1 (flags s).pad (flags s).width args = some q)
    (hwidth : (flags s).width ≤ 64) :
    directive (percent :: s) args written state = emit q.1 r.2 q.2 written state := by
  rw [directive, List.tail_cons, parseFlags_eq]
  dsimp only [snprintkLanguage] at h hq ⊢
  split_ifs at h with hlu
  · -- %lu
    obtain rfl := Option.some.inj h
    obtain ⟨w, hw, ht⟩ := vaWord_of_convertArgs (k := .unsigned) (by decide) (by decide) hq
    have ht : (decimal w.toNat).leftpad (flags s).width (flags s).pad = q.1 := Option.some.inj ht
    simp +decide only [hlu, ↓reduceIte, hw, Option.bind_some, utoaPadded_decimal hwidth,
      slice_write, ht]
  obtain ⟨k, hk, rfl⟩ := Option.map_eq_some_iff.mp h
  obtain ⟨hp, rfl⟩ | ⟨hp, rfl⟩ | ⟨hp, rfl⟩ | ⟨hp, rfl⟩ | ⟨hp, rfl⟩ | ⟨hp, rfl⟩ :=
    shortConversion_eq_some hk
  · -- %c
    obtain ⟨w, hw, ht⟩ := vaWord_of_convertArgs (k := .char) (by decide) (by decide) hq
    have ht : [w.toUInt8] = q.1 := Option.some.inj ht
    rw [if_pos hp, hw, Option.bind_some, ← ht, emit, List.length_singleton]
    dsimp only
    by_cases hmax : intMax - written = 0
    · rw [if_pos hmax, if_pos (by omega)]
    · rw [if_neg hmax, if_neg (by omega), snprintkPrint]
      cases snprintkPutchar w.toUInt8 state with
      | none => rfl
      | some b => cases hb : b.1 <;> simp [hb, snprintkPrint]
  · -- %s
    simp +decide only [hp, ↓reduceIte, vaString_of_convertArgs hq, Option.bind_some]
  · -- %d and %i
    obtain ⟨w, hw, ht⟩ := vaWord_of_convertArgs (k := .signed) (by decide) (by decide) hq
    have ht : signedText (flags s).pad 0 w.toInt32.toInt = q.1 := Option.some.inj ht
    have hitoa : itoa w freshBuf = some (q.1.length, write freshBuf 0 q.1) := ht ▸ itoa_eq
    obtain hp | hp := hp <;>
      simp +decide only [hp, ↓reduceIte, hw, hitoa, Option.bind_some, slice_write]
  · -- %u
    obtain ⟨w, hw, ht⟩ := vaWord_of_convertArgs (k := .unsigned) (by decide) (by decide) hq
    have ht : (decimal w.toNat).leftpad (flags s).width (flags s).pad = q.1 := Option.some.inj ht
    simp +decide only [hp, ↓reduceIte, false_and, hw, Option.bind_some, utoaPadded_decimal hwidth,
      slice_write, ht]
  · -- %x
    obtain ⟨w, hw, ht⟩ := vaWord_of_convertArgs (k := .hex false) (by decide) (by decide) hq
    have ht : (hexadecimal false w.toNat).leftpad 0 (flags s).pad = q.1 := Option.some.inj ht
    have hutoa : utoa w.toNat freshBuf 0 16 = some (q.1.length, write freshBuf 0 q.1) := by
      rw [utoa_eq (by omega) (Nat.zero_le _), ← ht, leftpad_zero]
      rfl
    simp +decide only [hp, ↓reduceIte, hw, hutoa, Option.bind_some, slice_write]
  · -- %p
    obtain ⟨w, hw, ht⟩ := vaWord_of_convertArgs (k := .pointer) (by decide) (by decide) hq
    have hsplit : q.1 = [0x30, 0x78] ++ hexadecimal false w.toNat := (Option.some.inj ht).symm
    have hhex : utoa w.toNat freshBuf 0 16 = some ((hexadecimal false w.toNat).length,
        write freshBuf 0 (hexadecimal false w.toNat)) :=
      utoa_eq (by omega) (Nat.zero_le _)
    have hlen : q.1.length = 2 + (hexadecimal false w.toNat).length := by
      rw [hsplit, List.length_append]
      rfl
    simp +decide only [hp, ↓reduceIte, hw, hhex, Option.bind_some, slice_write]
    rw [emit, hlen, hsplit, snprintkPrint_append]
    by_cases hmax : intMax - written < 2 + (hexadecimal false w.toNat).length
    · rw [if_pos hmax, if_pos hmax]
    · rw [if_neg hmax, if_neg hmax]
      cases snprintkPrint [0x30, 0x78] state with
      | none => rfl
      | some b => cases hb : b.1 <;> simp [hb]

/-- Behind a percent sign without a conversion the format is printed as it stands. -/
theorem directive_unknown (h : snprintkLanguage.recognize (flags s).rest = none) :
    directive (percent :: s) args written state =
      emit (percent :: s) [] args written state := by
  rw [directive, List.tail_cons, parseFlags_eq]
  dsimp only [snprintkLanguage] at h ⊢
  split_ifs at h with hlu
  have hnone := Option.map_eq_none_iff.mp h
  have hc := ne_of_shortConversion hnone (d := 0x63) (by decide)
  have hs := ne_of_shortConversion hnone (d := 0x73) (by decide)
  have hd := ne_of_shortConversion hnone (d := 0x64) (by decide)
  have hi := ne_of_shortConversion hnone (d := 0x69) (by decide)
  have hu := ne_of_shortConversion hnone (d := 0x75) (by decide)
  have hx := ne_of_shortConversion hnone (d := 0x78) (by decide)
  have hp := ne_of_shortConversion hnone (d := 0x70) (by decide)
  by_cases hl : peek (flags s).rest = 0x6C
  · rw [if_neg hc, if_neg hs, if_neg (not_or_intro hd hi), if_pos (Or.inr hl),
      if_pos ⟨hl, fun h' => hlu ⟨hl, h'⟩⟩]
  · rw [if_neg hc, if_neg hs, if_neg (not_or_intro hd hi), if_neg (not_or_intro hu hl), if_neg hx,
      if_neg hp]

/-! ### The loop -/

/-- A run of ordinary characters is printed like the text of a directive. -/
theorem ordinary_eq_emit {c : UInt8}
    (hskip : (if peek format = percent then format.tail else format) = c :: s)
    (hlen : (c :: s.takeWhile fun c => c ≠ percent).length ≤ intMax - written) :
    ordinary format args written state =
      emit (c :: s.takeWhile fun c => c ≠ percent) (s.dropWhile fun c => c ≠ percent) args written
        state := by
  have hrun : c :: s =
      (c :: s.takeWhile fun c => c ≠ percent) ++ s.dropWhile fun c => c ≠ percent :=
    congrArg (c :: ·) List.takeWhile_append_dropWhile.symm
  have hamount : 1 + ((c :: s).tail.takeWhile fun c => c ≠ percent).length =
      (c :: s.takeWhile fun c => c ≠ percent).length := Nat.add_comm ..
  rw [ordinary, emit, hskip]
  rw [if_neg (by rw [hamount]; exact not_lt.mpr hlen), if_neg (not_lt.mpr hlen), hamount, hrun,
    List.take_left, List.drop_left]

/-- The iteration the loop makes at the front of a format. -/
private def iteration (format : CString) (args : List VaArg) (written : ℕ)
    (state : SnprintkState) : Option Step :=
  if peek format ≠ percent ∨ peek format.tail = percent then ordinary format args written state
  else directive format args written state

/-- One iteration prints a piece of the text and leaves the rest of it to the rest of the
format. -/
private theorem exists_iteration_eq {c : UInt8} (written : ℕ) (state : SnprintkState)
    (ht : snprintkLanguage.text (c :: s) args = some t)
    (hw : snprintkLanguage.WidthsLe 64 (c :: s)) (hlen : t.length ≤ intMax - written) :
    ∃ data format' args' t', iteration (c :: s) args written state =
        emit data format' args' written state ∧ t = data ++ t' ∧ format'.length ≤ s.length ∧
      snprintkLanguage.text format' args' = some t' ∧ snprintkLanguage.WidthsLe 64 format' := by
  obtain ⟨d, s', t', hrun, hskip, rfl, ht', hw'⟩ |
    ⟨r, q, t', rfl, hs, hr, hq, hwidth, rfl, ht', hw'⟩ | ⟨rfl, hs, hr, rfl⟩ :=
    Language.text_cases ht hw
  · -- ordinary characters
    have hdrop := (List.dropWhile_sublist (l := s') fun c => decide (c ≠ percent)).length_le
    have hlength : s'.length ≤ s.length := by
      have := congrArg List.length hskip
      split_ifs at this <;> (simp only [List.length_cons] at this; omega)
    refine ⟨_, _, args, t', ?_, rfl, hdrop.trans hlength, ht', hw'⟩
    rw [iteration, if_pos (peek_iff.mpr hrun)]
    refine ordinary_eq_emit hskip ?_
    rw [List.length_append] at hlen
    omega
  · -- a conversion
    refine ⟨q.1, r.2, q.2, t', ?_, rfl, Language.length_le_of_recognize hr, ht', hw'⟩
    rw [iteration, if_neg (mt peek_iff.mp (not_or_intro (not_not.mpr rfl) hs))]
    exact directive_recognized hr hq hwidth
  · -- a percent sign without a conversion
    refine ⟨percent :: s, [], args, [], ?_, (List.append_nil _).symm, Nat.zero_le _,
      Language.text_nil, Language.widthsLe_nil⟩
    rw [iteration, if_neg (mt peek_iff.mp (not_or_intro (not_not.mpr rfl) hs))]
    exact directive_unknown hr

/-- **The loop.** It prints the text of the format, as far as the buffer has room for it. -/
theorem loop_holding {fuel : ℕ} (hfuel : format.length < fuel)
    (ht : snprintkLanguage.text format args = some t) (hw : snprintkLanguage.WidthsLe 64 format)
    (hout : out.length ≤ size - 1) (hlen : out.length + t.length ≤ intMax) :
    loop fuel format args out.length (holding buffer size out) =
      some (if out.length + t.length ≤ size - 1 then
          .done (out ++ t).length (holding buffer size (out ++ t))
        else .overflow (holding buffer size ((out ++ t).take (size - 1)))) := by
  induction fuel generalizing format args out t with
  | zero => exact absurd hfuel (Nat.not_lt_zero _)
  | succ fuel ih =>
    cases format with
    | nil =>
      obtain rfl : [] = t := Option.some.inj (Language.text_nil.symm.trans ht)
      rw [loop, if_pos rfl, List.append_nil, if_pos (by simpa using hout)]
    | cons c s =>
      obtain ⟨data, format', args', t', hstep, rfl, hformat, ht', hw'⟩ :=
        exists_iteration_eq out.length (holding buffer size out) ht hw
          (by omega)
      rw [List.length_append] at hlen
      rw [emit_holding hout (by omega)] at hstep
      rw [loop, if_neg (List.cons_ne_nil c s)]
      dsimp only
      rw [← iteration, hstep]
      by_cases hfit : out.length + data.length ≤ size - 1
      · have hout' : (out ++ data).length ≤ size - 1 := by
          rw [List.length_append]
          exact hfit
        rw [if_pos hfit]
        dsimp only
        rw [ih (by rw [List.length_cons] at hfuel; omega) ht' hw' hout'
          (by rw [List.length_append]; omega)]
        simp only [List.append_assoc, List.length_append, Nat.add_assoc]
      · -- the text behind the piece that does not fit does not matter
        have htake : (out ++ (data ++ t')).take (size - 1) = (out ++ data).take (size - 1) := by
          rw [← List.append_assoc]
          exact List.take_append_of_le_length (by rw [List.length_append]; omega)
        rw [if_neg hfit, if_neg (by rw [List.length_append]; omega), htake]

end Snprintk

open Snprintk

variable {buffer : ℕ → UInt8} {size : ℕ} {format : CString} {args : List VaArg} {full : List UInt8}

/-- **`snprintk`.** The buffer gets what fits of the text, and a `NUL`; the result is the length of
the text, or -1 if it does not fit. -/
theorem snprintk_eq (hfull : snprintkLanguage.text format args = some full)
    (hw : snprintkLanguage.WidthsLe 64 format) (hlen : full.length ≤ intMax) (hsize : 1 ≤ size) :
    snprintk buffer size format args =
      some (if full.length ≤ size - 1 then (full.length : ℤ) else -1,
        write buffer 0 (full.take (size - 1) ++ [0])) := by
  have hloop : loop (format.length + 1) format args ([] : List UInt8).length
      (holding buffer size []) = _ :=
    loop_holding (Nat.lt_succ_self _) hfull hw (Nat.zero_le _) (by simpa using hlen)
  have hstart : holding buffer size [] = ⟨buffer, 0, size⟩ := by
    rw [holding, write_nil, List.length_nil]
  rw [List.length_nil, Nat.zero_add, List.nil_append, hstart] at hloop
  rw [snprintk.eq_def, if_neg (by omega), hloop]
  -- the `NUL` goes behind what has been printed
  have hnul : ∀ t : List UInt8, t.length ≤ size - 1 →
      store size (write buffer 0 t) t.length 0 = some (write buffer 0 (t ++ [0])) := fun t ht => by
    have hcell := update_write (m := buffer) (d := 0) (l := t) (v := 0)
    rw [Nat.zero_add] at hcell
    rw [store_of_lt (by omega), hcell]
  by_cases hfit : full.length ≤ size - 1
  · rw [if_pos hfit, if_pos hfit]
    dsimp only [holding]
    rw [hnul full hfit, Option.map_some, List.take_of_length_le hfit]
  · have htake : (full.take (size - 1)).length = size - 1 := by
      rw [List.length_take]
      omega
    have hnul := hnul (full.take (size - 1)) htake.le
    rw [htake] at hnul
    rw [if_neg hfit, if_neg hfit]
    dsimp only [holding]
    rw [htake, if_neg (lt_irrefl _), hnul, Option.map_some]

/-- **Exact truncation.** The buffer holds the first characters of the text, as many as fit in
front of the `NUL`, and nothing behind the buffer changes. -/
theorem snprintk_truncates (hfull : snprintkLanguage.text format args = some full)
    (hw : snprintkLanguage.WidthsLe 64 format) (hlen : full.length < 0x80000000)
    (hsize : 1 ≤ size) :
    ∃ buffer', snprintk buffer size format args =
        some (if full.length ≤ size - 1 then (full.length : ℤ) else -1, buffer') ∧
      (∀ i, size ≤ i → buffer' i = buffer i) ∧
      slice buffer' 0 (min full.length (size - 1)) = full.take (size - 1) ∧
      buffer' (min full.length (size - 1)) = 0 := by
  have htake : (full.take (size - 1)).length = min full.length (size - 1) := by
    rw [List.length_take, min_comm]
  refine ⟨_, snprintk_eq hfull hw (by rw [intMax]; omega) hsize, fun i hi => ?_, ?_, ?_⟩
  · refine eqOn_write fun hmem => ?_
    have := hmem.2
    rw [List.length_append, List.length_singleton, htake] at this
    omega
  · rw [← htake]
    exact slice_write_append
  · rw [write, if_pos (Nat.zero_le _), Nat.sub_zero, ← htake, List.getElem?_concat_length,
      Option.getD_some]

/-- Four characters do not fit into a buffer of four bytes. -/
theorem snprintk_truncates_sample :
    ∃ buffer', snprintk (fun _ => 0xFF) 4 [0x61, 0x62, 0x25, 0x73] [.string [0x63, 0x64]] =
        some (if 4 ≤ 3 then (4 : ℤ) else -1, buffer') ∧
      (∀ i, 4 ≤ i → buffer' i = 0xFF) ∧ slice buffer' 0 3 = [0x61, 0x62, 0x63] ∧
      buffer' 3 = 0 := by
  have hfull : snprintkLanguage.text [0x61, 0x62, 0x25, 0x73] [.string [0x63, 0x64]] =
      some [0x61, 0x62, 0x63, 0x64] := by
    rw [Language.text_char (by decide), Language.text_char (by decide),
      Language.text_directive (r := (.string, [])) (by decide) (by decide)]
    simp only [Language.text_nil]
    rfl
  refine snprintk_truncates hfull ?_ (by decide) (by decide)
  rw [Language.widthsLe_char (by decide), Language.widthsLe_char (by decide),
    Language.widthsLe_directive (r := (.string, [])) (by decide) (by decide)]
  exact ⟨by decide, fun k padChar width hk => by simp [Language.parse] at hk⟩

end ChalesOs
