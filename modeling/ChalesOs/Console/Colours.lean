import Mathlib.Data.List.Induction
import ChalesOs.Console.Terminal
import ChalesOs.Memory.Words

/-!
# The colours of the screen

Arbitrary bytes on the terminal: control characters move the cursor anywhere, and `Cursor` says
that it stays on the screen, or one column to the right of it.

`make_vgaentry` takes its character as a signed `char` and widens it to 16 bits before the
attribute is joined to it. For a byte from 128 on, this sets all bits of the attribute
(`attributeByte_makeVgaentry`), so such a byte shows in white on white, whatever `terminal_color`
is.
`coloursKept_iff` is the condition on the output under which the colours stay what they are.
-/

namespace ChalesOs

open ByteMemory

/-- The attribute byte of a cell. -/
def attributeByte (entry : UInt16) : UInt8 := (entry >>> 8).toUInt8

/-- The character byte of a cell. -/
def lowByte (entry : UInt16) : UInt8 := entry.toUInt8

/-- The characters `terminal_putchar` acts on without writing them. -/
def IsControl (c : UInt8) : Prop := c = 0x0A ∨ c = 0x0D ∨ c = 0x08

/-- All cells of the screen have the colours of the terminal, and the cell in front of the cursor
holds the character written last. -/
structure ColoursKept (written : List UInt8) (t : Terminal) : Prop where
  attributeByte_eq : ∀ i < vgaCells, attributeByte (t.buffer i) = t.color
  lowByte_eq : ∀ c ∈ written.getLast?, ¬IsControl c →
    lowByte (t.buffer (t.row * vgaWidth + t.column - 1)) = c

/-- The cursor is on the screen, or to the right of its row. -/
structure Cursor (t : Terminal) : Prop where
  row_lt : t.row < vgaHeight
  column_le : t.column ≤ vgaWidth

variable {t t' : Terminal} {buffer : ℕ → UInt16} {calls : List (List UInt8)}
  {output written : List UInt8} {c color : UInt8} {i : ℕ}

/-! ### Cells -/

/-- The character byte of a cell is the character. -/
theorem lowByte_makeVgaentry : lowByte (makeVgaentry c color) = c := by
  have hchar : c.toInt8.toInt16.toUInt16.toUInt8 = c :=
    forall_byte (p := fun c => c.toInt8.toInt16.toUInt16.toUInt8 = c) (by decide +kernel) c
  have hcolor : (color.toUInt16 <<< 8).toUInt8 = 0 :=
    forall_byte (p := fun color => (color.toUInt16 <<< 8).toUInt8 = 0) (by decide +kernel) color
  rw [lowByte, makeVgaentry, UInt16.toUInt8_or, hchar, hcolor, UInt8.or_zero]

/-- **The attribute of a cell** is the colour for an ASCII character, and all ones for any other
byte. -/
theorem attributeByte_makeVgaentry :
    attributeByte (makeVgaentry c color) = if c < 0x80 then color else 0xFF := by
  have hchar : (c.toInt8.toInt16.toUInt16 >>> 8).toUInt8 = if c < 0x80 then 0 else 0xFF :=
    forall_byte (p := fun c => (c.toInt8.toInt16.toUInt16 >>> 8).toUInt8 =
      if c < 0x80 then 0 else 0xFF) (by decide +kernel) c
  have hcolor : (color.toUInt16 <<< 8 >>> 8).toUInt8 = color :=
    forall_byte (p := fun color => (color.toUInt16 <<< 8 >>> 8).toUInt8 = color)
      (by decide +kernel) color
  have hones : 0xFF ||| color = 0xFF :=
    forall_byte (p := fun color => 0xFF ||| color = 0xFF) (by decide +kernel) color
  rw [attributeByte, makeVgaentry, UInt16.shiftRight_or, UInt16.toUInt8_or, hchar, hcolor]
  split_ifs
  · exact UInt8.zero_or
  · exact hones

/-! ### Steps -/

/-- A newline keeps the cursor on the screen, and shows nothing but old cells and blanks. -/
theorem Cursor.newlined (h : Cursor t) :
    Cursor t.newlined ∧ t.newlined.color = t.color ∧ t.newlined.column = 0 ∧
      ∀ p : UInt16 → Prop, (∀ i < vgaCells, p (t.buffer i)) → p t.blank →
        ∀ i < vgaCells, p (t.newlined.buffer i) := by
  have hrow := h.row_lt
  rw [Terminal.newlined]
  split_ifs with hfull
  · refine ⟨⟨hrow, Nat.zero_le _⟩, rfl, rfl, fun p hold hblank i hi => ?_⟩
    dsimp only
    rw [Terminal.scrolled]
    by_cases hlast : (vgaHeight - 1) * vgaWidth ≤ i
    · rw [fill_of_mem ⟨hlast, hi⟩]
      exact hblank
    · rw [fill_of_not_mem fun hmem => hlast hmem.1, copy_of_mem (by omega)]
      refine hold _ ?_
      rw [vgaHeight, vgaWidth] at hlast
      rw [vgaCells, vgaHeight, vgaWidth]
      omega
  · exact ⟨⟨by dsimp only; omega, Nat.zero_le _⟩, rfl, rfl, fun p hold _ => hold⟩

/-- Storing a cell of the row of the cursor. -/
theorem Cursor.exists_putentryat (h : Cursor t) {x : ℕ} (hx : x < vgaWidth) :
    ∃ t', terminalPutentryat c t.color x t.row t = some t' ∧
      t' = { t with buffer := t'.buffer } ∧
      t'.buffer (t.row * vgaWidth + x) = makeVgaentry c t.color ∧
      ∀ p : UInt16 → Prop, (∀ i < vgaCells, p (t.buffer i)) → p (makeVgaentry c t.color) →
        ∀ i < vgaCells, p (t'.buffer i) := by
  have hrow := h.row_lt
  have hindex : t.row * vgaWidth + x < vgaCells := by
    rw [vgaHeight] at hrow
    rw [vgaWidth] at hx
    rw [vgaCells, vgaHeight, vgaWidth]
    omega
  refine ⟨_, terminalPutentryat_eq hindex, rfl, Function.update_self .., fun p hold hc i hi => ?_⟩
  dsimp only
  by_cases hi' : i = t.row * vgaWidth + x
  · rw [hi', Function.update_self]
    exact hc
  · rw [Function.update_of_ne hi']
    exact hold i hi

/-- Writing a character at the cursor, and moving on. -/
theorem Cursor.exists_write (h : Cursor t) (hcolumn : t.column < vgaWidth) (c : UInt8) :
    ∃ t', ((terminalPutentryat c t.color t.column t.row t).map fun t =>
        { t with column := t.column + 1 }) = some t' ∧ Cursor t' ∧ t'.color = t.color ∧
      (t'.row * vgaWidth + t'.column - 1 < vgaCells ∧
        t'.buffer (t'.row * vgaWidth + t'.column - 1) = makeVgaentry c t.color) ∧
      ∀ p : UInt16 → Prop, (∀ i < vgaCells, p (t.buffer i)) → p (makeVgaentry c t.color) →
        ∀ i < vgaCells, p (t'.buffer i) := by
  obtain ⟨t', hput, heq, hcell, hp⟩ := h.exists_putentryat (c := c) hcolumn
  have hrow := h.row_lt
  rw [hput, Option.map_some]
  refine ⟨_, rfl, ?_, ?_, ?_, hp⟩
  · rw [heq]
    exact ⟨hrow, hcolumn⟩
  · rw [heq]
  · rw [heq]
    dsimp only
    rw [← Nat.add_assoc, Nat.add_sub_cancel]
    refine ⟨?_, hcell⟩
    rw [vgaHeight] at hrow
    rw [vgaWidth] at hcolumn
    rw [vgaCells, vgaHeight, vgaWidth]
    omega

/-- **One character.** The cursor stays on the screen, a character is written in front of it, and
every cell is an old cell, a blank or the cell of the character. -/
theorem Cursor.exists_putchar (h : Cursor t) (c : UInt8) :
    ∃ t', terminalPutchar c t = some t' ∧ Cursor t' ∧ t'.color = t.color ∧
      (¬IsControl c → t'.row * vgaWidth + t'.column - 1 < vgaCells ∧
        t'.buffer (t'.row * vgaWidth + t'.column - 1) = makeVgaentry c t.color) ∧
      ∀ p : UInt16 → Prop, (∀ i < vgaCells, p (t.buffer i)) → p t.blank →
        (¬IsControl c → p (makeVgaentry c t.color)) → ∀ i < vgaCells, p (t'.buffer i) := by
  rw [terminalPutchar]
  by_cases hnl : c = 0x0A
  · obtain ⟨hcursor, hcolor, -, hp⟩ := h.newlined
    rw [if_pos hnl]
    exact ⟨_, terminalNewline_eq, hcursor, hcolor, fun hc => absurd (Or.inl hnl) hc,
      fun p hold hblank _ => hp p hold hblank⟩
  by_cases hcr : c = 0x0D
  · rw [if_neg hnl, if_pos hcr]
    exact ⟨_, rfl, ⟨h.row_lt, Nat.zero_le _⟩, rfl, fun hc => absurd (Or.inr (Or.inl hcr)) hc,
      fun p hold _ _ => hold⟩
  by_cases hbs : c = 0x08
  · have hcontrol : IsControl c := Or.inr (Or.inr hbs)
    rw [if_neg hnl, if_neg hcr, if_pos hbs]
    split_ifs with hcolumn
    · -- the cell in front of the cursor becomes blank
      have hle := h.column_le
      have hcursor : Cursor { t with column := t.column - 1 } :=
        ⟨h.row_lt, (Nat.sub_le _ _).trans hle⟩
      obtain ⟨t', hput, heq, -, hp⟩ := hcursor.exists_putentryat (c := 0x20) (x := t.column - 1)
        (by omega)
      refine ⟨t', hput, ?_, by rw [heq], fun hc => absurd hcontrol hc,
        fun p hold hblank _ => hp p hold hblank⟩
      rw [heq]
      exact ⟨hcursor.row_lt, hcursor.column_le⟩
    · exact ⟨t, rfl, h, rfl, fun hc => absurd hcontrol hc, fun p hold _ _ => hold⟩
  · have hcontrol : ¬IsControl c := not_or_intro hnl (not_or_intro hcr hbs)
    rw [if_neg hnl, if_neg hcr, if_neg hbs]
    by_cases hfull : t.column = vgaWidth
    · -- behind the right margin the line is broken first
      obtain ⟨hcursor, hcolor, hcolumn, hp⟩ := h.newlined
      obtain ⟨t', hrun, hcursor', hcolor', hcell, hp'⟩ :=
        hcursor.exists_write (by rw [hcolumn]; decide) c
      rw [hcolor] at hcolor' hcell hp'
      rw [if_pos hfull, terminalNewline_eq, Option.bind_some]
      exact ⟨t', hrun, hcursor', hcolor', fun _ => hcell,
        fun p hold hblank hc => hp' p (hp p hold hblank) (hc hcontrol)⟩
    · obtain ⟨t', hrun, hcursor', hcolor', hcell, hp'⟩ :=
        h.exists_write (lt_of_le_of_ne h.column_le hfull) c
      rw [if_neg hfull, Option.bind_some]
      exact ⟨t', hrun, hcursor', hcolor', fun _ => hcell,
        fun p hold _ hc => hp' p hold (hc hcontrol)⟩

/-! ### Runs -/

/-- **A text.** The cursor stays on the screen, the last character is in front of it, and ASCII
characters keep the colours. -/
theorem Cursor.exists_terminalWrite (h : Cursor t) (data : List UInt8) :
    ∃ t', terminalWrite data t = some t' ∧ Cursor t' ∧ t'.color = t.color ∧
      (∀ c ∈ data.getLast?, ¬IsControl c → t'.row * vgaWidth + t'.column - 1 < vgaCells ∧
        t'.buffer (t'.row * vgaWidth + t'.column - 1) = makeVgaentry c t.color) ∧
      ((∀ c ∈ data, c < 0x80) → (∀ i < vgaCells, attributeByte (t.buffer i) = t.color) →
        ∀ i < vgaCells, attributeByte (t'.buffer i) = t.color) := by
  induction data using List.reverseRecOn with
  | nil => exact ⟨t, rfl, h, rfl, by simp, fun _ hold => hold⟩
  | append_singleton data c ih =>
    obtain ⟨t₁, hrun, hcursor₁, hcolor₁, -, hkept⟩ := ih
    obtain ⟨t₂, hput, hcursor₂, hcolor₂, hcell, hp⟩ := hcursor₁.exists_putchar c
    rw [hcolor₁] at hcolor₂ hcell hp
    refine ⟨t₂, ?_, hcursor₂, hcolor₂, ?_, fun hascii hold => ?_⟩
    · rw [terminalWrite_append, hrun, Option.bind_some, terminalWrite_singleton, hput]
    · intro d hd
      rw [List.getLast?_concat, Option.mem_some_iff] at hd
      exact hd ▸ hcell
    · refine hp (fun entry => attributeByte entry = t.color)
        (hkept (fun d hd => hascii d (List.mem_append_left _ hd)) hold) ?_ fun _ => ?_
      · rw [Terminal.blank, hcolor₁, attributeByte_makeVgaentry, if_pos (by decide)]
      · rw [attributeByte_makeVgaentry, if_pos (hascii c (by simp))]

/-- **A run of the terminal.** Behind initialization, the calls leave a cursor on the screen. -/
theorem exists_run (buffer : ℕ → UInt16) (calls : List (List UInt8)) :
    ∃ t, (terminalInitialize buffer).bind (terminalWrites calls) = some t ∧ t.color = 0x07 ∧
      (∀ c ∈ calls.flatten.getLast?, ¬IsControl c →
        t.row * vgaWidth + t.column - 1 < vgaCells ∧
          t.buffer (t.row * vgaWidth + t.column - 1) = makeVgaentry c 0x07) ∧
      ((∀ c ∈ calls.flatten, c < 0x80) → ∀ i < vgaCells, attributeByte (t.buffer i) = 0x07) := by
  have hcursor : Cursor ⟨0, 0, 0x07, fill buffer 0 vgaCells (makeVgaentry 0x20 0x07)⟩ :=
    ⟨Nat.zero_lt_succ _, Nat.zero_le _⟩
  obtain ⟨t, hrun, -, hcolor, hcell, hkept⟩ := hcursor.exists_terminalWrite calls.flatten
  refine ⟨t, ?_, hcolor, hcell, fun hascii => hkept hascii fun i hi => ?_⟩
  · rw [terminalInitialize_eq, Option.bind_some, terminalWrites_eq, hrun]
  · dsimp only
    rw [fill_of_mem (by omega), attributeByte_makeVgaentry]
    rfl

/-- **The colours of the screen.** At every moment of a sequence of calls that write `output`, the
screen keeps its colours, if and only if all the bytes are ASCII characters. -/
theorem coloursKept_iff :
    (∀ calls : List (List UInt8), calls.flatten <+: output →
      ∃ t, (terminalInitialize buffer).bind (terminalWrites calls) = some t ∧
        ColoursKept calls.flatten t) ↔ ∀ c ∈ output, c < 0x80 := by
  constructor
  · intro h c hc
    obtain ⟨front, back, rfl⟩ := List.append_of_mem hc
    by_contra hascii
    have hcontrol : ¬IsControl c := by
      rintro (rfl | rfl | rfl) <;> exact hascii (by decide)
    -- the moment the byte has been written
    have hflatten : [front ++ [c]].flatten = front ++ [c] := List.flatten_singleton
    obtain ⟨t, hrun, hkept⟩ := h [front ++ [c]] (by rw [hflatten]; exact ⟨back, by simp⟩)
    obtain ⟨t', hrun', hcolor, hcell, -⟩ := exists_run buffer [front ++ [c]]
    obtain rfl := Option.some.inj (hrun.symm.trans hrun')
    obtain ⟨hindex, hcell⟩ := hcell c (by rw [hflatten, List.getLast?_concat]; rfl) hcontrol
    have hwhite := hkept.attributeByte_eq _ hindex
    rw [hcell, attributeByte_makeVgaentry, if_neg hascii, hcolor] at hwhite
    exact absurd hwhite (by decide)
  · intro hascii calls hcalls
    obtain ⟨t, hrun, hcolor, hcell, hkept⟩ := exists_run buffer calls
    refine ⟨t, hrun, ?_, fun c hc hcontrol => ?_⟩
    · rw [hcolor]
      exact hkept fun c hc => hascii c (hcalls.subset hc)
    · rw [(hcell c hc hcontrol).2, lowByte_makeVgaentry]

/-- The byte `0x80` shows in white on white. -/
theorem not_coloursKept :
    ¬∀ buffer calls, ∃ t, (terminalInitialize buffer).bind (terminalWrites calls) = some t ∧
      ColoursKept calls.flatten t := by
  intro h
  obtain ⟨t, hrun, hkept⟩ := h (fun _ => 0) [[0x80]]
  obtain ⟨t', hrun', hcolor, hcell, -⟩ := exists_run (fun _ => 0) [[0x80]]
  obtain rfl := Option.some.inj (hrun.symm.trans hrun')
  obtain ⟨hindex, hcell⟩ := hcell 0x80 rfl (by rintro (h | h | h) <;> exact absurd h (by decide))
  have hwhite := hkept.attributeByte_eq _ hindex
  rw [hcell, hcolor, attributeByte_makeVgaentry] at hwhite
  exact absurd hwhite (by decide)

end ChalesOs
