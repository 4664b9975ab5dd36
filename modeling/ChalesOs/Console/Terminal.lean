import ChalesOs.Lib.ArrayLoops
import ChalesOs.Lib.WrappedText

/-!
# The terminal

`tty.c`: the text screen of 25 rows of 80 cells, with a cursor and scrolling. A cell holds a
character in its low byte and the colours in its high byte. The screen is written with
`ByteMemory.store`, so an index outside of the 2000 cells has no outcome.

`Shows` says what the screen and the cursor have to do with a list of rows: the screen shows the
last 25 of them. `shows_newline` and `shows_putchar` carry it over one character, and
`terminal_shows` is the result for everything that is written: the rows are those of
`WrappedText.rows`.
-/

namespace ChalesOs

open ByteMemory WrappedText

/-- `VGA_WIDTH`. -/
def vgaWidth : ℕ := 80

/-- `VGA_HEIGHT`. -/
def vgaHeight : ℕ := 25

/-- The cells of the text buffer. -/
def vgaCells : ℕ := vgaHeight * vgaWidth

/-- `COLOR_BLACK` and `COLOR_LIGHT_GREY` of `enum vga_color`. -/
def colorBlack : UInt8 := 0
@[inherit_doc colorBlack]
def colorLightGrey : UInt8 := 7

/-- `make_color`. -/
def makeColor (fg bg : UInt8) : UInt8 := fg ||| bg <<< 4

/-- `make_vgaentry`; `char` is signed. -/
def makeVgaentry (c color : UInt8) : UInt16 :=
  let c16 := c.toInt8.toInt16.toUInt16
  let color16 := color.toUInt16
  c16 ||| color16 <<< 8

/-- `terminal_row`, `terminal_column`, `terminal_color` and what `terminal_buffer` points to. -/
structure Terminal where
  row : ℕ
  column : ℕ
  color : UInt8
  buffer : ℕ → UInt16

/-- `terminal_initialize`, over the given contents of the video memory. -/
def terminalInitialize (buffer : ℕ → UInt16) : Option Terminal :=
  let color := makeColor colorLightGrey colorBlack
  (forRange vgaHeight (fun y buffer =>
    forRange vgaWidth (fun x buffer =>
      store vgaCells buffer (y * vgaWidth + x) (makeVgaentry 0x20 color)) buffer) buffer).map
    fun buffer => { row := 0, column := 0, color := color, buffer := buffer }

/-- `terminal_putentryat`. -/
def terminalPutentryat (c color : UInt8) (x y : ℕ) (t : Terminal) : Option Terminal :=
  (store vgaCells t.buffer (y * vgaWidth + x) (makeVgaentry c color)).map fun buffer =>
    { t with buffer := buffer }

/-- `terminal_scroll`. -/
def terminalScroll (t : Terminal) : Option Terminal :=
  -- `for (y = 1; y < VGA_HEIGHT; y++)`
  (forRange (vgaHeight - 1) (fun i buf =>
    let y := i + 1
    forRange vgaWidth (fun x buf =>
      store vgaCells buf ((y - 1) * vgaWidth + x) (buf (y * vgaWidth + x))) buf) t.buffer).bind
    fun buf =>
  (forRange vgaWidth (fun x buf =>
    store vgaCells buf ((vgaHeight - 1) * vgaWidth + x) (makeVgaentry 0x20 t.color)) buf).map
    fun buf => { t with buffer := buf }

/-- `terminal_newline`. -/
def terminalNewline (t : Terminal) : Option Terminal :=
  let t := { t with column := 0 }
  if t.row + 1 = vgaHeight then terminalScroll t else some { t with row := t.row + 1 }

/-- `terminal_putchar`. -/
def terminalPutchar (c : UInt8) (t : Terminal) : Option Terminal :=
  if c = 0x0A then terminalNewline t
  else if c = 0x0D then some { t with column := 0 }
  else if c = 0x08 then
    if t.column > 0 then
      let t := { t with column := t.column - 1 }
      terminalPutentryat 0x20 t.color t.column t.row t
    else some t
  else
    (if t.column = vgaWidth then terminalNewline t else some t).bind fun t =>
      (terminalPutentryat c t.color t.column t.row t).map fun t =>
        { t with column := t.column + 1 }

/-- `terminal_write(data, size)`. -/
def terminalWrite (data : List UInt8) (t : Terminal) : Option Terminal :=
  data.foldlM (fun t c => terminalPutchar c t) t

/-- A sequence of calls of `terminal_write`. -/
def terminalWrites (calls : List (List UInt8)) (t : Terminal) : Option Terminal :=
  calls.foldlM (fun t data => terminalWrite data t) t

/-! ### What the loops do -/

variable {t : Terminal} {buffer : ℕ → UInt16} {calls : List (List UInt8)} {c : UInt8}
  {R : List (List UInt8)} {q s : List UInt8}

/-- A blank in the colours of the terminal. -/
def Terminal.blank (t : Terminal) : UInt16 := makeVgaentry 0x20 t.color

/-- The screen is blank in the beginning. -/
theorem terminalInitialize_eq :
    terminalInitialize buffer =
      some ⟨0, 0, 0x07, fill buffer 0 vgaCells (makeVgaentry 0x20 0x07)⟩ := by
  have hrun := forRange_eq (n := vgaHeight) (s := buffer)
    (fun y buffer => forRange vgaWidth (fun x buffer =>
      store vgaCells buffer (y * vgaWidth + x) (makeVgaentry 0x20 0x07)) buffer)
    (fun y => fill buffer 0 (y * vgaWidth) (makeVgaentry 0x20 0x07))
    (by rw [Nat.zero_mul, fill_zero]) fun y hy => ?_
  · rw [terminalInitialize]
    exact hrun ▸ rfl
  · rw [vgaHeight] at hy
    have hgrow := fill_fill (m := buffer) (d := 0) (n := y * vgaWidth) (k := vgaWidth)
      (v := makeVgaentry 0x20 0x07)
    rw [Nat.zero_add] at hgrow
    rw [forRange_store_const (by rw [vgaCells, vgaHeight, vgaWidth]; omega), Nat.succ_mul, hgrow]

/-- The text buffer after scrolling: the rows move up, and the last one is blank. -/
def Terminal.scrolled (t : Terminal) : ℕ → UInt16 :=
  fill (copy t.buffer 0 t.buffer vgaWidth ((vgaHeight - 1) * vgaWidth))
    ((vgaHeight - 1) * vgaWidth) vgaWidth t.blank

theorem terminalScroll_eq : terminalScroll t = some { t with buffer := t.scrolled } := by
  have hrun := forRange_eq (n := vgaHeight - 1) (s := t.buffer)
    (fun i buf => forRange vgaWidth (fun x buf =>
      store vgaCells buf ((i + 1 - 1) * vgaWidth + x) (buf ((i + 1) * vgaWidth + x))) buf)
    (fun i => copy t.buffer 0 t.buffer vgaWidth (i * vgaWidth))
    (by rw [Nat.zero_mul, copy_zero]) fun i hi => ?_
  · rw [terminalScroll, hrun, Option.bind_some,
      forRange_store_const (by rw [vgaCells, vgaHeight, vgaWidth]), Option.map_some]
    rfl
  · rw [vgaHeight] at hi
    have hgrow := copy_copy (m := t.buffer) (d := 0) (s := vgaWidth) (n := i * vgaWidth)
      (k := vgaWidth) (by omega)
    rw [Nat.zero_add, Nat.add_comm vgaWidth] at hgrow
    rw [Nat.add_sub_cancel, Nat.succ_mul,
      forRange_store_above (by rw [vgaCells, vgaHeight, vgaWidth]; omega), hgrow]

/-- Scrolling moves each row up by one. -/
theorem Terminal.scrolled_of_lt {r x : ℕ} (hr : r < vgaHeight - 1) (hx : x < vgaWidth) :
    t.scrolled (r * vgaWidth + x) = t.buffer ((r + 1) * vgaWidth + x) := by
  rw [vgaHeight] at hr
  rw [vgaWidth] at hx
  rw [scrolled, fill_of_not_mem (by rw [vgaHeight, vgaWidth]; omega),
    copy_of_mem (by rw [vgaHeight, vgaWidth]; omega)]
  congr 1
  rw [vgaWidth]
  omega

/-- The last row is blank behind scrolling. -/
theorem Terminal.scrolled_last {x : ℕ} (hx : x < vgaWidth) :
    t.scrolled ((vgaHeight - 1) * vgaWidth + x) = t.blank :=
  fill_of_mem ⟨Nat.le_add_right _ _, Nat.add_lt_add_left hx _⟩

theorem terminalPutentryat_eq {color : UInt8} {x y : ℕ} (h : y * vgaWidth + x < vgaCells) :
    terminalPutentryat c color x y t = some { t with
      buffer := Function.update t.buffer (y * vgaWidth + x) (makeVgaentry c color) } := by
  rw [terminalPutentryat, store_of_lt h, Option.map_some]

/-- The terminal after a newline. -/
def Terminal.newlined (t : Terminal) : Terminal :=
  if t.row + 1 = vgaHeight then { t with column := 0, buffer := t.scrolled }
  else { t with column := 0, row := t.row + 1 }

theorem terminalNewline_eq : terminalNewline t = some t.newlined := by
  rw [terminalNewline, Terminal.newlined]
  dsimp only
  split_ifs
  · exact terminalScroll_eq
  · rfl

theorem terminalWrite_append {l l' : List UInt8} :
    terminalWrite (l ++ l') t = (terminalWrite l t).bind (terminalWrite l') :=
  List.foldlM_append

theorem terminalWrite_singleton : terminalWrite [c] t = terminalPutchar c t := by
  rw [terminalWrite, List.foldlM_cons]
  exact Option.bind_fun_some (terminalPutchar c t)

/-- A sequence of calls writes what one call with all of the data writes. -/
theorem terminalWrites_eq : terminalWrites calls t = terminalWrite calls.flatten t := by
  induction calls generalizing t with
  | nil => rfl
  | cons data calls ih =>
    rw [List.flatten_cons, terminalWrite_append]
    exact congrArg (Option.bind (terminalWrite data t)) (funext fun t => ih)

/-! ### What the screen shows -/

/-- The character at column `x` of screen row `r`, when the screen shows the last rows of `R`. -/
def shownChar (R : List (List UInt8)) (r x : ℕ) : UInt8 :=
  charAt 0x20 (R.drop (R.length - vgaHeight)) r x

/-- The screen shows the last of the rows `R`, and the cursor is behind them. -/
structure Shows (R : List (List UInt8)) (t : Terminal) : Prop where
  ne_nil : R ≠ []
  row_eq : t.row = min R.length vgaHeight - 1
  column_eq : ∀ q ∈ R.getLast?, t.column = q.length
  color_eq : t.color = 0x07
  cell_eq : ∀ r < vgaHeight, ∀ x < vgaWidth,
    t.buffer (r * vgaWidth + x) = makeVgaentry (shownChar R r x) 0x07

/-- An initialized terminal shows an empty text. -/
theorem shows_initial :
    Shows [[]] ⟨0, 0, 0x07, fill buffer 0 vgaCells (makeVgaentry 0x20 0x07)⟩ where
  ne_nil := List.cons_ne_nil _ _
  row_eq := rfl
  column_eq := by simp
  color_eq := rfl
  cell_eq r hr x hx := by
    have hblank : shownChar [[]] r x = 0x20 := by
      rw [shownChar, charAt_drop]
      exact (charAt_concat_nil (R := [])).trans (charAt_of_le (Nat.zero_le _))
    rw [vgaHeight] at hr
    rw [vgaWidth] at hx
    rw [hblank]
    exact fill_of_mem (by rw [vgaCells, vgaHeight, vgaWidth]; omega)

/-- **A newline** adds an empty row. -/
theorem Shows.newlined (h : Shows R t) : Shows (R ++ [[]]) t.newlined := by
  have hlen : (R ++ [[]]).length = R.length + 1 := List.length_append
  have hpos : 0 < R.length := List.length_pos_iff.mpr h.ne_nil
  have hrow := h.row_eq
  have hheight : vgaHeight = 25 := rfl
  have hcell : ∀ r x, shownChar (R ++ [[]]) r x = charAt 0x20 R (R.length + 1 - vgaHeight + r) x :=
    fun r x => by rw [shownChar, charAt_drop, hlen, charAt_concat_nil]
  rw [Terminal.newlined]
  split_ifs with hfull
  · -- the screen is full and scrolls
    refine ⟨by simp, ?_, by simp, h.color_eq, fun r hr x hx => ?_⟩
    · rw [hlen]
      dsimp only
      omega
    dsimp only
    rw [hcell]
    by_cases hlast : r = vgaHeight - 1
    · rw [hlast, Terminal.scrolled_last hx, charAt_of_le (by omega), Terminal.blank, h.color_eq]
    · rw [Terminal.scrolled_of_lt (by omega) hx, h.cell_eq (r + 1) (by omega) x hx, shownChar,
        charAt_drop, show R.length - vgaHeight + (r + 1) = R.length + 1 - vgaHeight + r by omega]
  · refine ⟨by simp, ?_, by simp, h.color_eq, fun r hr x hx => ?_⟩
    · rw [hlen]
      dsimp only
      omega
    dsimp only
    rw [hcell, h.cell_eq r hr x hx, shownChar, charAt_drop,
      show R.length - vgaHeight = R.length + 1 - vgaHeight by omega]

/-- **A character** in front of the right margin extends the last row. -/
theorem Shows.putentryat {Q : List (List UInt8)} (h : Shows (Q ++ [q]) t)
    (hq : q.length < vgaWidth) :
    ∃ t', terminalPutentryat c t.color t.column t.row t = some t' ∧
      Shows (Q ++ [q ++ [c]]) { t' with column := t'.column + 1 } := by
  have hheight : vgaHeight = 25 := rfl
  have hwidth : vgaWidth = 80 := rfl
  have hlen : ∀ q : List UInt8, (Q ++ [q]).length = Q.length + 1 := fun q => List.length_append
  have hcolumn : t.column = q.length := h.column_eq q (by simp)
  have hrow := h.row_eq
  rw [hlen] at hrow
  have hindex : t.row * vgaWidth + t.column < vgaCells := by
    rw [vgaCells, hwidth]
    omega
  refine ⟨_, terminalPutentryat_eq hindex, by simp, ?_, ?_, h.color_eq, fun r hr x hx => ?_⟩
  · rw [hlen]
    exact hrow
  · intro q' hq'
    rw [List.getLast?_concat, Option.mem_some_iff] at hq'
    rw [← hq', List.length_append]
    exact congrArg (· + 1) hcolumn
  · dsimp only
    have hchar := h.cell_eq r hr x hx
    rw [shownChar, charAt_drop, hlen] at hchar
    rw [shownChar, charAt_drop, hlen, charAt_concat_char]
    by_cases hhere : r = t.row ∧ x = t.column
    · rw [hhere.1, hhere.2, Function.update_self, if_pos ⟨by omega, hcolumn⟩, h.color_eq]
    · have hne : r * vgaWidth + x ≠ t.row * vgaWidth + t.column := by
        rw [hwidth] at hx hq ⊢
        omega
      rw [Function.update_of_ne hne, if_neg (by omega), hchar]

/-- **One character.** The rows shown are those of the text that has been written. -/
theorem Shows.putchar (h : Shows (rows 0x0A vgaWidth s) t)
    (hc : c = 0x0A ∨ 0x20 ≤ c) :
    ∃ t', terminalPutchar c t = some t' ∧ Shows (rows 0x0A vgaWidth (s ++ [c])) t' := by
  rw [terminalPutchar]
  by_cases hnl : c = 0x0A
  · rw [if_pos hnl, hnl, terminalNewline_eq, rows_newline]
    exact ⟨_, rfl, h.newlined⟩
  have hge : 0x20 ≤ c := hc.resolve_left hnl
  have hcr : c ≠ 0x0D := fun heq => absurd (heq ▸ hge) (by decide)
  have hbs : c ≠ 0x08 := fun heq => absurd (heq ▸ hge) (by decide)
  obtain ⟨R, q, hR, hq, hrows⟩ := exists_rows_char (n := vgaWidth) (by decide) hnl s
  rw [hR] at h
  have hcolumn : t.column = q.length := h.column_eq q (by simp)
  rw [if_neg hnl, if_neg hcr, if_neg hbs, hcolumn, hrows]
  split_ifs with hfull
  · -- the row is full: the cursor goes to the next one first
    have hnext : Shows ((R ++ [q]) ++ [[]]) t.newlined := h.newlined
    obtain ⟨t', hput, hshows⟩ := hnext.putentryat (c := c) (by decide)
    rw [terminalNewline_eq, Option.bind_some, hput, Option.map_some]
    exact ⟨_, rfl, by simpa using hshows⟩
  · obtain ⟨t', hput, hshows⟩ := h.putentryat (c := c) (lt_of_le_of_ne hq hfull)
    rw [Option.bind_some, hput, Option.map_some]
    exact ⟨_, rfl, hshows⟩

/-- **A text**, character by character. -/
theorem Shows.write {data : List UInt8} (h : Shows (rows 0x0A vgaWidth s) t)
    (hdata : ∀ c ∈ data, c = 0x0A ∨ 0x20 ≤ c) :
    ∃ t', terminalWrite data t = some t' ∧ Shows (rows 0x0A vgaWidth (s ++ data)) t' := by
  induction data generalizing s t with
  | nil => exact ⟨t, rfl, by rwa [List.append_nil]⟩
  | cons c data ih =>
    obtain ⟨t₁, hput, hshows⟩ := h.putchar (hdata c List.mem_cons_self)
    obtain ⟨t₂, hwrite, hshows⟩ := ih hshows fun d hd => hdata d (List.mem_cons_of_mem c hd)
    refine ⟨t₂, ?_, by simpa using hshows⟩
    rw [terminalWrite, List.foldlM_cons, hput]
    exact hwrite

/-- **The screen shows the end of the wrapped text**, however it has been cut into calls, and no
store was out of bounds. -/
theorem terminal_shows (hprintable : ∀ c ∈ calls.flatten, c = 0x0A ∨ 0x20 ≤ c ∧ c ≤ 0x7E) :
    ∃ t, (terminalInitialize buffer).bind (terminalWrites calls) = some t ∧
      ∀ r < vgaHeight, ∀ x < vgaWidth, t.buffer (r * vgaWidth + x) =
        makeVgaentry (shownChar (rows 0x0A vgaWidth calls.flatten) r x) t.color := by
  have hstart : Shows (rows 0x0A vgaWidth []) ⟨0, 0, 0x07, fill buffer 0 vgaCells
      (makeVgaentry 0x20 0x07)⟩ := by
    rw [rows_nil]
    exact shows_initial
  obtain ⟨t, hwrite, hshows⟩ := hstart.write fun c hc => (hprintable c hc).imp_right And.left
  refine ⟨t, ?_, fun r hr x hx => ?_⟩
  · rw [terminalInitialize_eq, Option.bind_some, terminalWrites_eq, hwrite]
  · rw [hshows.color_eq]
    exact hshows.cell_eq r hr x hx

/-- A word and a newline in two calls. -/
theorem terminal_shows_sample :
    ∃ t, (terminalInitialize fun _ => 0).bind (terminalWrites [[0x68], [0x69, 0x0A]]) = some t ∧
      ∀ r < vgaHeight, ∀ x < vgaWidth, t.buffer (r * vgaWidth + x) =
        makeVgaentry (shownChar (rows 0x0A vgaWidth [0x68, 0x69, 0x0A]) r x) t.color :=
  terminal_shows (by simp)

end ChalesOs
