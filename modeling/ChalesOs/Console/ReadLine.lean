import ChalesOs.Console.Keyboard
import ChalesOs.Lib.LineEditor

/-!
# Reading lines from the console

The standard input of the C library: `read_line` polls the keyboard and edits a line in `line_buf`,
and `read` hands the line out in pieces as large as its callers want them. Stores outside of
`line_buf` and of the caller's buffer have no outcome. A call that is still polling when no more
keys come is `waiting`.

`isLineEnd` and `editKey` say what a key means, and `editedLines` are the lines the keys stand for.
`reads_served` is the invariant of a sequence of calls, in terms of what is left of the current
line, and `read_delivers` is the result for a program that starts with an empty line.
-/

namespace ChalesOs

open ByteMemory LineEditor

/-- `sizeof(line_buf)`. -/
def lineBufSize : ℕ := 256

/-- `line_buf`, `line_len` and `line_pos`, and the characters sent to the terminal by `echo`. -/
structure LineBuffer where
  lineBuf : ℕ → UInt8
  lineLen : ℕ
  linePos : ℕ
  echoed : List UInt8

/-- `echo`. -/
def echo (c : UInt8) (s : LineBuffer) : LineBuffer := { s with echoed := s.echoed ++ [c] }

/-- What `read_line` does with a key: whether it returns, and the line. -/
def lineKey (c : UInt8) (s : LineBuffer) : Option (Bool × LineBuffer) :=
  if c = 0x0A ∨ c = 0x0D then
    (store lineBufSize s.lineBuf s.lineLen 0x0A).map fun lineBuf =>
      (true, echo 0x0A { s with lineBuf := lineBuf, lineLen := s.lineLen + 1 })
  else if c = 0x08 then
    if s.lineLen > 0 then some (false, echo 0x08 { s with lineLen := s.lineLen - 1 })
    else some (false, s)
  else if c.toInt8 ≥ 32 ∧ c.toInt8 < 127 ∧ s.lineLen < lineBufSize - 1 then
    (store lineBufSize s.lineBuf s.lineLen c).map fun lineBuf =>
      (false, echo c { s with lineBuf := lineBuf, lineLen := s.lineLen + 1 })
  else some (false, s)

/-- How `read_line` ends. -/
inductive LineResult
  | line (input : KeyInput) (s : LineBuffer)
  | waiting (s : LineBuffer)

/-- The loop of `read_line`. -/
def readLineLoop : (coming : List (List UInt8)) → Keyboard → LineBuffer → Option LineResult
  | [], _, s => some (.waiting s)
  | batch :: coming, q, s =>
    (sysRead (fun _ => 0) 1 (keyboardInterrupts batch q)).bind fun r =>
      if r.1 = -eAgain then readLineLoop coming r.2.2 s
      else if r.1 ≤ 0 then readLineLoop coming r.2.2 s
      else
        (lineKey (r.2.1 0) s).bind fun k =>
          if k.1 then some (.line ⟨r.2.2, coming⟩ k.2) else readLineLoop coming r.2.2 k.2

/-- `read_line`. -/
def readLine (input : KeyInput) (s : LineBuffer) : Option LineResult :=
  readLineLoop input.coming input.keyboard { s with lineLen := 0, linePos := 0 }

/-- `while (n < len && line_pos < line_len) buf[n++] = line_buf[line_pos++];`, with `room`
characters of `len` left. -/
def handOut (len : ℕ) :
    (room n : ℕ) → (buf : ℕ → UInt8) → LineBuffer → Option (ℕ × (ℕ → UInt8) × LineBuffer)
  | 0, n, buf, s => some (n, buf, s)
  | room + 1, n, buf, s =>
    if s.linePos < s.lineLen then
      (store len buf n (s.lineBuf s.linePos)).bind fun buf =>
        handOut len room (n + 1) buf { s with linePos := s.linePos + 1 }
    else some (n, buf, s)

/-- How `read` ends. -/
inductive ReadResult
  | returned (n : ℕ) (buf : ℕ → UInt8) (input : KeyInput) (s : LineBuffer)
  | waiting (s : LineBuffer)

/-- `read(CHALES_FD_STDIN, buf, len_)`. -/
def read (buf : ℕ → UInt8) (len_ : UInt32) (input : KeyInput) (s : LineBuffer) :
    Option ReadResult :=
  let len := len_.toInt32.toInt
  if len ≤ 0 then some (.returned 0 buf input s)
  else
    (if s.linePos ≥ s.lineLen then readLine input s else some (.line input s)).bind fun
      | .waiting s => some (.waiting s)
      | .line input s =>
        (handOut len.toNat len.toNat 0 buf s).map fun r => .returned r.1 r.2.1 input r.2.2

/-- A call of `read` on the standard input. -/
structure ReadCall where
  buf : ℕ → UInt8
  len : UInt32

/-- What a call has returned, and the keys to come before and after it. -/
structure ReadRecord where
  chunk : List UInt8
  before : KeyInput
  after : KeyInput

/-- A sequence of calls, up to one that waits. -/
def reads : List ReadCall → KeyInput → LineBuffer → Option (List ReadRecord)
  | [], _, _ => some []
  | call :: calls, input, s =>
    (read call.buf call.len input s).bind fun
      | .waiting _ => some []
      | .returned n buf input' s =>
        (reads calls input' s).map fun records => ⟨slice buf 0 n, input, input'⟩ :: records

/-! ### What the keys mean -/

/-- The keys that end a line. -/
def IsLineEnd (c : UInt8) : Prop := c = 0x0A ∨ c = 0x0D

instance : DecidablePred IsLineEnd := fun c => inferInstanceAs (Decidable (c = 0x0A ∨ c = 0x0D))

/-- The other keys: backspace, and printable characters as long as fewer than 255 are held. -/
def editKey (text : List UInt8) (c : UInt8) : List UInt8 :=
  if c = 0x08 then text.dropLast
  else if 0x20 ≤ c ∧ c ≤ 0x7E ∧ text.length < 255 then text ++ [c]
  else text

/-- The lines some keys stand for, each with a newline at its end. -/
def editedLines (keys : List UInt8) : List (List UInt8) :=
  (lines IsLineEnd editKey [] keys).map (· ++ [0x0A])

/-! ### Editing a line -/

variable {s : LineBuffer} {text : List UInt8} {c : UInt8} {q : Keyboard} {input : KeyInput}
  {coming : List (List UInt8)} {calls : List ReadCall} {buf : ℕ → UInt8} {len room n : ℕ}

/-- The line buffer holds a text that is being edited. -/
structure Holds (text : List UInt8) (s : LineBuffer) : Prop where
  slice_eq : slice s.lineBuf 0 s.lineLen = text
  lineLen_lt : s.lineLen < lineBufSize
  linePos_eq : s.linePos = 0

/-- The characters of the line that have not been handed out. -/
def LineBuffer.unread (s : LineBuffer) : List UInt8 :=
  slice s.lineBuf s.linePos (s.lineLen - s.linePos)

theorem length_unread : s.unread.length = s.lineLen - s.linePos := length_slice

/-- **A line end** completes the line. -/
theorem lineKey_of_isLineEnd (h : Holds text s) (hc : IsLineEnd c) :
    ∃ s', lineKey c s = some (true, s') ∧ s'.unread = text ++ [0x0A] := by
  have hc : c = 0x0A ∨ c = 0x0D := hc
  have hslice := slice_update_succ (m := s.lineBuf) (d := 0) (n := s.lineLen) (v := 0x0A)
  rw [Nat.zero_add, h.slice_eq] at hslice
  rw [lineKey, if_pos hc, store_of_lt h.lineLen_lt, Option.map_some]
  refine ⟨_, rfl, ?_⟩
  rw [LineBuffer.unread]
  dsimp only [echo]
  rw [h.linePos_eq, Nat.sub_zero, hslice]

/-- **Any other key** edits the text. -/
theorem lineKey_of_not_isLineEnd (h : Holds text s) (hc : ¬IsLineEnd c) :
    ∃ s', lineKey c s = some (false, s') ∧ Holds (editKey text c) s' := by
  have hc : ¬(c = 0x0A ∨ c = 0x0D) := hc
  have hlt := h.lineLen_lt
  have hsize : lineBufSize = 256 := rfl
  have hlen : text.length = s.lineLen := by rw [← h.slice_eq, length_slice]
  rw [lineKey, if_neg hc, editKey]
  by_cases hbs : c = 0x08
  · rw [if_pos hbs, if_pos hbs, ← h.slice_eq, dropLast_slice]
    split_ifs with hpos
    · exact ⟨_, rfl, rfl, by dsimp only [echo]; omega, h.linePos_eq⟩
    · exact ⟨s, rfl, by rw [Nat.sub_eq_zero_of_le (by omega), Nat.eq_zero_of_not_pos hpos], hlt,
        h.linePos_eq⟩
  rw [if_neg hbs, if_neg hbs]
  by_cases hprint : 0x20 ≤ c ∧ c ≤ 0x7E ∧ text.length < 255
  · obtain ⟨hlow, hhigh⟩ := printable_iff.mpr ⟨hprint.1, hprint.2.1⟩
    have hslice := slice_update_succ (m := s.lineBuf) (d := 0) (n := s.lineLen) (v := c)
    rw [Nat.zero_add, h.slice_eq] at hslice
    rw [if_pos ⟨hlow, hhigh, by omega⟩, if_pos hprint, store_of_lt hlt, Option.map_some]
    exact ⟨_, rfl, hslice, by dsimp only [echo]; omega, h.linePos_eq⟩
  · rw [if_neg fun hroom => hprint ⟨(printable_iff.mp ⟨hroom.1, hroom.2.1⟩).1,
      (printable_iff.mp ⟨hroom.1, hroom.2.1⟩).2, by omega⟩, if_neg hprint]
    exact ⟨s, rfl, h⟩

/-- **The loop of `read_line`.** It takes the keys up to the end of the line and leaves the edited
line in the buffer, or it takes all of the keys without finding an end. -/
theorem readLineLoop_cases (q : Keyboard) (coming : List (List UInt8)) (h : Holds text s) :
    (∃ s', readLineLoop coming q s = some (.waiting s') ∧
        lines IsLineEnd editKey text (KeyInput.keys ⟨q, coming⟩) = []) ∨
      ∃ input s' front c, readLineLoop coming q s = some (.line input s') ∧
        KeyInput.keys ⟨q, coming⟩ = front ++ c :: input.keys ∧ (∀ d ∈ front, ¬IsLineEnd d) ∧
        IsLineEnd c ∧ s'.unread = front.foldl editKey text ++ [0x0A] := by
  induction coming generalizing q s text with
  | nil => exact Or.inl ⟨s, rfl, rfl⟩
  | cons batch coming ih =>
    rw [readLineLoop]
    cases hcontents : (keyboardInterrupts batch q).contents with
    | nil =>
      rw [sysRead_of_contents_eq_nil hcontents, keys_of_contents_eq_nil hcontents,
        Option.bind_some, if_pos rfl]
      exact ih _ h
    | cons c l =>
      obtain ⟨q', hpoll, hq'⟩ := sysRead_of_contents_eq_cons (fun _ => 0) hcontents
      have hsome : ¬(1 : ℤ) = -eAgain := by decide
      have hpos : ¬(1 : ℤ) ≤ 0 := by decide
      rw [hpoll, keys_of_contents_eq_cons hcontents hq', Option.bind_some, if_neg hsome,
        if_neg hpos]
      dsimp only
      rw [Function.update_self]
      by_cases hc : IsLineEnd c
      · obtain ⟨s', hkey, hunread⟩ := lineKey_of_isLineEnd h hc
        rw [hkey, Option.bind_some, if_pos rfl]
        exact Or.inr ⟨⟨q', coming⟩, s', [], c, rfl, rfl, by simp, hc, hunread⟩
      · obtain ⟨s', hkey, hholds⟩ := lineKey_of_not_isLineEnd h hc
        rw [hkey, Option.bind_some, if_neg Bool.false_ne_true, lines_cons_of_not_ends hc]
        obtain hwaiting | ⟨input, s₁, front, d, hloop, hkeys, hfront, hrest⟩ := ih _ hholds
        · exact Or.inl hwaiting
        · refine Or.inr ⟨input, s₁, c :: front, d, hloop, ?_, ?_, hrest⟩
          · rw [hkeys, List.cons_append]
          · exact List.forall_mem_cons.mpr ⟨hc, hfront⟩

/-! ### Handing it out -/

/-- The copy loop writes as many characters as there are, or as there is room for. -/
theorem handOut_eq (hroom : n + room = len) :
    handOut len room n buf s =
      some (n + min room (s.lineLen - s.linePos),
        write buf n (slice s.lineBuf s.linePos (min room (s.lineLen - s.linePos))),
        { s with linePos := s.linePos + min room (s.lineLen - s.linePos) }) := by
  induction room generalizing n buf s with
  | zero => rw [handOut, Nat.zero_min, slice_zero, write_nil, Nat.add_zero, Nat.add_zero]
  | succ room ih =>
    rw [handOut]
    split_ifs with hpos
    · have hmin : min (room + 1) (s.lineLen - s.linePos) =
          1 + min room (s.lineLen - (s.linePos + 1)) := by omega
      rw [store_of_lt (by omega), Option.bind_some, ih (by omega), hmin, slice_add]
      have hfirst : slice s.lineBuf s.linePos 1 = [s.lineBuf s.linePos] := rfl
      rw [hfirst, List.singleton_append, write_cons, write_singleton, ← Nat.add_assoc,
        ← Nat.add_assoc]
    · rw [Nat.sub_eq_zero_of_le (not_lt.mp hpos), Nat.min_zero, slice_zero, write_nil, Nat.add_zero,
        Nat.add_zero]

/-- A chunk of the line is handed out, and the rest of it is kept. -/
theorem exists_handOut (buf : ℕ → UInt8) (hlen : 0 < len) (hs : s.unread ≠ []) :
    ∃ n buf' s', handOut len len 0 buf s = some (n, buf', s') ∧ slice buf' 0 n ≠ [] ∧
      s.unread = slice buf' 0 n ++ s'.unread := by
  have hpos := List.length_pos_iff.mpr hs
  rw [length_unread] at hpos
  set k := min len (s.lineLen - s.linePos) with hk
  have hchunk : slice (write buf 0 (slice s.lineBuf s.linePos k)) 0 (0 + k) =
      slice s.lineBuf s.linePos k := by
    have hslice := slice_write (m := buf) (d := 0) (l := slice s.lineBuf s.linePos k)
    rw [Nat.zero_add]
    rwa [length_slice] at hslice
  refine ⟨_, _, _, handOut_eq (Nat.zero_add len), ?_, ?_⟩
  · rw [← hk, hchunk, ← List.length_pos_iff, length_slice]
    omega
  · rw [← hk, hchunk, LineBuffer.unread, LineBuffer.unread]
    dsimp only
    rw [← slice_add]
    congr 1
    omega

/-- A chunk is handed out: it is the front of what is left of the line, or, if nothing is left, of
the next line. -/
def Advances (rest : List UInt8) (input : KeyInput) (chunk rest' : List UInt8)
    (input' : KeyInput) : Prop :=
  input' = input ∧ rest = chunk ++ rest' ∨
    rest = [] ∧ ∃ typed, input.keys = typed ++ input'.keys ∧
      held IsLineEnd editKey [] typed = [] ∧ editedLines typed = [chunk ++ rest']

/-- **One call** hands out a chunk of what is left of the line. If nothing is left, it reads the
next line first, or waits for it. -/
theorem read_cases (buf : ℕ → UInt8) (input : KeyInput) (s : LineBuffer) {len_ : UInt32}
    (hlen : 1 ≤ len_.toNat) (hlen' : len_.toNat < 0x80000000) :
    (∃ s', read buf len_ input s = some (.waiting s') ∧ s.unread = [] ∧
        editedLines input.keys = []) ∨
      ∃ n buf' input' s', read buf len_ input s = some (.returned n buf' input' s') ∧
        slice buf' 0 n ≠ [] ∧ Advances s.unread input (slice buf' 0 n) s'.unread input' := by
  have hint : len_.toInt32.toInt = (len_.toNat : ℤ) := by
    rw [toInt_toInt32, if_pos hlen']
  have hpos : ¬(len_.toNat : ℤ) ≤ 0 := by omega
  rw [read, hint, if_neg hpos, Int.toNat_natCast]
  by_cases hdrained : s.linePos ≥ s.lineLen
  · have hnone : s.unread = [] := by
      rw [LineBuffer.unread, Nat.sub_eq_zero_of_le hdrained, slice_zero]
    rw [if_pos hdrained, readLine]
    have hempty : Holds [] { s with lineLen := 0, linePos := 0 } := ⟨rfl, Nat.zero_lt_succ _, rfl⟩
    obtain ⟨s', hwaiting, hlines⟩ | ⟨input', s', front, c, hline, hkeys, hfront, hc,
      hunread⟩ := readLineLoop_cases input.keyboard input.coming hempty
    · rw [hwaiting]
      exact Or.inl ⟨s', rfl, hnone, congrArg _ hlines⟩
    · have hs' : s'.unread ≠ [] := by simp [hunread]
      obtain ⟨n, buf', s₁, hout, hchunk, hrest⟩ := exists_handOut buf hlen hs'
      rw [hline, Option.bind_some]
      dsimp only
      rw [hout]
      refine Or.inr ⟨n, buf', input', s₁, rfl, hchunk, Or.inr ⟨hnone, front ++ [c], ?_, ?_, ?_⟩⟩
      · rw [List.append_assoc]
        exact hkeys
      · rw [held_append]
        exact held_cons_of_ends hc
      · rw [editedLines, lines_append, lines_of_forall_not hfront, held_of_forall_not hfront,
          lines_cons_of_ends hc, ← hrest, hunread]
        rfl
  · have hs : s.unread ≠ [] := by
      rw [← List.length_pos_iff, length_unread]
      omega
    obtain ⟨n, buf', s', hout, hchunk, hrest⟩ := exists_handOut buf hlen hs
    rw [if_neg hdrained, Option.bind_some]
    dsimp only
    rw [hout]
    exact Or.inr ⟨n, buf', input, s', rfl, hchunk, Or.inl ⟨rfl, hrest⟩⟩

/-! ### Sequences of calls -/

/-- The characters some calls have returned. -/
def chunks (records : List ReadRecord) : List UInt8 := (records.map ReadRecord.chunk).flatten

/-- What holds of a call behind the calls `front`, when `rest` is left of the line they began with:
it returns a chunk of one line, and it takes keys only if everything has been handed out. -/
structure Served (rest : List UInt8) (input : KeyInput) (front : List ReadRecord)
    (r : ReadRecord) : Prop where
  chunk_ne : r.chunk ≠ []
  within : Within (rest :: editedLines input.keys) (chunks front) r.chunk
  drained : r.after ≠ r.before → ∃ typed, input.keys = typed ++ r.before.keys ∧
    chunks front = rest ++ (editedLines typed).flatten

variable {records front back : List ReadRecord} {r : ReadRecord} {rest rest' chunk : List UInt8}
  {input' : KeyInput} {typed keys : List UInt8}

/-- The lines of keys that end with the end of a line. -/
theorem editedLines_append (h : held IsLineEnd editKey [] typed = []) :
    editedLines (typed ++ keys) = editedLines typed ++ editedLines keys := by
  rw [editedLines, lines_append, h, List.map_append, editedLines, editedLines]

/-- What is to be handed out is the chunk and what is to be handed out behind it. -/
theorem Advances.append_eq (h : Advances rest input chunk rest' input') :
    rest ++ (editedLines input.keys).flatten =
      chunk ++ (rest' ++ (editedLines input'.keys).flatten) := by
  obtain ⟨rfl, rfl⟩ | ⟨rfl, typed, hkeys, hheld, hline⟩ := h
  · rw [List.append_assoc]
  · rw [hkeys, editedLines_append hheld, hline, List.nil_append, List.singleton_append,
      List.flatten_cons, List.append_assoc]

/-- The call that hands out the chunk. -/
theorem Advances.served (h : Advances rest input chunk rest' input') (hchunk : chunk ≠ []) :
    Served rest input [] ⟨chunk, input, input'⟩ := by
  obtain ⟨rfl, rfl⟩ | ⟨rfl, typed, hkeys, hheld, hline⟩ := h
  · exact ⟨hchunk, within_head, fun hne => absurd rfl hne⟩
  · refine ⟨hchunk, ?_, fun _ => ⟨[], rfl, rfl⟩⟩
    rw [hkeys, editedLines_append hheld, hline]
    exact within_head.cons_nil

/-- The calls behind it. -/
theorem Advances.served_cons (h : Advances rest input chunk rest' input')
    (hr : Served rest' input' front r) : Served rest input (⟨chunk, input, input'⟩ :: front) r := by
  have hchunks : chunks (⟨chunk, input, input'⟩ :: front) = chunk ++ chunks front := rfl
  refine ⟨hr.chunk_ne, ?_, fun hne => ?_⟩
  · rw [hchunks]
    obtain ⟨rfl, rfl⟩ | ⟨rfl, typed, hkeys, hheld, hline⟩ := h
    · exact hr.within.append
    · rw [hkeys, editedLines_append hheld, hline]
      exact hr.within.append.cons_nil
  · obtain ⟨typed', hkeys', hfront⟩ := hr.drained hne
    rw [hchunks, hfront, ← List.append_assoc]
    obtain ⟨rfl, rfl⟩ | ⟨rfl, typed, hkeys, hheld, hline⟩ := h
    · exact ⟨typed', hkeys', rfl⟩
    · refine ⟨typed ++ typed', by rw [hkeys, hkeys', List.append_assoc], ?_⟩
      rw [editedLines_append hheld, hline]
      rfl

/-- **Runs.** Every call of a sequence is served, the calls return what is left of the line and
then the edited lines, and a call that waits has no line to return. -/
theorem reads_served (input : KeyInput) (s : LineBuffer)
    (hcalls : ∀ call ∈ calls, 1 ≤ call.len.toNat ∧ call.len.toNat < 0x80000000) :
    ∃ records, reads calls input s = some records ∧
      chunks records <+: s.unread ++ (editedLines input.keys).flatten ∧
      (records.length = calls.length ∨
        chunks records = s.unread ++ (editedLines input.keys).flatten) ∧
      ∀ front r back, records = front ++ r :: back → Served s.unread input front r := by
  induction calls generalizing input s with
  | nil => exact ⟨[], rfl, List.nil_prefix, Or.inl rfl, fun front r back h => by simp at h⟩
  | cons call calls ih =>
    obtain ⟨hlen, hlen'⟩ := hcalls call List.mem_cons_self
    rw [reads]
    obtain ⟨s', hread, hnone, hkeys⟩ | ⟨n, buf', input', s', hread, hchunk, hadvances⟩ :=
      read_cases call.buf input s hlen hlen'
    · -- the call waits
      rw [hread, hnone, hkeys]
      exact ⟨[], rfl, List.nil_prefix, Or.inr rfl, fun front r back h => by simp at h⟩
    obtain ⟨records, hrun, hprefix, hall, hserved⟩ := ih input' s'
      fun call hcall => hcalls call (List.mem_cons_of_mem _ hcall)
    have hchunks : chunks (⟨slice buf' 0 n, input, input'⟩ :: records) =
        slice buf' 0 n ++ chunks records := rfl
    rw [hread, Option.bind_some]
    dsimp only
    rw [hrun, hadvances.append_eq]
    refine ⟨_, rfl, ?_, ?_, fun front r back h => ?_⟩
    · exact (List.prefix_append_right_inj _).mpr hprefix
    · exact hall.imp (congrArg (· + 1)) (congrArg (slice buf' 0 n ++ ·))
    · cases front with
      | nil =>
        obtain ⟨rfl, -⟩ := List.cons.inj h
        exact hadvances.served hchunk
      | cons r₀ front =>
        obtain ⟨rfl, hrecords⟩ := List.cons.inj h
        exact hadvances.served_cons (hserved front r back hrecords)

/-- The line buffer of a program that starts. -/
def LineBuffer.initial : LineBuffer := ⟨fun _ => 0, 0, 0, []⟩

/-- **Reading from the console.** Whatever is typed, and however large the pieces are that a
program asks for: no store is out of bounds, what the calls return is the front of the edited
lines (all of them, if a call waits), each call returns a part of one line, and a call takes keys
only if the lines read before have been handed out completely. -/
theorem read_delivers (hcalls : ∀ call ∈ calls, 1 ≤ call.len.toNat ∧ call.len.toNat < 0x80000000) :
    ∃ records, reads calls input LineBuffer.initial = some records ∧
      chunks records <+: (editedLines input.keys).flatten ∧
      (records.length = calls.length ∨ chunks records = (editedLines input.keys).flatten) ∧
      ∀ front r back, records = front ++ r :: back → r.chunk ≠ [] ∧
        Within (editedLines input.keys) (chunks front) r.chunk ∧
        (r.after ≠ r.before → ∃ typed, input.keys = typed ++ r.before.keys ∧
          chunks front = (editedLines typed).flatten) := by
  obtain ⟨records, hrun, hprefix, hall, hserved⟩ :=
    reads_served input LineBuffer.initial hcalls
  refine ⟨records, hrun, hprefix, hall, fun front r back h => ?_⟩
  have hr := hserved front r back h
  exact ⟨hr.chunk_ne, hr.within.of_cons_nil hr.chunk_ne, hr.drained⟩

/-- A line that is read in two pieces. -/
theorem read_delivers_sample :
    ∃ records, reads [⟨fun _ => 0, 2⟩, ⟨fun _ => 0, 9⟩] ⟨Keyboard.empty, [[0x61, 0x62], [], [0x0A]]⟩
        LineBuffer.initial = some records ∧
      chunks records <+:
        (editedLines (KeyInput.keys ⟨Keyboard.empty, [[0x61, 0x62], [], [0x0A]]⟩)).flatten ∧
      (records.length = 2 ∨ chunks records =
        (editedLines (KeyInput.keys ⟨Keyboard.empty, [[0x61, 0x62], [], [0x0A]]⟩)).flatten) ∧
      ∀ front r back, records = front ++ r :: back → r.chunk ≠ [] ∧
        Within (editedLines (KeyInput.keys ⟨Keyboard.empty, [[0x61, 0x62], [], [0x0A]]⟩))
          (chunks front) r.chunk ∧
        (r.after ≠ r.before → ∃ typed,
          KeyInput.keys ⟨Keyboard.empty, [[0x61, 0x62], [], [0x0A]]⟩ = typed ++ r.before.keys ∧
            chunks front = (editedLines typed).flatten) :=
  read_delivers (by decide)

end ChalesOs
