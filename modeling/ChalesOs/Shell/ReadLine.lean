import ChalesOs.Console.Keyboard
import ChalesOs.Lib.LineEditor
import ChalesOs.Memory.Words

/-!
# How the shell reads a line

`shell_read_line` of `shell.c` polls the keyboard itself and edits the line in
`shell_input_buffer`. It returns at a newline, or as soon as the buffer is full: then the newline
has not been read, and the rest of the line becomes the next command.

`shellReadLine_cases` says what one call does. A call `ReadsLine` when it takes exactly one typed
line; `readsLines_iff` is the condition on the keys under which all calls do.
-/

namespace ChalesOs

open ByteMemory LineEditor

/-- `SHELL_BUFFER_SIZE`. -/
def shellBufferSize : ℕ := 256

/-- The buffer of the shell, how much of it is used, and what has been printed. -/
structure ShellLine where
  buffer : ℕ → UInt8
  index : ℕ
  printed : List UInt8

/-- What `shell_read_line` does with a key other than newline. -/
def shellKey (maxSize : ℕ) (c : UInt8) (s : ShellLine) : Option ShellLine :=
  if c = 0x08 then
    if s.index > 0 then some { s with index := s.index - 1, printed := s.printed ++ [0x08] }
    else some s
  else if c.toInt8 ≥ 32 ∧ c.toInt8 < 127 then
    (store maxSize s.buffer s.index c).map fun buffer =>
      { buffer := buffer, index := s.index + 1, printed := s.printed ++ [c] }
  else some s

/-- How `shell_read_line` ends. -/
inductive ShellResult
  | line (input : KeyInput) (s : ShellLine)
  | waiting (s : ShellLine)

/-- `buffer[index] = '\0';`, and the return. -/
def shellReturn (maxSize : ℕ) (input : KeyInput) (s : ShellLine) : Option ShellResult :=
  (store maxSize s.buffer s.index 0).map fun buffer => .line input { s with buffer := buffer }

/-- `while (index < (int)max_size - 1)`. -/
def shellReadLineLoop (maxSize : ℕ) :
    (coming : List (List UInt8)) → Keyboard → ShellLine → Option ShellResult
  | [], q, s =>
    if s.index < maxSize - 1 then some (.waiting s) else shellReturn maxSize ⟨q, []⟩ s
  | batch :: coming, q, s =>
    if s.index < maxSize - 1 then
      let r := getchar (keyboardInterrupts batch q)
      if r.1 = 0 then shellReadLineLoop maxSize coming r.2 s
      else if r.1 = 0x0A then
        shellReturn maxSize ⟨r.2, coming⟩ { s with printed := s.printed ++ [0x0A] }
      else (shellKey maxSize r.1 s).bind fun s => shellReadLineLoop maxSize coming r.2 s
    else shellReturn maxSize ⟨q, batch :: coming⟩ s

/-- `shell_read_line(buffer, max_size)`. -/
def shellReadLine (buffer : ℕ → UInt8) (maxSize : ℕ) (input : KeyInput) : Option ShellResult :=
  shellReadLineLoop maxSize input.coming input.keyboard ⟨buffer, 0, []⟩

/-- The text a call has returned, and the keys to come before and after it. -/
structure ShellRecord where
  text : List UInt8
  before : KeyInput
  after : KeyInput

/-- The calls in the loop of `main`, up to one that waits. The buffer has arbitrary contents in
front of each call. -/
def shellReadLines : (buffers : List (ℕ → UInt8)) → KeyInput → Option (List ShellRecord)
  | [], _ => some []
  | buffer :: buffers, input =>
    (shellReadLine buffer shellBufferSize input).bind fun
      | .waiting _ => some []
      | .line input' s =>
        (shellReadLines buffers input').map fun records =>
          ⟨slice s.buffer 0 s.index, input, input'⟩ :: records

/-! ### What the keys mean -/

/-- The key that ends a line. -/
def IsNewline (c : UInt8) : Prop := c = 0x0A

instance : DecidablePred IsNewline := fun c => inferInstanceAs (Decidable (c = 0x0A))

/-- The other keys: backspace and printable characters. -/
def typeKey (text : List UInt8) (c : UInt8) : List UInt8 :=
  if c = 0x08 then text.dropLast else if 0x20 ≤ c ∧ c ≤ 0x7E then text ++ [c] else text

/-- The call takes exactly one line and returns what it stands for, cut to 255 characters. -/
def ReadsLine (r : ShellRecord) : Prop :=
  ∃ line : List UInt8, (∀ c ∈ line, ¬IsNewline c) ∧ r.before.keys = line ++ 0x0A :: r.after.keys ∧
    r.text = (line.foldl typeKey []).take 255

/-- Whatever the buffer contains, every call takes exactly one line, and the texts are those of the
lines that have been typed, in order. -/
def RunsTypedLines (input : KeyInput) : Prop :=
  ∀ buffers, ∃ records, shellReadLines buffers input = some records ∧ (∀ r ∈ records, ReadsLine r) ∧
    records.map ShellRecord.text <+:
      (lines IsNewline typeKey [] input.keys).map fun text => text.take 255

/-- The keys never hold 255 characters in a line. -/
def NeverFull (keys : List UInt8) : Prop :=
  ∀ front, front <+: keys → (held IsNewline typeKey [] front).length < 255

/-! ### One call -/

variable {s : ShellLine} {text keys line : List UInt8} {c : UInt8} {q : Keyboard}
  {input : KeyInput} {coming : List (List UInt8)} {buffers : List (ℕ → UInt8)}
  {buffer : ℕ → UInt8}

/-- The buffer holds a text that is being typed. -/
structure Types (text : List UInt8) (s : ShellLine) : Prop where
  slice_eq : slice s.buffer 0 s.index = text
  index_lt : s.index < shellBufferSize

/-- A key edits the text, as long as there is room. -/
theorem exists_shellKey (h : Types text s) (hroom : s.index < shellBufferSize - 1) (c : UInt8) :
    ∃ s', shellKey shellBufferSize c s = some s' ∧ Types (typeKey text c) s' := by
  have hlt := h.index_lt
  rw [shellKey, typeKey]
  by_cases hbs : c = 0x08
  · rw [if_pos hbs, if_pos hbs, ← h.slice_eq, dropLast_slice]
    split_ifs with hpos
    · exact ⟨_, rfl, rfl, by dsimp only; omega⟩
    · exact ⟨s, rfl, by rw [Nat.sub_eq_zero_of_le (by omega), Nat.eq_zero_of_not_pos hpos], hlt⟩
  rw [if_neg hbs, if_neg hbs]
  by_cases hprint : 0x20 ≤ c ∧ c ≤ 0x7E
  · have hslice := slice_update_succ (m := s.buffer) (d := 0) (n := s.index) (v := c)
    rw [Nat.zero_add, h.slice_eq] at hslice
    rw [if_pos (printable_iff.mpr hprint), if_pos hprint, store_of_lt hlt, Option.map_some]
    exact ⟨_, rfl, hslice, by dsimp only; omega⟩
  · rw [if_neg (mt printable_iff.mp hprint), if_neg hprint]
    exact ⟨s, rfl, h⟩

/-- The text is returned with a `NUL` behind it. -/
theorem exists_shellReturn (h : Types text s) (input : KeyInput) :
    ∃ s', shellReturn shellBufferSize input s = some (.line input s') ∧
      slice s'.buffer 0 s'.index = text := by
  rw [shellReturn, store_of_lt h.index_lt, Option.map_some]
  refine ⟨_, rfl, ?_⟩
  dsimp only
  rw [← h.slice_eq]
  refine slice_congr fun k hk => Function.update_of_ne ?_ _ _
  omega

theorem Types.length_lt (h : Types text s) (hroom : s.index < shellBufferSize - 1) :
    text.length < 255 := by
  rw [← h.slice_eq, length_slice]
  exact hroom

/-- Typing some keys never makes the text as long as the buffer. -/
def Fits (text keys : List UInt8) : Prop :=
  ∀ front, front <+: keys → (front.foldl typeKey text).length < 255

/-- What a call that returns has made of the keys: it has taken the keys in front of a newline,
and the newline, or the keys up to the one that fills the buffer. -/
def Takes (text keys : List UInt8) (input' : KeyInput) (s' : ShellLine) : Prop :=
  ∃ line rest, slice s'.buffer 0 s'.index = line.foldl typeKey text ∧ keys = line ++ rest ∧
    (∀ d ∈ line, ¬IsNewline d) ∧
    (rest = 0x0A :: input'.keys ∧ Fits text line ∨
      rest = input'.keys ∧ (line.foldl typeKey text).length = 255)

/-- A full buffer ends the loop. -/
theorem Types.full (h : Types text s) (hroom : ¬s.index < shellBufferSize - 1) (input : KeyInput) :
    ∃ s', shellReturn shellBufferSize input s = some (.line input s') ∧
      Takes text input.keys input s' := by
  obtain ⟨s', hreturn, hslice⟩ := exists_shellReturn h input
  refine ⟨s', hreturn, [], _, hslice, rfl, by simp, Or.inr ⟨rfl, ?_⟩⟩
  have hlt := h.index_lt
  have hsize : shellBufferSize = 256 := rfl
  rw [List.foldl_nil, ← h.slice_eq, length_slice]
  omega

theorem fits_nil (h : text.length < 255) : Fits text [] := fun front hfront => by
  rwa [List.prefix_nil.mp hfront]

theorem Fits.cons (h : Fits (typeKey text c) keys) (htext : text.length < 255) :
    Fits text (c :: keys) := by
  intro front hfront
  cases front with
  | nil => exact htext
  | cons d front =>
    obtain ⟨rfl, hrest⟩ := List.cons_prefix_cons.mp hfront
    exact h front hrest

/-- A key that holds no character is skipped. -/
theorem typeKey_zero : typeKey text 0 = text := by
  rw [typeKey, if_neg (by decide), if_neg (by decide)]

/-- **One call.** It waits, or it takes the keys up to the newline, or it takes the keys up to the
one that fills the buffer. -/
theorem shellReadLineLoop_cases (h : Types text s) :
    (∃ s', shellReadLineLoop shellBufferSize coming q s = some (.waiting s') ∧
        (∀ d ∈ KeyInput.keys ⟨q, coming⟩, ¬IsNewline d) ∧ Fits text (KeyInput.keys ⟨q, coming⟩)) ∨
      ∃ input s', shellReadLineLoop shellBufferSize coming q s = some (.line input s') ∧
        Takes text (KeyInput.keys ⟨q, coming⟩) input s' := by
  induction coming generalizing q s text with
  | nil =>
    rw [shellReadLineLoop]
    split_ifs with hroom
    · exact Or.inl ⟨s, rfl, nofun, fits_nil (h.length_lt hroom)⟩
    · exact Or.inr ⟨⟨q, []⟩, h.full hroom ⟨q, []⟩⟩
  | cons batch coming ih =>
    rw [shellReadLineLoop]
    split_ifs with hroom
    · cases hcontents : (keyboardInterrupts batch q).contents with
      | nil =>
        rw [getchar_of_contents_eq_nil hcontents, keys_of_contents_eq_nil hcontents, if_pos rfl]
        exact ih h
      | cons d l =>
        obtain ⟨q', hpoll, hq'⟩ := getchar_of_contents_eq_cons hcontents
        rw [hpoll, keys_of_contents_eq_cons hcontents hq']
        by_cases hd : d = 0x0A
        · -- the end of the line
          have h0 : d ≠ 0 := by
            rw [hd]
            decide
          obtain ⟨s', hreturn, hslice⟩ := exists_shellReturn
            (s := { s with printed := s.printed ++ [0x0A] }) ⟨h.slice_eq, h.index_lt⟩ ⟨q', coming⟩
          refine Or.inr ⟨_, s', ?_, [], _, hslice, rfl, by simp,
            Or.inl ⟨by rw [hd], fits_nil (h.length_lt hroom)⟩⟩
          rw [if_neg h0, if_pos hd, hreturn]
        -- any other key
        have hstep : ∃ s₁, (if d = 0 then shellReadLineLoop shellBufferSize coming q' s
              else if d = 0x0A then shellReturn shellBufferSize ⟨q', coming⟩
                { s with printed := s.printed ++ [0x0A] }
              else (shellKey shellBufferSize d s).bind fun s =>
                shellReadLineLoop shellBufferSize coming q' s) =
            shellReadLineLoop shellBufferSize coming q' s₁ ∧ Types (typeKey text d) s₁ := by
          by_cases h0 : d = 0
          · exact ⟨s, if_pos h0, by rwa [h0, typeKey_zero]⟩
          · obtain ⟨s₁, hkey, htypes⟩ := exists_shellKey h hroom d
            exact ⟨s₁, by rw [if_neg h0, if_neg hd, hkey, Option.bind_some], htypes⟩
        obtain ⟨s₁, hloop, htypes⟩ := hstep
        dsimp only
        rw [hloop]
        obtain ⟨s', hwaiting, hkeys, hfits⟩ | ⟨input, s', hline, line, rest, hslice, hkeys, hfront,
          hrest⟩ := ih htypes
        · exact Or.inl ⟨s', hwaiting, List.forall_mem_cons.mpr ⟨hd, hkeys⟩,
            hfits.cons (h.length_lt hroom)⟩
        · exact Or.inr ⟨input, s', hline, d :: line, rest, hslice, congrArg (d :: ·) hkeys,
            List.forall_mem_cons.mpr ⟨hd, hfront⟩, hrest.imp_left fun hend =>
              ⟨hend.1, hend.2.cons (h.length_lt hroom)⟩⟩
    · exact Or.inr ⟨⟨q, batch :: coming⟩, h.full hroom ⟨q, batch :: coming⟩⟩

/-! ### All calls -/

theorem isNewline_newline : IsNewline 0x0A := rfl

/-- Keys that end no line. -/
theorem neverFull_iff_fits (hkeys : ∀ d ∈ keys, ¬IsNewline d) : NeverFull keys ↔ Fits [] keys := by
  refine forall₂_congr fun front hfront => ?_
  rw [held_of_forall_not fun d hd => hkeys d (hfront.subset hd)]

/-- A line, and the keys behind it. -/
theorem neverFull_append_iff (hline : ∀ d ∈ line, ¬IsNewline d) :
    NeverFull (line ++ 0x0A :: keys) ↔ Fits [] line ∧ NeverFull keys := by
  have hsplit : line ++ 0x0A :: keys = (line ++ [0x0A]) ++ keys := by simp
  have hheld : held IsNewline typeKey [] (line ++ [0x0A]) = [] := by
    rw [held_append, held_cons_of_ends isNewline_newline]
    rfl
  constructor
  · intro h
    refine ⟨(neverFull_iff_fits hline).mp fun front hfront => ?_, fun front hfront => ?_⟩
    · exact h front (hfront.trans (List.prefix_append _ _))
    · have hlt := h ((line ++ [0x0A]) ++ front)
        (hsplit ▸ (List.prefix_append_right_inj _).mpr hfront)
      rwa [held_append, hheld] at hlt
  · rintro ⟨hfits, hkeys⟩ front hfront
    rw [hsplit] at hfront
    obtain hle | ⟨front, rfl⟩ := List.prefix_or_prefix_of_prefix hfront (List.prefix_append _ _)
    · obtain rfl | hle := List.prefix_concat_iff.mp hle
      · rw [hheld]
        exact Nat.zero_lt_succ _
      · exact (neverFull_iff_fits hline).mpr hfits front hle
    · rw [held_append, hheld]
      exact hkeys front ((List.prefix_append_right_inj _).mp hfront)

/-- The first call, on an arbitrary buffer. -/
theorem shellReadLine_cases (buffer : ℕ → UInt8) (input : KeyInput) :
    (∃ s', shellReadLine buffer shellBufferSize input = some (.waiting s') ∧
        (∀ d ∈ input.keys, ¬IsNewline d) ∧ Fits [] input.keys) ∨
      ∃ input' s', shellReadLine buffer shellBufferSize input = some (.line input' s') ∧
        Takes [] input.keys input' s' :=
  shellReadLineLoop_cases ⟨rfl, Nat.zero_lt_succ _⟩

/-- A call that returns comes first in the run. -/
theorem shellReadLines_cons {input' : KeyInput}
    (h : shellReadLine buffer shellBufferSize input = some (.line input' s)) :
    shellReadLines (buffer :: buffers) input =
      (shellReadLines buffers input').map fun records =>
        ⟨slice s.buffer 0 s.index, input, input'⟩ :: records := by
  rw [shellReadLines, h]
  rfl

/-- The line the first call has taken is the first one. -/
theorem lines_line (hline : ∀ d ∈ line, ¬IsNewline d) :
    lines IsNewline typeKey [] (line ++ 0x0A :: keys) =
      line.foldl typeKey [] :: lines IsNewline typeKey [] keys := by
  rw [lines_append, lines_of_forall_not hline, held_of_forall_not hline,
    lines_cons_of_ends isNewline_newline, List.nil_append]

/-- A text that fits is not cut. -/
theorem Fits.take_foldl (h : Fits text line) :
    (line.foldl typeKey text).take 255 = line.foldl typeKey text :=
  List.take_of_length_le (h line List.prefix_rfl).le

/-- A call that stops at a full buffer has not read a line. -/
theorem not_readsLine {input' : KeyInput} (hline : ∀ d ∈ line, ¬IsNewline d)
    (hkeys : input.keys = line ++ input'.keys) : ¬ReadsLine ⟨text, input, input'⟩ := by
  rintro ⟨line', -, hkeys', -⟩
  have heq : line ++ input'.keys = (line' ++ [0x0A]) ++ input'.keys := by
    rw [← hkeys, hkeys']
    simp
  obtain rfl := List.append_cancel_right heq
  exact hline 0x0A (by simp) rfl

/-- **The shell reads exactly the lines typed** if and only if no line ever holds 255 characters
while it is being typed. -/
theorem runsTypedLines_iff : RunsTypedLines input ↔ NeverFull input.keys := by
  constructor
  · intro h
    induction hn : input.keys.length using Nat.strong_induction_on generalizing input with
    | _ n ih =>
    subst hn
    obtain ⟨s', -, hkeys, hfits⟩ | ⟨input', s', hcall, line, rest, hslice, hkeys, hline, hrest⟩ :=
      shellReadLine_cases (fun _ => 0) input
    · exact (neverFull_iff_fits hkeys).mpr hfits
    obtain ⟨rfl, hfits⟩ | ⟨rfl, hfull⟩ := hrest
    · rw [hkeys, neverFull_append_iff hline]
      refine ⟨hfits, ih _ (by rw [hkeys]; simp; omega) (fun buffers => ?_) rfl⟩
      obtain ⟨records, hrun, hreads, hprefix⟩ := h ((fun _ => 0) :: buffers)
      rw [shellReadLines_cons hcall] at hrun
      obtain ⟨records, hrest, rfl⟩ := Option.map_eq_some_iff.mp hrun
      rw [hkeys, lines_line hline] at hprefix
      exact ⟨records, hrest, fun r hr => hreads r (List.mem_cons_of_mem _ hr),
        (List.cons_prefix_cons.mp hprefix).2⟩
    · obtain ⟨records, hrun, hreads, -⟩ := h [fun _ => 0]
      rw [shellReadLines_cons hcall] at hrun
      obtain ⟨records, -, rfl⟩ := Option.map_eq_some_iff.mp hrun
      exact absurd (hreads _ List.mem_cons_self) (not_readsLine hline hkeys)
  · intro h buffers
    induction buffers generalizing input with
    | nil => exact ⟨[], rfl, by simp, List.nil_prefix⟩
    | cons buffer buffers ih =>
      obtain ⟨s', hcall, -⟩ | ⟨input', s', hcall, line, rest, hslice, hkeys, hline, hrest⟩ :=
        shellReadLine_cases buffer input
      · refine ⟨[], ?_, by simp, List.nil_prefix⟩
        rw [shellReadLines, hcall]
        rfl
      obtain ⟨rfl, hfits⟩ | ⟨rfl, hfull⟩ := hrest
      · rw [hkeys, neverFull_append_iff hline] at h
        obtain ⟨records, hrun, hreads, hprefix⟩ := ih h.2
        have htext : slice s'.buffer 0 s'.index = (line.foldl typeKey []).take 255 := by
          rw [hslice, hfits.take_foldl]
        refine ⟨_, by rw [shellReadLines_cons hcall, hrun, Option.map_some], ?_, ?_⟩
        · exact List.forall_mem_cons.mpr ⟨⟨line, hline, hkeys, htext⟩, hreads⟩
        · rw [hkeys, lines_line hline, List.map_cons, List.map_cons]
          exact List.cons_prefix_cons.mpr ⟨htext, hprefix⟩
      · -- the buffer is never full
        have hlt := h line (hkeys ▸ List.prefix_append _ _)
        rw [held_of_forall_not hline] at hlt
        omega

/-- A line of 255 characters: the call returns in front of the newline. -/
theorem not_runsTypedLines : ¬∀ input, RunsTypedLines input := by
  intro h
  have htyped : ∀ input : KeyInput, input = ⟨Keyboard.empty,
      (List.replicate 255 (0x61 : UInt8) ++ [0x0A]).map fun c => [c]⟩ →
      (shellReadLines [fun _ => 0] input).map (List.map fun r => (r.before.keys, r.after.keys)) =
        some [(List.replicate 255 (0x61 : UInt8) ++ [0x0A], [0x0A])] := by
    rintro input rfl
    decide +kernel
  obtain ⟨records, hrun, hreads, -⟩ := h ⟨Keyboard.empty,
    (List.replicate 255 (0x61 : UInt8) ++ [0x0A]).map fun c => [c]⟩ [fun _ => 0]
  have hkeys := htyped _ rfl
  rw [hrun, Option.map_some, Option.some_inj] at hkeys
  obtain ⟨r, rfl, hr⟩ := List.map_eq_singleton_iff.mp hkeys
  obtain ⟨hbefore, hafter⟩ := Prod.mk.inj hr
  have hline : ∀ d ∈ List.replicate 255 (0x61 : UInt8), ¬IsNewline d := fun d hd => by
    rw [List.eq_of_mem_replicate hd]
    decide
  exact not_readsLine hline (by rw [hbefore, hafter]) (hreads r List.mem_cons_self)

end ChalesOs
