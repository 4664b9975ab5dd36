import Mathlib.Data.List.TakeWhile
import ChalesOs.Memory.Strings

/-!
# The words of a command line

`shell_parse_command` of `shell.c` cuts a line into words, in place: it stores a `NUL` behind each
word and collects pointers to the words. `words` are the maximal runs of characters other than
blank and tab, and `shellParseLoop_words` is the invariant of the loop: from any place in the line,
it finds the words of the rest of the line, up to the limit, and only overwrites separators.
-/

namespace ChalesOs

/-- Blank and tab. -/
def IsSeparator (c : UInt8) : Prop := c = 0x20 ∨ c = 0x09

instance : DecidablePred IsSeparator := fun c => inferInstanceAs (Decidable (c = 0x20 ∨ c = 0x09))

/-- `while (cond(*p)) p++;` -/
def skipWhile (cond : UInt8 → Prop) [DecidablePred cond] (m : Mem) : (fuel p : ℕ) → Option ℕ
  | 0, _ => none
  | fuel + 1, p => if cond (m p) then skipWhile cond m fuel (p + 1) else some p

/-- `while (*p && (*p == ' ' || *p == '\\t')) p++;` -/
def skipSeparators (m : Mem) (fuel p : ℕ) : Option ℕ :=
  skipWhile (fun c => c ≠ 0 ∧ (c = 0x20 ∨ c = 0x09)) m fuel p

/-- `while (*p && *p != ' ' && *p != '\\t') p++;` -/
def skipWord (m : Mem) (fuel p : ℕ) : Option ℕ :=
  skipWhile (fun c => c ≠ 0 ∧ c ≠ 0x20 ∧ c ≠ 0x09) m fuel p

/-- `while (*p && argc < max_args)`: the memory, and the pointers collected in `argv`. -/
def shellParseLoop (maxArgs : ℕ) : (fuel : ℕ) → Mem → (p : ℕ) → (argv : List ℕ) →
    Option (Mem × List ℕ)
  | 0, _, _, _ => none
  | fuel + 1, m, p, argv =>
    if m p ≠ 0 ∧ argv.length < maxArgs then
      (skipSeparators m (fuel + 1) p).bind fun p =>
        if m p = 0 then some (m, argv)
        else
          let argv := argv ++ [p]
          (skipWord m (fuel + 1) p).bind fun p =>
            if m p ≠ 0 then shellParseLoop maxArgs fuel (Function.update m p 0) (p + 1) argv
            else shellParseLoop maxArgs fuel m p argv
    else some (m, argv)

/-- `shell_parse_command(line, argv, max_args)`, with at most `fuel` iterations of each loop. -/
def shellParseCommand (fuel line maxArgs : ℕ) (m : Mem) : Option (Mem × List ℕ) :=
  shellParseLoop maxArgs fuel m line []

/-- The maximal runs of characters other than blank and tab. -/
def words (s : CString) : List CString :=
  (s.splitOnP fun c => decide (IsSeparator c)).filter fun word => decide (word ≠ [])

/-! ### Words -/

variable {s rest word run : CString} {c : UInt8} {m m' : Mem} {p fuel maxArgs line : ℕ}
  {argv : List ℕ}

@[simp]
theorem words_nil : words [] = [] := rfl

/-- Separators in front do not matter. -/
theorem words_cons (hc : IsSeparator c) : words (c :: s) = words s := by
  rw [words, List.splitOnP_cons_eq_if_modifyHead, if_pos (by simpa using hc)]
  rfl

theorem words_append (hrun : ∀ c ∈ run, IsSeparator c) : words (run ++ s) = words s := by
  induction run with
  | nil => rfl
  | cons c run ih =>
    rw [List.cons_append, words_cons (hrun c List.mem_cons_self),
      ih fun d hd => hrun d (List.mem_cons_of_mem c hd)]

/-- A word, at the end of the line or with a separator behind it. -/
theorem words_word (hword : ∀ c ∈ word, ¬IsSeparator c) (hne : word ≠ [])
    (htail : ∀ c ∈ rest.head?, IsSeparator c) : words (word ++ rest) = word :: words rest := by
  have hword' : ∀ c ∈ word, decide (IsSeparator c) = false :=
    fun c hc => decide_eq_false (hword c hc)
  cases rest with
  | nil =>
    rw [List.append_nil, words, List.splitOnP_eq_singleton hword']
    simp [hne]
  | cons c rest =>
    have hc := htail c rfl
    rw [words_cons hc, words, List.splitOnP_append_cons_of_forall_mem hword' c (decide_eq_true hc)]
    simp [hne, words]

/-! ### The scan -/

/-- The string behind the first characters. -/
theorem StringAt.drop (h : StringAt m p (run ++ s)) : StringAt m (p + run.length) s := by
  induction run generalizing p with
  | nil => exact h
  | cons c run ih =>
    have hrest := ih h.2.2
    rwa [Nat.add_assoc, Nat.add_comm 1] at hrest

/-- **The scan** stops at the end of the string, or at a character that does not meet the
condition. -/
theorem exists_skipWhile (cond : UInt8 → Prop) [DecidablePred cond] (h : StringAt m p s)
    (hfuel : s.length < fuel) :
    ∃ run rest, s = run ++ rest ∧ (∀ c ∈ run, cond c) ∧ (∀ c ∈ rest.head?, ¬cond c) ∧
      skipWhile (fun c => c ≠ 0 ∧ cond c) m fuel p = some (p + run.length) := by
  induction s generalizing p fuel with
  | nil =>
    obtain ⟨fuel, rfl⟩ := Nat.exists_eq_succ_of_ne_zero (Nat.ne_zero_of_lt hfuel)
    exact ⟨[], [], rfl, nofun, nofun, if_neg fun hc => hc.1 h⟩
  | cons c s ih =>
    obtain ⟨fuel, rfl⟩ := Nat.exists_eq_succ_of_ne_zero (Nat.ne_zero_of_lt hfuel)
    rw [skipWhile, h.1]
    by_cases hc : cond c
    · obtain ⟨run, rest, rfl, hrun, hstop, hskip⟩ := ih h.2.2 (Nat.lt_of_succ_lt_succ hfuel)
      refine ⟨c :: run, rest, rfl, List.forall_mem_cons.mpr ⟨hc, hrun⟩, hstop, ?_⟩
      rw [if_pos ⟨h.2.1, hc⟩, hskip, List.length_cons]
      congr 1
      omega
    · exact ⟨[], c :: s, rfl, nofun, by simpa using hc, if_neg fun hc' => hc hc'.2⟩

/-- The front of a string, behind which a `NUL` has been stored. -/
theorem StringAt.front (h : StringAt m p (run ++ s))
    (heq : ∀ b, p ≤ b → b < p + run.length → m' b = m b) (hnul : m' (p + run.length) = 0) :
    StringAt m' p run := by
  induction run generalizing p with
  | nil => exact hnul
  | cons c run ih =>
    rw [List.length_cons] at heq hnul
    refine ⟨(heq p le_rfl (by omega)).trans h.1, h.2.1, ih h.2.2 (fun b hpb hb => ?_) ?_⟩
    · exact heq b (by omega) (by omega)
    · rwa [Nat.add_assoc, Nat.add_comm 1]

/-- The string is empty where there is a `NUL`. -/
theorem StringAt.eq_nil_iff (h : StringAt m p s) : s = [] ↔ m p = 0 := by
  cases s with
  | nil => exact iff_of_true rfl h
  | cons c s => exact iff_of_false (List.cons_ne_nil c s) fun h0 => h.2.1 (h.1.symm.trans h0)

/-- The memory `m'` is `m` with some separators between `p` and `e` overwritten by `NUL`. -/
def Cut (m m' : Mem) (p e : ℕ) : Prop :=
  ∀ b, m' b = m b ∨ p ≤ b ∧ b < e ∧ IsSeparator (m b) ∧ m' b = 0

theorem Cut.eq_of_lt {e b : ℕ} (h : Cut m m' p e) (hb : b < p) : m' b = m b :=
  (h b).resolve_right fun hcut => by omega

/-- One more separator in front of those that have been overwritten. -/
theorem Cut.of_update {e q : ℕ} (h : Cut (Function.update m q 0) m' (q + 1) e) (hpq : p ≤ q)
    (hqe : q < e) (hq : IsSeparator (m q)) : Cut m m' p e := by
  intro b
  by_cases hb : b = q
  · subst hb
    exact Or.inr ⟨hpq, hqe, hq, (h.eq_of_lt (Nat.lt_succ_self b)).trans (Function.update_self ..)⟩
  · have hcell := h b
    rw [Function.update_of_ne hb] at hcell
    exact hcell.imp_right fun hcut => ⟨by omega, hcut.2⟩

/-! ### The loop -/

/-- **One word.** The scan from the front of a word to its end. -/
theorem exists_skipWord (h : StringAt m p s) (hs : s ≠ []) (hhead : ∀ c ∈ s.head?, ¬IsSeparator c)
    (hfuel : s.length < fuel) :
    ∃ word rest, s = word ++ rest ∧ word ≠ [] ∧ (∀ c ∈ word, ¬IsSeparator c) ∧
      (∀ c ∈ rest.head?, IsSeparator c) ∧ skipWord m fuel p = some (p + word.length) := by
  obtain ⟨word, rest, rfl, hword, hrest, hskip⟩ :=
    exists_skipWhile (fun c => c ≠ 0x20 ∧ c ≠ 0x09) h hfuel
  refine ⟨word, rest, rfl, ?_, fun c hc => not_or.mpr (hword c hc), fun c hc => ?_, hskip⟩
  · rintro rfl
    obtain ⟨c, s, rfl⟩ := List.exists_cons_of_ne_nil hs
    exact hrest c rfl (not_or.mp (hhead c rfl))
  · exact not_not.mp fun hsep => hrest c hc (not_or.mp hsep)

/-- From any place in a line on, the loop finds the words of the rest of the line, up to the limit,
and overwrites nothing but separators. -/
def Splits (maxArgs fuel : ℕ) : Prop :=
  ∀ m p s argv, StringAt m p s → s.length < fuel →
    ∃ m' ps, shellParseLoop maxArgs fuel m p argv = some (m', argv ++ ps) ∧
      List.Forall₂ (StringAt m') ps ((words s).take (maxArgs - argv.length)) ∧
      Cut m m' p (p + s.length)

/-- Behind a word, a separator is overwritten and the loop goes on behind it, or the line ends. -/
theorem Splits.behind_word (hloop : Splits maxArgs fuel) (h : StringAt m p rest)
    (htail : ∀ c ∈ rest.head?, IsSeparator c) (hfuel : rest.length < fuel) (argv : List ℕ) :
    ∃ m' ps, (if m p ≠ 0 then
          shellParseLoop maxArgs fuel (Function.update m p 0) (p + 1) argv
        else shellParseLoop maxArgs fuel m p argv) = some (m', argv ++ ps) ∧
      List.Forall₂ (StringAt m') ps ((words rest).take (maxArgs - argv.length)) ∧
      m' p = 0 ∧ Cut m m' p (p + rest.length) := by
  cases rest with
  | nil =>
    have h0 : m p = 0 := h
    obtain ⟨m', ps, hrun, hps, hcut⟩ := hloop m p [] argv h hfuel
    refine ⟨m', ps, by rw [if_neg (not_not.mpr h0), hrun], hps, ?_, hcut⟩
    exact (hcut p).elim (fun heq => heq.trans h0) fun hp => hp.2.2.2
  | cons c rest =>
    have hc : IsSeparator c := htail c rfl
    have hne : m p ≠ 0 := fun h0 => h.2.1 (h.1.symm.trans h0)
    rw [List.length_cons] at hfuel ⊢
    have hrest : StringAt (Function.update m p 0) (p + 1) rest :=
      h.2.2.congr fun b hb _ => Function.update_of_ne (by omega) _ _
    obtain ⟨m', ps, hrun, hps, hcut⟩ := hloop _ _ rest argv hrest (by omega)
    refine ⟨m', ps, by rw [if_pos hne, hrun], by rwa [words_cons hc], ?_, ?_⟩
    · exact (hcut.eq_of_lt (Nat.lt_succ_self p)).trans (Function.update_self ..)
    · have hcut' := hcut.of_update le_rfl (by omega) (h.1 ▸ hc)
      rwa [Nat.add_assoc, Nat.add_comm 1] at hcut'

/-- **The loop.** -/
theorem splits (maxArgs fuel : ℕ) : Splits maxArgs fuel := by
  induction fuel with
  | zero => exact fun m p s argv h hfuel => absurd hfuel (Nat.not_lt_zero _)
  | succ fuel ih =>
    intro m p s argv h hfuel
    rw [shellParseLoop]
    -- leaving the loop
    have hstop : (words s).take (maxArgs - argv.length) = [] →
        ∃ m' ps, some (m, argv) = some (m', argv ++ ps) ∧
          List.Forall₂ (StringAt m') ps ((words s).take (maxArgs - argv.length)) ∧
          Cut m m' p (p + s.length) := fun hnone =>
      ⟨m, [], by rw [List.append_nil], hnone ▸ .nil, fun b => Or.inl rfl⟩
    by_cases hgo : m p ≠ 0 ∧ argv.length < maxArgs
    swap
    · rw [if_neg hgo]
      refine hstop ?_
      rcases not_and_or.mp hgo with h0 | hfull
      · rw [h.eq_nil_iff.mpr (not_not.mp h0), words_nil, List.take_nil]
      · rw [Nat.sub_eq_zero_of_le (not_lt.mp hfull), List.take_zero]
    obtain ⟨run, rest, rfl, hrun, hhead, hskip⟩ := exists_skipWhile IsSeparator h hfuel
    have hskip : skipSeparators m (fuel + 1) p = some (p + run.length) := hskip
    have hrest := h.drop
    rw [words_append hrun] at hstop ⊢
    rw [if_pos hgo, hskip, Option.bind_some]
    by_cases hend : m (p + run.length) = 0
    · rw [if_pos hend]
      refine hstop ?_
      rw [hrest.eq_nil_iff.mpr hend, words_nil, List.take_nil]
    clear hstop
    rw [List.length_append] at hfuel ⊢
    obtain ⟨word, rest, rfl, hne, hword, htail, hskip'⟩ := exists_skipWord hrest
      (mt hrest.eq_nil_iff.mp hend) hhead (by omega : rest.length < fuel + 1)
    have hpos := List.length_pos_iff.mpr hne
    rw [List.length_append] at hfuel ⊢
    rw [if_neg hend]
    dsimp only
    rw [hskip', Option.bind_some, words_word hword hne htail]
    -- the loop goes on behind the word
    obtain ⟨m', ps, hloop, hps, hnul, hcut⟩ :=
      ih.behind_word hrest.drop htail (by omega) (argv ++ [p + run.length])
    have hlimit : maxArgs - argv.length =
        maxArgs - (argv ++ [p + run.length]).length + 1 := by
      rw [List.length_append, List.length_singleton]
      omega
    refine ⟨m', (p + run.length) :: ps, by rw [hloop, List.append_assoc]; rfl, ?_, fun b => ?_⟩
    · rw [hlimit, List.take_succ_cons]
      exact .cons (hrest.front (fun b _ hb => hcut.eq_of_lt hb) hnul) hps
    · exact (hcut b).imp_right fun hb => ⟨by omega, by omega, hb.2.2⟩

/-- **The words of the line.** The pointers returned point to the first words of the line, as many
as fit, and nothing of the line but separators has been overwritten. -/
theorem shellParseCommand_words (h : StringAt m line s) (hfuel : s.length < fuel) :
    ∃ m' argv, shellParseCommand fuel line maxArgs m = some (m', argv) ∧
      List.Forall₂ (StringAt m') argv ((words s).take maxArgs) ∧
      ∀ b, m' b = m b ∨ line ≤ b ∧ b < line + s.length ∧ IsSeparator (m b) ∧ m' b = 0 :=
  splits maxArgs fuel m line s [] h hfuel

/-- A line with blanks around its words, cut after the second word. -/
theorem shellParseCommand_words_sample :
    ∃ m' argv, shellParseCommand 9 0 2 (ByteMemory.write (fun _ => 0) 0
        ([0x20, 0x61, 0x09, 0x20, 0x62, 0x63, 0x20, 0x64] ++ [0])) = some (m', argv) ∧
      List.Forall₂ (StringAt m') argv
        ((words [0x20, 0x61, 0x09, 0x20, 0x62, 0x63, 0x20, 0x64]).take 2) ∧
      ∀ b, m' b = ByteMemory.write (fun _ => 0) 0
            ([0x20, 0x61, 0x09, 0x20, 0x62, 0x63, 0x20, 0x64] ++ [0]) b ∨
          0 ≤ b ∧ b < 0 + 8 ∧ IsSeparator (ByteMemory.write (fun _ => 0) 0
            ([0x20, 0x61, 0x09, 0x20, 0x62, 0x63, 0x20, 0x64] ++ [0]) b) ∧ m' b = 0 :=
  shellParseCommand_words (stringAt_write (by decide)) (by decide)

end ChalesOs
