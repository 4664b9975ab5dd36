import ChalesOs.Stdio.Printk
import ChalesOs.Stdio.Snprintk

/-!
# Where the two formatters agree

`printk` and `snprintk` are two hand-made copies of one formatter, and they have drifted apart:
`printk` uses the width of `%d`, `%i` and `%x`, which `snprintk` ignores, and it knows `%X`, `%lx`
and `%lX`, where `snprintk` gives up and prints the rest of the format literally. Behind any other
`%l`, which `printk` skips, `snprintk` gives up as well.

`SameText` follows a format and its arguments as long as the two formatters do the same.
`eq_iff_sameText` says that the two texts are equal on exactly these inputs. The reason is that a
difference cannot be made good later: once padding has put `printk` ahead, it stays ahead
(`append_ne_append`), because padding contains no percent sign and a formatter that gives up goes
on with one.
-/

namespace ChalesOs

open ByteMemory FormatString

/-- `printk` and `snprintk` produce the same characters, and both return how many. -/
def FormattersAgree (format : CString) (args : List VaArg) : Prop :=
  ∃ t, printk format args = some ((t.length : ℤ), t) ∧
    ∀ buffer size, t.length < size → ∃ buffer',
      snprintk buffer size format args = some ((t.length : ℤ), buffer') ∧
        slice buffer' 0 t.length = t ∧ buffer' t.length = 0

/-- The conversions whose width only `printk` uses. -/
def WidthIgnored (k : Conversion) : Prop := k = .signed ∨ k = .hex false

/-- The inputs on which the two formatters do the same. -/
inductive SameText : CString → List VaArg → Prop
  | nil {args : List VaArg} : SameText [] args
  | char {c : UInt8} {s : CString} {args : List VaArg} : c ≠ percent → SameText s args →
      SameText (c :: s) args
  | percent {s : CString} {args : List VaArg} : SameText s args →
      SameText (percent :: percent :: s) args
  /-- A conversion both know, with a width that does not matter. -/
  | directive {s : CString} {args : List VaArg} {r : Conversion × List UInt8}
      {q : List UInt8 × List VaArg} : s.head? ≠ some percent →
      snprintkLanguage.recognize (flags s).rest = some r →
      snprintkLanguage.convert r.1 (flags s).pad (flags s).width args = some q →
      (WidthIgnored r.1 → (flags s).width ≤ q.1.length) → SameText r.2 q.2 →
      SameText (percent :: s) args
  /-- A conversion neither knows. -/
  | unknown {s : CString} {args : List VaArg} : s.head? ≠ some percent →
      printkLanguage.recognize (flags s).rest = none → SameText (percent :: s) args
  /-- A `%l` which `printk` skips, in front of a text that happens to print as the whole rest of
  the format. -/
  | dropped {s : CString} {args : List VaArg} {r : List UInt8} : s.head? ≠ some percent →
      printkLanguage.recognize (flags s).rest = some (.dropped, r) →
      printkLanguage.text r args = some (percent :: s) → SameText (percent :: s) args

variable {s format : CString} {args : List VaArg} {r : Conversion × List UInt8} {k : Conversion}
  {padChar : UInt8} {width : ℕ} {p q : List UInt8 × List VaArg} {t u v P S : List UInt8}

/-! ### The two sets of conversions -/

/-- What `snprintk` recognises, `printk` recognises as the same. -/
theorem printk_recognize_of_snprintk (h : snprintkLanguage.recognize s = some r) :
    printkLanguage.recognize s = some r ∧ r.1 ≠ .dropped ∧ r.1 ≠ .hex true := by
  dsimp only [snprintkLanguage, printkLanguage] at h ⊢
  by_cases hlu : peek s = 0x6C ∧ peek s.tail = 0x75
  · rw [if_pos hlu] at h
    obtain rfl := Option.some.inj h
    simp +decide only [hlu, Printk.longConversion, ↓reduceIte]
  rw [if_neg hlu] at h
  obtain ⟨k, hk, rfl⟩ := Option.map_eq_some_iff.mp h
  have hX : peek s ≠ 0x58 := fun hX => by
    rw [hX] at hk
    exact absurd hk (by simp +decide [shortConversion])
  have hl : peek s ≠ 0x6C := fun hl => by
    rw [hl] at hk
    exact absurd hk (by simp +decide [shortConversion])
  rw [if_neg hX, if_neg hl, hk]
  obtain ⟨-, rfl⟩ | ⟨-, rfl⟩ | ⟨-, rfl⟩ | ⟨-, rfl⟩ | ⟨-, rfl⟩ | ⟨-, rfl⟩ :=
    shortConversion_eq_some hk <;> exact ⟨rfl, by simp, by simp⟩

/-- What only `printk` recognises is a hexadecimal number or skipped. -/
theorem of_printk_recognize (h : printkLanguage.recognize s = some r)
    (h' : snprintkLanguage.recognize s = none) : r.1 = .dropped ∨ ∃ upper, r.1 = .hex upper := by
  dsimp only [snprintkLanguage, printkLanguage] at h h'
  split_ifs at h' with hlu
  have hnone := Option.map_eq_none_iff.mp h'
  by_cases hX : peek s = 0x58
  · rw [if_pos hX] at h
    exact Or.inr ⟨true, Option.some.inj h ▸ rfl⟩
  rw [if_neg hX] at h
  by_cases hl : peek s = 0x6C
  · rw [if_pos hl] at h
    cases hk : Printk.longConversion (peek s.tail) with
    | none =>
      rw [hk] at h
      exact Or.inl (Option.some.inj h ▸ rfl)
    | some k =>
      rw [hk] at h
      obtain rfl := Option.some.inj h
      obtain ⟨hu, -⟩ | ⟨-, rfl⟩ | ⟨-, rfl⟩ := Printk.longConversion_eq_some hk
      · exact absurd ⟨hl, hu⟩ hlu
      · exact Or.inr ⟨false, rfl⟩
      · exact Or.inr ⟨true, rfl⟩
  · rw [if_neg hl, hnone] at h
    cases h

/-! ### The characters of a directive -/

/-- No digit is a percent sign. -/
theorem count_hexadecimal {upper : Bool} {n : ℕ} : (hexadecimal upper n).count percent = 0 := by
  have hdigit : ∀ upper : Bool, ∀ d < 16,
      digitOf (if upper then upperDigits else lowerDigits) d ≠ percent := by decide
  refine List.count_eq_zero.mpr fun hmem => ?_
  obtain ⟨d, hd, h⟩ := exists_of_mem_numeral (by omega) hmem
  exact hdigit upper d hd h.symm

/-- The padding is blank or zero. -/
theorem pad_flags_ne : (flags s).pad ≠ percent := by
  rw [flags]
  dsimp only
  split_ifs <;> decide

/-- Padding adds no percent sign. -/
theorem count_leftpad (hpad : padChar ≠ percent) :
    (t.leftpad width padChar).count percent = t.count percent := by
  rw [List.leftpad, List.count_append, List.count_replicate, if_neg (by simpa using hpad),
    Nat.zero_add]

/-- The text with the width against the text without it: it is the same, or it is longer without
having more percent signs. -/
def Widened (width : ℕ) (u v : List UInt8) : Prop :=
  width ≤ v.length ∧ u = v ∨
    v.length < width ∧ v.length < u.length ∧ u.count percent ≤ v.count percent

theorem widened_leftpad (hpad : padChar ≠ percent) :
    Widened width (t.leftpad width padChar) (t.leftpad 0 padChar) := by
  rw [leftpad_zero]
  rcases le_or_gt width t.length with hle | hgt
  · exact Or.inl ⟨hle, leftpad_of_le hle⟩
  · exact Or.inr ⟨hgt, by rw [List.length_leftpad]; omega, (count_leftpad hpad).le⟩

theorem widened_signedText {z : ℤ} (hpad : padChar ≠ percent) :
    Widened width (signedText padChar width z) (signedText padChar 0 z) := by
  rw [signedText, signedText]
  split_ifs with hz
  · -- the sign takes one character of the width
    obtain ⟨hle, heq⟩ | ⟨hgt, hlen, hcount⟩ : Widened (width - 1)
        ((decimal z.natAbs).leftpad (width - 1) padChar) ((decimal z.natAbs).leftpad 0 padChar) :=
      widened_leftpad hpad
    · exact Or.inl ⟨by rw [List.length_cons, Nat.zero_sub]; omega, congrArg (0x2D :: ·) heq⟩
    · refine Or.inr ⟨by rw [List.length_cons, Nat.zero_sub]; omega, by simpa using hlen, ?_⟩
      rw [List.count_cons, List.count_cons]
      exact Nat.add_le_add_right hcount _
  · exact widened_leftpad hpad

/-- **One directive.** A conversion both formatters recognise takes the same arguments. Its texts
are the same unless its width is ignored by one of them and larger than the text. -/
theorem convert_cases (hk : k ≠ .dropped) (hk' : k ≠ .hex true) (hpad : padChar ≠ percent)
    (hp : printkLanguage.convert k padChar width args = some p)
    (hq : snprintkLanguage.convert k padChar width args = some q) :
    p.2 = q.2 ∧ ((WidthIgnored k → width ≤ q.1.length) ∧ p.1 = q.1 ∨
      WidthIgnored k ∧ Widened width p.1 q.1) := by
  have hp : convertArgs Printk.padded k padChar width args = some p := hp
  have hq : convertArgs (fun k => k = .unsigned) k padChar width args = some q := hq
  by_cases hs : k = .string
  · subst hs
    have heq := (vaString_of_convertArgs hp).symm.trans (vaString_of_convertArgs hq)
    obtain rfl := Option.some.inj heq
    exact ⟨rfl, Or.inl ⟨by simp [WidthIgnored], rfl⟩⟩
  obtain ⟨w, hw, hu⟩ := vaWord_of_convertArgs hs hk hp
  obtain ⟨w', hw', hv⟩ := vaWord_of_convertArgs hs hk hq
  obtain ⟨rfl, hargs⟩ := Prod.mk.inj (Option.some.inj (hw.symm.trans hw'))
  refine ⟨hargs, ?_⟩
  cases k with
  | char | unsigned | pointer =>
    exact Or.inl ⟨by simp [WidthIgnored], Option.some.inj (hu.symm.trans hv)⟩
  | string => exact absurd rfl hs
  | dropped => exact absurd rfl hk
  | signed =>
    have hu : signedText padChar width w.toInt32.toInt = p.1 := Option.some.inj hu
    have hv : signedText padChar 0 w.toInt32.toInt = q.1 := Option.some.inj hv
    exact Or.inr ⟨Or.inl rfl, hu ▸ hv ▸ widened_signedText hpad⟩
  | hex upper =>
    obtain rfl : upper = false := by
      cases upper
      · rfl
      · exact absurd rfl hk'
    have hu : (hexadecimal false w.toNat).leftpad width padChar = p.1 := Option.some.inj hu
    have hv : (hexadecimal false w.toNat).leftpad 0 padChar = q.1 := Option.some.inj hv
    exact Or.inr ⟨Or.inr rfl, hu ▸ hv ▸ widened_leftpad hpad⟩

/-! ### `SameText`, form by form -/

theorem sameText_char {c : UInt8} (hc : c ≠ percent) :
    SameText (c :: s) args ↔ SameText s args := by
  refine ⟨fun h => ?_, .char hc⟩
  cases h with
  | char _ h => exact h
  | _ => exact absurd rfl hc

theorem sameText_percent : SameText (percent :: percent :: s) args ↔ SameText s args := by
  refine ⟨fun h => ?_, .percent⟩
  cases h with
  | char hc => exact absurd rfl hc
  | percent h => exact h
  | directive hs | unknown hs | dropped hs => exact absurd rfl hs

/-- At a conversion both formatters know. -/
theorem sameText_directive (hs : s.head? ≠ some percent)
    (hr : snprintkLanguage.recognize (flags s).rest = some r)
    (hq : snprintkLanguage.convert r.1 (flags s).pad (flags s).width args = some q) :
    SameText (percent :: s) args ↔
      (WidthIgnored r.1 → (flags s).width ≤ q.1.length) ∧ SameText r.2 q.2 := by
  obtain ⟨hr', hk, -⟩ := printk_recognize_of_snprintk hr
  refine ⟨fun h => ?_, fun h => .directive hs hr hq h.1 h.2⟩
  cases h with
  | char hc => exact absurd rfl hc
  | percent h => exact absurd rfl hs
  | directive _ hr₁ hq₁ hwidth h =>
    obtain rfl := Option.some.inj (hr.symm.trans hr₁)
    obtain rfl := Option.some.inj (hq.symm.trans hq₁)
    exact ⟨hwidth, h⟩
  | unknown _ hr₁ => exact absurd (hr'.symm.trans hr₁) (Option.some_ne_none r)
  | dropped _ hr₁ =>
    obtain rfl := Option.some.inj (hr'.symm.trans hr₁)
    exact absurd rfl hk

/-- At a conversion only `printk` knows. -/
theorem sameText_printk (hs : s.head? ≠ some percent)
    (hr : snprintkLanguage.recognize (flags s).rest = none)
    (hr' : printkLanguage.recognize (flags s).rest = some r) :
    SameText (percent :: s) args ↔
      r.1 = .dropped ∧ printkLanguage.text r.2 args = some (percent :: s) := by
  refine ⟨fun h => ?_, fun h => .dropped hs (h.1 ▸ hr') h.2⟩
  cases h with
  | char hc => exact absurd rfl hc
  | percent h => exact absurd rfl hs
  | directive _ hr₁ => exact absurd (hr.symm.trans hr₁) (Option.some_ne_none _).symm
  | unknown _ hr₁ => exact absurd (hr'.symm.trans hr₁) (Option.some_ne_none r)
  | dropped _ hr₁ htext =>
    obtain rfl := Option.some.inj (hr'.symm.trans hr₁)
    exact ⟨rfl, htext⟩

/-! ### Texts that have come apart -/

/-- A text that begins with a percent sign behind the shorter of two texts cannot make up for the
longer one, which has no percent sign more. -/
theorem append_ne_append_percent (hlen : v.length < u.length)
    (hcount : u.count percent ≤ v.count percent) : u ++ P ≠ v ++ percent :: s := by
  intro heq
  have htake := congrArg (List.take (v.length + 1)) heq
  rw [List.take_append_of_le_length hlen, List.take_length_add_append, List.take_succ_cons,
    List.take_zero] at htake
  have hprefix := (List.take_sublist (v.length + 1) u).count_le percent
  rw [htake, List.count_append, List.count_singleton_self] at hprefix
  omega

/-- A hexadecimal number does not begin with a percent sign. -/
theorem hex_append_ne_percent {upper : Bool} (hpad : padChar ≠ percent)
    (hp : convertArgs Printk.padded (.hex upper) padChar width args = some p) :
    p.1 ++ P ≠ percent :: s := by
  obtain ⟨w, -, ht⟩ := vaWord_of_convertArgs (k := .hex upper) (by simp) (by simp) hp
  have ht : (hexadecimal upper w.toNat).leftpad width padChar = p.1 := Option.some.inj ht
  have hcount : p.1.count percent = 0 := by
    rw [← ht, count_leftpad hpad, count_hexadecimal]
  refine append_ne_append_percent (v := []) ?_ (by rw [hcount]; exact Nat.zero_le _)
  have hdigits : 0 < (hexadecimal upper w.toNat).length := List.length_pos_iff.mpr numeral_ne_nil
  rw [← ht, List.length_leftpad, List.length_nil]
  omega

/-- **No way back.** Once the text of `printk` is ahead of the text of `snprintk` without having
more percent signs, the two texts stay different. -/
theorem append_ne_append (hlen : v.length < u.length) (hcount : u.count percent ≤ v.count percent)
    (hP : printkLanguage.text format args = some P)
    (hS : snprintkLanguage.text format args = some S) : u ++ P ≠ v ++ S := by
  induction hn : format.length using Nat.strong_induction_on generalizing format args u v P S with
  | _ n ih =>
  subst hn
  -- a piece of either text
  have hstep : ∀ {a b : List UInt8} {format' args' P' S'}, b.length ≤ a.length →
      a.count percent ≤ b.count percent → format'.length < format.length →
      printkLanguage.text format' args' = some P' → snprintkLanguage.text format' args' = some S' →
      u ++ (a ++ P') ≠ v ++ (b ++ S') := by
    intro a b format' args' P' S' hle hcount' hlt hP' hS'
    rw [← List.append_assoc, ← List.append_assoc]
    refine ih format'.length hlt ?_ ?_ hP' hS' rfl
    · rw [List.length_append, List.length_append]
      omega
    · rw [List.count_append, List.count_append]
      omega
  cases format with
  | nil =>
    obtain rfl := Option.some.inj (Language.text_nil.symm.trans hP)
    obtain rfl := Option.some.inj (Language.text_nil.symm.trans hS)
    rw [List.append_nil, List.append_nil]
    exact fun heq => hlen.ne (congrArg List.length heq.symm)
  | cons c s =>
  by_cases hc : c = percent
  · subst hc
    by_cases hs : s.head? = some percent
    · obtain ⟨s, rfl⟩ := List.head?_eq_some_iff.mp hs
      rw [Language.text_percent] at hP hS
      obtain ⟨P', hP', rfl⟩ := Option.map_eq_some_iff.mp hP
      obtain ⟨S', hS', rfl⟩ := Option.map_eq_some_iff.mp hS
      exact hstep (a := [percent]) (b := [percent]) le_rfl le_rfl (by simp) hP' hS'
    cases hr : snprintkLanguage.recognize (flags s).rest with
    | none =>
      obtain rfl := Option.some.inj ((Language.text_rest hs hr).symm.trans hS)
      exact append_ne_append_percent hlen hcount
    | some r =>
      obtain ⟨hr', hk, hk'⟩ := printk_recognize_of_snprintk hr
      obtain ⟨p, P', hp, hP', rfl⟩ := Language.exists_of_text_directive hs hr' hP
      obtain ⟨q, S', hq, hS', rfl⟩ := Language.exists_of_text_directive hs hr hS
      obtain ⟨hargs, hcases⟩ := convert_cases hk hk' pad_flags_ne hp hq
      have hwide : q.1.length ≤ p.1.length ∧ p.1.count percent ≤ q.1.count percent := by
        obtain ⟨-, heq⟩ | ⟨-, ⟨-, heq⟩ | ⟨-, hlt, hle⟩⟩ := hcases
        · exact ⟨heq ▸ le_rfl, heq ▸ le_rfl⟩
        · exact ⟨heq ▸ le_rfl, heq ▸ le_rfl⟩
        · exact ⟨hlt.le, hle⟩
      exact hstep hwide.1 hwide.2 (Nat.lt_succ_of_le (Language.length_le_of_recognize hr)) hP'
        (hargs ▸ hS')
  · rw [Language.text_char hc] at hP hS
    obtain ⟨P', hP', rfl⟩ := Option.map_eq_some_iff.mp hP
    obtain ⟨S', hS', rfl⟩ := Option.map_eq_some_iff.mp hS
    exact hstep (a := [c]) (b := [c]) le_rfl le_rfl (by simp) hP' hS'

/-! ### The inputs on which the formatters agree -/

/-- **The two texts** are the same on exactly the inputs of `SameText`. -/
theorem eq_iff_sameText (hP : printkLanguage.text format args = some P)
    (hS : snprintkLanguage.text format args = some S) : P = S ↔ SameText format args := by
  induction hn : format.length using Nat.strong_induction_on generalizing format args P S with
  | _ n ih =>
  subst hn
  cases format with
  | nil =>
    obtain rfl := Option.some.inj (Language.text_nil.symm.trans hP)
    obtain rfl := Option.some.inj (Language.text_nil.symm.trans hS)
    exact iff_of_true rfl .nil
  | cons c s =>
  by_cases hc : c = percent
  · subst hc
    by_cases hs : s.head? = some percent
    · obtain ⟨s, rfl⟩ := List.head?_eq_some_iff.mp hs
      rw [Language.text_percent] at hP hS
      obtain ⟨P', hP', rfl⟩ := Option.map_eq_some_iff.mp hP
      obtain ⟨S', hS', rfl⟩ := Option.map_eq_some_iff.mp hS
      rw [List.cons_inj_right, ih s.length (by simp) hP' hS' rfl, sameText_percent]
    cases hr : snprintkLanguage.recognize (flags s).rest with
    | none =>
      obtain rfl := Option.some.inj ((Language.text_rest hs hr).symm.trans hS)
      cases hr' : printkLanguage.recognize (flags s).rest with
      | none =>
        obtain rfl := Option.some.inj ((Language.text_rest hs hr').symm.trans hP)
        exact iff_of_true rfl (.unknown hs hr')
      | some r =>
        rw [sameText_printk hs hr hr']
        obtain ⟨p, P', hp, hP', rfl⟩ := Language.exists_of_text_directive hs hr' hP
        obtain hk | ⟨upper, hk⟩ := of_printk_recognize hr' hr
        · -- another %l
          have hp : convertArgs Printk.padded r.1 (flags s).pad (flags s).width args = some p := hp
          rw [hk, convertArgs.eq_def, if_pos rfl] at hp
          obtain rfl : ([], args) = p := Option.some.inj hp
          rw [List.nil_append, hP', Option.some_inj, and_iff_right hk]
        · -- a number, which begins with a digit or with padding
          have hne : r.1 ≠ .dropped := by
            simp [hk]
          refine iff_of_false (fun heq => ?_) fun h => hne h.1
          have hp : convertArgs Printk.padded r.1 (flags s).pad (flags s).width args = some p := hp
          rw [hk] at hp
          exact hex_append_ne_percent pad_flags_ne hp heq
    | some r =>
      obtain ⟨hr', hk, hk'⟩ := printk_recognize_of_snprintk hr
      obtain ⟨p, P', hp, hP', rfl⟩ := Language.exists_of_text_directive hs hr' hP
      obtain ⟨q, S', hq, hS', rfl⟩ := Language.exists_of_text_directive hs hr hS
      obtain ⟨hargs, hcases⟩ := convert_cases hk hk' pad_flags_ne hp hq
      have hrest := ih r.2.length (Nat.lt_succ_of_le (Language.length_le_of_recognize hr)) hP'
        (hargs ▸ hS') rfl
      rw [sameText_directive hs hr hq]
      obtain ⟨hwidth, heq⟩ | ⟨hk, ⟨hle, heq⟩ | ⟨hlt, hlen, hcount⟩⟩ := hcases
      · rw [and_iff_right hwidth, heq, List.append_cancel_left_eq, hrest, hargs]
      · rw [and_iff_right fun _ => hle, heq, List.append_cancel_left_eq, hrest, hargs]
      · -- the padding puts `printk` ahead
        refine iff_of_false (append_ne_append hlen hcount hP' (hargs ▸ hS')) fun h => ?_
        exact absurd (h.1 hk) (not_le.mpr hlt)
  · rw [Language.text_char hc] at hP hS
    obtain ⟨P', hP', rfl⟩ := Option.map_eq_some_iff.mp hP
    obtain ⟨S', hS', rfl⟩ := Option.map_eq_some_iff.mp hS
    rw [List.cons_inj_right, ih s.length (by simp) hP' hS' rfl, sameText_char hc]

/-- **Agreement.** `printk` and `snprintk` do the same on exactly the inputs of `SameText`. -/
theorem formattersAgree_iff (hP : printkLanguage.text format args = some P)
    (hS : snprintkLanguage.text format args = some S) (hwP : printkLanguage.WidthsLe 64 format)
    (hwS : snprintkLanguage.WidthsLe 64 format) (hlP : P.length < 0x80000000)
    (hlS : S.length < 0x80000000) : FormattersAgree format args ↔ SameText format args := by
  have hprintk := printk_eq hP hwP (by rw [intMax]; omega)
  rw [← eq_iff_sameText hP hS]
  constructor
  · rintro ⟨t, ht, hbuffer⟩
    obtain ⟨-, rfl⟩ := Prod.mk.inj (Option.some.inj (hprintk.symm.trans ht))
    -- a buffer with room for both texts
    have hsize : S.length ≤ P.length + S.length + 1 - 1 := by omega
    obtain ⟨buffer', hrun, hslice, -⟩ := hbuffer (fun _ => 0) (P.length + S.length + 1) (by omega)
    rw [snprintk_eq hS hwS (by rw [intMax]; omega) (by omega), if_pos hsize,
      List.take_of_length_le hsize] at hrun
    obtain ⟨hlen, rfl⟩ := Prod.mk.inj (Option.some.inj hrun)
    rw [← Int.ofNat.inj hlen, slice_write_append] at hslice
    exact hslice.symm
  · rintro rfl
    refine ⟨P, hprintk, fun buffer size hsize => ⟨write buffer 0 (P ++ [0]), ?_, ?_, ?_⟩⟩
    · rw [snprintk_eq hS hwS (by rw [intMax]; omega) (by omega), if_pos (by omega),
        List.take_of_length_le (by omega)]
    · exact slice_write_append
    · rw [write, if_pos (Nat.zero_le _), Nat.sub_zero, List.getElem?_concat_length,
        Option.getD_some]

/-- A number without a width is the same in both. -/
theorem formattersAgree_iff_sample :
    FormattersAgree [0x25, 0x75] [.word 7] ↔ SameText [0x25, 0x75] [.word 7] := by
  have htext : ∀ L : Language Conversion VaArg, L.recognize [0x75] = some (.unsigned, []) →
      L.convert .unsigned 0x20 0 [.word 7] = some ([0x37], []) →
      L.text [0x25, 0x75] [.word 7] = some [0x37] ∧ L.WidthsLe 64 [0x25, 0x75] := by
    intro L hr hc
    have hr : L.recognize (flags [0x75]).rest = some (.unsigned, []) := hr
    have hc : L.convert .unsigned (flags [0x75]).pad (flags [0x75]).width [.word 7] =
        some ([0x37], []) := hc
    rw [Language.text_directive (by decide) hr, Language.widthsLe_directive (by decide) hr, hc,
      Option.bind_some, Language.text_nil]
    exact ⟨rfl, by decide, Language.widthsLe_nil⟩
  obtain ⟨hP, hwP⟩ := htext printkLanguage (by decide) (by decide)
  obtain ⟨hS, hwS⟩ := htext snprintkLanguage (by decide) (by decide)
  exact formattersAgree_iff hP hS hwP hwS (by decide) (by decide)

/-- The width of `%08x`, which `snprintk` ignores: `printk` prints `00001234`, `snprintk` stores
`1234`. -/
theorem not_formattersAgree :
    ¬∀ format args P S, printkLanguage.text format args = some P →
      snprintkLanguage.text format args = some S → printkLanguage.WidthsLe 64 format →
      snprintkLanguage.WidthsLe 64 format → P.length < 0x80000000 → S.length < 0x80000000 →
      FormattersAgree format args := by
  intro h
  have hword : ∀ L : Language Conversion VaArg, L.recognize [0x78] = some (.hex false, []) →
      ∀ t, L.convert (.hex false) 0x30 8 [.word 0x1234] = some (t, []) →
      L.text [0x25, 0x30, 0x38, 0x78] [.word 0x1234] = some t ∧
        L.WidthsLe 64 [0x25, 0x30, 0x38, 0x78] := by
    intro L hr t hc
    have hr : L.recognize (flags [0x30, 0x38, 0x78]).rest = some (.hex false, []) := hr
    have hc : L.convert (.hex false) (flags [0x30, 0x38, 0x78]).pad (flags [0x30, 0x38, 0x78]).width
        [.word 0x1234] = some (t, []) := hc
    rw [Language.text_directive (by decide) hr, Language.widthsLe_directive (by decide) hr, hc,
      Option.bind_some, Language.text_nil, Option.map_some, List.append_nil]
    exact ⟨rfl, by decide, Language.widthsLe_nil⟩
  obtain ⟨hP, hwP⟩ := hword printkLanguage (by decide)
    [0x30, 0x30, 0x30, 0x30, 0x31, 0x32, 0x33, 0x34] (by decide)
  obtain ⟨hS, hwS⟩ := hword snprintkLanguage (by decide) [0x31, 0x32, 0x33, 0x34] (by decide)
  obtain ⟨t, ht, hbuffer⟩ := h _ _ _ _ hP hS hwP hwS (by decide) (by decide)
  have hprintk : (printk [0x25, 0x30, 0x38, 0x78] [.word 0x1234]).map Prod.fst = some 8 := by
    decide +kernel
  have hsnprintk : (snprintk (fun _ => 0) 9 [0x25, 0x30, 0x38, 0x78] [.word 0x1234]).map Prod.fst =
      some 4 := by decide +kernel
  rw [ht] at hprintk
  have hlen : (t.length : ℤ) = 8 := Option.some.inj hprintk
  obtain ⟨buffer', hrun, -⟩ := hbuffer (fun _ => 0) 9 (by omega)
  rw [hrun] at hsnprintk
  have hlen' : (t.length : ℤ) = 4 := Option.some.inj hsnprintk
  omega

end ChalesOs
