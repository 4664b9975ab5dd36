import Mathlib.Data.List.TakeWhile
import Mathlib.Data.Nat.Digits.Lemmas

/-!
# Format strings

The language of `printf`-like functions, over an arbitrary set of conversions. A format is a
byte string in which `%%` stands for a percent sign and `%`, an optional `0`, a decimal width and
a conversion for the text of an argument; everything else stands for itself. What counts as a
conversion and what its text is belongs to a `Language`: where a percent sign is not followed by a
conversion of the language, the rest of the format stands for itself.

`Language.parse` cuts a format into `Piece`s, independently of any arguments, and
`Language.render` turns pieces and arguments into text; it has no outcome when the arguments do
not have the kinds the conversions take. `Language.text` is the composition, and has one equation
for each form of a format. `numeral` is the text of a number.
-/

namespace FormatString

variable {κ α : Type*}

/-- `%`. -/
abbrev percent : UInt8 := 0x25

/-- What stands between a percent sign and its conversion, and the text behind it. -/
structure Flags where
  pad : UInt8
  width : ℕ
  rest : List UInt8

/-- A decimal digit, `0` to `9`. -/
def IsDigit (c : UInt8) : Prop := 0x30 ≤ c ∧ c ≤ 0x39

instance : DecidablePred IsDigit := fun c => inferInstanceAs (Decidable (0x30 ≤ c ∧ c ≤ 0x39))

/-- The number with the given decimal digits, continuing from `w`. -/
def decimalValue (w : ℕ) (s : List UInt8) : ℕ := s.foldl (fun w c => w * 10 + (c.toNat - 0x30)) w

/-- An optional `0`, which selects the padding character, and a width. -/
def flags (s : List UInt8) : Flags :=
  let body := if s.head? = some 0x30 then s.tail else s
  { pad := if s.head? = some 0x30 then 0x30 else 0x20
    width := decimalValue 0 (body.takeWhile fun c => IsDigit c)
    rest := body.dropWhile fun c => IsDigit c }

/-- The pieces of a format. -/
inductive Piece (κ : Type*)
  /-- A character that stands for itself. -/
  | char (c : UInt8)
  /-- A conversion, with its padding character and its width. -/
  | directive (k : κ) (pad : UInt8) (width : ℕ)
  /-- An unknown conversion, which makes the rest of the format stand for itself. -/
  | rest (s : List UInt8)

/-- A set of conversions. -/
structure Language (κ α : Type*) where
  /-- The conversion at the front of a text, and what follows it. -/
  recognize : List UInt8 → Option (κ × List UInt8)
  /-- The text of a conversion, and the arguments it leaves. -/
  convert : κ → (pad : UInt8) → (width : ℕ) → List α → Option (List UInt8 × List α)
  length_of_recognize : ∀ {s r}, recognize s = some r → r.2.length ≤ s.length

/-- Flag and width are in front of the rest. -/
theorem length_rest_flags_le (s : List UInt8) : (flags s).rest.length ≤ s.length := by
  refine (List.dropWhile_sublist _).length_le.trans ?_
  split_ifs
  · rw [List.length_tail]
    omega
  · rfl

namespace Language

variable (L : Language κ α)

/-- The pieces a format consists of. -/
def parse : List UInt8 → List (Piece κ)
  | [] => []
  | c :: s =>
    if c ≠ percent then .char c :: parse s
    else if s.head? = some percent then .char percent :: parse s.tail
    else
      match _hr : L.recognize (flags s).rest with
      | some r => .directive r.1 (flags s).pad (flags s).width :: parse r.2
      | none => [.rest (c :: s)]
termination_by s => s.length
decreasing_by
  · simp
  · rw [List.length_tail, List.length_cons]
    omega
  · have := L.length_of_recognize _hr
    have := length_rest_flags_le s
    rw [List.length_cons]
    omega

/-- The text of a list of pieces. -/
def render : List (Piece κ) → List α → Option (List UInt8)
  | [], _ => some []
  | .char c :: ps, as => (render ps as).map (c :: ·)
  | .directive k pad width :: ps, as =>
    (L.convert k pad width as).bind fun r => (render ps r.2).map (r.1 ++ ·)
  | .rest s :: _, _ => some s

/-- The text a format and a list of arguments stand for. -/
def text (s : List UInt8) (as : List α) : Option (List UInt8) := L.render (L.parse s) as

/-- Every conversion of the format has at most the given width. -/
def WidthsLe (n : ℕ) (s : List UInt8) : Prop :=
  ∀ k pad width, Piece.directive k pad width ∈ L.parse s → width ≤ n

variable {L} {c : UInt8} {s run : List UInt8} {as : List α} {n : ℕ} {r : κ × List UInt8}

/-! ### The forms of a format -/

theorem parse_char (hc : c ≠ percent) : L.parse (c :: s) = .char c :: L.parse s := by
  rw [parse, if_pos hc]

theorem parse_percent : L.parse (percent :: percent :: s) = .char percent :: L.parse s := by
  rw [parse, if_neg (not_not.mpr rfl), if_pos List.head?_cons, List.tail_cons]

theorem parse_directive (hs : s.head? ≠ some percent) (h : L.recognize (flags s).rest = some r) :
    L.parse (percent :: s) = .directive r.1 (flags s).pad (flags s).width :: L.parse r.2 := by
  rw [parse, if_neg (not_not.mpr rfl), if_neg hs]
  split
  next r' h' =>
    obtain rfl := Option.some_injective _ (h.symm.trans h')
    rfl
  next h' => exact absurd (h.symm.trans h') (Option.some_ne_none r)

theorem parse_rest (hs : s.head? ≠ some percent) (h : L.recognize (flags s).rest = none) :
    L.parse (percent :: s) = [.rest (percent :: s)] := by
  rw [parse, if_neg (not_not.mpr rfl), if_neg hs]
  split
  next r' h' => exact absurd (h'.symm.trans h) (Option.some_ne_none r')
  next => rfl

@[simp]
theorem text_nil : L.text [] as = some [] := by
  rw [text, parse, render]

theorem text_char (hc : c ≠ percent) : L.text (c :: s) as = (L.text s as).map (c :: ·) := by
  rw [text, parse_char hc, render, text]

theorem text_percent :
    L.text (percent :: percent :: s) as = (L.text s as).map (percent :: ·) := by
  rw [text, parse_percent, render, text]

theorem text_directive (hs : s.head? ≠ some percent) (h : L.recognize (flags s).rest = some r) :
    L.text (percent :: s) as =
      (L.convert r.1 (flags s).pad (flags s).width as).bind fun t =>
        (L.text r.2 t.2).map (t.1 ++ ·) := by
  rw [text, parse_directive hs h, render]
  rfl

theorem text_rest (hs : s.head? ≠ some percent) (h : L.recognize (flags s).rest = none) :
    L.text (percent :: s) as = some (percent :: s) := by
  rw [text, parse_rest hs h, render]

/-- The text of a directive, and the text behind it. -/
theorem exists_of_text_directive {t : List UInt8} (hs : s.head? ≠ some percent)
    (h : L.recognize (flags s).rest = some r) (ht : L.text (percent :: s) as = some t) :
    ∃ q t', L.convert r.1 (flags s).pad (flags s).width as = some q ∧
      L.text r.2 q.2 = some t' ∧ t = q.1 ++ t' := by
  rw [text_directive hs h] at ht
  obtain ⟨q, hq, ht⟩ := Option.bind_eq_some_iff.mp ht
  obtain ⟨t', ht', rfl⟩ := Option.map_eq_some_iff.mp ht
  exact ⟨q, t', hq, ht', rfl⟩

/-- A run of ordinary characters stands for itself. -/
theorem text_append (hrun : ∀ c ∈ run, c ≠ percent) :
    L.text (run ++ s) as = (L.text s as).map (run ++ ·) := by
  induction run with
  | nil => simp
  | cons c run ih =>
    rw [List.cons_append, text_char (hrun c List.mem_cons_self),
      ih fun d hd => hrun d (List.mem_cons_of_mem c hd), Option.map_map]
    rfl

/-- A format without percent signs stands for itself. -/
theorem text_plain (hs : ∀ c ∈ s, c ≠ percent) : L.text s as = some s := by
  have happend : L.text (s ++ []) as = (L.text [] as).map (s ++ ·) := text_append hs
  rwa [List.append_nil, text_nil, Option.map_some, List.append_nil] at happend

/-- The text up to the next percent sign stands for itself. -/
theorem exists_text_dropWhile {t : List UInt8} (h : L.text s as = some t) :
    ∃ t', t = (s.takeWhile fun c => c ≠ percent) ++ t' ∧
      L.text (s.dropWhile fun c => c ≠ percent) as = some t' := by
  have hrun : ∀ c ∈ s.takeWhile fun c => c ≠ percent, c ≠ percent := fun c hc => by
    simpa using List.mem_takeWhile_imp hc
  rw [← List.takeWhile_append_dropWhile (p := fun c => decide (c ≠ percent)) (l := s),
    text_append hrun] at h
  obtain ⟨t', ht', rfl⟩ := Option.map_eq_some_iff.mp h
  exact ⟨t', rfl, ht'⟩

/-! ### Widths -/

theorem widthsLe_char (hc : c ≠ percent) : L.WidthsLe n (c :: s) ↔ L.WidthsLe n s := by
  simp [WidthsLe, parse_char hc]

theorem widthsLe_percent : L.WidthsLe n (percent :: percent :: s) ↔ L.WidthsLe n s := by
  simp [WidthsLe, parse_percent]

theorem widthsLe_directive (hs : s.head? ≠ some percent)
    (h : L.recognize (flags s).rest = some r) :
    L.WidthsLe n (percent :: s) ↔ (flags s).width ≤ n ∧ L.WidthsLe n r.2 := by
  rw [WidthsLe, parse_directive hs h]
  constructor
  · intro hw
    exact ⟨hw _ _ _ List.mem_cons_self, fun k pad w hk => hw k pad w (List.mem_cons_of_mem _ hk)⟩
  · rintro ⟨hw, hrest⟩ k pad w hk
    rcases List.mem_cons.mp hk with heq | hk
    · obtain ⟨-, -, rfl⟩ := Piece.directive.inj heq
      exact hw
    · exact hrest k pad w hk

/-- A run of ordinary characters has no conversion. -/
theorem widthsLe_append (hrun : ∀ c ∈ run, c ≠ percent) :
    L.WidthsLe n (run ++ s) ↔ L.WidthsLe n s := by
  induction run with
  | nil => rfl
  | cons c run ih =>
    rw [List.cons_append, widthsLe_char (hrun c List.mem_cons_self),
      ih fun d hd => hrun d (List.mem_cons_of_mem c hd)]

/-- Skipping to the next percent sign skips no conversion. -/
theorem widthsLe_dropWhile : L.WidthsLe n (s.dropWhile fun c => c ≠ percent) ↔ L.WidthsLe n s := by
  induction s with
  | nil => rfl
  | cons c s ih =>
    by_cases hc : c = percent
    · rw [List.dropWhile_cons, if_neg (by simpa using hc)]
    · rw [List.dropWhile_cons, if_pos (by simpa using hc), ih, widthsLe_char hc]

/-- **The three ways a format goes on**: with ordinary characters up to the next percent sign,
where a percent sign in front of another one is skipped; with a conversion; or with a percent sign
that has no conversion. -/
theorem text_cases {t : List UInt8} (ht : L.text (c :: s) as = some t)
    (hw : L.WidthsLe n (c :: s)) :
    (∃ d s' t', (c ≠ percent ∨ s.head? = some percent) ∧
        (if c = percent then s else c :: s) = d :: s' ∧
        t = (d :: s'.takeWhile fun c => c ≠ percent) ++ t' ∧
        L.text (s'.dropWhile fun c => c ≠ percent) as = some t' ∧
        L.WidthsLe n (s'.dropWhile fun c => c ≠ percent)) ∨
      (∃ r q t', c = percent ∧ s.head? ≠ some percent ∧ L.recognize (flags s).rest = some r ∧
        L.convert r.1 (flags s).pad (flags s).width as = some q ∧ (flags s).width ≤ n ∧
        t = q.1 ++ t' ∧ L.text r.2 q.2 = some t' ∧ L.WidthsLe n r.2) ∨
      (c = percent ∧ s.head? ≠ some percent ∧ L.recognize (flags s).rest = none ∧ t = c :: s) := by
  by_cases hc : c = percent
  · subst hc
    by_cases hs : s.head? = some percent
    · obtain ⟨s, rfl⟩ : ∃ s', s = percent :: s' := by
        cases s with
        | nil => cases hs
        | cons d s => exact ⟨s, by rw [Option.some.inj hs]⟩
      rw [text_percent] at ht
      obtain ⟨t₁, ht₁, rfl⟩ := Option.map_eq_some_iff.mp ht
      obtain ⟨t₂, rfl, ht₂⟩ := exists_text_dropWhile ht₁
      exact Or.inl ⟨percent, s, t₂, Or.inr hs, if_pos rfl, rfl, ht₂,
        widthsLe_dropWhile.mpr (widthsLe_percent.mp hw)⟩
    cases hr : L.recognize (flags s).rest with
    | none =>
      rw [text_rest hs hr] at ht
      exact Or.inr (Or.inr ⟨rfl, hs, rfl, (Option.some.inj ht).symm⟩)
    | some r =>
      obtain ⟨q, t', hq, ht', rfl⟩ := exists_of_text_directive hs hr ht
      obtain ⟨hwidth, hw⟩ := (widthsLe_directive hs hr).mp hw
      exact Or.inr (Or.inl ⟨r, q, t', rfl, hs, rfl, hq, hwidth, rfl, ht', hw⟩)
  · rw [text_char hc] at ht
    obtain ⟨t₁, ht₁, rfl⟩ := Option.map_eq_some_iff.mp ht
    obtain ⟨t₂, rfl, ht₂⟩ := exists_text_dropWhile ht₁
    exact Or.inl ⟨c, s, t₂, Or.inl hc, if_neg hc, rfl, ht₂,
      widthsLe_dropWhile.mpr ((widthsLe_char hc).mp hw)⟩

theorem widthsLe_nil : L.WidthsLe n [] := by
  simp [WidthsLe, parse]

theorem widthsLe_plain (hs : ∀ c ∈ s, c ≠ percent) : L.WidthsLe n s := by
  have happend := (widthsLe_append (L := L) (n := n) (s := []) hs).mpr widthsLe_nil
  rwa [List.append_nil] at happend

/-- What follows the conversion is shorter than the directive. -/
theorem length_le_of_recognize (h : L.recognize (flags s).rest = some r) :
    r.2.length ≤ s.length :=
  (L.length_of_recognize h).trans (length_rest_flags_le s)

end Language

/-! ### Numbers -/

/-- The digits of a number in the base `b`, most significant first; `0` has one digit. -/
def numeral (digit : ℕ → UInt8) (b n : ℕ) : List UInt8 :=
  if n = 0 then [digit 0] else ((Nat.digits b n).map digit).reverse

/-- A number below `b ^ k` has at most `k` digits. -/
theorem length_numeral_le {digit : ℕ → UInt8} {b n k : ℕ} (hb : 1 < b) (hk : 0 < k)
    (hn : n < b ^ k) : (numeral digit b n).length ≤ k := by
  rw [numeral]
  split_ifs
  · exact hk
  · rw [List.length_reverse, List.length_map]
    exact (Nat.digits_length_le_iff hb n).mpr hn

theorem numeral_ne_nil {digit : ℕ → UInt8} {b n : ℕ} : numeral digit b n ≠ [] := by
  rw [numeral]
  split_ifs with hn
  · exact List.cons_ne_nil _ _
  · simpa [Nat.digits_ne_nil_iff_ne_zero] using hn

/-- Every character of a numeral is a digit. -/
theorem exists_of_mem_numeral {digit : ℕ → UInt8} {b n : ℕ} {c : UInt8} (hb : 1 < b)
    (h : c ∈ numeral digit b n) : ∃ d, d < b ∧ c = digit d := by
  rw [numeral] at h
  split_ifs at h with hn
  · exact ⟨0, by omega, List.mem_singleton.mp h⟩
  · obtain ⟨d, hd, rfl⟩ := List.mem_map.mp (List.mem_reverse.mp h)
    exact ⟨d, Nat.digits_lt_base hb hd, rfl⟩

/-- A width that is not larger than the text changes nothing. -/
theorem leftpad_of_le {t : List UInt8} {width : ℕ} {pad : UInt8} (h : width ≤ t.length) :
    t.leftpad width pad = t := by
  rw [List.leftpad, Nat.sub_eq_zero_of_le h, List.replicate_zero, List.nil_append]

theorem leftpad_zero {t : List UInt8} {pad : UInt8} : t.leftpad 0 pad = t :=
  leftpad_of_le (Nat.zero_le _)

end FormatString
