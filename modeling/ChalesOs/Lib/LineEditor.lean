import Mathlib.Data.List.Basic

/-!
# Line editing

Keys typed one after the other, some of which end a line: `ends`. The other keys edit the text
held so far: `key`. `lines` are the texts held at the ends of the lines, and `held` is the text of
the line that has not been ended yet. Both `ends` and `key` are parameters.

`lines_append` and `held_append` split the keys anywhere. `Within` describes a reader that is
served from such lines in chunks: a chunk is part of one line, and everything in front of that
line has been served before.
-/

namespace LineEditor

variable {α β : Type*} (ends : α → Prop) [DecidablePred ends] (key : List β → α → List β)

/-- The texts of the ended lines, when `text` has been typed in the current line. -/
def lines : (text : List β) → List α → List (List β)
  | _, [] => []
  | text, c :: ks => if ends c then text :: lines [] ks else lines (key text c) ks

/-- The text of the line that has not been ended. -/
def held : (text : List β) → List α → List β
  | text, [] => text
  | text, c :: ks => if ends c then held [] ks else held (key text c) ks

variable {ends key} {text : List β} {ks ks' : List α} {c : α}

theorem lines_cons_of_ends (h : ends c) :
    lines ends key text (c :: ks) = text :: lines ends key [] ks :=
  if_pos h

theorem lines_cons_of_not_ends (h : ¬ends c) :
    lines ends key text (c :: ks) = lines ends key (key text c) ks :=
  if_neg h

theorem held_cons_of_ends (h : ends c) : held ends key text (c :: ks) = held ends key [] ks :=
  if_pos h

theorem held_cons_of_not_ends (h : ¬ends c) :
    held ends key text (c :: ks) = held ends key (key text c) ks :=
  if_neg h

/-- The keys can be split anywhere. -/
theorem lines_append :
    lines ends key text (ks ++ ks') =
      lines ends key text ks ++ lines ends key (held ends key text ks) ks' := by
  induction ks generalizing text with
  | nil => rfl
  | cons c ks ih =>
    rw [List.cons_append]
    by_cases hc : ends c
    · rw [lines_cons_of_ends hc, lines_cons_of_ends hc, held_cons_of_ends hc, ih, List.cons_append]
    · rw [lines_cons_of_not_ends hc, lines_cons_of_not_ends hc, held_cons_of_not_ends hc, ih]

theorem held_append :
    held ends key text (ks ++ ks') = held ends key (held ends key text ks) ks' := by
  induction ks generalizing text with
  | nil => rfl
  | cons c ks ih =>
    rw [List.cons_append]
    by_cases hc : ends c
    · rw [held_cons_of_ends hc, held_cons_of_ends hc, ih]
    · rw [held_cons_of_not_ends hc, held_cons_of_not_ends hc, ih]

/-- Keys that end no line only edit the text. -/
theorem lines_of_forall_not (h : ∀ c ∈ ks, ¬ends c) : lines ends key text ks = [] := by
  induction ks generalizing text with
  | nil => rfl
  | cons c ks ih =>
    rw [lines_cons_of_not_ends (h c List.mem_cons_self)]
    exact ih fun d hd => h d (List.mem_cons_of_mem c hd)

theorem held_of_forall_not (h : ∀ c ∈ ks, ¬ends c) : held ends key text ks = ks.foldl key text := by
  induction ks generalizing text with
  | nil => rfl
  | cons c ks ih =>
    rw [held_cons_of_not_ends (h c List.mem_cons_self), List.foldl_cons]
    exact ih fun d hd => h d (List.mem_cons_of_mem c hd)

/-! ### Lines handed out in chunks -/

/-- Behind the elements `front`, the chunk is a part of one of the given lines, and the lines in
front of that one are all in `front`. -/
def Within (rows : List (List β)) (front chunk : List β) : Prop :=
  ∃ done line more, rows = done ++ line :: more ∧ done.flatten <+: front ∧
    front ++ chunk <+: done.flatten ++ line

variable {rows : List (List β)} {rest front chunk chunk' : List β}

/-- The first chunk of the first line. -/
theorem within_head : Within ((chunk ++ rest) :: rows) [] chunk :=
  ⟨[], chunk ++ rest, rows, rfl, List.nil_prefix, List.prefix_append chunk rest⟩

/-- An empty line in front. -/
theorem Within.cons_nil (h : Within rows front chunk) : Within ([] :: rows) front chunk := by
  obtain ⟨done, line, more, rfl, hdone, hline⟩ := h
  exact ⟨[] :: done, line, more, rfl, hdone, hline⟩

theorem Within.of_cons_nil (h : Within ([] :: rows) front chunk) (hchunk : chunk ≠ []) :
    Within rows front chunk := by
  obtain ⟨done, line, more, hrows, hdone, hline⟩ := h
  cases done with
  | nil =>
    -- there is no chunk in the empty line
    obtain ⟨rfl, -⟩ := List.cons.inj hrows
    exact absurd (List.append_eq_nil_iff.mp (List.prefix_nil.mp hline)).2 hchunk
  | cons d done =>
    obtain ⟨rfl, rfl⟩ := List.cons.inj hrows
    exact ⟨done, line, more, rfl, hdone, hline⟩

/-- A chunk behind the first one. -/
theorem Within.append (h : Within (rest :: rows) front chunk) :
    Within ((chunk' ++ rest) :: rows) (chunk' ++ front) chunk := by
  obtain ⟨done, line, more, hrows, hdone, hline⟩ := h
  rw [Within, List.append_assoc]
  cases done with
  | nil =>
    obtain ⟨rfl, rfl⟩ := List.cons.inj hrows
    exact ⟨[], chunk' ++ rest, rows, rfl, List.nil_prefix,
      (List.prefix_append_right_inj chunk').mpr hline⟩
  | cons d done =>
    obtain ⟨rfl, rfl⟩ := List.cons.inj hrows
    refine ⟨(chunk' ++ rest) :: done, line, more, rfl, ?_, ?_⟩
    · rw [List.flatten_cons, List.append_assoc]
      exact (List.prefix_append_right_inj chunk').mpr hdone
    · rw [List.flatten_cons, List.append_assoc, List.append_assoc]
      rw [List.flatten_cons, List.append_assoc] at hline
      exact (List.prefix_append_right_inj chunk').mpr hline

end LineEditor
