import Mathlib.Data.List.Basic
import Mathlib.Order.Nat

/-!
# Wrapped text

A text cut into the rows of a screen: it is split at every newline, and each piece is cut into
groups of `n`, where an empty piece is one empty row. The text, the newline and the width of a row
are parameters.

Appending one character at a time only touches the last row: `rows_newline` and `exists_rows_char`
say how. A row that is full stays the last one until the next character arrives.
-/

namespace WrappedText

variable {α : Type*} {n : ℕ} {l : List α}

/-- A list in groups of `n`; the empty list is one empty group. -/
def groups (n : ℕ) (l : List α) : List (List α) :=
  if l.length ≤ n ∨ n = 0 then [l] else l.take n :: groups n (l.drop n)
termination_by l.length
decreasing_by
  rw [List.length_drop]
  omega

theorem groups_of_le (h : l.length ≤ n) : groups n l = [l] := by
  rw [groups, if_pos (Or.inl h)]

theorem groups_of_lt (hn : 0 < n) (h : n < l.length) :
    groups n l = l.take n :: groups n (l.drop n) := by
  rw [groups, if_neg (by omega)]

/-- Appending an element to a list in groups extends the last group, or begins a new one behind
it. -/
theorem exists_groups_concat (hn : 0 < n) (c : α) (l : List α) :
    ∃ G g, groups n l = G ++ [g] ∧ g.length ≤ n ∧
      groups n (l ++ [c]) = G ++ if g.length = n then [g, [c]] else [g ++ [c]] := by
  induction hlen : l.length using Nat.strong_induction_on generalizing l with
  | _ k ih =>
  subst hlen
  rcases lt_trichotomy l.length n with hlt | heq | hgt
  · refine ⟨[], l, groups_of_le hlt.le, hlt.le, ?_⟩
    rw [if_neg hlt.ne, List.nil_append]
    exact groups_of_le (by rw [List.length_append, List.length_singleton]; omega)
  · refine ⟨[], l, groups_of_le heq.le, heq.le, ?_⟩
    rw [if_pos heq, groups_of_lt hn (by rw [List.length_append, List.length_singleton]; omega),
      ← heq, List.take_left, List.drop_left, groups_of_le (by rw [List.length_singleton]; omega),
      List.nil_append]
  · obtain ⟨G, g, hG, hg, hconcat⟩ :=
      ih (l.drop n).length (by rw [List.length_drop]; omega) (l.drop n) rfl
    refine ⟨l.take n :: G, g, ?_, hg, ?_⟩
    · rw [groups_of_lt hn hgt, hG, List.cons_append]
    · rw [groups_of_lt hn (by rw [List.length_append, List.length_singleton]; omega),
        List.take_append_of_le_length hgt.le, List.drop_append_of_le_length hgt.le, hconcat,
        List.cons_append]

/-! ### The characters of rows -/

/-- The character at column `x` of row `k`, with a filler behind the end of the row and behind the
last row. -/
def charAt (filler : α) (R : List (List α)) (k x : ℕ) : α := (R.getD k []).getD x filler

variable {filler c : α} {R : List (List α)} {q : List α} {k x : ℕ}

theorem charAt_of_le (h : R.length ≤ k) : charAt filler R k x = filler := by
  rw [charAt, List.getD_eq_getElem?_getD, List.getD_eq_getElem?_getD, List.getElem?_eq_none h,
    Option.getD_none, List.getElem?_nil, Option.getD_none]

/-- The rows from the row `d` on. -/
theorem charAt_drop {d : ℕ} : charAt filler (R.drop d) k x = charAt filler R (d + k) x := by
  simp only [charAt, List.getD_eq_getElem?_getD, List.getElem?_drop]

/-- An empty row shows nothing. -/
theorem charAt_concat_nil : charAt filler (R ++ [[]]) k x = charAt filler R k x := by
  rcases lt_trichotomy k R.length with hlt | heq | hgt
  · simp only [charAt, List.getD_eq_getElem?_getD, List.getElem?_append_left hlt]
  · rw [charAt_of_le heq.ge, charAt, heq, List.getD_eq_getElem?_getD, List.getD_eq_getElem?_getD,
      List.getElem?_concat_length, Option.getD_some, List.getElem?_nil, Option.getD_none]
  · rw [charAt_of_le hgt.le, charAt_of_le (by
      rw [List.length_append, List.length_singleton]; omega)]

/-- A character at the end of the last row shows there and nowhere else. -/
theorem charAt_concat_char :
    charAt filler (R ++ [q ++ [c]]) k x =
      if k = R.length ∧ x = q.length then c else charAt filler (R ++ [q]) k x := by
  by_cases hk : k = R.length
  · subst hk
    simp only [charAt, List.getD_eq_getElem?_getD, List.getElem?_concat_length, Option.getD_some,
      true_and]
    rcases lt_trichotomy x q.length with hlt | heq | hgt
    · rw [if_neg hlt.ne, List.getElem?_append_left hlt]
    · rw [if_pos heq, heq, List.getElem?_concat_length, Option.getD_some]
    · rw [if_neg hgt.ne', List.getElem?_eq_none hgt.le, List.getElem?_eq_none (by
        rw [List.length_append, List.length_singleton]; omega)]
  · rw [if_neg fun h => hk h.1]
    rcases Nat.lt_or_gt_of_ne hk with hlt | hgt
    · simp only [charAt, List.getD_eq_getElem?_getD, List.getElem?_append_left hlt]
    · rw [charAt_of_le (by rw [List.length_append, List.length_singleton]; omega),
        charAt_of_le (by rw [List.length_append, List.length_singleton]; omega)]

/-! ### Appending a character -/

variable [BEq α] {a : α} {s : List α}

/-- The rows of the text `s`, for the newline `a` and rows of `n` characters. -/
def rows (a : α) (n : ℕ) (s : List α) : List (List α) := (s.splitOn a).flatMap (groups n)

theorem rows_nil : rows a n [] = [[]] := by
  rw [rows, List.splitOn_nil, List.flatMap_singleton, groups_of_le (Nat.zero_le n)]

variable [LawfulBEq α]

/-- Appending a character other than the separator extends the last piece. -/
theorem exists_splitOn_concat (hc : c ≠ a) (s : List α) :
    ∃ Q q, s.splitOn a = Q ++ [q] ∧ (s ++ [c]).splitOn a = Q ++ [q ++ [c]] := by
  induction s with
  | nil => exact ⟨[], [], rfl, by simp [List.splitOn_cons_eq_if_modifyHead, hc]⟩
  | cons b s ih =>
    obtain ⟨Q, q, hQ, hconcat⟩ := ih
    rw [List.cons_append, List.splitOn_cons_eq_if_modifyHead, List.splitOn_cons_eq_if_modifyHead,
      hQ, hconcat]
    split_ifs
    · exact ⟨[] :: Q, q, rfl, rfl⟩
    · cases Q with
      | nil => exact ⟨[], b :: q, rfl, rfl⟩
      | cons p Q => exact ⟨(b :: p) :: Q, q, rfl, rfl⟩

/-- A newline begins an empty row. -/
theorem rows_newline : rows a n (s ++ [a]) = rows a n s ++ [[]] := by
  rw [rows, List.splitOn_append_cons_self, List.flatMap_append, ← rows, ← rows, rows_nil]

/-- A character extends the last row, or begins a new one if that is full. -/
theorem exists_rows_char (hn : 0 < n) (hc : c ≠ a) (s : List α) :
    ∃ R r, rows a n s = R ++ [r] ∧ r.length ≤ n ∧
      rows a n (s ++ [c]) = R ++ if r.length = n then [r, [c]] else [r ++ [c]] := by
  obtain ⟨Q, q, hQ, hconcat⟩ := exists_splitOn_concat hc s
  obtain ⟨G, g, hG, hg, hconcat'⟩ := exists_groups_concat hn c q
  refine ⟨Q.flatMap (groups n) ++ G, g, ?_, hg, ?_⟩
  · rw [rows, hQ, List.flatMap_append, List.flatMap_singleton, hG, List.append_assoc]
  · rw [rows, hconcat, List.flatMap_append, List.flatMap_singleton, hconcat', List.append_assoc]

end WrappedText
