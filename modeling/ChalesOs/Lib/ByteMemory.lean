import Mathlib.Order.Interval.Set.Basic
import Mathlib.Tactic.Common

/-!
# Memories as functions from addresses

A memory is a function `ℕ → β` from addresses to cells. Three bulk updates are enough for
block copies, block fills and stores of short literal data:

* `copy dst d src s n` puts `n` cells of `src`, read from `s` on, at `d`;
* `fill m d n v` puts `n` copies of `v` at `d`;
* `write m d l` puts the list `l` at `d`.

Every update is described by two rules: what it puts inside its range (`_of_mem`), and that
it leaves everything outside its range alone (`eqOn_`, as `Set.EqOn` on the complement of an
interval). Frame arguments use the second kind only, through `Set.EqOn.trans`.

`slice m d n` reads `n` cells back as a list. `overwrite z l off w` is what a write of `w` at the
offset `off` makes of the list `l`, with `z` for the cells between the end of `l` and the
offset; `slice_copy_fill` says that clearing the hole and copying does this to a slice.
-/

namespace ByteMemory

variable {β : Type*}

/-- `n` cells of `src`, read from `s` on, written to `dst` from `d` on. -/
def copy (dst : ℕ → β) (d : ℕ) (src : ℕ → β) (s n : ℕ) : ℕ → β := fun a =>
  if d ≤ a ∧ a < d + n then src (s + (a - d)) else dst a

/-- `n` copies of `v` written from `d` on. -/
def fill (m : ℕ → β) (d n : ℕ) (v : β) : ℕ → β := fun a =>
  if d ≤ a ∧ a < d + n then v else m a

/-- The list `l` written from `d` on. -/
def write (m : ℕ → β) (d : ℕ) (l : List β) : ℕ → β := fun a =>
  if d ≤ a then (l[a - d]?).getD (m a) else m a

/-- The `n` cells from `d` on, as a list. -/
def slice (m : ℕ → β) (d n : ℕ) : List β := (List.range n).map fun k => m (d + k)

/-- The list `l`, extended by `z` up to the offset `off` if it is shorter, with `w` written over
it there. -/
def overwrite (z : β) (l : List β) (off : ℕ) (w : List β) : List β :=
  (l ++ List.replicate (off - l.length) z).take off ++ w ++ l.drop (off + w.length)

variable {m dst src : ℕ → β} {d s n a : ℕ} {v : β} {l : List β}

theorem copy_of_mem (h : d ≤ a ∧ a < d + n) : copy dst d src s n a = src (s + (a - d)) :=
  if_pos h

theorem copy_of_not_mem (h : ¬(d ≤ a ∧ a < d + n)) : copy dst d src s n a = dst a :=
  if_neg h

theorem fill_of_mem (h : d ≤ a ∧ a < d + n) : fill m d n v a = v :=
  if_pos h

theorem fill_of_not_mem (h : ¬(d ≤ a ∧ a < d + n)) : fill m d n v a = m a :=
  if_neg h

@[simp]
theorem copy_zero : copy dst d src s 0 = dst :=
  funext fun _ => if_neg (by omega)

@[simp]
theorem fill_zero : fill m d 0 v = m :=
  funext fun _ => if_neg (by omega)

/-- A copy changes nothing outside its target range. -/
theorem eqOn_copy : Set.EqOn (copy dst d src s n) dst (Set.Ico d (d + n))ᶜ :=
  fun _ ha => copy_of_not_mem ha

/-- A fill changes nothing outside its range. -/
theorem eqOn_fill : Set.EqOn (fill m d n v) m (Set.Ico d (d + n))ᶜ :=
  fun _ ha => fill_of_not_mem ha

/-- A list write changes nothing outside the list's range. -/
theorem eqOn_write : Set.EqOn (write m d l) m (Set.Ico d (d + l.length))ᶜ := by
  intro a ha
  simp only [Set.mem_compl_iff, Set.mem_Ico, not_and, not_lt] at ha
  rw [write]
  split_ifs with h
  · rw [List.getElem?_eq_none (by have := ha h; omega), Option.getD_none]
  · rfl

/-- A list can be written cell by cell. -/
theorem write_cons : write m d (v :: l) = write (write m d [v]) (d + 1) l := by
  funext a
  simp only [write]
  obtain hlt | rfl | hlt := lt_trichotomy a d
  · rw [if_neg (by omega), if_neg (by omega), if_neg (by omega)]
  · rw [if_pos le_rfl, if_neg (by omega), if_pos le_rfl, Nat.sub_self]
    rfl
  · obtain ⟨k, rfl⟩ := Nat.exists_eq_add_of_lt hlt
    rw [if_pos hlt.le, if_pos (by omega), if_pos hlt.le, show d + k + 1 - d = k + 1 by omega,
      show d + k + 1 - (d + 1) = k by omega]
    simp

/-- A change below an address does not show from there on. -/
theorem eq_of_le_of_eqOn {m' : ℕ → β} {e : ℕ} (h : Set.EqOn m' m (Set.Ico d e)ᶜ) (ha : e ≤ a) :
    m' a = m a :=
  h fun hmem => hmem.2.not_ge ha

/-! ### Slices -/

@[simp]
theorem length_slice : (slice m d n).length = n := by
  simp [slice]

@[simp]
theorem slice_zero : slice m d 0 = [] := rfl

/-- One cell more. -/
theorem slice_succ : slice m d (n + 1) = slice m d n ++ [m (d + n)] := by
  rw [slice, List.range_succ, List.map_append, List.map_singleton, ← slice]

/-- One cell less. -/
theorem dropLast_slice : (slice m d n).dropLast = slice m d (n - 1) := by
  cases n with
  | zero => rfl
  | succ n => rw [slice_succ, List.dropLast_concat, Nat.add_sub_cancel]

/-- A slice in two parts. -/
theorem slice_add {k : ℕ} : slice m d (n + k) = slice m d n ++ slice m (d + n) k := by
  rw [slice, slice, slice, List.range_add, List.map_append, List.map_map]
  refine congrArg (_ ++ ·) (List.map_congr_left fun i _ => ?_)
  rw [Function.comp_apply, Nat.add_assoc]

theorem getElem?_slice {k : ℕ} : (slice m d n)[k]? = if k < n then some (m (d + k)) else none := by
  rw [slice, List.getElem?_map]
  split_ifs with h
  · rw [List.getElem?_range h, Option.map_some]
  · rw [List.getElem?_eq_none (by simpa using h), Option.map_none]

/-- A slice depends on its own cells only. -/
theorem slice_congr {m' : ℕ → β} (h : ∀ k, k < n → m' (d + k) = m (d + k)) :
    slice m' d n = slice m d n :=
  List.map_congr_left fun k hk => h k (List.mem_range.mp hk)

/-- What has been copied can be read back. -/
theorem slice_copy : slice (copy dst d src s n) d n = slice src s n :=
  List.map_congr_left fun k hk => by
    have := List.mem_range.mp hk
    rw [copy_of_mem (by omega), Nat.add_sub_cancel_left]

/-- What has been written can be read back. -/
theorem slice_write : slice (write m d l) d l.length = l := by
  refine List.ext_getElem? fun k => ?_
  rw [getElem?_slice]
  split_ifs with hk
  · rw [write, if_pos (Nat.le_add_right _ _), Nat.add_sub_cancel_left, List.getElem?_eq_getElem hk,
      Option.getD_some]
  · rw [List.getElem?_eq_none (by omega)]

/-- The front of a written list. -/
theorem slice_write_append {l' : List β} : slice (write m d (l ++ l')) d l.length = l := by
  refine List.ext_getElem? fun k => ?_
  rw [getElem?_slice]
  split_ifs with hk
  · rw [write, if_pos (Nat.le_add_right _ _), Nat.add_sub_cancel_left,
      List.getElem?_append_left hk, List.getElem?_eq_getElem hk, Option.getD_some]
  · rw [List.getElem?_eq_none (by omega)]

/-- A list as an array. -/
theorem slice_getD {z : β} : slice (fun i => l.getD i z) 0 l.length = l := by
  refine List.ext_getElem? fun k => ?_
  rw [getElem?_slice, Nat.zero_add, List.getD_eq_getElem?_getD]
  split_ifs with hk
  · rw [List.getElem?_eq_getElem hk, Option.getD_some]
  · rw [List.getElem?_eq_none (by omega)]

/-- A slice of a slice. -/
theorem take_drop_slice {off len : ℕ} :
    ((slice m d n).drop off).take len = slice m (d + off) (min len (n - off)) := by
  refine List.ext_getElem? fun k => ?_
  rw [List.getElem?_take, List.getElem?_drop, getElem?_slice, getElem?_slice, Nat.add_assoc]
  split_ifs <;> first | rfl | omega

/-- An overwritten list, cell by cell. -/
theorem getElem?_overwrite {z : β} {w : List β} {off k : ℕ} :
    (overwrite z l off w)[k]? =
      if k < off then some (l[k]?.getD z)
      else if k < off + w.length then w[k - off]? else l[k]? := by
  have hlen : ((l ++ List.replicate (off - l.length) z).take off).length = off := by
    rw [List.length_take, List.length_append, List.length_replicate]
    omega
  rw [overwrite, List.append_assoc]
  split_ifs with hoff hw
  · rw [List.getElem?_append_left (by omega), List.getElem?_take_of_lt hoff, List.getElem?_append]
    split_ifs with hl
    · rw [List.getElem?_eq_getElem hl, Option.getD_some]
    · rw [List.getElem?_replicate_of_lt (by omega), List.getElem?_eq_none (by omega),
        Option.getD_none]
  · rw [List.getElem?_append_right (by omega), hlen, List.getElem?_append_left (by omega)]
  · rw [List.getElem?_append_right (by omega), hlen, List.getElem?_append_right (by omega),
      List.getElem?_drop]
    congr 1
    omega

/-- Overwriting behind a front. -/
theorem overwrite_append {z : β} {r w : List β} :
    overwrite z (l ++ r) l.length w = l ++ w ++ r.drop w.length := by
  rw [overwrite, Nat.sub_eq_zero_of_le (by rw [List.length_append]; omega), List.replicate_zero,
    List.append_nil, List.take_left, List.drop_append,
    List.drop_eq_nil_of_le (Nat.le_add_right _ _), Nat.add_sub_cancel_left, List.nil_append]

/-- Clearing the hole between a slice and an offset behind it, and then copying to that offset,
overwrites the slice. -/
theorem slice_copy_fill {len off : ℕ} :
    slice (copy (fill m (d + len) (off - len) v) (d + off) src s n) d (max len (off + n)) =
      overwrite v (slice m d len) off (slice src s n) := by
  refine List.ext_getElem? fun k => ?_
  rw [getElem?_overwrite, getElem?_slice, getElem?_slice, getElem?_slice, length_slice]
  by_cases hoff : k < off
  · rw [if_pos hoff, if_pos (by omega), copy_of_not_mem (by omega)]
    split_ifs with hlen
    · rw [fill_of_not_mem (by omega), Option.getD_some]
    · rw [fill_of_mem (by omega), Option.getD_none]
  rw [if_neg hoff]
  by_cases hn : k < off + n
  · rw [if_pos hn, if_pos (by omega), if_pos (by omega), copy_of_mem (by omega)]
    congr 3
    omega
  · rw [if_neg hn]
    split_ifs with hlen hlen
    · rw [copy_of_not_mem (by omega), fill_of_not_mem (by omega)]
    all_goals first | rfl | omega

end ByteMemory
