import Mathlib.Logic.Function.Basic
import ChalesOs.Lib.ByteMemory

/-!
# Counting loops over arrays of fixed size

`store size m i v` is an assignment `m[i] = v` to an array of `size` cells; it has no outcome
when the index is out of bounds. `forRange n body s` runs `body 0`, …, `body (n - 1)` on the
state `s`, and has no outcome as soon as one of them has none; `forDown n body s` runs them in the
opposite order.

`forRange_invariant` is the rule for such loops: an invariant that holds in front and is carried
from each index to the next one holds behind the loop, and the loop has an outcome. The loops
that only move cells have closed forms: storing a list (`forRange_store_list`), copying downwards
in ascending order (`forRange_copy`, `forRange_store_above`) and upwards in descending order
(`forDown_copy`, `forRange_store_below`).
-/

namespace ByteMemory

variable {β σ : Type*}

/-- `m[i] = v` in an array of `size` cells. -/
def store (size : ℕ) (m : ℕ → β) (i : ℕ) (v : β) : Option (ℕ → β) :=
  if i < size then some (Function.update m i v) else none

/-- `for (i = 0; i < n; i++) body(i)`. -/
def forRange : (n : ℕ) → (body : ℕ → σ → Option σ) → σ → Option σ
  | 0, _, s => some s
  | n + 1, body, s => (forRange n body s).bind (body n)

/-- `for (i = n; i != 0; i--) body(i - 1)`. -/
def forDown : (n : ℕ) → (body : ℕ → σ → Option σ) → σ → Option σ
  | 0, _, s => some s
  | n + 1, body, s => (body n s).bind (forDown n body)

variable {size n d gap i : ℕ} {m : ℕ → β} {v : β} {l : List β} {s : σ} {body : ℕ → σ → Option σ}

theorem store_of_lt (h : i < size) : store size m i v = some (Function.update m i v) := if_pos h

theorem store_of_le (h : size ≤ i) : store size m i v = none := if_neg h.not_gt

@[simp]
theorem write_nil : write m d [] = m := by
  funext a
  simp [write]

/-- Writing one cell is an assignment. -/
theorem write_singleton : write m i [v] = Function.update m i v := by
  funext a
  by_cases ha : a = i
  · simp [ha, write]
  · rw [Function.update_of_ne ha, write]
    split_ifs with hle
    · rw [List.getElem?_eq_none (by rw [List.length_singleton]; omega), Option.getD_none]
    · rfl

/-- **Invariance.** What holds in front of a counting loop and is carried on by every index holds
behind it. -/
theorem forRange_invariant (p : ℕ → σ → Prop) (h0 : p 0 s)
    (hstep : ∀ i, i < n → ∀ s, p i s → ∃ s', body i s = some s' ∧ p (i + 1) s') :
    ∃ s', forRange n body s = some s' ∧ p n s' := by
  induction n with
  | zero => exact ⟨s, rfl, h0⟩
  | succ n ih =>
    obtain ⟨s₁, hrun, hp⟩ := ih fun i hi => hstep i (Nat.lt_succ_of_lt hi)
    obtain ⟨s₂, hbody, hp⟩ := hstep n (Nat.lt_succ_self n) s₁ hp
    exact ⟨s₂, by rw [forRange, hrun, Option.bind_some, hbody], hp⟩

/-- A counting loop whose states are known in closed form. -/
theorem forRange_eq (body : ℕ → σ → Option σ) (f : ℕ → σ) (h0 : f 0 = s)
    (hstep : ∀ i, i < n → body i (f i) = some (f (i + 1))) : forRange n body s = some (f n) := by
  obtain ⟨s', hrun, rfl⟩ : ∃ s', forRange n body s = some s' ∧ s' = f n :=
    forRange_invariant (fun i s => s = f i) h0.symm
      fun i hi s hs => ⟨f (i + 1), hs ▸ hstep i hi, rfl⟩
  exact hrun

/-- A loop whose first iteration has no outcome has none. -/
theorem forRange_eq_none (hn : 0 < n) (h : body 0 s = none) : forRange n body s = none := by
  induction n with
  | zero => exact absurd hn (Nat.lt_irrefl 0)
  | succ n ih =>
    rw [forRange]
    obtain rfl | hpos := Nat.eq_zero_or_pos n
    · rw [forRange, Option.bind_some, h]
    · rw [ih hpos, Option.bind_none]

/-- A descending loop whose states are known in closed form. -/
theorem forDown_eq (f : ℕ → σ) (hstep : ∀ i, i < n → body i (f (i + 1)) = some (f i)) :
    forDown n body (f n) = some (f 0) := by
  induction n with
  | zero => rfl
  | succ n ih =>
    rw [forDown, hstep n (Nat.lt_succ_self n), Option.bind_some]
    exact ih fun i hi => hstep i (Nat.lt_succ_of_lt hi)

/-! ### Loops that move cells -/

/-- A copy grows by the cell behind it. -/
theorem update_copy {dst src : ℕ → β} {s : ℕ} :
    Function.update (copy dst d src s n) (d + n) (src (s + n)) = copy dst d src s (n + 1) := by
  funext a
  by_cases ha : a = d + n
  · rw [ha, Function.update_self, copy_of_mem (by omega), Nat.add_sub_cancel_left]
  · rw [Function.update_of_ne ha, copy, copy]
    split_ifs <;> first | rfl | omega

/-- A copy grows by the cell in front of it. -/
theorem update_copy_front {dst src : ℕ → β} {s : ℕ} :
    Function.update (copy dst (d + 1) src (s + 1) n) d (src s) = copy dst d src s (n + 1) := by
  funext a
  by_cases ha : a = d
  · rw [ha, Function.update_self, copy_of_mem (by omega), Nat.sub_self, Nat.add_zero]
  · rw [Function.update_of_ne ha, copy, copy]
    split_ifs with h₁ h₂ h₂
    · congr 1
      omega
    all_goals first | rfl | omega

/-- Moving cells in ascending order. No cell is read behind the place where it would go. -/
theorem forRange_copy {body : ℕ → (ℕ → β) → Option (ℕ → β)} {s : ℕ} (h : d ≤ s)
    (hbody : ∀ i, i < n → ∀ m, body i m = some (Function.update m (d + i) (m (s + i)))) :
    forRange n body m = some (copy m d m s n) := by
  refine forRange_eq body (fun i => copy m d m s i) copy_zero fun i hi => ?_
  -- the cell read is still the old one: it lies at or behind the next cell written
  have hread : copy m d m s i (s + i) = m (s + i) := copy_of_not_mem (by omega)
  rw [hbody i hi, hread, update_copy]

/-- Moving cells in descending order. No cell is read in front of the place where it would go. -/
theorem forDown_copy {body : ℕ → (ℕ → β) → Option (ℕ → β)} {s : ℕ} (h : s ≤ d)
    (hbody : ∀ i, i < n → ∀ m, body i m = some (Function.update m (d + i) (m (s + i)))) :
    forDown n body m = some (copy m d m s n) := by
  have hstep : ∀ i, i < n → body i (copy m (d + (i + 1)) m (s + (i + 1)) (n - (i + 1))) =
      some (copy m (d + i) m (s + i) (n - i)) := fun i hi => by
    -- the cell read is still the old one: it lies in front of the cells written so far
    have hread : copy m (d + (i + 1)) m (s + (i + 1)) (n - (i + 1)) (s + i) = m (s + i) :=
      copy_of_not_mem (by omega)
    rw [hbody i hi, hread, ← Nat.add_assoc, ← Nat.add_assoc, update_copy_front,
      show n - (i + 1) + 1 = n - i by omega]
  have hrun := forDown_eq (fun i => copy m (d + i) m (s + i) (n - i)) hstep
  rwa [Nat.sub_self, copy_zero] at hrun

/-- Assigning the cell behind a list that has been written writes a longer list. -/
theorem update_write : Function.update (write m d l) (d + l.length) v = write m d (l ++ [v]) := by
  funext a
  by_cases ha : a = d + l.length
  · subst ha
    rw [Function.update_self, write, if_pos (Nat.le_add_right _ _), Nat.add_sub_cancel_left,
      List.getElem?_concat_length, Option.getD_some]
  · rw [Function.update_of_ne ha, write, write]
    split_ifs with hd
    · rw [List.getElem?_append]
      split_ifs with hlt
      · rfl
      · rw [List.getElem?_eq_none (by omega), List.getElem?_eq_none (by
          rw [List.length_singleton]; omega)]
    · rfl

/-- Assigning the cell behind a slice makes it longer. -/
theorem slice_update_succ :
    slice (Function.update m (d + n) v) d (n + 1) = slice m d n ++ [v] := by
  rw [slice, List.range_succ, List.map_append, List.map_singleton, Function.update_self]
  refine congrArg (· ++ [v]) (List.map_congr_left fun k hk => Function.update_of_ne ?_ _ _)
  have := List.mem_range.mp hk
  omega

/-- Storing the cells of a list one after the other writes the list. -/
theorem forRange_store_list {f : ℕ → β} (hf : ∀ i (hi : i < l.length), f i = l[i])
    (hsize : d + l.length ≤ size) :
    forRange l.length (fun i m => store size m (d + i) (f i)) m = some (write m d l) := by
  have hrun := forRange_eq (n := l.length) (s := m) (fun i m => store size m (d + i) (f i))
    (fun i => write m d (l.take i)) ?_ fun i hi => ?_
  · rw [hrun, List.take_length]
  · rw [List.take_zero, write_nil]
  · have hlen : (l.take i).length = i := by rw [List.length_take]; omega
    have hupdate := update_write (m := m) (d := d) (l := l.take i) (v := l[i])
    rw [hlen] at hupdate
    rw [store_of_lt (by omega), hf i hi, hupdate, List.take_append_getElem hi]

/-- Storing one value everywhere fills the range. -/
theorem forRange_store_const (hsize : d + n ≤ size) :
    forRange n (fun i m => store size m (d + i) v) m = some (fill m d n v) := by
  refine forRange_eq _ (fun i => fill m d i v) fill_zero fun i hi => ?_
  rw [store_of_lt (by omega), Option.some_inj]
  funext a
  by_cases ha : a = d + i
  · rw [ha, Function.update_self, fill_of_mem (by omega)]
  · rw [Function.update_of_ne ha, fill, fill]
    split_ifs <;> first | rfl | omega

/-- Copying to lower addresses in ascending order moves the cells. -/
theorem forRange_store_above (hsize : d + n ≤ size) :
    forRange n (fun i m => store size m (d + i) (m (d + gap + i))) m =
      some (copy m d m (d + gap) n) :=
  forRange_copy (Nat.le_add_right _ _) fun _ _ _ => store_of_lt (by omega)

/-- Copying to higher addresses in descending order moves the cells. -/
theorem forRange_store_below (hsize : d + gap + n ≤ size) :
    forRange n (fun i m => store size m (d + (n - 1 - i) + gap) (m (d + (n - 1 - i)))) m =
      some (copy m (d + gap) m d n) := by
  have hrun := forRange_eq (n := n) (s := m)
    (fun i m => store size m (d + (n - 1 - i) + gap) (m (d + (n - 1 - i))))
    (fun i => copy m (d + gap + (n - i)) m (d + (n - i)) i) copy_zero fun i hi => ?_
  · rwa [Nat.sub_self, Nat.add_zero, Nat.add_zero] at hrun
  · -- the cell read is still the old one: it lies in front of the cells written so far
    have hread : copy m (d + gap + (n - i)) m (d + (n - i)) i (d + (n - 1 - i)) =
        m (d + (n - 1 - i)) := copy_of_not_mem (by omega)
    rw [store_of_lt (by omega), hread, ← update_copy_front (d := d + gap + (n - (i + 1))),
      show d + gap + (n - (i + 1)) + 1 = d + gap + (n - i) by omega,
      show d + (n - (i + 1)) + 1 = d + (n - i) by omega,
      show d + (n - 1 - i) + gap = d + gap + (n - (i + 1)) by omega,
      show d + (n - 1 - i) = d + (n - (i + 1)) by omega]

/-! ### Ranges that grow -/

/-- Filling the range behind a filled range. -/
theorem fill_fill {k : ℕ} : fill (fill m d n v) (d + n) k v = fill m d (n + k) v := by
  funext a
  by_cases hlo : d ≤ a ∧ a < d + n
  · rw [fill_of_not_mem (by omega), fill_of_mem hlo, fill_of_mem (by omega)]
  by_cases hhi : d + n ≤ a ∧ a < d + n + k
  · rw [fill_of_mem hhi, fill_of_mem (by omega)]
  · rw [fill_of_not_mem hhi, fill_of_not_mem hlo, fill_of_not_mem (by omega)]

/-- Going on with a copy in place. The source has to lie behind the part that has been written. -/
theorem copy_copy {s k : ℕ} (h : d ≤ s) :
    copy (copy m d m s n) (d + n) (copy m d m s n) (s + n) k = copy m d m s (n + k) := by
  funext a
  by_cases hlo : d ≤ a ∧ a < d + n
  · rw [copy_of_not_mem (by omega), copy_of_mem hlo, copy_of_mem (by omega)]
  by_cases hhi : d + n ≤ a ∧ a < d + n + k
  · rw [copy_of_mem hhi, copy_of_not_mem (by omega), copy_of_mem (by omega)]
    congr 1
    omega
  · rw [copy_of_not_mem hhi, copy_of_not_mem hlo, copy_of_not_mem (by omega)]

end ByteMemory
