import ChalesOs.Process.Exec

/-!
# The break

`sbrk_handler` tests a pointer that has already wrapped around: the lower bound for a negative
increment only, the upper bound always. `UserHeap.sbrk` is the handler on the break alone, for any
bounds of the heap (`sbrkHandler_eq` is the connection with the machine).

As long as the sum is not so far away that it wraps around into the heap, the two tests are one
test of the true sum (`UserHeap.sbrk_spec`). For a heap below `2 ^ 31` this is so for every `int`:
a sum that falls below 0 wraps to at least `2 ^ 31`, and one that is not negative does not wrap.
-/

namespace ChalesOs

/-- A value of the C type `int`. -/
def IsInt (z : ℤ) : Prop := -0x80000000 ≤ z ∧ z < 0x80000000

/-- The bounds of the user heap, `_user_heap_start` and `_user_heap_end`. -/
structure UserHeap where
  heapStart : ℕ
  heapEnd : ℕ
  heapStart_le : heapStart ≤ heapEnd

namespace UserHeap

variable (U : UserHeap)

/-- The break a value of `user_brk` stands for: `NULL` is the start of the heap. -/
def breakOf (userBrk : ℕ) : ℕ := if userBrk = 0 then U.heapStart else userBrk

/-- `sbrk_handler`: what it returns, and `user_brk` afterwards. -/
def sbrk (userBrk : ℕ) (increment : ℤ) : ℤ × ℕ :=
  let oldBrk := U.breakOf userBrk
  let newBrk := (((oldBrk : ℤ) + increment) % 0x100000000).toNat
  if increment < 0 ∧ newBrk < U.heapStart then (-1, oldBrk)
  else if newBrk > U.heapEnd then (-1, oldBrk)
  else (oldBrk, newBrk)

/-- Calls of `sbrk`, from `NULL` on. -/
def sbrkSystem : StepSystem ℕ ℤ where
  start userBrk := userBrk = 0
  step userBrk increment := some (U.sbrk userBrk increment).2

/-- The break is in the heap. -/
def Holds (userBrk : ℕ) : Prop :=
  U.heapStart ≤ U.breakOf userBrk ∧ U.breakOf userBrk ≤ U.heapEnd

/-- The sum, as an integer, is in the heap. -/
def Accepts (userBrk : ℕ) (increment : ℤ) : Prop :=
  (U.heapStart : ℤ) ≤ U.breakOf userBrk + increment ∧ U.breakOf userBrk + increment ≤ U.heapEnd

/-- The sum does not wrap around into the heap. -/
def NoWrap (userBrk : ℕ) (increment : ℤ) : Prop :=
  (U.heapEnd : ℤ) < U.breakOf userBrk + increment + 0x100000000 ∧
    U.breakOf userBrk + increment < 0x100000000

variable {U} {userBrk : ℕ} {increment : ℤ}

@[simp] theorem breakOf_zero : U.breakOf 0 = U.heapStart := if_pos rfl

/-- A value in the heap stands for itself, 0 included when the heap starts there. -/
theorem breakOf_of_le (h : U.heapStart ≤ userBrk) : U.breakOf userBrk = userBrk := by
  rw [breakOf]
  split_ifs with hnull
  · omega
  · rfl

/-- At `NULL` the break is the start of the heap. -/
theorem holds_zero : U.Holds 0 := by
  rw [Holds, breakOf_zero]
  exact ⟨le_rfl, U.heapStart_le⟩

/-- In the lower half of the address space no `int` increment wraps around into the heap. -/
theorem Holds.noWrap (h : U.Holds userBrk) (hend : U.heapEnd < 0x80000000)
    (hint : IsInt increment) : U.NoWrap userBrk increment := by
  obtain ⟨hlo, hhi⟩ := h
  obtain ⟨hmin, hmax⟩ := hint
  constructor <;> omega

/-! ### One call -/

/-- A sum in the heap is the new break, and the old one is returned. -/
theorem sbrk_of_accepts (hwrap : U.NoWrap userBrk increment)
    (hsum : U.Accepts userBrk increment) :
    (U.sbrk userBrk increment).1 = U.breakOf userBrk ∧
      (U.breakOf (U.sbrk userBrk increment).2 : ℤ) = U.breakOf userBrk + increment := by
  obtain ⟨hlo, hhi⟩ := hsum
  -- the sum is below `2 ^ 32`, so the pointer is the sum
  have hexact : ((U.breakOf userBrk : ℤ) + increment) % 0x100000000 =
      U.breakOf userBrk + increment := Int.emod_eq_of_lt (by omega) hwrap.2
  have hnew : U.heapStart ≤ ((U.breakOf userBrk : ℤ) + increment).toNat := by omega
  simp only [sbrk, hexact]
  rw [if_neg (by omega), if_neg (by omega), breakOf_of_le hnew]
  exact ⟨rfl, by omega⟩

/-- Any other sum is refused. -/
theorem sbrk_of_not_accepts (h : U.Holds userBrk) (hwrap : U.NoWrap userBrk increment)
    (hsum : ¬U.Accepts userBrk increment) :
    (U.sbrk userBrk increment).1 = -1 ∧
      U.breakOf (U.sbrk userBrk increment).2 = U.breakOf userBrk := by
  obtain ⟨hlo, hhi⟩ := h
  obtain ⟨hbelow, habove⟩ := hwrap
  rw [Accepts, not_and_or] at hsum
  have hrefused : U.sbrk userBrk increment = (-1, U.breakOf userBrk) := by
    by_cases hneg : (U.breakOf userBrk : ℤ) + increment < 0
    · -- the sum wraps around, to an address above the heap
      have hover : ((U.breakOf userBrk : ℤ) + increment) % 0x100000000 =
          U.breakOf userBrk + increment + 0x100000000 := by omega
      simp only [sbrk, hover]
      rw [if_neg (by omega), if_pos (by omega)]
    · have hexact : ((U.breakOf userBrk : ℤ) + increment) % 0x100000000 =
          U.breakOf userBrk + increment := Int.emod_eq_of_lt (by omega) habove
      simp only [sbrk, hexact]
      split_ifs
      · rfl
      · rfl
      · omega
  rw [hrefused]
  exact ⟨rfl, breakOf_of_le hlo⟩

/-- A call keeps the break in the heap. -/
theorem Holds.sbrk (h : U.Holds userBrk) (hwrap : U.NoWrap userBrk increment) :
    U.Holds (U.sbrk userBrk increment).2 := by
  by_cases hsum : U.Accepts userBrk increment
  · have hnew := (sbrk_of_accepts hwrap hsum).2
    obtain ⟨hlo, hhi⟩ := hsum
    rw [Holds]
    omega
  · rw [Holds, (sbrk_of_not_accepts h hwrap hsum).2]
    exact h

/-! ### Runs -/

/-- **`sbrk` stays in its arena.** With the heap below `2 ^ 31`, the break is in the heap after any
calls with `int` increments. A call returns the old break and moves it by the increment if the sum,
as an integer, is in the heap; otherwise it returns -1 and the break stays where it is. -/
theorem sbrk_of_reachable (hend : U.heapEnd < 0x80000000)
    (h : U.sbrkSystem.ReachableBy (fun _ increment => IsInt increment) userBrk) :
    (U.heapStart ≤ U.breakOf userBrk ∧ U.breakOf userBrk ≤ U.heapEnd) ∧
      ∀ increment, IsInt increment →
        (U.Accepts userBrk increment →
          (U.sbrk userBrk increment).1 = U.breakOf userBrk ∧
            (U.breakOf (U.sbrk userBrk increment).2 : ℤ) = U.breakOf userBrk + increment) ∧
        (¬U.Accepts userBrk increment →
          (U.sbrk userBrk increment).1 = -1 ∧
            U.breakOf (U.sbrk userBrk increment).2 = U.breakOf userBrk) := by
  have hbrk : U.Holds userBrk := by
    refine h.invariant (p := U.Holds) ?_ ?_
    · rintro _ rfl
      exact holds_zero
    · intro brk increment brk' hbrk hint hstep
      obtain rfl := Option.some.inj hstep
      exact hbrk.sbrk (hbrk.noWrap hend hint)
  refine ⟨hbrk, fun increment hint => ?_⟩
  have hwrap := hbrk.noWrap hend hint
  exact ⟨sbrk_of_accepts hwrap, sbrk_of_not_accepts hbrk hwrap⟩

end UserHeap

/-- The user heap the linker script lays out. -/
def Layout.userHeap (L : Layout) : UserHeap where
  heapStart := L.userHeapStart
  heapEnd := L.userHeapEnd
  heapStart_le := L.userHeapEnd_eq ▸ Nat.le_add_right _ _

/-- `sbrk_of_reachable` behind a call that fills the heap of the sample layout, one that would
wrap around, and one that shrinks it. -/
theorem sbrk_sample : ∃ userBrk, Layout.sample.userHeap.Holds userBrk ∧ userBrk = 0x2A0000 := by
  have hrun : Layout.sample.userHeap.sbrkSystem.runInputs 0 [0x20000, -0x80000000, -0x10000] =
      some 0x2A0000 := by decide
  have h : Layout.sample.userHeap.sbrkSystem.ReachableBy
      (fun _ increment => IsInt increment) 0x2A0000 := by
    refine .runInputs (.start rfl) (fun _ _ increment hmem => ?_) hrun
    simp only [List.mem_cons, List.not_mem_nil, or_false] at hmem
    rcases hmem with rfl | rfl | rfl
    all_goals exact ⟨by decide, by decide⟩
  exact ⟨_, (UserHeap.sbrk_of_reachable (by decide) h).1, rfl⟩

/-- The handler of the machine is the one on its break. -/
theorem sbrkHandler_eq (L : Layout) (m : Machine) (increment : ℤ) :
    sbrkHandler L m increment = ((L.userHeap.sbrk m.userBrk increment).1,
      { m with userBrk := (L.userHeap.sbrk m.userBrk increment).2 }) := by
  simp only [sbrkHandler, UserHeap.sbrk, UserHeap.breakOf, Layout.userHeap]
  split_ifs <;> rfl

end ChalesOs
