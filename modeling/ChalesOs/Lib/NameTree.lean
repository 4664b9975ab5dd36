import Mathlib.Data.List.Induction
import Mathlib.Logic.Function.Basic
import Mathlib.Tactic.Common

/-!
# Trees of named entries in a table

A directory tree kept as a table of slots. An entry has a number, 0 for an unused slot, and the
number of the directory it is in; the number 0 also stands for the root, which is not an entry.
`Walk t n as m` says that going down from the directory `n` through directories with the names
`as` leads to the directory `m`.

Two things can make such a table ambiguous, entries with the same number and entries of one
directory with the same name; and one can cut a part off, an entry whose directory is gone. The
three invariants `UniqueNums`, `UniqueNames` and `Rooted` exclude them. Filling an unused slot and
clearing a slot are the two updates, with one rule for each invariant; clearing keeps `Rooted` when
the entry is the parent of no other.

With unique names a walk is determined by its names (`Walk.unique`).
-/

namespace NameTree

/-- An entry: its number, whether it is a directory, its name, and the number of its directory. -/
structure Entry (ν : Type*) where
  num : ℕ
  isDir : Bool
  name : ν
  parent : ℕ

variable {ι ν : Type*} {t t' : ι → Entry ν} {i j : ι} {e : Entry ν} {n m m' : ℕ} {a : ν}
  {as bs : List ν}

/-- The slot is in use. -/
def Live (t : ι → Entry ν) (i : ι) : Prop := (t i).num ≠ 0

/-- Going down from the directory `n` through directories named `as` leads to the directory
`m`. -/
def Walk (t : ι → Entry ν) : (n : ℕ) → (as : List ν) → (m : ℕ) → Prop
  | n, [], m => n = m
  | n, a :: as, m => ∃ i, Live t i ∧ (t i).isDir = true ∧ (t i).parent = n ∧ (t i).name = a ∧
      Walk t (t i).num as m

/-- Different entries have different numbers. -/
def UniqueNums (t : ι → Entry ν) : Prop := ∀ i j, Live t i → (t i).num = (t j).num → i = j

/-- Different entries of one directory have different names. -/
def UniqueNames (t : ι → Entry ν) : Prop :=
  ∀ i j, Live t i → Live t j → (t i).parent = (t j).parent → (t i).name = (t j).name → i = j

/-- Every entry hangs below the root. -/
def Rooted (t : ι → Entry ν) : Prop := ∀ i, Live t i → ∃ as, Walk t 0 as (t i).parent

/-! ### Walks -/

@[simp]
theorem walk_nil : Walk t n [] m ↔ n = m := Iff.rfl

theorem walk_cons : Walk t n (a :: as) m ↔ ∃ i, Live t i ∧ (t i).isDir = true ∧
    (t i).parent = n ∧ (t i).name = a ∧ Walk t (t i).num as m := Iff.rfl

/-- The last directory of a walk. -/
theorem walk_concat : Walk t n (as ++ [a]) m ↔ ∃ i, Live t i ∧ (t i).isDir = true ∧
    (t i).name = a ∧ (t i).num = m ∧ Walk t n as (t i).parent := by
  induction as generalizing n with
  | nil =>
    simp only [List.nil_append, walk_cons, walk_nil]
    constructor
    · rintro ⟨i, hi, hdir, hparent, hname, hnum⟩
      exact ⟨i, hi, hdir, hname, hnum, hparent.symm⟩
    · rintro ⟨i, hi, hdir, hname, hnum, hparent⟩
      exact ⟨i, hi, hdir, hparent.symm, hname, hnum⟩
  | cons b as ih =>
    simp only [List.cons_append, walk_cons, ih]
    constructor
    · rintro ⟨i, hi, hidir, hparent, hiname, j, hj, hjdir, hjname, hnum, hw⟩
      exact ⟨j, hj, hjdir, hjname, hnum, i, hi, hidir, hparent, hiname, hw⟩
    · rintro ⟨j, hj, hjdir, hjname, hnum, i, hi, hidir, hparent, hiname, hw⟩
      exact ⟨i, hi, hidir, hparent, hiname, j, hj, hjdir, hjname, hnum, hw⟩

/-- A walk ends where it starts or in a directory of the table. -/
theorem Walk.end_cases (h : Walk t n as m) :
    n = m ∨ ∃ i, Live t i ∧ (t i).isDir = true ∧ (t i).num = m := by
  rcases List.eq_nil_or_concat as with rfl | ⟨bs, a, rfl⟩
  · exact Or.inl h
  · rw [List.concat_eq_append, walk_concat] at h
    obtain ⟨i, hi, hdir, -, hnum, -⟩ := h
    exact Or.inr ⟨i, hi, hdir, hnum⟩

/-- The names along a walk are names of entries. -/
theorem Walk.exists_of_mem (h : Walk t n as m) (ha : a ∈ as) : ∃ i, Live t i ∧ (t i).name = a := by
  induction as generalizing n with
  | nil => exact absurd ha List.not_mem_nil
  | cons b as ih =>
    obtain ⟨i, hi, -, -, hname, hw⟩ := h
    rcases List.mem_cons.mp ha with rfl | ha
    · exact ⟨i, hi, hname⟩
    · exact ih hw ha

/-- A walk needs its directories only. -/
theorem Walk.mono (h : Walk t n as m)
    (ht : ∀ i, Live t i → (t i).isDir = true → t' i = t i) : Walk t' n as m := by
  induction as generalizing n with
  | nil => exact h
  | cons a as ih =>
    obtain ⟨i, hi, hdir, hparent, hname, hw⟩ := h
    have heq := ht i hi hdir
    refine ⟨i, by rwa [Live, heq], by rwa [heq], by rwa [heq], by rwa [heq], ?_⟩
    rw [heq]
    exact ih hw

/-- **Names determine walks.** -/
theorem Walk.unique (hu : UniqueNames t) (h : Walk t n as m) (h' : Walk t n as m') : m = m' := by
  induction as generalizing n with
  | nil => exact h.symm.trans h'
  | cons a as ih =>
    obtain ⟨i, hi, -, hparent, hname, hw⟩ := h
    obtain ⟨j, hj, -, hparent', hname', hw'⟩ := h'
    obtain rfl := hu i j hi hj (hparent.trans hparent'.symm) (hname.trans hname'.symm)
    exact ih hw hw'

/-! ### Filling an unused slot -/

section Create

variable [DecidableEq ι]

theorem Walk.create (h : Walk t n as m) (hi : ¬Live t i) :
    Walk (Function.update t i e) n as m :=
  h.mono fun j hj _ => Function.update_of_ne (by rintro rfl; exact hi hj) ..

/-- A number that is not in use keeps numbers unique. -/
theorem UniqueNums.create (h : UniqueNums t) (hnew : ∀ j, (t j).num = e.num → ¬Live t j) :
    UniqueNums (Function.update t i e) := by
  intro j k hj hjk
  rw [Live] at hj
  by_cases hji : j = i
  · by_cases hki : k = i
    · exact hji.trans hki.symm
    · subst hji
      rw [Function.update_self] at hj hjk
      rw [Function.update_of_ne hki] at hjk
      exact absurd (by rwa [Live, ← hjk]) (hnew k hjk.symm)
  · rw [Function.update_of_ne hji] at hj hjk
    by_cases hki : k = i
    · subst hki
      rw [Function.update_self] at hjk
      exact absurd hj (hnew j hjk)
    · rw [Function.update_of_ne hki] at hjk
      exact h j k hj hjk

/-- A name that is new in its directory keeps names unique. -/
theorem UniqueNames.create (h : UniqueNames t)
    (hnew : ∀ j, Live t j → (t j).parent = e.parent → (t j).name ≠ e.name) :
    UniqueNames (Function.update t i e) := by
  intro j k hj hk hparent hname
  rw [Live] at hj hk
  by_cases hji : j = i
  · by_cases hki : k = i
    · exact hji.trans hki.symm
    · subst hji
      rw [Function.update_self] at hparent hname
      rw [Function.update_of_ne hki] at hk hparent hname
      exact absurd hname.symm (hnew k hk hparent.symm)
  · rw [Function.update_of_ne hji] at hj hparent hname
    by_cases hki : k = i
    · subst hki
      rw [Function.update_self] at hparent hname
      exact absurd hname (hnew j hj hparent)
    · rw [Function.update_of_ne hki] at hk hparent hname
      exact h j k hj hk hparent hname

/-- An entry in a directory below the root hangs below the root. -/
theorem Rooted.create (h : Rooted t) (hi : ¬Live t i) (hw : Walk t 0 as e.parent) :
    Rooted (Function.update t i e) := by
  intro j hj
  by_cases hji : j = i
  · subst hji
    rw [Function.update_self]
    exact ⟨as, hw.create hi⟩
  · rw [Live, Function.update_of_ne hji] at hj
    rw [Function.update_of_ne hji]
    obtain ⟨bs, hw⟩ := h j hj
    exact ⟨bs, hw.create hi⟩

/-! ### Clearing a slot -/

theorem Live.of_clear (he : e.num = 0) (hj : Live (Function.update t i e) j) :
    j ≠ i ∧ Live t j := by
  have hji : j ≠ i := by
    rintro rfl
    exact hj ((Function.update_self (f := t) j e).symm ▸ he)
  rw [Live, Function.update_of_ne hji] at hj
  exact ⟨hji, hj⟩

theorem UniqueNums.clear (h : UniqueNums t) (he : e.num = 0) :
    UniqueNums (Function.update t i e) := by
  intro j k hj hjk
  have hk : Live (Function.update t i e) k := by rwa [Live, ← hjk]
  obtain ⟨hji, hj⟩ := hj.of_clear he
  obtain ⟨hki, -⟩ := hk.of_clear he
  rw [Function.update_of_ne hji, Function.update_of_ne hki] at hjk
  exact h j k hj hjk

theorem UniqueNames.clear (h : UniqueNames t) (he : e.num = 0) :
    UniqueNames (Function.update t i e) := by
  intro j k hj hk hparent hname
  obtain ⟨hji, hj⟩ := hj.of_clear he
  obtain ⟨hki, hk⟩ := hk.of_clear he
  rw [Function.update_of_ne hji, Function.update_of_ne hki] at hparent hname
  exact h j k hj hk hparent hname

/-- A walk from the root to another directory does not pass an entry that is nobody's parent. -/
theorem Walk.clear (h : Walk t 0 as m) (hchild : ∀ j, j ≠ i → Live t j → (t j).parent ≠ (t i).num)
    (hm : m ≠ (t i).num) : Walk (Function.update t i e) 0 as m := by
  induction as using List.reverseRecOn generalizing m with
  | nil => exact h
  | append_singleton as a ih =>
    obtain ⟨j, hj, hdir, hname, rfl, hw⟩ := walk_concat.mp h
    have hji : j ≠ i := by
      rintro rfl
      exact hm rfl
    have heq : Function.update t i e j = t j := Function.update_of_ne hji ..
    refine walk_concat.mpr ⟨j, by rwa [Live, heq], by rwa [heq], by rwa [heq], by rw [heq], ?_⟩
    rw [heq]
    exact ih hw (hchild j hji hj)

/-- Clearing an entry that is nobody's parent leaves the others below the root. -/
theorem Rooted.clear (h : Rooted t) (he : e.num = 0)
    (hchild : ∀ j, j ≠ i → Live t j → (t j).parent ≠ (t i).num) :
    Rooted (Function.update t i e) := by
  intro j hj
  obtain ⟨hji, hj⟩ := hj.of_clear he
  obtain ⟨as, hw⟩ := h j hj
  rw [Function.update_of_ne hji]
  exact ⟨as, hw.clear hchild (hchild j hji hj)⟩

/-- Clearing what is not a directory leaves the others below the root. -/
theorem Rooted.clear_of_not_dir (h : Rooted t) (he : e.num = 0)
    (hi : Live t i → (t i).isDir = false) : Rooted (Function.update t i e) := by
  intro j hj
  obtain ⟨hji, hj⟩ := hj.of_clear he
  obtain ⟨as, hw⟩ := h j hj
  rw [Function.update_of_ne hji]
  refine ⟨as, hw.mono fun k hk hdir => Function.update_of_ne ?_ ..⟩
  rintro rfl
  rw [hi hk] at hdir
  exact Bool.false_ne_true hdir

end Create

end NameTree
