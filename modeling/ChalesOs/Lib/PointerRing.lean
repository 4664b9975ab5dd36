import Mathlib.Data.List.Nodup
import Mathlib.Logic.Function.Basic
import Mathlib.Tactic.Common

/-!
# Circular lists threaded through a successor function

Nodes are arbitrary, and the only link is a function `next`. `Seg next a l b` says that
following `next` from `a` visits the nodes of `l` in order and then arrives at `b`, and
`IsRing next l` that the nodes of `l`, pairwise different, form one cycle in this order.

The list names a starting point: `IsRing.rotate` moves it. Insertion after a node and removal
of the node after one are the two edits, each a change of `next` at one node of the ring
(`IsRing.insert`, `IsRing.remove`).
-/

namespace PointerRing

variable {α : Type*}

/-- Following `next` from `a` visits exactly the nodes of `l`, in order, and arrives at
`b`. -/
def Seg (next : α → α) : α → List α → α → Prop
  | a, [], b => a = b
  | a, x :: l, b => a = x ∧ Seg next (next x) l b

/-- The nodes of `l` are pairwise different and form one `next`-cycle in this order. -/
def IsRing (next : α → α) : List α → Prop
  | [] => False
  | a :: l => (a :: l).Nodup ∧ Seg next (next a) l a

variable {next next' : α → α} {a b c x y : α} {l l₁ l₂ : List α}

@[simp]
theorem seg_nil : Seg next a [] b ↔ a = b := Iff.rfl

@[simp]
theorem seg_cons : Seg next a (x :: l) b ↔ a = x ∧ Seg next (next x) l b := Iff.rfl

/-- A segment splits at any point. -/
theorem seg_append : Seg next a (l₁ ++ l₂) b ↔ ∃ c, Seg next a l₁ c ∧ Seg next c l₂ b := by
  induction l₁ generalizing a with
  | nil => simp
  | cons x l₁ ih =>
    simp only [List.cons_append, seg_cons, ih]
    constructor
    · rintro ⟨rfl, c, h₁, h₂⟩
      exact ⟨c, ⟨rfl, h₁⟩, h₂⟩
    · rintro ⟨c, ⟨rfl, h₁⟩, h₂⟩
      exact ⟨rfl, c, h₁, h₂⟩

/-- A segment depends on the successors of its own nodes only. -/
theorem Seg.congr (h : Seg next a l b) (heq : ∀ x ∈ l, next' x = next x) :
    Seg next' a l b := by
  induction l generalizing a with
  | nil => exact h
  | cons x l ih =>
    obtain ⟨rfl, h⟩ := h
    refine ⟨rfl, ?_⟩
    rw [heq a (by simp)]
    exact ih h fun y hy => heq y (List.mem_cons_of_mem _ hy)

/-- The starting point of a segment up to `b`: its first node, or `b` itself. -/
theorem Seg.start_eq (h : Seg next a l b) : a = (l ++ [b]).head (by simp) := by
  cases l with
  | nil => exact h
  | cons x l => exact h.1

/-- A segment up to a node that it does not pass is unique. -/
theorem Seg.unique (h₁ : Seg next a l₁ b) (h₂ : Seg next a l₂ b) (hb₁ : b ∉ l₁) (hb₂ : b ∉ l₂) :
    l₁ = l₂ := by
  induction l₁ generalizing a l₂ with
  | nil =>
    cases l₂ with
    | nil => rfl
    | cons y l₂ => exact absurd (by simp [← h₂.1, seg_nil.mp h₁]) hb₂
  | cons x l₁ ih =>
    obtain ⟨rfl, h₁⟩ := h₁
    cases l₂ with
    | nil => exact absurd (by simp [seg_nil.mp h₂]) hb₁
    | cons y l₂ =>
      obtain ⟨rfl, h₂⟩ := h₂
      rw [List.mem_cons, not_or] at hb₁ hb₂
      rw [ih h₁ h₂ hb₁.2 hb₂.2]

theorem IsRing.nodup (h : IsRing next l) : l.Nodup := by
  cases l with
  | nil => exact h.elim
  | cons a l => exact h.1

/-- A ring depends on the successors of its own nodes only. -/
theorem IsRing.congr (h : IsRing next l) (heq : ∀ x ∈ l, next' x = next x) :
    IsRing next' l := by
  cases l with
  | nil => exact h
  | cons a l =>
    refine ⟨h.1, ?_⟩
    rw [heq a (by simp)]
    exact h.2.congr fun x hx => heq x (List.mem_cons_of_mem _ hx)

/-- A ring may be read from any of its nodes. -/
theorem IsRing.rotate (h : IsRing next (l₁ ++ l₂)) (hne : l₂ ≠ []) :
    IsRing next (l₂ ++ l₁) := by
  cases l₁ with
  | nil => simpa using h
  | cons a l₁ =>
    obtain ⟨b, l₂, rfl⟩ : ∃ b l, l₂ = b :: l := List.exists_cons_of_ne_nil hne
    obtain ⟨hnd, hseg⟩ := h
    obtain ⟨c, h₁, rfl, h₂⟩ := seg_append.mp hseg
    refine ⟨?_, seg_append.mpr ⟨a, h₂, rfl, h₁⟩⟩
    have hperm : (a :: l₁ ++ c :: l₂).Perm (c :: l₂ ++ a :: l₁) := List.perm_append_comm
    exact hperm.nodup_iff.mp hnd

/-- A ring read from a given one of its nodes; the rest keeps the same members. -/
theorem IsRing.exists_cons (h : IsRing next l) (ha : a ∈ l) :
    ∃ rest, IsRing next (a :: rest) ∧ (a :: rest).Perm l := by
  obtain ⟨l₁, l₂, rfl⟩ := List.append_of_mem ha
  have hperm : (a :: l₂ ++ l₁).Perm (l₁ ++ a :: l₂) := List.perm_append_comm
  exact ⟨l₂ ++ l₁, h.rotate (by simp), hperm⟩

/-- The ring from a given node is unique. -/
theorem IsRing.unique (h₁ : IsRing next (a :: l₁)) (h₂ : IsRing next (a :: l₂)) : l₁ = l₂ :=
  h₁.2.unique h₂.2 (List.nodup_cons.mp h₁.1).1 (List.nodup_cons.mp h₂.1).1

/-- The successor of a node is the node after it. -/
theorem IsRing.next_eq (h : IsRing next (l₁ ++ x :: y :: l₂)) : next x = y :=
  (h.rotate (by simp)).2.1

/-- The successor of the last node is the first. -/
theorem IsRing.next_last (h : IsRing next (l ++ [x])) (ha : (l ++ [x]).head? = some a) :
    next x = a := by
  have hrot : IsRing next (x :: l) := h.rotate (by simp)
  rw [hrot.2.start_eq]
  exact Option.some.inj ((List.head?_eq_some_head _).symm.trans ha)

/-- Insertion of a new node `x` behind the node `a`. -/
theorem IsRing.insert (h : IsRing next (a :: l)) (hx : x ∉ a :: l) (hxn : next' x = next a)
    (han : next' a = x) (hl : ∀ y ∈ l, next' y = next y) : IsRing next' (a :: x :: l) := by
  obtain ⟨hnd, hseg⟩ := h
  simp only [List.mem_cons, not_or] at hx
  simp only [List.nodup_cons] at hnd
  refine ⟨?_, han, ?_⟩
  · simp only [List.nodup_cons, List.mem_cons, not_or]
    exact ⟨⟨fun h => hx.1 h.symm, hnd.1⟩, hx.2, hnd.2⟩
  · rw [hxn]
    exact hseg.congr hl

/-- Removal of the node behind `x`: its successor becomes the successor of `x`. -/
theorem IsRing.remove [DecidableEq α] (h : IsRing next (l₁ ++ x :: y :: l₂)) :
    IsRing (Function.update next x (next y)) (l₁ ++ x :: l₂) := by
  have hrot : IsRing next (x :: y :: (l₂ ++ l₁)) := h.rotate (by simp)
  obtain ⟨hnd, -, hseg⟩ := hrot
  simp only [List.nodup_cons, List.mem_cons, not_or] at hnd
  obtain ⟨⟨-, hx⟩, -, hnd'⟩ := hnd
  have hring : IsRing (Function.update next x (next y)) (x :: l₂ ++ l₁) := by
    refine ⟨List.nodup_cons.mpr ⟨hx, hnd'⟩, ?_⟩
    rw [Function.update_self]
    refine hseg.congr fun z hz => Function.update_of_ne ?_ _ _
    rintro rfl
    exact hx hz
  cases l₁ with
  | nil => simpa using hring
  | cons a l₁ => exact hring.rotate (by simp)

end PointerRing
