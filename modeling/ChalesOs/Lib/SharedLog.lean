import Mathlib.Data.List.Basic

/-!
# A log and its reader

A log that any number of writers append to, and one reader with a position in it. An append puts
its elements at the end of the log and leaves the reader where it is; a read delivers what is
behind the position, as much as was asked for and is there.

`Run.log_eq` and `Run.delivered_eq` are the two laws of any interleaving. The log is what it was,
followed by everything appended, in order. The reads together have delivered one piece of the log,
the one between the first and the last position of the reader.
-/

namespace SharedLog

variable {α : Type*}

/-- What can happen to a log and its reader. -/
inductive Event (α : Type*)
  | append (chunk : List α)
  | deliver (count : ℕ) (chunk : List α)

/-- A log, and the position of the reader. -/
structure State (α : Type*) where
  log : List α
  pos : ℕ

/-- One event. -/
inductive Step : State α → Event α → State α → Prop
  | append (log : List α) (pos : ℕ) (chunk : List α) :
      Step ⟨log, pos⟩ (.append chunk) ⟨log ++ chunk, pos⟩
  | deliver (log : List α) (pos count : ℕ) :
      Step ⟨log, pos⟩ (.deliver count ((log.drop pos).take count))
        ⟨log, pos + ((log.drop pos).take count).length⟩

/-- Any number of events. -/
inductive Run : State α → List (Event α) → State α → Prop
  | nil (s : State α) : Run s [] s
  | cons {s s₁ s' : State α} {e : Event α} {es : List (Event α)} :
      Step s e s₁ → Run s₁ es s' → Run s (e :: es) s'

/-- Everything appended. -/
def appended : List (Event α) → List α
  | [] => []
  | .append chunk :: es => chunk ++ appended es
  | .deliver _ _ :: es => appended es

/-- Everything delivered. -/
def delivered : List (Event α) → List α
  | [] => []
  | .append _ :: es => delivered es
  | .deliver _ chunk :: es => chunk ++ delivered es

variable {s s₁ s' : State α} {e : Event α} {es es' : List (Event α)}

theorem Run.single (h : Step s e s') : Run s [e] s' := .cons h (.nil s')

theorem Run.append (h : Run s es s₁) (h' : Run s₁ es' s') : Run s (es ++ es') s' := by
  induction h with
  | nil => exact h'
  | cons hstep _ ih => exact .cons hstep (ih h')

/-- **Nothing appended is lost or doubled.** -/
theorem Run.log_eq (h : Run s es s') : s'.log = s.log ++ appended es := by
  induction h with
  | nil => rw [appended, List.append_nil]
  | cons hstep _ ih =>
    cases hstep with
    | append => rw [ih, appended, List.append_assoc]
    | deliver => rw [ih, appended]

/-- A log only grows. -/
theorem Run.log_grows (h : Run s es s') : s.log <+: s'.log := by
  rw [h.log_eq]
  exact List.prefix_append ..

/-- **A reader skips nothing and sees nothing twice.** -/
theorem Run.delivered_eq (h : Run s es s') :
    delivered es = (s'.log.drop s.pos).take (delivered es).length ∧
      s'.pos = s.pos + (delivered es).length := by
  induction h with
  | nil => simp [delivered]
  | @cons _ _ s' _ es hstep hrest ih =>
    cases hstep with
    | append => exact ih
    | deliver log pos count =>
      -- the chunk is still there when the run is over, and the rest follows it
      have hdrop : log.drop pos <+: s'.log.drop pos := by
        obtain ⟨t, ht⟩ := hrest.log_grows
        rw [← ht, List.drop_append]
        exact List.prefix_append ..
      obtain ⟨rest, hrest⟩ := (List.take_prefix count _).trans hdrop
      generalize (log.drop pos).take count = chunk at *
      obtain ⟨heq, hpos⟩ := ih
      constructor
      · have hdrop : s'.log.drop (pos + chunk.length) = rest := by
          rw [← List.drop_drop, ← hrest, List.drop_left]
        rw [hdrop] at heq
        rw [delivered, ← hrest, List.length_append, List.take_length_add_append, ← heq]
      · rw [hpos, delivered, List.length_append]
        exact Nat.add_assoc ..

end SharedLog
