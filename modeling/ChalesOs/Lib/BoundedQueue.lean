import Mathlib.Data.List.ReduceOption

/-!
# Bounded queues

A queue of limited capacity as a list, oldest element first. `step` is what a call does to it: a
push that finds the queue full is dropped, a pop of an empty queue finds nothing. `results` are the
results of the pops of a list of calls, `accepted` are the elements of the pushes that found room.

`append_accepted` is the balance of a run: what was in the queue and what was accepted is what
came out and what is left, in the same order. So nothing is lost, doubled or reordered.
-/

namespace BoundedQueue

variable {α : Type*}

/-- The operations of a queue. -/
inductive Call (α : Type*)
  | push (a : α)
  | pop
  deriving DecidableEq

/-- The queue behind a call. -/
def step (capacity : ℕ) (l : List α) : Call α → List α
  | .push a => if l.length < capacity then l ++ [a] else l
  | .pop => l.tail

/-- The result of a call, if it is a pop. -/
def resultOf (l : List α) : Call α → List (Option α)
  | .push _ => []
  | .pop => [l.head?]

/-- The element of a call, if it is a push that finds room. -/
def acceptedOf (capacity : ℕ) (l : List α) : Call α → List α
  | .push a => if l.length < capacity then [a] else []
  | .pop => []

/-- The queue behind some calls. -/
def run (capacity : ℕ) (l : List α) (calls : List (Call α)) : List α :=
  calls.foldl (step capacity) l

/-- The results of the pops among some calls. -/
def results (capacity : ℕ) : List α → List (Call α) → List (Option α)
  | _, [] => []
  | l, call :: calls => resultOf l call ++ results capacity (step capacity l call) calls

/-- The elements that some calls put into the queue. -/
def accepted (capacity : ℕ) : List α → List (Call α) → List α
  | _, [] => []
  | l, call :: calls => acceptedOf capacity l call ++ accepted capacity (step capacity l call) calls

variable {capacity : ℕ} {l : List α} {a : α} {call : Call α} {calls : List (Call α)}

@[simp]
theorem run_nil : run capacity l [] = l := rfl

@[simp]
theorem run_cons : run capacity l (call :: calls) = run capacity (step capacity l call) calls := rfl

/-- A push keeps as much as there is room for. -/
theorem step_push (h : l.length ≤ capacity) :
    step capacity l (.push a) = (l ++ [a]).take capacity := by
  rw [step]
  split_ifs with hroom
  · rw [List.take_of_length_le (by rw [List.length_append, List.length_singleton]; omega)]
  · rw [List.take_append_of_le_length (by omega), List.take_of_length_le h]

/-- What one call puts in and takes out. -/
theorem append_acceptedOf :
    l ++ acceptedOf capacity l call = (resultOf l call).reduceOption ++ step capacity l call := by
  cases call with
  | push a =>
    rw [acceptedOf, resultOf, step]
    split_ifs <;> simp
  | pop => cases l <;> simp [acceptedOf, resultOf, step, List.reduceOption]

/-- **Conservation.** What was in the queue or has been accepted came out, or is still there, in
the same order. -/
theorem append_accepted :
    l ++ accepted capacity l calls =
      (results capacity l calls).reduceOption ++ run capacity l calls := by
  induction calls generalizing l with
  | nil => simp [accepted, results]
  | cons call calls ih =>
    rw [accepted, results, run_cons, List.reduceOption_append, List.append_assoc, ← ih,
      ← List.append_assoc, append_acceptedOf, List.append_assoc]

end BoundedQueue
