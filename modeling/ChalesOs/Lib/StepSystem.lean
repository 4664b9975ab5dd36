import Mathlib.Logic.Relation
import Mathlib.Tactic.Common

/-!
# Guarded step systems

A `StepSystem` has start states and a partial step function on inputs; `step s i = none`
means that the input `i` is not possible, or has no defined outcome, in the state `s`.

Properties of runs are stated relative to a *guard* `ok`, the condition every step of the run
meets: `ReachableBy S ok s` says that some run whose steps all meet `ok` ends in `s`. The
unconditional notion is `Reachable S`, the guard that always holds. `invariant` is the
induction principle: what holds at the start and is kept by every guarded step holds in every
reachable state.
-/

/-- Start states and a partial step function. -/
structure StepSystem (σ ι : Type*) where
  /-- The states a run may start in. -/
  start : σ → Prop
  /-- One step on an input; `none` when the input has no defined outcome. -/
  step : σ → ι → Option σ

/-! ### Related results -/

namespace Option.Rel

variable {α β γ δ ι : Type*} {r : α → β → Prop} {r' : γ → δ → Prop} {o : Option α} {o' : Option β}
  {a : α} {b : β}

theorem map {f : α → γ} {g : β → δ} (h : Rel r o o') (hfg : ∀ a b, r a b → r' (f a) (g b)) :
    Rel r' (o.map f) (o'.map g) := by
  cases h with
  | some h => exact .some (hfg _ _ h)
  | none => exact .none

theorem bind {f : α → Option γ} {g : β → Option δ} (h : Rel r o o')
    (hfg : ∀ a b, r a b → Rel r' (f a) (g b)) : Rel r' (o.bind f) (o'.bind g) := by
  cases h with
  | some h => exact hfg _ _ h
  | none => exact .none

theorem foldlM {f : α → ι → Option α} {g : β → ι → Option β} {l : List ι} (h : r a b)
    (hfg : ∀ i ∈ l, ∀ a b, r a b → Rel r (f a i) (g b i)) :
    Rel r (l.foldlM f a) (l.foldlM g b) := by
  induction l generalizing a b with
  | nil => exact .some h
  | cons i l ih =>
    rw [List.foldlM_cons, List.foldlM_cons]
    exact (hfg i List.mem_cons_self a b h).bind fun a b h =>
      ih h fun j hj => hfg j (List.mem_cons_of_mem i hj)

theorem and_right {q : β → Prop} (h : Rel r o o') (hq : ∀ b, o' = Option.some b → q b) :
    Rel (fun a b => r a b ∧ q b) o o' := by
  cases h with
  | some h => exact .some ⟨h, hq _ rfl⟩
  | none => exact .none

theorem imp {r'' : α → β → Prop} (h : Rel r o o') (hr : ∀ a b, r a b → r'' a b) :
    Rel r'' o o' := by
  cases h with
  | some h => exact .some (hr _ _ h)
  | none => exact .none

theorem exists_right (h : Rel r o o') (ho : o = Option.some a) :
    ∃ b, o' = Option.some b ∧ r a b := by
  subst ho
  cases h with
  | some h => exact ⟨_, rfl, h⟩

theorem exists_left (h : Rel r o o') (ho' : o' = Option.some b) :
    ∃ a, o = Option.some a ∧ r a b := by
  subst ho'
  cases h with
  | some h => exact ⟨_, rfl, h⟩

end Option.Rel

namespace StepSystem

variable {σ ι : Type*} (S : StepSystem σ ι)

/-- The states at the end of runs whose steps all meet the guard `ok`. -/
inductive ReachableBy (ok : σ → ι → Prop) : σ → Prop
  | start {s : σ} : S.start s → ReachableBy ok s
  | step {s s' : σ} {i : ι} : ReachableBy ok s → ok s i → S.step s i = some s' →
      ReachableBy ok s'

/-- The states at the end of arbitrary runs. -/
abbrev Reachable : σ → Prop := S.ReachableBy fun _ _ => True

/-- One guarded step, with its input forgotten. -/
def StepBy (ok : σ → ι → Prop) (s s' : σ) : Prop :=
  ∃ i, ok s i ∧ S.step s i = some s'

/-- Guarded runs from `s` to `s'` that pass only through states where `p` holds. -/
def RunWithin (ok : σ → ι → Prop) (p : σ → Prop) (s s' : σ) : Prop :=
  p s ∧ Relation.ReflTransGen (fun a b => S.StepBy ok a b ∧ p b) s s'

variable {S} {ok ok' : σ → ι → Prop} {p : σ → Prop} {s s' : σ}

/-- **Invariance.** What holds in every start state and is kept by every guarded step holds
in every state reached. -/
theorem ReachableBy.invariant (h : S.ReachableBy ok s) (hstart : ∀ s, S.start s → p s)
    (hstep : ∀ s i s', p s → ok s i → S.step s i = some s' → p s') : p s := by
  induction h with
  | start h => exact hstart _ h
  | step _ hok hs ih => exact hstep _ _ _ ih hok hs

/-- A weaker guard reaches at least as much. -/
theorem ReachableBy.mono (h : S.ReachableBy ok s) (hok : ∀ s i, ok s i → ok' s i) :
    S.ReachableBy ok' s := by
  induction h with
  | start h => exact .start h
  | step _ h hs ih => exact .step ih (hok _ _ h) hs

/-- A run within `p` ends in a state where `p` holds. -/
theorem RunWithin.last (hr : S.RunWithin ok p s s') : p s' := by
  obtain ⟨hp, hr⟩ := hr
  cases hr with
  | refl => exact hp
  | tail _ hstep => exact hstep.2

/-- **Invariance along a run.** What holds in the first state of a run within `p` and is
kept by every guarded step between states of `p` holds in its last state. -/
theorem RunWithin.invariant {q : σ → Prop} (hr : S.RunWithin ok p s s') (hq : q s)
    (hstep : ∀ a i b, q a → p a → p b → ok a i → S.step a i = some b → q b) : q s' := by
  obtain ⟨hp, hr⟩ := hr
  suffices q s' ∧ p s' from this.1
  induction hr with
  | refl => exact ⟨hq, hp⟩
  | tail _ h ih =>
    obtain ⟨⟨i, hok, hs⟩, hpb⟩ := h
    exact ⟨hstep _ i _ ih.1 ih.2 hpb hok hs, hpb⟩

/-- The outcome of a list of inputs, `none` as soon as one of them has no outcome. -/
def runInputs (S : StepSystem σ ι) : σ → List ι → Option σ
  | s, [] => some s
  | s, i :: is => (S.step s i).bind fun s' => runInputs S s' is

/-- Two lists of inputs, one after the other. -/
theorem runInputs_append {s : σ} (is js : List ι) :
    S.runInputs s (is ++ js) = (S.runInputs s is).bind fun s' => S.runInputs s' js := by
  induction is generalizing s with
  | nil => rfl
  | cons i is ih =>
    rw [List.cons_append, runInputs, runInputs, Option.bind_assoc]
    exact congrArg (S.step s i).bind (funext fun s' => ih)

/-- A list of inputs leads from a reachable state to a reachable state, if they meet the guard
in all reachable states. -/
theorem ReachableBy.runInputs {is : List ι} (h : S.ReachableBy ok s)
    (hok : ∀ s, S.ReachableBy ok s → ∀ i ∈ is, ok s i) (hrun : S.runInputs s is = some s') :
    S.ReachableBy ok s' := by
  induction is generalizing s with
  | nil =>
    obtain rfl := Option.some.inj hrun
    exact h
  | cons i is ih =>
    obtain ⟨s₁, hs, hrun⟩ := Option.bind_eq_some_iff.mp hrun
    exact ih (.step h (hok s h i (by simp)) hs)
      (fun s hs j hj => hok s hs j (List.mem_cons_of_mem _ hj)) hrun

/-! ### Lists of inputs, step by step -/

/-- Every input of a list meets the guard in the state it finds. -/
def Meets (S : StepSystem σ ι) (ok : σ → ι → Prop) : σ → List ι → Prop
  | _, [] => True
  | s, i :: is => ok s i ∧ ∀ s', S.step s i = some s' → Meets S ok s' is

instance Meets.decidable (S : StepSystem σ ι) (ok : σ → ι → Prop) [∀ s i, Decidable (ok s i)] :
    ∀ s is, Decidable (S.Meets ok s is)
  | _, [] => inferInstanceAs (Decidable True)
  | s, i :: is =>
    match h : S.step s i with
    | none => decidable_of_iff (ok s i) ⟨fun hi => ⟨hi, by simp [h]⟩, And.left⟩
    | some s₁ =>
      have := Meets.decidable S ok s₁ is
      decidable_of_iff (ok s i ∧ S.Meets ok s₁ is) (by simp [Meets, h])

/-- **Forward simulation.** When every start state is related to a start state of another system,
and the other system can follow every guarded step from a related state it has reached, every
state reached is related to one the other system reaches. -/
theorem ReachableBy.follows {τ κ : Type*} {T : StepSystem τ κ} {okT : τ → κ → Prop}
    (h : S.ReachableBy ok s) (R : σ → τ → Prop)
    (hstart : ∀ s, S.start s → ∃ t, T.start t ∧ R s t)
    (hstep : ∀ s i s' t, T.ReachableBy okT t → R s t → ok s i → S.step s i = some s' →
      ∃ j t', okT t j ∧ T.step t j = some t' ∧ R s' t') :
    ∃ t, T.ReachableBy okT t ∧ R s t := by
  induction h with
  | start hs =>
    obtain ⟨t, ht, hR⟩ := hstart _ hs
    exact ⟨t, .start ht, hR⟩
  | step _ hok hs ih =>
    obtain ⟨t, ht, hR⟩ := ih
    obtain ⟨j, t', hj, hstep, hR'⟩ := hstep _ _ _ t ht hR hok hs
    exact ⟨t', ht.step hj hstep, hR'⟩

/-- What is recorded of the inputs of a list, one after the other. -/
def records {γ : Type*} (S : StepSystem σ ι) (record : σ → ι → List γ) : σ → List ι → List γ
  | _, [] => []
  | s, i :: is => record s i ++ (S.step s i).elim [] fun s' => records S record s' is

/-- **Simulation.** When every guarded step does to an abstract state what is recorded of it, then
so does a list of inputs. -/
theorem simulates {γ τ : Type*} (record : σ → ι → List γ) (R : σ → τ → Prop)
    (does : τ → List γ → τ → Prop) (hnil : ∀ a, does a [] a)
    (happend : ∀ a b c es es', does a es b → does b es' c → does a (es ++ es') c)
    (hstep : ∀ s i s' a, R s a → ok s i → S.step s i = some s' →
      ∃ b, does a (record s i) b ∧ R s' b) {is : List ι} {a : τ} (hR : R s a)
    (hok : S.Meets ok s is) (hrun : S.runInputs s is = some s') :
    ∃ b, does a (S.records record s is) b ∧ R s' b := by
  induction is generalizing s a with
  | nil =>
    obtain rfl := Option.some.inj hrun
    exact ⟨a, hnil a, hR⟩
  | cons i is ih =>
    obtain ⟨s₁, hs, hrun⟩ := Option.bind_eq_some_iff.mp hrun
    obtain ⟨b, hdoes, hb⟩ := hstep s i s₁ a hR hok.1 hs
    obtain ⟨c, hrest, hc⟩ := ih hb (hok.2 s₁ hs) hrun
    refine ⟨c, ?_, hc⟩
    rw [records, hs]
    exact happend _ _ _ _ _ hdoes hrest

theorem Meets.mono {is : List ι} (h : S.Meets ok s is) (hok : ∀ s i, ok s i → ok' s i) :
    S.Meets ok' s is := by
  induction is generalizing s with
  | nil => trivial
  | cons i is ih => exact ⟨hok s i h.1, fun s' hs => ih (h.2 s' hs)⟩

theorem Meets.and {is : List ι} (h : S.Meets ok s is) (h' : S.Meets ok' s is) :
    S.Meets (fun s i => ok s i ∧ ok' s i) s is := by
  induction is generalizing s with
  | nil => trivial
  | cons i is ih => exact ⟨⟨h.1, h'.1⟩, fun s' hs => ih (h.2 s' hs) (h'.2 s' hs)⟩

/-- What every input of a list meets in all reachable states, it meets in the state it finds. -/
theorem Meets.of_reachable {is : List ι} (h : S.Reachable s)
    (hok : ∀ s, S.Reachable s → ∀ i ∈ is, ok s i) : S.Meets ok s is := by
  induction is generalizing s with
  | nil => trivial
  | cons i is ih =>
    refine ⟨hok s h i (by simp), fun s' hs => ?_⟩
    exact ih (h.step trivial hs) fun s hs j hj => hok s hs j (List.mem_cons_of_mem _ hj)

/-- Inputs that meet a guard under which every step has an outcome have one all together. -/
theorem exists_runInputs {is : List ι} (h : S.ReachableBy ok s) (hok : S.Meets ok s is)
    (hsome : ∀ s i, S.ReachableBy ok s → ok s i → (S.step s i).isSome) :
    ∃ s', S.runInputs s is = some s' := by
  induction is generalizing s with
  | nil => exact ⟨s, rfl⟩
  | cons i is ih =>
    obtain ⟨s₁, hs⟩ := Option.isSome_iff_exists.mp (hsome s i h hok.1)
    obtain ⟨s', hrun⟩ := ih (h.step hok.1 hs) (hok.2 s₁ hs)
    exact ⟨s', by rw [runInputs, hs]; exact hrun⟩

/-- A list of inputs that meet the guard leads from a reachable state to a reachable state. -/
theorem ReachableBy.runInputs_of_meets {is : List ι} (h : S.ReachableBy ok s)
    (hok : S.Meets ok s is) (hrun : S.runInputs s is = some s') : S.ReachableBy ok s' := by
  induction is generalizing s with
  | nil =>
    obtain rfl := Option.some.inj hrun
    exact h
  | cons i is ih =>
    obtain ⟨s₁, hs, hrun⟩ := Option.bind_eq_some_iff.mp hrun
    exact ih (.step h hok.1 hs) (hok.2 s₁ hs) hrun

/-! ### Recording -/

variable {γ : Type*}

/-- The system with a record of the run beside the state. -/
def recording (S : StepSystem σ ι) (init : γ) (record : γ → σ → ι → σ → γ) :
    StepSystem (σ × γ) ι where
  start s := S.start s.1 ∧ s.2 = init
  step s i := (S.step s.1 i).map fun s' => (s', record s.2 s.1 i s')

/-- A step with the record is a step of the system, recorded. -/
theorem recording_step {init : γ} {record : γ → σ → ι → σ → γ} {s s' : σ × γ} {i : ι} :
    (S.recording init record).step s i = some s' ↔
      S.step s.1 i = some s'.1 ∧ s'.2 = record s.2 s.1 i s'.1 := by
  obtain ⟨t', g'⟩ := s'
  simp only [recording, Option.map_eq_some_iff, Prod.mk.injEq]
  constructor
  · rintro ⟨t, hstep, rfl, rfl⟩
    exact ⟨hstep, rfl⟩
  · rintro ⟨hstep, rfl⟩
    exact ⟨t', hstep, rfl, rfl⟩

/-- A step of the system behind a recorded run prolongs the record. -/
theorem ReachableBy.record {init g : γ} {record : γ → σ → ι → σ → γ} {i : ι}
    {ok : σ × γ → ι → Prop} (h : (S.recording init record).ReachableBy ok (s, g))
    (hok : ok (s, g) i) (hstep : S.step s i = some s') :
    (S.recording init record).ReachableBy ok (s', record g s i s') :=
  h.step hok (recording_step.mpr ⟨hstep, rfl⟩)

/-- Without its record, a recorded run is a run. -/
theorem ReachableBy.of_recording {init : γ} {record : γ → σ → ι → σ → γ} {s : σ × γ}
    {ok : σ × γ → ι → Prop} (h : (S.recording init record).ReachableBy ok s) :
    S.Reachable s.1 := by
  refine h.invariant (p := fun s => S.Reachable s.1) (fun s hs => .start hs.1) ?_
  intro s i s' hs _ hstep
  exact hs.step trivial (recording_step.mp hstep).1

end StepSystem
