import Mathlib.Data.List.Induction
import ChalesOs.Process.Ring

/-!
# Walks around the ring

What `schedule`, `sched_find_task` and `task_exit_noswitch` do on a ring of tasks. Every loop has
a rule for skipping a segment of tasks that it has nothing to do with (`_skip`); the rest of a
loop is then one or two single steps.

`Family` is what an exit relies on: the live tasks of the ring are exactly the tasks of a chain
of parents, from the youngest down to the initial one. A live task then has at most one live
child, the one before it in the chain, so the recursion of `task_exit_noswitch` follows the
chain: `taskExitNoswitch_spec` turns it into a fold of `finishExit` over the descendants, the
youngest first.
-/

namespace ChalesOs

open PointerRing

/-- The links of the process tree. -/
abbrev Machine.parentOf (m : Machine) : ℕ → ℕ := fun t => (m.tasks t).parent

variable {m m' : Machine} {t c r a b fuel : ℕ} {status : ℤ} {l l₁ l₂ ring chain pre post : List ℕ}

/-! ### `schedule` -/

theorem scheduleLoop_skip (h : Seg m.nextOf a l b)
    (hl : ∀ x ∈ l, x ≠ m.currentTask ∧ (m.tasks x).state ≠ .ready) :
    scheduleLoop m (fuel + l.length) a = scheduleLoop m fuel b := by
  induction l generalizing a with
  | nil => rw [h, List.length_nil, Nat.add_zero]
  | cons x l ih =>
    obtain ⟨rfl, h⟩ := h
    obtain ⟨hx, hl⟩ := List.forall_mem_cons.mp hl
    rw [List.length_cons, ← Nat.add_assoc, scheduleLoop, if_neg hx.1, if_neg hx.2]
    exact ih h hl

/-- `schedule` switches to the only other task that is ready. -/
theorem schedule_of_ready (h : IsRing m.nextOf ring) (hcur : m.currentTask ∈ ring)
    (hnull : m.currentTask ≠ 0) (hfuel : ring.length < ringFuel) (hr : r ∈ ring)
    (hne : r ≠ m.currentTask) (hready : (m.tasks r).state = .ready)
    (honly : ∀ x ∈ ring, (m.tasks x).state = .ready → x = r) :
    schedule m = some (true, switchTo m r) := by
  obtain ⟨rest, hring, hperm⟩ := h.exists_cons hcur
  have hmem : r ∈ rest :=
    (List.mem_cons.mp (hperm.mem_iff.mpr hr)).resolve_left hne
  obtain ⟨l₁, l₂, rfl⟩ := List.append_of_mem hmem
  obtain ⟨hnd, hseg⟩ := hring
  obtain ⟨b, hseg₁, hbr, -⟩ := seg_append.mp hseg
  rw [hbr] at hseg₁
  simp only [List.nodup_cons, List.mem_append, List.mem_cons, not_or] at hnd
  obtain ⟨k, hk⟩ : ∃ k, ringFuel = k + 1 + l₁.length := by
    have := hperm.length_eq
    rw [List.length_cons, List.length_append, List.length_cons] at this
    exact ⟨ringFuel - 1 - l₁.length, by omega⟩
  rw [schedule, if_neg hnull, hk, scheduleLoop_skip hseg₁, scheduleLoop, if_neg hne,
    if_pos hready]
  intro x hx
  refine ⟨fun h0 => hnd.1.1 (h0 ▸ hx), fun hx' => ?_⟩
  have hxr := honly x (hperm.mem_iff.mp (by simp [hx])) hx'
  have hdisj := (List.nodup_append.mp hnd.2).2.2
  exact hdisj x hx r (by simp) hxr

/-- `schedule` comes back when no other task is ready. -/
theorem schedule_of_not_ready (h : IsRing m.nextOf ring) (hcur : m.currentTask ∈ ring)
    (hnull : m.currentTask ≠ 0) (hfuel : ring.length < ringFuel)
    (hnone : ∀ x ∈ ring, (m.tasks x).state ≠ .ready) : schedule m = some (false, m) := by
  obtain ⟨rest, ⟨hnd, hseg⟩, hperm⟩ := h.exists_cons hcur
  obtain ⟨k, hk⟩ : ∃ k, ringFuel = k + 1 + rest.length := by
    have := hperm.length_eq
    rw [List.length_cons] at this
    exact ⟨ringFuel - 1 - rest.length, by omega⟩
  rw [schedule, if_neg hnull, hk, scheduleLoop_skip hseg, scheduleLoop, if_pos rfl]
  intro x hx
  exact ⟨fun h0 => (List.nodup_cons.mp hnd).1 (h0 ▸ hx),
    hnone x (hperm.mem_iff.mp (List.mem_cons_of_mem _ hx))⟩

/-- A switch changes states of tasks only. -/
theorem switchTo_keeps {α : Type} (g : Task → α)
    (hg : ∀ (t : Task) state, g { t with state := state } = g t) (x : ℕ) :
    g ((switchTo m r).tasks x) = g (m.tasks x) := by
  rw [switchTo]
  refine (Machine.modifyTask_keeps _ r _ g x (hg _ _)).trans ?_
  split_ifs
  · exact m.modifyTask_keeps m.currentTask (fun t => { t with state := .ready }) g x (hg _ _)
  · rfl

@[simp]
theorem switchTo_currentTask : (switchTo m r).currentTask = r := rfl

/-- A switch away from a task that does not run. -/
theorem switchTo_eq (h : (m.tasks m.currentTask).state ≠ .running) :
    switchTo m r = { m with currentTask := r }.modifyTask r fun t =>
      { t with state := .running } := by
  rw [switchTo, if_neg h]

/-! ### `sched_find_task` -/

/-- What `sched_find_task` finds is a live task of the ring; it always comes to an end. -/
theorem schedFindTask_spec (h : IsRing m.nextOf ring) (hcur : m.currentTask ∈ ring)
    (hnull : m.currentTask ≠ 0) (hfuel : ring.length < ringFuel) (pid : ℕ) :
    ∃ t, schedFindTask m pid = some t ∧
      (t = 0 ∨ t ∈ ring ∧ (m.tasks t).pid = pid ∧ (m.tasks t).state ≠ .dead) := by
  obtain ⟨rest, hring, hperm⟩ := h.exists_cons hcur
  obtain ⟨hnd, hseg⟩ := hring
  -- the rest of the round, from `a` on
  have hloop : ∀ (l : List ℕ) (a fuel : ℕ), l ≠ [] → (∀ x ∈ l, x ∈ ring) →
      Seg m.nextOf a l m.currentTask → l.length ≤ fuel →
      ∃ t, schedFindLoop m pid fuel a = some t ∧
        (t = 0 ∨ t ∈ ring ∧ (m.tasks t).pid = pid ∧ (m.tasks t).state ≠ .dead) := by
    intro l
    induction l with
    | nil => exact fun _ _ h0 => absurd rfl h0
    | cons x l ih =>
      rintro a fuel - hsub ⟨rfl, hseg⟩ hle
      obtain ⟨n, rfl⟩ : ∃ n, fuel = n + 1 := ⟨fuel - 1, by rw [List.length_cons] at hle; omega⟩
      rw [schedFindLoop]
      split_ifs with hfound hend
      · exact ⟨a, rfl, Or.inr ⟨hsub a (by simp), hfound⟩⟩
      · exact ⟨0, rfl, Or.inl rfl⟩
      · refine ih _ n ?_ (fun y hy => hsub y (List.mem_cons_of_mem _ hy)) hseg ?_
        · rintro rfl
          exact hend hseg
        · rw [List.length_cons] at hle
          omega
  rw [schedFindTask, if_neg hnull]
  refine hloop (m.currentTask :: rest) _ _ (by simp) (fun x hx => hperm.mem_iff.mp hx)
    ⟨rfl, hseg⟩ ?_
  rw [hperm.length_eq]
  exact hfuel.le

/-! ### `task_exit_noswitch` -/

/-- What does not depend on the fields an exit writes is the same behind it. -/
theorem finishExit_keeps {α : Type} (g : Task → α)
    (hg : ∀ (t : Task) hasFrame zombieValid zombiePid zombieStatus state,
      g { t with
        hasFrame := hasFrame
        zombieValid := zombieValid
        zombiePid := zombiePid
        zombieStatus := zombieStatus
        state := state } = g t) (x : ℕ) :
    g ((finishExit m t status).tasks x) = g (m.tasks x) := by
  have hrestore : g ((execRestore m t).tasks x) = g (m.tasks x) := by
    rw [execRestore]
    split_ifs
    · exact Machine.modifyTask_keeps _ t _ g x (hg (m.tasks t) _ _ _ _ _)
    · rfl
  rw [finishExit]
  refine (Machine.modifyTask_keeps _ t _ g x (hg _ _ _ _ _ _)).trans ?_
  split_ifs
  · exact (Machine.modifyTask_keeps _ _ _ g x (hg _ _ _ _ _ _)).trans hrestore
  · rfl

/-- An exit changes memory, `user_brk`, the use of the pool, and tasks. -/
theorem finishExit_keeps_machine {α : Type} (g : Machine → α)
    (hg : ∀ (m : Machine) mem userBrk execPoolUsed tasks, g { m with
      mem := mem, userBrk := userBrk, execPoolUsed := execPoolUsed, tasks := tasks } = g m) :
    g (finishExit m t status) = g m := by
  have hrestore : ∃ mem userBrk execPoolUsed tasks, execRestore m t = { m with
      mem := mem, userBrk := userBrk, execPoolUsed := execPoolUsed, tasks := tasks } := by
    rw [execRestore]
    split_ifs
    · exact ⟨_, _, _, _, rfl⟩
    · exact ⟨_, _, _, _, rfl⟩
  obtain ⟨_, _, _, _, hrestore⟩ := hrestore
  rw [finishExit]
  split_ifs
  · rw [hrestore]
    exact hg m _ _ _ _
  · exact hg m m.mem m.userBrk m.execPoolUsed _

theorem finishExit_parent (x : ℕ) : (finishExit m t status).parentOf x = m.parentOf x :=
  finishExit_keeps Task.parent (fun _ _ _ _ _ _ => rfl) x

/-- Restoring a frame leaves the states alone. -/
theorem execRestore_state (x : ℕ) : ((execRestore m t).tasks x).state = (m.tasks x).state := by
  rw [execRestore]
  split_ifs
  · exact Machine.modifyTask_keeps _ t _ Task.state x rfl
  · rfl

/-- The states behind the end of an exit. -/
theorem finishExit_state (x : ℕ) :
    ((finishExit m t status).tasks x).state =
      if x = t then .dead
      else if x = m.parentOf t ∧ x ≠ 0 ∧ (m.tasks x).state = .blocked then .ready
      else (m.tasks x).state := by
  rw [finishExit]
  by_cases hx : x = t
  · rw [hx, Machine.modifyTask_self, if_pos rfl]
  rw [if_neg hx, Machine.modifyTask_of_ne _ _ _ hx]
  by_cases hp : (m.tasks t).parent = 0
  · rw [if_neg (not_not.mpr hp), if_neg]
    rintro ⟨rfl, h0, -⟩
    exact h0 hp
  rw [if_pos hp]
  by_cases hxp : x = (m.tasks t).parent
  · subst hxp
    rw [Machine.modifyTask_self]
    dsimp only
    rw [execRestore_state]
    simp only [true_and, ne_eq, hp, not_false_eq_true]
  · rw [Machine.modifyTask_of_ne _ _ _ hxp, execRestore_state, if_neg fun h => hxp h.1]

/-- The dead stay dead. -/
theorem finishExit_dead {x : ℕ} (h : (m.tasks x).state = .dead) :
    ((finishExit m t status).tasks x).state = .dead := by
  rw [finishExit_state, h]
  simp

/-- The end of an exit of each of the tasks `pre`, killed by `SIGKILL`. -/
def killAll (m : Machine) (pre : List ℕ) : Machine := pre.foldl (fun m t => finishExit m t 9) m

/-- What one exit keeps, many keep. -/
theorem killAll_keeps {α : Type} (g : Machine → α)
    (hg : ∀ m t, g (finishExit m t 9) = g m) : g (killAll m pre) = g m := by
  induction pre generalizing m with
  | nil => rfl
  | cons t pre ih => exact (ih (m := finishExit m t 9)).trans (hg m t)

/-- What no exit changes about tasks, many leave alone. -/
theorem killAll_keeps_task {α : Type} (g : Task → α)
    (hg : ∀ (t : Task) hasFrame zombieValid zombiePid zombieStatus state,
      g { t with
        hasFrame := hasFrame
        zombieValid := zombieValid
        zombiePid := zombiePid
        zombieStatus := zombieStatus
        state := state } = g t) (x : ℕ) :
    g ((killAll m pre).tasks x) = g (m.tasks x) :=
  killAll_keeps (fun m => g (m.tasks x)) fun _ _ => finishExit_keeps g hg x

theorem killAll_next (x : ℕ) : (killAll m pre).nextOf x = m.nextOf x :=
  killAll_keeps_task Task.next (fun _ _ _ _ _ _ => rfl) x

theorem killAll_parent (x : ℕ) : (killAll m pre).parentOf x = m.parentOf x :=
  killAll_keeps_task Task.parent (fun _ _ _ _ _ _ => rfl) x

theorem killAll_dead {x : ℕ} (h : (m.tasks x).state = .dead) :
    ((killAll m pre).tasks x).state = .dead := by
  induction pre generalizing m with
  | nil => exact h
  | cons t pre ih => exact ih (finishExit_dead h)

theorem killAll_dead_of_mem {x : ℕ} (h : x ∈ pre) : ((killAll m pre).tasks x).state = .dead := by
  induction pre generalizing m with
  | nil => simp at h
  | cons t pre ih =>
    rcases List.mem_cons.mp h with rfl | h
    · have hdead : ((finishExit m x 9).tasks x).state = .dead := by
        rw [finishExit_state, if_pos rfl]
      show ((killAll (finishExit m x 9) pre).tasks x).state = .dead
      exact killAll_dead hdead
    · exact ih h

/-- Restoring a frame changes no task but its owner. -/
theorem execRestore_of_ne {x : ℕ} (hx : x ≠ t) : (execRestore m t).tasks x = m.tasks x := by
  rw [execRestore]
  split_ifs
  · exact Machine.modifyTask_of_ne _ _ _ hx
  · rfl

/-- A task that does not die and is not woken is the same behind an exit. -/
theorem finishExit_of_ne {x : ℕ} (hx : x ≠ t) (hp : x ≠ m.parentOf t) :
    (finishExit m t status).tasks x = m.tasks x := by
  rw [finishExit, Machine.modifyTask_of_ne _ _ _ hx]
  split_ifs
  · rw [Machine.modifyTask_of_ne _ _ _ hp, execRestore_of_ne hx]
  · rfl

/-- The parent behind an exit. -/
theorem finishExit_parent_task (hp : m.parentOf t ≠ 0) (hne : m.parentOf t ≠ t)
    (hblocked : (m.tasks (m.parentOf t)).state = .blocked) :
    (finishExit m t status).tasks (m.parentOf t) =
      { m.tasks (m.parentOf t) with
        zombieValid := true
        zombiePid := (m.tasks t).pid
        zombieStatus := status
        state := .ready } := by
  rw [finishExit, Machine.modifyTask_of_ne _ _ _ hne, if_pos hp, Machine.modifyTask_self,
    execRestore_of_ne hne, if_pos hblocked]

/-- Killing the tasks of a chain changes no task outside the chain but the one it leads to. -/
theorem killAll_of_not_mem {x : ℕ} (h : Seg m.parentOf a pre b) (hx : x ∉ pre) (hb : x ≠ b) :
    (killAll m pre).tasks x = m.tasks x := by
  induction pre generalizing m a with
  | nil => rfl
  | cons t pre ih =>
    obtain ⟨rfl, h⟩ := h
    obtain ⟨hxa, hx⟩ := not_or.mp (mt List.mem_cons.mpr hx)
    have hparent : x ≠ m.parentOf a := by
      rintro rfl
      cases pre with
      | nil => exact hb h
      | cons y pre => exact hx (by rw [h.1]; exact List.mem_cons_self)
    have h' : Seg (finishExit m a 9).parentOf (m.parentOf a) pre b :=
      h.congr fun y _ => finishExit_parent y
    exact (ih h' hx).trans (finishExit_of_ne hxa hparent)

/-- What an exit relies on. -/
structure Family (m : Machine) (ring chain : List ℕ) : Prop where
  isRing : IsRing m.nextOf ring
  fuel : ring.length < ringFuel
  parents : ∃ a, Seg m.parentOf a chain 0
  nodup : chain.Nodup
  sub : ∀ t ∈ chain, t ∈ ring
  ne_zero : ∀ t ∈ chain, t ≠ 0
  alive : ∀ t ∈ ring, (m.tasks t).state ≠ .dead ↔ t ∈ chain

/-- A chain is not longer than its ring, so the recursion of an exit has enough steps. -/
theorem Family.length_lt (h : Family m ring (pre ++ t :: post)) : pre.length < ringFuel := by
  have hle := (List.subperm_of_subset h.nodup h.sub).length_le
  have hfuel := h.fuel
  rw [List.length_append, List.length_cons] at hle
  omega

/-- The live children of a task of the chain: the one before it. -/
theorem Family.eq_of_parent (h : Family m ring (pre ++ t :: post)) {x : ℕ}
    (hx : x ∈ pre ++ t :: post) (hparent : m.parentOf x = t) : pre.getLast? = some x := by
  obtain ⟨a, hchain⟩ := h.parents
  obtain ⟨l₁, l₂, heq⟩ := List.append_of_mem hx
  have ht : t ≠ 0 := h.ne_zero t (by simp)
  have hseg := hchain
  rw [heq] at hseg
  obtain ⟨-, -, -, hseg⟩ := seg_append.mp hseg
  cases l₂ with
  | nil => exact absurd (hparent.symm.trans hseg) ht
  | cons y l₂ =>
    obtain rfl : y = t := hseg.1.symm.trans hparent
    have hnd := h.nodup
    rw [heq, List.append_cons, List.nodup_append] at hnd
    have heq' : (l₁ ++ [x]) ++ y :: l₂ = pre ++ y :: post := by simpa using heq.symm
    obtain ⟨rfl, -, -⟩ := (List.append_cons_inj_of_notMem
      (fun hy => hnd.2.2 y hy y (by simp) rfl) (List.nodup_cons.mp hnd.2.1).1).mp heq'
    simp

/-- The walk of an exit passes tasks that are not live children. -/
theorem exitChildren_skip {kill : Machine → ℕ → Option Machine} (h : Seg m.nextOf a l b)
    (hl : ∀ x ∈ l, x ≠ t ∧ ¬(m.parentOf x = t ∧ (m.tasks x).state ≠ .dead)) :
    exitChildren kill t (fuel + l.length) m a = exitChildren kill t fuel m b := by
  induction l generalizing a with
  | nil => rw [h, List.length_nil, Nat.add_zero]
  | cons x l ih =>
    obtain ⟨rfl, h⟩ := h
    obtain ⟨hx, hl⟩ := List.forall_mem_cons.mp hl
    rw [List.length_cons, ← Nat.add_assoc, exitChildren, if_neg hx.1, if_neg hx.2]
    exact ih h hl

/-- The walk of an exit, when the chain says which live children there are. -/
private theorem exitChildren_family {kill : Machine → ℕ → Option Machine}
    (h : Family m ring (pre ++ t :: post))
    (hkill : ∀ c, pre.getLast? = some c → kill m c = some (killAll m pre)) :
    exitChildren kill t ringFuel m (m.tasks t).next = some (killAll m pre) := by
  obtain ⟨rest, ⟨hnd, hseg⟩, hperm⟩ := h.isRing.exists_cons (h.sub t (by simp))
  have hlen : rest.length < ringFuel := by
    have h₁ := hperm.length_eq
    have h₂ := h.fuel
    rw [List.length_cons] at h₁
    omega
  have hchild : ∀ x ∈ rest, m.parentOf x = t → (m.tasks x).state ≠ .dead →
      pre.getLast? = some x := fun x hx hparent hlive =>
    h.eq_of_parent ((h.alive x (hperm.mem_iff.mp (List.mem_cons_of_mem _ hx))).mp hlive) hparent
  have hne : ∀ x ∈ rest, x ≠ t := fun x hx hxt => (List.nodup_cons.mp hnd).1 (hxt ▸ hx)
  rcases List.eq_nil_or_concat pre with rfl | ⟨pre, c, rfl⟩
  · obtain ⟨k, hk⟩ : ∃ k, ringFuel = k + 1 + rest.length := ⟨ringFuel - 1 - rest.length, by omega⟩
    rw [hk, exitChildren_skip hseg, exitChildren, if_pos rfl]
    · rfl
    · exact fun x hx => ⟨hne x hx, fun hx' => by simpa using hchild x hx hx'.1 hx'.2⟩
  -- the walk meets `c`, and no other live child in front of it or behind it
  have hc : c ∈ rest := by
    have hcring := hperm.mem_iff.mpr (h.sub c (by simp))
    refine (List.mem_cons.mp hcring).resolve_left ?_
    rintro rfl
    have := h.nodup
    simp [List.nodup_append] at this
  have hct : m.parentOf c = t := by
    obtain ⟨_, hchain⟩ := h.parents
    rw [List.concat_eq_append, List.append_assoc] at hchain
    obtain ⟨_, -, -, hchain⟩ := seg_append.mp hchain
    exact hchain.1
  have hclive : (m.tasks c).state ≠ .dead := (h.alive c (h.sub c (by simp))).mpr (by simp)
  obtain ⟨l₁, l₂, rfl⟩ := List.append_of_mem hc
  obtain ⟨b, hseg₁, rfl, hseg₂⟩ := seg_append.mp hseg
  have hnd' := (List.nodup_append.mp (List.nodup_cons.mp hnd).2)
  -- a task of the ring that is alive and has `t` for its parent is the one above it
  have honly : ∀ x ∈ l₁ ++ l₂, ¬(m.parentOf x = t ∧ (m.tasks x).state ≠ .dead) := by
    rintro x hx ⟨hparent, hlive⟩
    have hxc := hchild x (by
      rcases List.mem_append.mp hx with hx | hx <;> simp [hx]) hparent hlive
    obtain rfl : b = x := by simpa using hxc
    rcases List.mem_append.mp hx with hx | hx
    · exact hnd'.2.2 b hx b (by simp) rfl
    · exact (List.nodup_cons.mp hnd'.2.1).1 hx
  obtain ⟨k, hk⟩ : ∃ k, ringFuel = k + 1 + l₂.length + 1 + l₁.length := by
    simp only [List.length_append, List.length_cons] at hlen
    exact ⟨ringFuel - 1 - l₂.length - 1 - l₁.length, by omega⟩
  -- in front of the child nothing happens, and behind it nothing is left to kill
  rw [hk, exitChildren_skip hseg₁ fun x hx =>
      ⟨hne x (by simp [hx]), honly x (List.mem_append_left _ hx)⟩,
    exitChildren, if_neg (hne b (by simp)), if_pos ⟨hct, hclive⟩, hkill b (by simp)]
  show exitChildren kill t (k + 1 + l₂.length) (killAll m (pre.concat b))
    ((killAll m (pre.concat b)).nextOf b) = _
  rw [killAll_next, exitChildren_skip (hseg₂.congr fun x _ => killAll_next x), exitChildren,
    if_pos rfl]
  intro x hx
  refine ⟨hne x (by simp [hx]), fun hx' => honly x (List.mem_append_right _ hx) ?_⟩
  exact ⟨(killAll_parent x).symm.trans hx'.1, fun hdead => hx'.2 (killAll_dead hdead)⟩

/-- **An exit in a chain.** The task and its descendants end, the youngest first. -/
theorem taskExitNoswitch_spec (h : Family m ring (pre ++ t :: post)) (hn : pre.length < fuel) :
    taskExitNoswitch fuel m t status = some (finishExit (killAll m pre) t status) := by
  induction fuel generalizing pre t post status with
  | zero => exact absurd hn (Nat.not_lt_zero _)
  | succ n ih =>
    have hlive := (h.alive t (h.sub t (by simp))).mpr (by simp)
    rw [taskExitNoswitch, if_neg hlive, exitChildren_family h, Option.map_some]
    intro c hc
    obtain ⟨pre, rfl⟩ := List.getLast?_eq_some_iff.mp hc
    rw [List.append_assoc] at h
    rw [List.length_append, List.length_singleton] at hn
    rw [ih h (by omega), killAll, killAll, List.foldl_append]
    rfl

end ChalesOs
