import ChalesOs.Process.Exec
import ChalesOs.Process.Kill

/-!
# The process tree

`Procs L m rest callers` is the state the scheduler is in whenever a program runs: the ring
starts at the current task, and the tasks in `callers`, its parent, the parent of that, and so on
to the initial task, are blocked. All other tasks of the ring are dead.

Every operation keeps such a state, with other lists, or halts the machine. An exit and a kill
cut the chain behind the task that ends (`Procs.schedTaskExit`), and an `exec_run` that succeeds
puts a new task in front of it.
-/

namespace ChalesOs

open PointerRing

/-- The state of the scheduler while a program runs. -/
structure Procs (L : Layout) (m : Machine) (rest callers : List ℕ) : Prop where
  ring : TaskRing L m (m.currentTask :: rest)
  parents : Seg m.parentOf m.currentTask (m.currentTask :: callers) 0
  nodup : (m.currentTask :: callers).Nodup
  sub : ∀ t ∈ callers, t ∈ rest
  last : (m.currentTask :: callers).getLast? = some L.task0
  running : (m.tasks m.currentTask).state = .running
  blocked : ∀ t ∈ callers, (m.tasks t).state = .blocked
  dead : ∀ t ∈ rest, t ∉ callers → (m.tasks t).state = .dead

variable {L : Layout} {m m' : Machine} {t p : ℕ} {status : ℤ} {rest callers pre post : List ℕ}

/-- The state depends on the heap, the current task and five fields of the tasks only. -/
theorem Procs.congr (h : Procs L m rest callers) (hheap : m'.heap = m.heap)
    (hcur : m'.currentTask = m.currentTask) (hnext : ∀ t, m'.nextOf t = m.nextOf t)
    (halloc : ∀ t, (m'.tasks t).heapAlloc = (m.tasks t).heapAlloc)
    (hstack : ∀ t, (m'.tasks t).stack = (m.tasks t).stack)
    (hparent : ∀ t, m'.parentOf t = m.parentOf t)
    (hstate : ∀ t, (m'.tasks t).state = (m.tasks t).state) : Procs L m' rest callers where
  ring := hcur ▸ h.ring.congr hheap (fun t _ => hnext t) (fun t _ => halloc t) fun t _ => hstack t
  parents := hcur ▸ h.parents.congr fun t _ => hparent t
  nodup := hcur ▸ h.nodup
  sub := h.sub
  last := hcur ▸ h.last
  running := by rw [hcur, hstate, h.running]
  blocked t ht := by rw [hstate, h.blocked t ht]
  dead t ht hc := by rw [hstate, h.dead t ht hc]

/-- The state after `sched_init`. -/
theorem procs_schedInit (L : Layout) (mem : Mem) (pageTable : PageTable) :
    Procs L (schedInit L mem pageTable) [] [] := by
  have htask : (schedInit L mem pageTable).tasks L.task0 =
      { Task.zero with
        state := .running
        pid := 1
        next := L.task0
        stack := L.stackBottom } := by
    simp only [schedInit, Function.update_self]
  have hcur : (schedInit L mem pageTable).currentTask = L.task0 := rfl
  have hlive : (schedInit L mem pageTable).heap.live L = [] := rfl
  have howned : (schedInit L mem pageTable).owned L [L.task0] = [] := by simp [Machine.owned]
  refine ⟨⟨⟨by simp, congrArg Task.next htask⟩, by simp [hcur], ?_, ?_, ?_⟩,
    ⟨rfl, congrArg Task.parent htask⟩, by simp, by simp, rfl, congrArg Task.state htask, by simp,
    by simp⟩
  · intro t ht
    obtain rfl : t = L.task0 := by simpa [hcur] using ht
    simp [htask, Task.zero]
  · have := L.heapEnd_eq
    show L.heapStart + 12 ≤ L.heapEnd
    omega
  · rw [hcur, hlive, howned]

/-- The tasks that are not dead are the current one and its callers. -/
theorem Procs.alive_iff (h : Procs L m rest callers) (ht : t ∈ m.currentTask :: rest) :
    (m.tasks t).state ≠ .dead ↔ t ∈ m.currentTask :: callers := by
  rw [List.mem_cons]
  by_cases hcur : t = m.currentTask
  · simp [hcur, h.running]
  by_cases hcall : t ∈ callers
  · simp [hcall, h.blocked t hcall]
  · simp [hcur, hcall, h.dead t ((List.mem_cons.mp ht).resolve_left hcur) hcall]

/-- The chain of callers lies in the ring. -/
theorem Procs.mem_ring (h : Procs L m rest callers) (ht : t ∈ m.currentTask :: callers) :
    t ∈ m.currentTask :: rest := by
  rcases List.mem_cons.mp ht with rfl | ht
  · exact List.mem_cons_self
  · exact List.mem_cons_of_mem _ (h.sub t ht)

/-- The live tasks of the ring are those of the chain. -/
theorem Procs.mem_alive_iff (h : Procs L m rest callers) :
    t ∈ m.currentTask :: rest ∧ (m.tasks t).state ≠ .dead ↔ t ∈ m.currentTask :: callers :=
  ⟨fun ht => (h.alive_iff ht.1).mp ht.2, fun ht =>
    ⟨h.mem_ring ht, (h.alive_iff (h.mem_ring ht)).mpr ht⟩⟩

/-- The current task and its callers are what an exit relies on. -/
theorem Procs.family (h : Procs L m rest callers) :
    Family m (m.currentTask :: rest) (m.currentTask :: callers) where
  isRing := h.ring.isRing
  fuel := h.ring.length_lt
  parents := ⟨_, h.parents⟩
  nodup := h.nodup
  sub _ := h.mem_ring
  ne_zero _ ht := h.ring.ne_zero (h.mem_ring ht)
  alive _ := h.alive_iff

/-! ### Exits -/

/-- The chain of callers in front of one of its tasks, and behind it. -/
theorem Procs.split (h : Procs L m rest callers)
    (hchain : m.currentTask :: callers = pre ++ t :: post) :
    Seg m.parentOf m.currentTask pre t ∧ Seg m.parentOf (m.parentOf t) post 0 := by
  have hseg := h.parents
  rw [hchain] at hseg
  obtain ⟨_, hpre, rfl, hpost⟩ := seg_append.mp hseg
  exact ⟨hpre, hpost⟩

/-- The tasks behind one of the chain are callers, and different from it and those in front. -/
theorem Procs.mem_callers (h : Procs L m rest callers)
    (hchain : m.currentTask :: callers = pre ++ t :: post) {x : ℕ} (hx : x ∈ post) :
    x ∈ callers ∧ x ∉ pre ∧ x ≠ t := by
  have hnd := h.nodup
  rw [hchain, List.nodup_append] at hnd
  refine ⟨?_, fun hpre => hnd.2.2 x hpre x (List.mem_cons_of_mem _ hx) rfl, ?_⟩
  · cases pre with
    | nil => rwa [(List.cons.inj hchain).2]
    | cons y pre =>
      rw [(List.cons.inj hchain).2]
      exact List.mem_append_right _ (List.mem_cons_of_mem _ hx)
  · rintro rfl
    exact (List.nodup_cons.mp hnd.2.1).1 hx

/-- The current task is `t` or in front of it. -/
theorem current_mem (hchain : m.currentTask :: callers = pre ++ t :: post) :
    m.currentTask ∈ pre ++ [t] := by
  cases pre with
  | nil => simp [(List.cons.inj hchain).1]
  | cons y pre => simp [(List.cons.inj hchain).1]

/-- What an exit does not change about the tasks. -/
theorem exit_keeps {α : Type} (g : Task → α)
    (hg : ∀ (t : Task) hasFrame zombieValid zombiePid zombieStatus state,
      g { t with
        hasFrame := hasFrame
        zombieValid := zombieValid
        zombiePid := zombiePid
        zombieStatus := zombieStatus
        state := state } = g t) (x : ℕ) :
    g ((finishExit (killAll m pre) t status).tasks x) = g (m.tasks x) :=
  (finishExit_keeps g hg x).trans (killAll_keeps_task g hg x)

/-- What an exit does not change about the machine. -/
theorem exit_keeps_machine {α : Type} (g : Machine → α)
    (hg : ∀ (m : Machine) mem userBrk execPoolUsed tasks, g { m with
      mem := mem, userBrk := userBrk, execPoolUsed := execPoolUsed, tasks := tasks } = g m) :
    g (finishExit (killAll m pre) t status) = g m :=
  (finishExit_keeps_machine g hg).trans (killAll_keeps g fun _ _ => finishExit_keeps_machine g hg)

/-- The current task is changed by the switch only. -/
theorem exit_currentTask :
    (finishExit (killAll m pre) t status).currentTask = m.currentTask :=
  exit_keeps_machine Machine.currentTask fun _ _ _ _ _ => rfl

/-- The tasks that end are dead behind an exit. -/
theorem exit_dead {x : ℕ} (hx : x ∈ pre ++ [t] ∨ (m.tasks x).state = .dead) :
    ((finishExit (killAll m pre) t status).tasks x).state = .dead := by
  rcases hx with hx | hx
  · rcases List.mem_append.mp hx with hx | hx
    · exact finishExit_dead (killAll_dead_of_mem hx)
    · rw [finishExit_state, if_pos (List.mem_singleton.mp hx)]
  · exact finishExit_dead (killAll_dead hx)

/-- The other tasks, the parent of `t` apart, are the same behind an exit. -/
theorem Procs.exit_tasks (h : Procs L m rest callers)
    (hchain : m.currentTask :: callers = pre ++ t :: post) {x : ℕ} (hpre : x ∉ pre) (ht : x ≠ t)
    (hp : x ≠ m.parentOf t) :
    (finishExit (killAll m pre) t status).tasks x = m.tasks x := by
  rw [finishExit_of_ne ht (by rwa [killAll_parent]), killAll_of_not_mem (h.split hchain).1 hpre ht]

/-- The parent of `t` behind an exit. -/
theorem Procs.exit_parent (h : Procs L m rest callers)
    (hchain : m.currentTask :: callers = pre ++ t :: p :: post) :
    (finishExit (killAll m pre) t status).tasks p =
      { m.tasks p with
        zombieValid := true
        zombiePid := (m.tasks t).pid
        zombieStatus := status
        state := .ready } := by
  obtain ⟨hpre, hpost⟩ := h.split hchain
  obtain ⟨hp, hppre, hpt⟩ := h.mem_callers hchain (x := p) List.mem_cons_self
  have hp0 : p ≠ 0 := h.ring.ne_zero (List.mem_cons_of_mem _ (h.sub p hp))
  have hparent : (killAll m pre).parentOf t = p := by rw [killAll_parent, hpost.1]
  have hkill : (killAll m pre).tasks p = m.tasks p := killAll_of_not_mem hpre hppre hpt
  have hblocked : ((killAll m pre).tasks p).state = .blocked := by rw [hkill, h.blocked p hp]
  rw [← hparent] at hp0 hpt hblocked
  have hend : (finishExit (killAll m pre) t status).tasks ((killAll m pre).parentOf t) = _ :=
    finishExit_parent_task hp0 hpt hblocked
  rw [hparent] at hend
  rw [hend, hkill, killAll_keeps_task Task.pid fun _ _ _ _ _ _ => rfl]

/-- Behind an exit the current task is dead, and no task is ready but the parent of `t`. -/
private theorem Procs.exit_states (h : Procs L m rest callers)
    (hchain : m.currentTask :: callers = pre ++ t :: post) (status : ℤ) :
    ((finishExit (killAll m pre) t status).tasks m.currentTask).state = .dead ∧
      ∀ x ∈ m.currentTask :: rest, x ≠ m.parentOf t →
        ((finishExit (killAll m pre) t status).tasks x).state ≠ .ready := by
  constructor
  · exact exit_dead (Or.inl (current_mem hchain))
  · intro x hx hp hready
    have hx' : x ∉ pre ∧ x ≠ t := by
      constructor
      all_goals
        rintro hmem
        rw [exit_dead (Or.inl (by simp [hmem]))] at hready
        exact TaskState.noConfusion hready
    rw [h.exit_tasks hchain hx'.1 hx'.2 hp] at hready
    rcases List.mem_cons.mp hx with rfl | hx
    · rw [h.running] at hready
      exact TaskState.noConfusion hready
    · by_cases hcall : x ∈ callers
      · rw [h.blocked x hcall] at hready
        exact TaskState.noConfusion hready
      · rw [h.dead x hx hcall] at hready
        exact TaskState.noConfusion hready

/-- **The end of the initial task.** Every task dies, and the machine halts. -/
theorem Procs.schedTaskExit_halts (h : Procs L m rest callers)
    (hchain : m.currentTask :: callers = pre ++ [t]) :
    schedTaskExit m t status =
      some { finishExit (killAll m pre) t status with halted := true } := by
  have hfamily : Family m (m.currentTask :: rest) (pre ++ [t]) := hchain ▸ h.family
  have hring : IsRing (finishExit (killAll m pre) t status).nextOf (m.currentTask :: rest) :=
    h.ring.isRing.congr fun x _ => exit_keeps Task.next (fun _ _ _ _ _ _ => rfl) x
  obtain ⟨hdead, hready⟩ := h.exit_states hchain status
  have hsched : schedule (finishExit (killAll m pre) t status) =
      some (false, finishExit (killAll m pre) t status) := by
    refine schedule_of_not_ready hring (by simp [exit_currentTask]) ?_ h.ring.length_lt
      fun x hx => ?_
    · rw [exit_currentTask]
      exact h.ring.ne_zero List.mem_cons_self
    · refine hready x hx fun hxp => ?_
      have hparent : m.parentOf t = 0 := (h.split hchain).2
      exact h.ring.ne_zero hx (hxp.trans hparent)
  rw [ChalesOs.schedTaskExit, taskExitNoswitch_spec hfamily hfamily.length_lt, Option.bind_some,
    exit_currentTask, if_pos hdead, hsched]
  rfl

/-- The machine behind the end of `t`, when its parent `p` runs again. -/
def exitTo (m : Machine) (pre : List ℕ) (t p : ℕ) (status : ℤ) : Machine :=
  switchTo (finishExit (killAll m pre) t status) p

@[simp]
theorem exitTo_currentTask : (exitTo m pre t p status).currentTask = p := rfl

/-- The switch away from a task that has ended. -/
theorem Procs.exitTo_eq (h : Procs L m rest callers)
    (hchain : m.currentTask :: callers = pre ++ t :: post) :
    exitTo m pre t p status =
      { finishExit (killAll m pre) t status with currentTask := p }.modifyTask p fun t =>
        { t with state := .running } := by
  refine switchTo_eq ?_
  rw [exit_currentTask, (h.exit_states hchain status).1]
  exact TaskState.noConfusion

/-- What an exit and the switch behind it do not change about the tasks. -/
theorem exitTo_keeps {α : Type} (g : Task → α)
    (hg : ∀ (t : Task) hasFrame zombieValid zombiePid zombieStatus state,
      g { t with
        hasFrame := hasFrame
        zombieValid := zombieValid
        zombiePid := zombiePid
        zombieStatus := zombieStatus
        state := state } = g t) (x : ℕ) :
    g ((exitTo m pre t p status).tasks x) = g (m.tasks x) :=
  (switchTo_keeps g (fun t state => hg t t.hasFrame t.zombieValid t.zombiePid t.zombieStatus state)
    x).trans (exit_keeps g hg x)

/-- The parent behind the end of `t`. -/
theorem Procs.exitTo_parent (h : Procs L m rest callers)
    (hchain : m.currentTask :: callers = pre ++ t :: p :: post) :
    (exitTo m pre t p status).tasks p =
      { m.tasks p with
        zombieValid := true
        zombiePid := (m.tasks t).pid
        zombieStatus := status
        state := .running } := by
  rw [h.exitTo_eq hchain, Machine.modifyTask_self]
  show { (finishExit (killAll m pre) t status).tasks p with state := .running } = _
  rw [h.exit_parent hchain]

/-- The tasks that have not ended, the parent apart, behind the end of `t`. -/
theorem Procs.exitTo_of_not_mem (h : Procs L m rest callers)
    (hchain : m.currentTask :: callers = pre ++ t :: p :: post) {x : ℕ} (hpre : x ∉ pre)
    (ht : x ≠ t) (hp : x ≠ p) : (exitTo m pre t p status).tasks x = m.tasks x := by
  have hparent : m.parentOf t = p := (h.split hchain).2.1
  rw [h.exitTo_eq hchain, Machine.modifyTask_of_ne _ _ _ hp]
  exact h.exit_tasks hchain hpre ht (hparent.symm ▸ hp)

/-- The tasks that have ended. -/
theorem Procs.exitTo_dead (h : Procs L m rest callers)
    (hchain : m.currentTask :: callers = pre ++ t :: p :: post) {x : ℕ}
    (hx : x ∈ pre ++ [t] ∨ (m.tasks x).state = .dead) (hp : x ≠ p) :
    ((exitTo m pre t p status).tasks x).state = .dead := by
  rw [h.exitTo_eq hchain, Machine.modifyTask_of_ne _ _ _ hp]
  exact exit_dead hx

/-- Of the tasks that are left only the parent is ready, so `schedule` picks it. -/
theorem Procs.schedule_exit (h : Procs L m rest callers)
    (hchain : m.currentTask :: callers = pre ++ t :: p :: post) (status : ℤ) :
    schedule (finishExit (killAll m pre) t status) = some (true, exitTo m pre t p status) := by
  have hparent : m.parentOf t = p := (h.split hchain).2.1
  obtain ⟨hp, -, -⟩ := h.mem_callers hchain (x := p) List.mem_cons_self
  obtain ⟨-, hready⟩ := h.exit_states hchain status
  have hring : IsRing (finishExit (killAll m pre) t status).nextOf (m.currentTask :: rest) :=
    h.ring.isRing.congr fun x _ => exit_keeps Task.next (fun _ _ _ _ _ _ => rfl) x
  refine schedule_of_ready hring ?_ ?_ h.ring.length_lt (List.mem_cons_of_mem _ (h.sub p hp)) ?_ ?_
    fun x hx hxready => ?_
  · rw [exit_currentTask]
    exact List.mem_cons_self
  · rw [exit_currentTask]
    exact h.ring.ne_zero List.mem_cons_self
  · rw [exit_currentTask]
    exact fun heq => (List.nodup_cons.mp h.nodup).1 (heq ▸ hp)
  · rw [h.exit_parent hchain]
  · by_contra hxp
    exact hready x hx (hparent.symm ▸ hxp) hxready

/-- **The end of a task with a parent.** The task and its descendants die, and the parent
runs. -/
theorem Procs.schedTaskExit (h : Procs L m rest callers)
    (hchain : m.currentTask :: callers = pre ++ t :: p :: post) (status : ℤ) :
    schedTaskExit m t status = some (exitTo m pre t p status) ∧
      ∃ rest', Procs L (exitTo m pre t p status) rest' post ∧
        (p :: rest').Perm (m.currentTask :: rest) := by
  have hcur' : (exitTo m pre t p status).currentTask = p := rfl
  have hparent : m.parentOf t = p := (h.split hchain).2.1
  obtain ⟨hp, -, -⟩ := h.mem_callers hchain (x := p) List.mem_cons_self
  have hpring : p ∈ m.currentTask :: rest := List.mem_cons_of_mem _ (h.sub p hp)
  have hnd := h.nodup
  rw [hchain] at hnd
  have hndp := (List.nodup_cons.mp (List.nodup_append.mp hnd).2.1).2
  have hne : ∀ x ∈ post, x ≠ p := fun x hx heq => (List.nodup_cons.mp hndp).1 (heq ▸ hx)
  -- the current task has ended with `t`, so `sched_task_exit` switches
  have hexit : ChalesOs.schedTaskExit m t status = some (exitTo m pre t p status) := by
    have hfamily : Family m (m.currentTask :: rest) (pre ++ t :: p :: post) := hchain ▸ h.family
    rw [ChalesOs.schedTaskExit, taskExitNoswitch_spec hfamily hfamily.length_lt, Option.bind_some,
      exit_currentTask, if_pos (h.exit_states hchain status).1, h.schedule_exit hchain]
    rfl
  refine ⟨hexit, ?_⟩
  obtain ⟨rest', hring, hperm⟩ := h.ring.rotate hpring
  refine ⟨rest', ⟨?_, ?_, ?_, fun x hx => ?_, ?_, ?_, fun x hx => ?_, fun x hx hxpost => ?_⟩,
    hperm⟩
  · rw [hcur']
    refine hring.congr ?_ (fun x _ => exitTo_keeps Task.next (fun _ _ _ _ _ _ => rfl) x)
      (fun x _ => exitTo_keeps Task.heapAlloc (fun _ _ _ _ _ _ => rfl) x)
      fun x _ => exitTo_keeps Task.stack (fun _ _ _ _ _ _ => rfl) x
    rw [h.exitTo_eq hchain]
    exact exit_keeps_machine Machine.heap fun _ _ _ _ _ => rfl
  · rw [hcur']
    have hseg : Seg m.parentOf p (p :: post) 0 := hparent ▸ (h.split hchain).2
    exact hseg.congr fun x _ => exitTo_keeps Task.parent (fun _ _ _ _ _ _ => rfl) x
  · rw [hcur']
    exact hndp
  · obtain ⟨hxcall, -, -⟩ := h.mem_callers hchain (List.mem_cons_of_mem p hx)
    have hmem := hperm.mem_iff.mpr (List.mem_cons_of_mem _ (h.sub x hxcall))
    exact (List.mem_cons.mp hmem).resolve_left (hne x hx)
  · rw [hcur', ← h.last, hchain]
    simp [List.getLast?_append, List.getLast?_cons]
  · rw [hcur', h.exitTo_parent hchain]
  · obtain ⟨hxcall, hxpre, hxt⟩ := h.mem_callers hchain (List.mem_cons_of_mem p hx)
    rw [h.exitTo_of_not_mem hchain hxpre hxt (hne x hx), h.blocked x hxcall]
  · -- a task that is left and has not ended has been dead before
    have hxp : x ≠ p := fun heq => (List.nodup_cons.mp hring.isRing.nodup).1 (heq ▸ hx)
    refine h.exitTo_dead hchain ?_ hxp
    by_contra hcon
    rw [not_or] at hcon
    have hxring := hperm.mem_iff.mp (List.mem_cons_of_mem p hx)
    have hxchain := (h.alive_iff hxring).mp hcon.2
    rw [hchain] at hxchain
    simp only [List.mem_append, List.mem_cons, List.not_mem_nil, or_false] at hxchain hcon
    tauto

end ChalesOs
