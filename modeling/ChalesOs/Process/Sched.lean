import ChalesOs.Process.Machine

/-!
# The scheduler

The functions of `sched.c` as functions on the machine. Their loops follow `next` around the
ring of tasks, so each takes a bound on the number of steps, `ringFuel` from outside; `none`
means that the bound was not enough, and a loop that returns `some` has ended like the C loop
does. The ring has fewer than `2 ^ 32` tasks, since its tasks have different 32-bit addresses, so
on a ring the bound is always enough.

`taskExitNoswitch` is recursive as in the source: it calls itself on every live child it meets
on its way around the ring, which `exitChildren` walks.
-/

namespace ChalesOs

/-- More steps than a ring of tasks can take. -/
def ringFuel : ℕ := 0x100000000

/-- `sched_init` on the static `task0`, with the fields `kernel_main` gives it. -/
def schedInit (L : Layout) (mem : Mem) (pageTable : PageTable) : Machine where
  mem := mem
  pageTable := pageTable
  userBrk := 0
  tasks := Function.update (fun _ => Task.zero) L.task0
    { Task.zero with
      state := .running
      pid := 1
      next := L.task0
      stack := L.stackBottom }
  currentTask := L.task0
  nextPid := 2
  heap := ⟨[]⟩
  execPool _ := 0
  execPoolUsed := 0
  halted := false

/-! ### `schedule` -/

/-- The switch to `nextTask` in `schedule`. -/
def switchTo (m : Machine) (nextTask : ℕ) : Machine :=
  let prev := m.currentTask
  let m := if (m.tasks prev).state = .running then
      m.modifyTask prev fun t => { t with state := .ready }
    else m
  { m with currentTask := nextTask }.modifyTask nextTask fun t => { t with state := .running }

/-- The loop of `schedule`. -/
def scheduleLoop (m : Machine) : (fuel nextTask : ℕ) → Option (Bool × Machine)
  | 0, _ => none
  | fuel + 1, nextTask =>
    if nextTask = m.currentTask then some (false, m)
    else if (m.tasks nextTask).state = .ready then some (true, switchTo m nextTask)
    else scheduleLoop m fuel (m.tasks nextTask).next

/-- `schedule`, with whether it has switched to another task. -/
def schedule (m : Machine) : Option (Bool × Machine) :=
  if m.currentTask = 0 then some (false, m)
  else scheduleLoop m ringFuel (m.tasks m.currentTask).next

/-! ### `sched_find_task` -/

/-- The loop of `sched_find_task`, 0 for `NULL`. -/
def schedFindLoop (m : Machine) (pid : ℕ) : (fuel t : ℕ) → Option ℕ
  | 0, _ => none
  | fuel + 1, t =>
    if (m.tasks t).pid = pid ∧ (m.tasks t).state ≠ .dead then some t
    else if (m.tasks t).next = m.currentTask then some 0
    else schedFindLoop m pid fuel (m.tasks t).next

/-- `sched_find_task`. -/
def schedFindTask (m : Machine) (pid : ℕ) : Option ℕ :=
  if m.currentTask = 0 then some 0 else schedFindLoop m pid ringFuel m.currentTask

/-! ### `sched_reap` -/

/-- The loop of `sched_reap`; it also returns what it has freed, in this order. -/
def schedReapLoop (L : Layout) (m : Machine) : (fuel prev t : ℕ) → Option (Machine × List ℕ)
  | 0, _, _ => none
  | fuel + 1, prev, t =>
    if t = m.currentTask then some (m, [])
    else
      let next := (m.tasks t).next
      if (m.tasks t).state = .dead ∧ (m.tasks t).heapAlloc then
        let stack := (m.tasks t).stack
        let m := m.modifyTask prev fun p => { p with next := next }
        let m := { m with heap := kfree L (kfree L m.heap stack) t }
        (schedReapLoop L m fuel prev next).map fun r => (r.1, stack :: t :: r.2)
      else schedReapLoop L m fuel t next

/-- `sched_reap`. -/
def schedReap (L : Layout) (m : Machine) : Option (Machine × List ℕ) :=
  schedReapLoop L m ringFuel m.currentTask (m.tasks m.currentTask).next

/-! ### `sched_task_exit` -/

/-- The walk of `task_exit_noswitch` around the ring, from `t` back to `task`; `kill` is the
recursive call. -/
def exitChildren (kill : Machine → ℕ → Option Machine) (task : ℕ) :
    (fuel : ℕ) → Machine → (t : ℕ) → Option Machine
  | 0, _, _ => none
  | fuel + 1, m, t =>
    if t = task then some m
    else do
      let m ← if (m.tasks t).parent = task ∧ (m.tasks t).state ≠ .dead then kill m t else some m
      exitChildren kill task fuel m (m.tasks t).next

/-- The end of `task_exit_noswitch`: restore and wake the parent, and die. -/
def finishExit (m : Machine) (task : ℕ) (status : ℤ) : Machine :=
  let parent := (m.tasks task).parent
  let m := if parent ≠ 0 then
      (execRestore m task).modifyTask parent fun p =>
        { p with
          zombieValid := true
          zombiePid := (m.tasks task).pid
          zombieStatus := status
          state := if p.state = .blocked then .ready else p.state }
    else m
  m.modifyTask task fun t => { t with state := .dead }

/-- `task_exit_noswitch`; the bound is on the depth of the recursion. -/
def taskExitNoswitch : (fuel : ℕ) → Machine → (task : ℕ) → (status : ℤ) → Option Machine
  | 0, _, _, _ => none
  | fuel + 1, m, task, status =>
    if (m.tasks task).state = .dead then some m
    else
      (exitChildren (fun m t => taskExitNoswitch fuel m t 9) task ringFuel m
        (m.tasks task).next).map fun m => finishExit m task status

/-- `sched_task_exit`. -/
def schedTaskExit (m : Machine) (task : ℕ) (status : ℤ) : Option Machine :=
  (taskExitNoswitch ringFuel m task status).bind fun m =>
    if (m.tasks m.currentTask).state = .dead then
      (schedule m).map fun r => if r.1 then r.2 else { r.2 with halted := true }
    else some m

/-! ### `sched_task_new` -/

/-- The size of the kernel stack of a task. -/
def taskStackSize : ℕ := 4096

/-- `sizeof(task_t)`: 19 fields of 4 bytes. -/
def taskSize : ℕ := 76

/-- `sched_task_new`: the new task, `none` for `NULL`. -/
def schedTaskNew (L : Layout) (m : Machine) (entry userStackTop : ℕ) :
    Option (Option ℕ × Machine) :=
  (schedReap L m).map fun r =>
    let m := r.1
    match kmalloc L m.heap taskSize with
    | (none, heap) => (none, { m with heap := heap })
    | (some task, heap) =>
      match kmalloc L heap taskStackSize with
      | (none, heap) => (none, { m with heap := kfree L heap task })
      | (some stack, heap) =>
        let m := { m with heap := heap, nextPid := u32 (m.nextPid + 1) }.modifyTask task fun _ =>
          { Task.zero with
            stack := stack
            heapAlloc := true
            entry := entry
            userStackTop := userStackTop
            state := .ready
            pid := m.nextPid
            next := (m.tasks m.currentTask).next }
        (some task, m.modifyTask m.currentTask fun t => { t with next := task })

end ChalesOs
