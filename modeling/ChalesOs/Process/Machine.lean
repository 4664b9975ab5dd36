import Mathlib.Logic.Function.Basic
import ChalesOs.Lib.ByteMemory
import ChalesOs.Memory.KernelHeap
import ChalesOs.Memory.Paging
import ChalesOs.Memory.Words

/-!
# Tasks and the machine

The kernel's state as far as processes are concerned. `task_t` objects are found by address in
`Machine.tasks`; 0 is `NULL`. `Machine.mem` is the memory programs see, apart from the kernel's
own variables, which are fields.

When a program starts another one, the part of it that the new one may overwrite is saved in
`exec_pool`, and put back when the new one ends. The saved part is the user stack and one
interval of the image; `frameSave` and `frameRestore` are the two copies.
-/

namespace ChalesOs

open ByteMemory

/-- `enum states`. -/
inductive TaskState
  | running
  | ready
  | dead
  | blocked
  deriving DecidableEq

/-- `task_t`, without what only the context switch uses (the saved stack pointer and the size of
the kernel stack). `entry` and `userStackTop` are the arguments of `enter_user_mode_at` on the
kernel stack of a new task. -/
structure Task where
  stack : ℕ
  state : TaskState
  pid : ℕ
  next : ℕ
  heapAlloc : Bool
  parent : ℕ
  zombieValid : Bool
  zombiePid : ℕ
  zombieStatus : ℤ
  elfLo : ℕ
  elfHi : ℕ
  hasFrame : Bool
  frameOff : ℕ
  frameStackLen : ℕ
  frameImgBase : ℕ
  frameImgLen : ℕ
  frameBrk : ℕ
  entry : ℕ
  userStackTop : ℕ

/-- A cleared task. -/
def Task.zero : Task :=
  ⟨0, .running, 0, 0, false, 0, false, 0, 0, 0, 0, false, 0, 0, 0, 0, 0, 0, 0⟩

/-- The state of the kernel and of the memory of programs. -/
structure Machine where
  mem : Mem
  pageTable : PageTable
  userBrk : ℕ
  tasks : ℕ → Task
  currentTask : ℕ
  nextPid : ℕ
  heap : KernelHeap
  execPool : ℕ → UInt8
  execPoolUsed : ℕ
  /-- The `hlt` loop at the end of `sched_task_exit` has been reached. -/
  halted : Bool

/-- `EXEC_POOL_SIZE`. -/
def execPoolSize : ℕ := 512 * 1024

/-- The machine with the task at `t` changed by `f`. -/
def Machine.modifyTask (m : Machine) (t : ℕ) (f : Task → Task) : Machine :=
  { m with tasks := Function.update m.tasks t (f (m.tasks t)) }

/-! ### Rules for changed tasks -/

section ModifyTask

variable (m : Machine) (t : ℕ) (f : Task → Task)

@[simp] theorem Machine.modifyTask_self : (m.modifyTask t f).tasks t = f (m.tasks t) :=
  Function.update_self ..

theorem Machine.modifyTask_of_ne {x : ℕ} (h : x ≠ t) :
    (m.modifyTask t f).tasks x = m.tasks x :=
  Function.update_of_ne h ..

/-- A change that keeps a value of the task keeps it for all tasks. -/
theorem Machine.modifyTask_keeps {α : Type} (g : Task → α) (x : ℕ)
    (h : g (f (m.tasks t)) = g (m.tasks t)) : g ((m.modifyTask t f).tasks x) = g (m.tasks x) := by
  by_cases hx : x = t
  · rw [hx, m.modifyTask_self, h]
  · rw [m.modifyTask_of_ne t f hx]

@[simp] theorem Machine.modifyTask_mem : (m.modifyTask t f).mem = m.mem := rfl

@[simp] theorem Machine.modifyTask_userBrk : (m.modifyTask t f).userBrk = m.userBrk := rfl

@[simp] theorem Machine.modifyTask_currentTask :
    (m.modifyTask t f).currentTask = m.currentTask := rfl

@[simp] theorem Machine.modifyTask_nextPid : (m.modifyTask t f).nextPid = m.nextPid := rfl

@[simp] theorem Machine.modifyTask_heap : (m.modifyTask t f).heap = m.heap := rfl

@[simp] theorem Machine.modifyTask_execPool : (m.modifyTask t f).execPool = m.execPool := rfl

@[simp] theorem Machine.modifyTask_execPoolUsed :
    (m.modifyTask t f).execPoolUsed = m.execPoolUsed := rfl

@[simp] theorem Machine.modifyTask_halted : (m.modifyTask t f).halted = m.halted := rfl

end ModifyTask

/-! ### Frames -/

/-- The two copies `exec_run` makes into the pool, at `off`: the user stack, and one interval of
the image behind it. A copy of no bytes is none. -/
def frameSave (pool : ℕ → UInt8) (mem : Mem) (off stackLen imgBase imgLen : ℕ) : ℕ → UInt8 :=
  copy (copy pool off mem execStackBase stackLen) (off + stackLen) mem imgBase imgLen

/-- `frame_restore`. -/
def frameRestore (pool : ℕ → UInt8) (mem : Mem) (off stackLen imgBase imgLen : ℕ) : Mem :=
  copy (copy mem execStackBase pool off stackLen) imgBase pool (off + stackLen) imgLen

/-- `exec_restore`. -/
def execRestore (m : Machine) (child : ℕ) : Machine :=
  let c := m.tasks child
  if c.hasFrame then
    { m with
      mem := frameRestore m.execPool m.mem c.frameOff c.frameStackLen c.frameImgBase c.frameImgLen
      userBrk := c.frameBrk
      execPoolUsed := c.frameOff }.modifyTask child fun c => { c with hasFrame := false }
  else m

/-- Where a task's frame ends in the pool. -/
def Task.frameEnd (c : Task) : ℕ := c.frameOff + align16 c.frameStackLen + align16 c.frameImgLen

/-- The bytes of a task's image, `[elf_lo, elf_hi)`. -/
def Task.InImage (t : Task) (a : ℕ) : Prop := t.elfLo ≤ a ∧ a < t.elfHi

/-- Saving a frame changes nothing in front of it. -/
theorem frameSave_of_lt {pool : ℕ → UInt8} {mem : Mem} {off stackLen imgBase imgLen i : ℕ}
    (h : i < off) : frameSave pool mem off stackLen imgBase imgLen i = pool i := by
  rw [frameSave, copy_of_not_mem (by omega), copy_of_not_mem (by omega)]

/-- A saved frame holds the stack, and behind it the interval of the image. -/
theorem frameSave_of_mem {pool : ℕ → UInt8} {mem : Mem} {off stackLen imgBase imgLen i : ℕ} :
    (i < stackLen →
      frameSave pool mem off stackLen imgBase imgLen (off + i) = mem (execStackBase + i)) ∧
    (i < imgLen →
      frameSave pool mem off stackLen imgBase imgLen (off + stackLen + i) = mem (imgBase + i)) := by
  constructor
  · intro h
    rw [frameSave, copy_of_not_mem (by omega), copy_of_mem (by omega), Nat.add_sub_cancel_left]
  · intro h
    rw [frameSave, copy_of_mem (by omega), Nat.add_sub_cancel_left]

/-- Restoring a frame changes nothing outside the stack and the interval. -/
theorem frameRestore_of_not_mem {pool : ℕ → UInt8} {mem : Mem}
    {off stackLen imgBase imgLen a : ℕ}
    (hstack : ¬(execStackBase ≤ a ∧ a < execStackBase + stackLen))
    (himg : ¬(imgBase ≤ a ∧ a < imgBase + imgLen)) :
    frameRestore pool mem off stackLen imgBase imgLen a = mem a := by
  rw [frameRestore, copy_of_not_mem himg, copy_of_not_mem hstack]

/-- When the pool holds the bytes `mem₀` had in the stack and the interval, restoring puts them
back. -/
theorem frameRestore_of_saved {pool : ℕ → UInt8} {mem mem₀ : Mem}
    {off stackLen imgBase imgLen a : ℕ}
    (hstack : ∀ i, i < stackLen → pool (off + i) = mem₀ (execStackBase + i))
    (himg : ∀ i, i < imgLen → pool (off + stackLen + i) = mem₀ (imgBase + i))
    (ha : execStackBase ≤ a ∧ a < execStackBase + stackLen ∨ imgBase ≤ a ∧ a < imgBase + imgLen) :
    frameRestore pool mem off stackLen imgBase imgLen a = mem₀ a := by
  rw [frameRestore]
  by_cases hin : imgBase ≤ a ∧ a < imgBase + imgLen
  · rw [copy_of_mem hin, himg _ (by omega), Nat.add_sub_cancel' hin.1]
  · have hin' := ha.resolve_right hin
    rw [copy_of_not_mem hin, copy_of_mem hin', hstack _ (by omega), Nat.add_sub_cancel' hin'.1]

end ChalesOs
