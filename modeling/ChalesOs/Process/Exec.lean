import ChalesOs.Abi
import ChalesOs.Elf.Loader
import ChalesOs.Elf.UserStack
import ChalesOs.Lib.StepSystem
import ChalesOs.Process.Sched

/-!
# `exec_run`, and the system of processes

`execRun` is `exec_run` up to the point where the new program runs: the caller's part of it that
follows when the child has ended only returns 0. It is cut where more state begins to change:
`execRun` ends with the copied arguments, `execImage` saves the caller's frame, `execLoad` writes
the stack and the image, and `execTask` makes the task and switches to it. The program files are a
parameter, which stands for `ramfs_file_data`.

`procSystem` is the machine under the system calls that matter to processes, and under the
stores of the running program. A machine that has halted makes no step.
-/

namespace ChalesOs

open ByteMemory

/-! ### `exec_run` -/

/-- What a frame holds: the first `stackLen` bytes of the user stack, and an interval of the
image. -/
structure FrameShape where
  stackLen : ℕ
  imgBase : ℕ
  imgLen : ℕ

/-- The part of the task `parent` that `exec_run` saves before it starts a program with the
extent `[lo, hi)`. -/
def frameShape (parent : Task) (lo hi : ℕ) : FrameShape :=
  if parent.elfHi ≠ 0 then
    let imgBase := if lo > parent.elfLo then lo else parent.elfLo
    let imgEnd := if hi < parent.elfHi then hi else parent.elfHi
    ⟨execStackSize, imgBase, if imgEnd > imgBase then imgEnd - imgBase else 0⟩
  else ⟨0, 0, 0⟩

/-- `EXEC_FAIL`, without its `return -1`. -/
def execFail (m : Machine) (frameOff : ℕ) (fr : FrameShape) : Machine :=
  { m with
    mem := frameRestore m.execPool m.mem frameOff fr.stackLen fr.imgBase fr.imgLen
    execPoolUsed := frameOff }

/-- The lines of `exec_run` that fill in the new task. -/
def adoptChild (m : Machine) (child parent lo hi frameOff : ℕ) (fr : FrameShape) : Machine :=
  m.modifyTask child fun c =>
    { c with
      parent := parent
      elfLo := lo
      elfHi := hi
      hasFrame := true
      frameOff := frameOff
      frameStackLen := fr.stackLen
      frameImgBase := fr.imgBase
      frameImgLen := fr.imgLen
      frameBrk := m.userBrk }

/-- `exec_run` behind the loading of the image. -/
def execTask (L : Layout) (m : Machine) (entry sp lo hi frameOff : ℕ) (fr : FrameShape) :
    Option (ℤ × Machine) :=
  let parent := m.currentTask
  (schedTaskNew L m entry sp).bind fun r =>
    match r.1 with
    | none => some (-1, execFail r.2 frameOff fr)
    | some child =>
      let m := adoptChild r.2 child parent lo hi frameOff fr
      let m := m.modifyTask parent fun p => { p with state := .blocked }
      (schedule m).map fun r => (0, r.2)

/-- `exec_run` behind the saving of the caller's frame. -/
def execLoad (L : Layout) (m : Machine) (img : Image) (lo hi : ℕ) (argv envp : List CString)
    (frameOff : ℕ) (fr : FrameShape) : Option (ℤ × Machine) :=
  let m := { m with pageTable := pagingMapUserRange m.pageTable execStackBase execStackTop }
  match elfBuildUserStack m.mem execStackBase execStackTop argv envp with
  | none => some (-1, execFail m frameOff fr)
  | some (mem, sp) =>
    (elfLoad L img ⟨mem, m.pageTable⟩).bind fun r =>
      let m := { m with mem := r.2.mem, pageTable := r.2.pageTable }
      match r.1 with
      | .error _ => some (-1, execFail m frameOff fr)
      | .ok entry => execTask L m entry sp lo hi frameOff fr

/-- `exec_run` behind the copying of the arguments. -/
def execImage (L : Layout) (m : Machine) (img : Image) (lo hi : ℕ) (argv envp : List CString) :
    Option (ℤ × Machine) :=
  let fr := frameShape (m.tasks m.currentTask) lo hi
  let frameOff := m.execPoolUsed
  let frameLen := align16 fr.stackLen + align16 fr.imgLen
  if frameOff + frameLen > execPoolSize then some (-1, m)
  else
    execLoad L
      { m with
        execPool := frameSave m.execPool m.mem frameOff fr.stackLen fr.imgBase fr.imgLen
        execPoolUsed := frameOff + frameLen }
      img lo hi argv envp frameOff fr

/-- `exec_run`; `fileData` is `ramfs_file_data`, with `none` for `NULL`. -/
def execRun (L : Layout) (fileData : CString → Option (List UInt8)) (m : Machine)
    (path : Option CString) (argv envp : Option (List CString)) : Option (ℤ × Machine) :=
  match path.bind fileData with
  | none => some (-1, m)
  | some bytes =>
    if bytes.length = 0 then some (-1, m)
    else
      (elfExtent (.ofBytes bytes) m.mem).bind fun r =>
        match r with
        | none => some (-1, m)
        | some (lo, hi) =>
          match (copyStrings 0 0 (argv.getD [])).bind fun used =>
              copyStrings 0 used (envp.getD []) with
          | none => some (-1, m)
          | some _ => execImage L m (.ofBytes bytes) lo hi (argv.getD []) (envp.getD [])

/-! ### The other system calls -/

/-- `sbrk_handler`; `user_brk` is 0 for `NULL`, and the sum is a 32-bit one. -/
def sbrkHandler (L : Layout) (m : Machine) (increment : ℤ) : ℤ × Machine :=
  let userBrk := if m.userBrk = 0 then L.userHeapStart else m.userBrk
  let newBrk := (((userBrk : ℤ) + increment) % 0x100000000).toNat
  if increment < 0 ∧ newBrk < L.userHeapStart then (-1, { m with userBrk := userBrk })
  else if newBrk > L.userHeapEnd then (-1, { m with userBrk := userBrk })
  else (userBrk, { m with userBrk := newBrk })

/-- `SYS_wait`; `ptr` is 0 for `NULL`. -/
def sysWait (m : Machine) (ptr : ℕ) : ℤ × Machine :=
  let me := m.tasks m.currentTask
  if me.zombieValid then
    (me.zombiePid, { m with
        mem := if ptr ≠ 0 then
            write m.mem ptr (leWord (me.zombieStatus % 0x100000000).toNat)
          else m.mem }.modifyTask
      m.currentTask fun t => { t with zombieValid := false })
  else (-eChild, m)

/-- `SYS_kill`. -/
def sysKill (m : Machine) (pid sig : ℕ) : Option (ℤ × Machine) :=
  (schedFindTask m pid).bind fun target =>
    if sig > 64 then some (-eInval, m)
    else if target = 0 then some (-eSrch, m)
    else if sig = 0 then some (0, m)
    else (schedTaskExit m target sig).map fun m => (0, m)

/-- The system calls, with their arguments, and the stores of the running program. -/
inductive ProcOp
  | exec (fileData : CString → Option (List UInt8)) (path : Option CString)
      (argv envp : Option (List CString))
  | exit (code : ℕ)
  | kill (pid sig : ℕ)
  | wait (ptr : ℕ)
  | sbrk (increment : ℤ)
  | store (mem : Mem)

/-- One operation of the current task: what it returns, if it returns, and the machine. -/
def procExec (L : Layout) (m : Machine) : ProcOp → Option (ℤ × Machine)
  | .exec fileData path argv envp => execRun L fileData m path argv envp
  | .exit code => (schedTaskExit m m.currentTask ((code % 0x100 * 0x100 : ℕ) : ℤ)).map fun m =>
      (0, m)
  | .kill pid sig => sysKill m pid sig
  | .wait ptr => some (sysWait m ptr)
  | .sbrk increment => some (sbrkHandler L m increment)
  | .store mem => some (0, { m with mem := mem })

/-- Any sequence of operations from `sched_init`, until the machine halts. -/
def procSystem (L : Layout) : StepSystem Machine ProcOp where
  start m := ∃ mem pageTable, m = schedInit L mem pageTable
  step m op := if m.halted then none else (procExec L m op).map Prod.snd

end ChalesOs
