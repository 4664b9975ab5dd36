import ChalesOs.Elf.UserStack
import ChalesOs.Lib.StepSystem
import ChalesOs.Process.Cpu
import ChalesOs.Process.Runs

/-!
# The context switch

`sched_switch`, instruction by instruction. Its first half saves the registers on the stack of
`prev`, its second half takes them from the stack of `next`, so a task that has called it waits
as long as its `task_t` and its stack are spared: `switch_returns` says that it then comes back
as from any other call. A new task waits in the same way, since `sched_task_new` makes its stack
look like that of a caller; `newTask_starts` says where the first switch to it leads.
-/

namespace ChalesOs

/-! ### `sched_switch` -/

/-- `sched_switch`. -/
def schedSwitch : List Instr :=
  [.load 4 .esp .eax, .load 8 .esp .edx,
    .push .ebx, .push .esi, .push .edi, .push .ebp,
    .store .esp .eax, .load 0 .edx .esp,
    .pop .ebp, .pop .edi, .pop .esi, .pop .ebx,
    .ret]

/-- The registers a function has to leave as they are. -/
def calleeSaved : List Reg := [.ebx, .esi, .edi, .ebp]

/-- The argument `prev` of a call of `sched_switch`. -/
def Cpu.prev (c : Cpu) : UInt32 := c.word (c.regs .esp + 4)

/-- The argument `next` of a call of `sched_switch`. -/
def Cpu.next (c : Cpu) : UInt32 := c.word (c.regs .esp + 8)

/-- The bytes a call of `sched_switch` writes: the first field of `prev`, and the stack. -/
def Cpu.switchBytes (c : Cpu) : Set ℕ :=
  Set.Ico c.prev.toNat (c.prev.toNat + 4) ∪ Set.Ico (c.sp - 16) c.sp

/-- The first half of `sched_switch`, up to the store to `prev->esp`. -/
private def switchOut : List Instr :=
  .load 4 .esp .eax :: .load 8 .esp .edx :: calleeSaved.map .push ++ [.store .esp .eax]

/-- The second half, on the other stack. -/
private def switchIn : List Instr :=
  .load 0 .edx .esp :: calleeSaved.reverse.map .pop ++ [.ret]

private theorem schedSwitch_eq : schedSwitch = switchOut ++ switchIn := rfl

private theorem length_saved (c : Cpu) :
    (calleeSaved.reverse.map fun r => (c.regs r).toNat).length = 4 := rfl

variable {c : Cpu} {mem mem' : Mem}

/-- The first half saves the registers on the stack and the stack pointer in `prev`. -/
private theorem switchOut_spec (hroom : 16 ≤ c.sp) :
    (runCode switchOut c).regs .edx = c.next ∧
      Set.EqOn (runCode switchOut c).mem c.mem c.switchBytesᶜ ∧
      loadWord (runCode switchOut c).mem c.prev.toNat = c.sp - 16 ∧
      (Set.Ico (c.sp - 16) c.sp ⊆ (Set.Ico c.prev.toNat (c.prev.toNat + 4))ᶜ →
        WordsAt (runCode switchOut c).mem (c.sp - 16)
          (calleeSaved.reverse.map fun r => (c.regs r).toNat)) := by
  set c₁ := (c.setReg .eax c.prev).setReg .edx c.next with hc₁
  have hesp : (c.setReg .eax c.prev).regs .esp = c.regs .esp := Cpu.setReg_of_ne (by decide)
  have hrun : runCode switchOut c =
      (Instr.store .esp .eax).run (runCode (calleeSaved.map .push) c₁) := by
    rw [switchOut, List.cons_append, List.cons_append, runCode_cons, runCode_cons, runCode_append]
    have hload : (Instr.load 8 .esp .edx).run ((Instr.load 4 .esp .eax).run c) = c₁ := by
      rw [hc₁, Instr.run, Instr.run, ← Cpu.prev, hesp]
      rfl
    rw [hload]
    rfl
  have hregs₁ : ∀ r, r ≠ .eax → r ≠ .edx → c₁.regs r = c.regs r := fun r hr hr' =>
    (Cpu.setReg_of_ne hr').trans (Cpu.setReg_of_ne hr)
  have hsp₁ : c₁.sp = c.sp := congrArg UInt32.toNat (hregs₁ .esp (by decide) (by decide))
  obtain ⟨hsp, hregs, hmem, hwords⟩ : Pushed calleeSaved c₁ (runCode (calleeSaved.map .push) c₁) :=
    pushRegs (by decide) (by rw [hsp₁]; exact hroom)
  set c₂ := runCode (calleeSaved.map .push) c₁
  have hsp₂ : c₂.sp = c.sp - 16 := by
    rw [hsp₁] at hsp
    exact Nat.eq_sub_of_add_eq hsp
  have heax : c₂.regs .eax = c.prev := by
    rw [hregs .eax (by decide), hc₁, Cpu.setReg_of_ne (by decide), Cpu.setReg_self]
  have hedx : c₂.regs .edx = c.next := by rw [hregs .edx (by decide), hc₁, Cpu.setReg_self]
  have hfinal : (runCode switchOut c).mem = storeWord c₂.mem c.prev.toNat c₂.sp := by
    rw [hrun, ← heax]
    rfl
  rw [hsp₁, hsp₂] at hmem
  rw [hsp₂] at hwords hfinal
  rw [hfinal]
  refine ⟨by rw [hrun]; exact hedx, ?_, ?_, fun hapart => ?_⟩
  · rw [Cpu.switchBytes, Set.compl_union]
    exact (eqOn_storeWord.mono Set.inter_subset_left).trans (hmem.mono Set.inter_subset_right)
  · rw [loadWord_storeWord_self, u32_of_lt]
    have := (c.regs .esp).toNat_lt
    rw [Cpu.sp]
    omega
  · have heq : ∀ r ∈ calleeSaved.reverse, (c₁.regs r).toNat = (c.regs r).toNat := by
      intro r hr
      rw [hregs₁ r (fun h => absurd (h ▸ hr) (by decide)) fun h => absurd (h ▸ hr) (by decide)]
    rw [← List.map_congr_left heq]
    refine hwords.congr fun b hb hb' => eqOn_storeWord ?_
    rw [length_saved] at hb'
    exact hapart ⟨hb, by omega⟩

/-- The second half takes the registers and the way on from the stack of `next`. -/
private theorem switchIn_spec {sp ret : ℕ} {ws : List ℕ} {next : UInt32} (hedx : c.regs .edx = next)
    (hsp : loadWord c.mem next.toNat = sp) (hws : WordsAt c.mem sp (ws ++ [ret]))
    (hlen : ws.length = 4) (hlt : sp + 20 < 0x100000000) :
    (runCode switchIn c).sp = sp + 20 ∧
      (runCode switchIn c).eip.toNat = ret ∧
      calleeSaved.reverse.map (fun r => ((runCode switchIn c).regs r).toNat) = ws := by
  set c₁ := c.setReg .esp (c.word next) with hc₁
  have hrun : runCode switchIn c =
      Instr.ret.run (runCode (calleeSaved.reverse.map .pop) c₁) := by
    rw [switchIn, List.cons_append, runCode_cons, runCode_append]
    have hload : (Instr.load 0 .edx .esp).run c = c₁ := by
      rw [hc₁, Instr.run, hedx, UInt32.add_zero]
    rw [hload]
    rfl
  have hsp₁ : c₁.sp = sp := by rw [Cpu.sp, hc₁, Cpu.setReg_self, Cpu.toNat_word, hsp]
  obtain ⟨hsaved, hret, -⟩ := wordsAt_append.mp hws
  have hfour : calleeSaved.reverse.length = 4 := rfl
  obtain ⟨hmem, hsp₂, -, hwords⟩ :
      Popped calleeSaved.reverse ws c₁ (runCode (calleeSaved.reverse.map .pop) c₁) :=
    popRegs (by decide) (by decide) (hlen.trans hfour.symm) (by rwa [hsp₁])
      (by rw [hsp₁, hfour]; omega)
  set c₂ := runCode (calleeSaved.reverse.map .pop) c₁
  replace hsp₂ : c₂.sp = sp + 16 := by rw [hsp₂, hsp₁, hfour]
  rw [hrun]
  refine ⟨?_, ?_, ?_⟩
  · rw [Cpu.sp_ret (by omega), hsp₂]
  · rw [Cpu.eip_ret, hsp₂, hmem, ← hret, hlen, hc₁, Cpu.setReg_mem]
  · rw [← hwords]
    refine List.map_congr_left fun r hr => ?_
    rw [Cpu.regs_ret fun h => absurd (h ▸ hr) (by decide)]

private theorem switchIn_mem : (runCode switchIn c).mem = c.mem := by
  simp [switchIn, calleeSaved, Instr.run]

/-! ### Tasks that wait in `sched_switch` -/

/-- A task that has called `sched_switch`: its `task_t`, the state at the call, and the end of
its kernel stack. -/
structure Parked where
  task : UInt32
  cpu : Cpu
  stackEnd : ℕ
  room : 16 ≤ cpu.sp
  onStack : cpu.sp + 4 ≤ stackEnd
  lt : stackEnd < 0x100000000
  apart : Set.Ico (cpu.sp - 16) stackEnd ⊆ (Set.Ico task.toNat (task.toNat + 4))ᶜ

variable {w : Parked}

/-- What has to stay as it is until the task comes back: `task->esp`, and its stack. -/
def Parked.bytes (w : Parked) : Set ℕ :=
  Set.Ico w.task.toNat (w.task.toNat + 4) ∪ Set.Ico (w.cpu.sp - 16) w.stackEnd

/-- The memory holds what `sched_switch` needs to go on with the task. -/
structure Parked.Kept (w : Parked) (mem : Mem) : Prop where
  esp : loadWord mem w.task.toNat = w.cpu.sp - 16
  saved : WordsAt mem (w.cpu.sp - 16) (calleeSaved.reverse.map fun r => (w.cpu.regs r).toNat)
  stack : Set.EqOn mem w.cpu.mem (Set.Ico w.cpu.sp w.stackEnd)

/-- The task has come back from its call: registers and stack are as they were. -/
structure Parked.Resumed (w : Parked) (c : Cpu) : Prop where
  saved : ∀ r ∈ calleeSaved, c.regs r = w.cpu.regs r
  sp : c.sp = w.cpu.sp + 4
  eip : c.eip.toNat = loadWord w.cpu.mem w.cpu.sp
  stack : Set.EqOn c.mem w.cpu.mem (Set.Ico w.cpu.sp w.stackEnd)

theorem Parked.Kept.congr (h : w.Kept mem) (heq : Set.EqOn mem' mem w.bytes) : w.Kept mem' := by
  have hroom := w.room
  have hon := w.onStack
  refine ⟨?_, h.saved.congr fun b hb hb' => heq (Or.inr ⟨hb, ?_⟩), ?_⟩
  · rw [← h.esp]
    exact loadWord_congr fun k hk =>
      heq (Or.inl ⟨Nat.le_add_right _ k, Nat.add_lt_add_left hk _⟩)
  · rw [length_saved] at hb'
    omega
  · exact (heq.mono (Set.subset_union_of_subset_right
      (Set.Ico_subset_Ico (Nat.sub_le _ _) le_rfl) _)).trans h.stack

/-- A call of `sched_switch` leaves the caller waiting. -/
theorem Parked.kept_of_call (w : Parked) (hprev : w.cpu.prev = w.task) :
    w.Kept (runCode schedSwitch w.cpu).mem := by
  have hroom := w.room
  have hon := w.onStack
  obtain ⟨-, hmem, hesp, hsaved⟩ := switchOut_spec hroom
  rw [schedSwitch_eq, runCode_append, switchIn_mem]
  rw [hprev] at hesp hsaved
  refine ⟨hesp, hsaved ((Set.Ico_subset_Ico le_rfl (by omega)).trans w.apart),
    hmem.mono ?_⟩
  rw [Cpu.switchBytes, hprev]
  rintro a ha (ha' | ha')
  · exact w.apart ⟨by have := ha.1; omega, ha.2⟩ ha'
  · exact absurd ha'.2 (Nat.not_lt.mpr ha.1)

/-- A call of `sched_switch` that spares a waiting task and switches to it resumes it. -/
theorem Parked.Kept.resumed (h : w.Kept c.mem) (hroom : 16 ≤ c.sp)
    (hspare : w.bytes ⊆ c.switchBytesᶜ) (hnext : c.next = w.task) :
    w.Resumed (runCode schedSwitch c) := by
  have hroom' := w.room
  have hon := w.onStack
  have hlt := w.lt
  obtain ⟨hedx, hmem, -, -⟩ := switchOut_spec hroom
  replace h : w.Kept (runCode switchOut c).mem :=
    h.congr (hmem.mono hspare)
  have hret : loadWord (runCode switchOut c).mem w.cpu.sp = loadWord w.cpu.mem w.cpu.sp :=
    loadWord_congr fun k hk => h.stack ⟨Nat.le_add_right _ k, by omega⟩
  have hws : WordsAt (runCode switchOut c).mem (w.cpu.sp - 16)
      (calleeSaved.reverse.map (fun r => (w.cpu.regs r).toNat) ++
        [loadWord w.cpu.mem w.cpu.sp]) := by
    refine wordsAt_append.mpr ⟨h.saved, ?_, trivial⟩
    rw [length_saved, Nat.sub_add_cancel hroom', hret]
  obtain ⟨hsp, heip, hregs⟩ :=
    switchIn_spec (hedx.trans hnext) h.esp hws (length_saved _) (by omega)
  rw [schedSwitch_eq, runCode_append]
  refine ⟨fun r hr => ?_, by omega, heip, by rw [switchIn_mem]; exact h.stack⟩
  exact UInt32.toNat_inj.mp (List.map_inj_left.mp hregs r (List.mem_reverse.mpr hr))

/-! ### Runs -/

/-- What happens to the processor: some piece of code runs, or a task calls `sched_switch`. -/
inductive CpuStep
  /-- Any other code, up to the state `c`. -/
  | code (c : Cpu)
  | switch

/-- The processor from the state `c₀` on. -/
def cpuSystem (c₀ : Cpu) : StepSystem Cpu CpuStep where
  start c := c = c₀
  step
    | _, .code c => some c
    | c, .switch => some (runCode schedSwitch c)

/-- The step leaves some bytes alone. -/
def CpuStep.Spares (bytes : Set ℕ) (c : Cpu) : CpuStep → Prop
  | .code c' => Set.EqOn c'.mem c.mem bytes
  | .switch => 16 ≤ c.sp ∧ bytes ⊆ c.switchBytesᶜ

/-- **Parked.** A parked task stays parked as long as its bytes are spared. -/
theorem Parked.kept_of_reachable {c₀ : Cpu} (h : w.Kept c₀.mem)
    (hrun : (cpuSystem c₀).ReachableBy (CpuStep.Spares w.bytes) c) : w.Kept c.mem := by
  refine hrun.invariant (p := fun c => w.Kept c.mem) (fun c hc => hc ▸ h) ?_
  intro c i c' hkept hspares hstep
  cases i with
  | code c₁ =>
    obtain rfl := Option.some.inj hstep
    exact hkept.congr hspares
  | switch =>
    obtain rfl := Option.some.inj hstep
    rw [schedSwitch_eq, runCode_append, switchIn_mem]
    exact hkept.congr ((switchOut_spec hspares.1).2.1.mono hspares.2)

/-- **Switching away and back.** Between a call of `sched_switch` and the switch back to its
task, any code may run and any other tasks may switch; as long as they spare the `task_t` and the
stack of the task, it returns from its call with its registers and its stack as they were. -/
theorem switch_returns (w : Parked) (hprev : w.cpu.prev = w.task)
    (hrun : (cpuSystem (runCode schedSwitch w.cpu)).ReachableBy (CpuStep.Spares w.bytes) c)
    (hspares : CpuStep.switch.Spares w.bytes c) (hnext : c.next = w.task) :
    w.Resumed (runCode schedSwitch c) :=
  (Parked.kept_of_reachable (w.kept_of_call hprev) hrun).resumed hspares.1 hspares.2 hnext

/-- Two tasks on stacks up to 0x2000 and 0x3000: the one at 0x100 calls `sched_switch`, the one at
0x200 waits in it. -/
def switchAway : Cpu :=
  ((Cpu.mk (fun _ => 0) 0 (storeWords (storeWords (storeWords (storeWords (fun _ => 0)
    0x1FE0 [0x500, 0x100, 0x200]) 0x200 [0x2FC0]) 0x2FC0 [0, 0, 0, 0, 0x600])
    0x2FE0 [0x700, 0x200, 0x100])).setReg .ebx 7).setReg .esp 0x1FE0

/-- The second task about to switch back. -/
def switchBack : Cpu := (runCode schedSwitch switchAway).setReg .esp 0x2FE0

theorem switch_returns_sample :
    (runCode schedSwitch switchBack).regs .ebx = 7 ∧
      (runCode schedSwitch switchBack).eip.toNat = 0x500 := by
  have hcall : switchAway.prev = 0x100 := by decide +kernel
  have hnext : switchBack.next = 0x100 := by decide +kernel
  have hebx : switchAway.regs .ebx = 7 := by decide +kernel
  have hret : loadWord switchAway.mem switchAway.sp = 0x500 := by decide +kernel
  have hsp : switchAway.sp = 0x1FE0 := by decide +kernel
  have hprev : switchBack.prev.toNat = 0x200 := by decide +kernel
  have hsp' : switchBack.sp = 0x2FE0 := by decide +kernel
  have hmem : switchBack.mem = (runCode schedSwitch switchAway).mem := by
    rw [switchBack, Cpu.setReg_mem]
  have htask : (0x100 : UInt32).toNat = 0x100 := rfl
  have hapart : Set.Ico (switchAway.sp - 16) 0x2000 ⊆
      (Set.Ico (0x100 : UInt32).toNat ((0x100 : UInt32).toNat + 4))ᶜ := by
    rw [hsp, htask]
    intro a ha ha'
    rw [Set.mem_Ico] at ha ha'
    omega
  let w : Parked := ⟨0x100, switchAway, 0x2000, by omega, by omega, by omega, hapart⟩
  have hspares : w.bytes ⊆ switchBack.switchBytesᶜ := by
    have hend : w.stackEnd = 0x2000 := rfl
    rw [Cpu.switchBytes, Parked.bytes, hprev, hsp', htask, hsp, hend]
    intro a ha ha'
    simp only [Set.mem_union, Set.mem_Ico] at ha ha'
    omega
  have hback : w.Resumed (runCode schedSwitch switchBack) :=
    switch_returns w hcall
      (.step (i := .code switchBack) (.start rfl) (fun a _ => congrFun hmem a) rfl)
      ⟨by omega, hspares⟩ hnext
  exact ⟨(hback.saved .ebx (by decide)).trans hebx, hback.eip.trans hret⟩

/-! ### New tasks -/

/-- The words `sched_task_new` pushes on the kernel stack of a new task, the last one pushed in
front: four registers, the return address of `sched_switch`, and what `enter_user_mode_at` finds
on the stack. -/
def newTaskWords (enterUserModeAt entry userStackTop : ℕ) : List ℕ :=
  [0, 0, 0, 0] ++ [enterUserModeAt, 0, entry, userStackTop]

/-- The memory behind `sched_task_new`: the words on the stack of the new task at `t`, and
`task->esp`. -/
def newTaskMem (mem : Mem) (enterUserModeAt t : ℕ) (task : Task) : Mem :=
  let pushed := pushWords mem (task.stack + taskStackSize)
    (newTaskWords enterUserModeAt task.entry task.userStackTop)
  storeWord pushed.1 t pushed.2

/-- The bytes the start of a new task needs. -/
def newTaskBytes (t : ℕ) (task : Task) : Set ℕ :=
  Set.Ico t (t + 4) ∪ Set.Ico (task.stack + taskStackSize - 32) (task.stack + taskStackSize)

/-- The `task_t` and the kernel stack of a new task are in the heap, apart from each other. -/
structure OnHeap (L : Layout) (t : ℕ) (task : Task) : Prop where
  taskEnd : t + taskSize ≤ L.heapEnd
  stackEnd : task.stack + taskStackSize ≤ L.heapEnd
  apart : t + taskSize ≤ task.stack ∨ task.stack + taskStackSize ≤ t

variable {L : Layout} {m m' : Machine} {t : ℕ} {task : Task} {rest : List ℕ}

/-- What `sched_task_new` allocates. -/
theorem TaskRing.newTask_onHeap (h : TaskRing L m (m.currentTask :: rest)) {entry sp : ℕ}
    (hnew : ChalesOs.schedTaskNew L m entry sp = some (some t, m')) :
    OnHeap L t (m'.tasks t) ∧ (m'.tasks t).entry = entry ∧ (m'.tasks t).userStackTop = sp := by
  obtain ⟨next, heap, hreap, hring, -⟩ := h.reap
  rw [ChalesOs.schedTaskNew, hreap, Option.map_some] at hnew
  obtain ⟨r, heap₁, halloc⟩ : ∃ r heap₁, kmalloc L heap taskSize = (r, heap₁) := ⟨_, _, rfl⟩
  simp only [Machine.relink_heap, halloc] at hnew
  obtain ⟨harena₁, -⟩ := kmalloc_live hring.arena (by decide) halloc
  cases r with
  | none => simp at hnew
  | some c =>
    obtain ⟨r, heap₂, halloc'⟩ : ∃ r heap₂, kmalloc L heap₁ taskStackSize = (r, heap₂) :=
      ⟨_, _, rfl⟩
    simp only [halloc'] at hnew
    obtain ⟨harena₂, -⟩ := kmalloc_live harena₁ (by decide) halloc'
    cases r with
    | none => simp at hnew
    | some stack =>
      obtain ⟨hc, rfl⟩ := Prod.mk.inj (Option.some.inj hnew)
      obtain rfl := Option.some.inj hc
      obtain ⟨n, hn, hperm⟩ := kmalloc_allocs halloc
      obtain ⟨n', hn', hperm'⟩ := kmalloc_allocs halloc'
      have hstack : (stack, n') ∈ heap₂.allocs L := hperm'.mem_iff.mpr List.mem_cons_self
      have htask : (c, n) ∈ heap₂.allocs L :=
        hperm'.mem_iff.mpr (List.mem_cons_of_mem _ (hperm.mem_iff.mpr List.mem_cons_self))
      have hne : (c, n) ≠ (stack, n') := fun heq => by
        have hnd := nodup_liveFrom heap₂.blocks L.firstBlock
        rw [← KernelHeap.live, KernelHeap.live_eq_map, (hperm'.map Prod.fst).nodup_iff,
          List.map_cons, List.nodup_cons, (Prod.mk.inj heq).1.symm] at hnd
        exact hnd.1 (List.mem_map.mpr ⟨(c, n), hperm.mem_iff.mpr List.mem_cons_self, rfl⟩)
      have hin := (mem_allocsFrom htask).2.trans harena₂
      have hin' := (mem_allocsFrom hstack).2.trans harena₂
      rw [Machine.modifyTask_keeps _ _ _ Task.entry _ rfl,
        Machine.modifyTask_keeps _ _ _ Task.userStackTop _ rfl, Machine.modifyTask_self]
      refine ⟨⟨by omega, ?_, ?_⟩, rfl, rfl⟩ <;>
        rw [Machine.modifyTask_keeps _ _ _ Task.stack _ rfl, Machine.modifyTask_self]
      · exact le_trans (Nat.add_le_add_left hn' _) hin'
      · have := allocsFrom_apart htask hstack hne
        dsimp only at this ⊢
        omega

/-- The words of a new task are in memory behind `sched_task_new`. -/
private theorem newTaskMem_words {enterUserModeAt : ℕ} (mem : Mem) (hheap : OnHeap L t task)
    (henter : enterUserModeAt < 0x100000000) (hentry : task.entry < 0x100000000)
    (htop : task.userStackTop < 0x100000000) :
    loadWord (newTaskMem mem enterUserModeAt t task) t = task.stack + taskStackSize - 32 ∧
      WordsAt (newTaskMem mem enterUserModeAt t task) (task.stack + taskStackSize - 32)
        (newTaskWords enterUserModeAt task.entry task.userStackTop) := by
  have hend := hheap.stackEnd
  have hmax := L.heapEnd_le
  have hsize : taskStackSize = 4096 := rfl
  have htask : taskSize = 76 := rfl
  have hws : ∀ x ∈ newTaskWords enterUserModeAt task.entry task.userStackTop,
      x < 0x100000000 := by
    simp only [newTaskWords, List.cons_append, List.nil_append, List.forall_mem_cons]
    exact ⟨by omega, by omega, by omega, by omega, henter, by omega, hentry, htop, by simp⟩
  have hlen : 4 * (newTaskWords enterUserModeAt task.entry task.userStackTop).length = 32 := rfl
  have hroom : 32 ≤ task.stack + taskStackSize := by omega
  have hsp := (pushWords_spec _ mem _ (hlen.trans_le hroom)).1
  have hwords := pushWords_wordsAt _ hws mem _ (hlen.trans_le hroom)
  rw [newTaskMem]
  set pushed := pushWords mem (task.stack + taskStackSize)
    (newTaskWords enterUserModeAt task.entry task.userStackTop)
  have hcursor : pushed.2 = task.stack + taskStackSize - 32 := by omega
  rw [hcursor] at hwords
  refine ⟨?_, hwords.congr fun b hb hb' => eqOn_storeWord ?_⟩
  · rw [loadWord_storeWord_self, u32_of_lt (by omega), hcursor]
  · have := hheap.apart
    rw [hlen] at hb'
    simp only [Set.mem_compl_iff, Set.mem_Ico]
    omega

/-- `sched_task_new` makes a task that waits as if `enter_user_mode_at` had called
`sched_switch`. -/
private theorem newTask_waits {enterUserModeAt : ℕ} (mem : Mem) (hheap : OnHeap L t task)
    (henter : enterUserModeAt < 0x100000000) (hentry : task.entry < 0x100000000)
    (htop : task.userStackTop < 0x100000000) :
    ∃ w : Parked, w.task.toNat = t ∧ w.bytes = newTaskBytes t task ∧
      w.cpu.mem = newTaskMem mem enterUserModeAt t task ∧
      w.cpu.sp = task.stack + taskStackSize - 16 ∧ w.stackEnd = task.stack + taskStackSize ∧
      (∀ r ∈ calleeSaved, w.cpu.regs r = 0) ∧ w.Kept w.cpu.mem := by
  have hend := hheap.stackEnd
  have hend' := hheap.taskEnd
  have hapart := hheap.apart
  have hmax := L.heapEnd_le
  have hsize : taskStackSize = 4096 := rfl
  have htask : taskSize = 76 := rfl
  obtain ⟨hesp, hwords⟩ := newTaskMem_words mem hheap henter hentry htop
  have hnat : ∀ n, n < 0x100000000 → (UInt32.ofNat n).toNat = n := fun n hn =>
    UInt32.toNat_ofNat_of_lt hn
  set c : Cpu := (Cpu.mk (fun _ => 0) 0 (newTaskMem mem enterUserModeAt t task)).setReg .esp
    (UInt32.ofNat (task.stack + taskStackSize - 16)) with hc
  have hsp : c.sp = task.stack + taskStackSize - 16 := by
    rw [Cpu.sp, hc, Cpu.setReg_self, hnat _ (by omega)]
  have hsub : task.stack + taskStackSize - 16 - 16 = task.stack + taskStackSize - 32 := by omega
  have hregs : ∀ r ∈ calleeSaved, c.regs r = 0 := fun r hr =>
    Cpu.setReg_of_ne fun heq => absurd (heq ▸ hr) (by decide)
  have htoNat : (UInt32.ofNat t).toNat = t := hnat t (by omega)
  have hbytes : Set.Ico (UInt32.ofNat t).toNat ((UInt32.ofNat t).toNat + 4) ∪
      Set.Ico (c.sp - 16) (task.stack + taskStackSize) = newTaskBytes t task := by
    rw [newTaskBytes, htoNat, hsp, hsub]
  have hspare : Set.Ico (c.sp - 16) (task.stack + taskStackSize) ⊆
      (Set.Ico (UInt32.ofNat t).toNat ((UInt32.ofNat t).toNat + 4))ᶜ := by
    intro a ha ha'
    rw [Set.mem_Ico] at ha ha'
    omega
  have hesp' : loadWord c.mem (UInt32.ofNat t).toNat = c.sp - 16 := by
    rw [htoNat, hsp, hsub]
    exact hesp
  have hsaved : WordsAt c.mem (c.sp - 16) (calleeSaved.reverse.map fun r => (c.regs r).toNat) := by
    have hzero : ∀ r ∈ calleeSaved.reverse, (c.regs r).toNat = 0 := fun r hr => by
      rw [hregs r (List.mem_reverse.mp hr)]
      rfl
    rw [newTaskWords, wordsAt_append] at hwords
    rw [hsp, hsub, List.map_congr_left hzero]
    exact hwords.1
  exact ⟨⟨UInt32.ofNat t, c, task.stack + taskStackSize, by omega, by omega, by omega, hspare⟩,
    htoNat, hbytes, rfl, hsp, rfl, hregs, hesp', hsaved, Set.eqOn_refl _ _⟩

/-- A new task has been started in `enter_user_mode_at`, with its two arguments. -/
structure Started (enterUserModeAt : ℕ) (task : Task) (c : Cpu) : Prop where
  eip : c.eip.toNat = enterUserModeAt
  entry : loadWord c.mem (c.sp + 4) = task.entry
  userStackTop : loadWord c.mem (c.sp + 8) = task.userStackTop
  regs : ∀ r ∈ calleeSaved, c.regs r = 0

/-- **Starting.** The first switch to a task that `sched_task_new` has made enters
`enter_user_mode_at` with the arguments of `sched_task_new`, whatever runs in between, as long as
the task is spared. -/
theorem newTask_starts (h : TaskRing L m (m.currentTask :: rest))
    (entry userStackTop enterUserModeAt : UInt32)
    (hnew : ChalesOs.schedTaskNew L m entry.toNat userStackTop.toNat = some (some t, m'))
    {c₀ : Cpu} (hmem : c₀.mem = newTaskMem mem enterUserModeAt.toNat t (m'.tasks t))
    (hrun : (cpuSystem c₀).ReachableBy (CpuStep.Spares (newTaskBytes t (m'.tasks t))) c)
    (hspares : CpuStep.switch.Spares (newTaskBytes t (m'.tasks t)) c) (hnext : c.next.toNat = t) :
    Started enterUserModeAt.toNat (m'.tasks t) (runCode schedSwitch c) ∧
      (m'.tasks t).entry = entry.toNat ∧ (m'.tasks t).userStackTop = userStackTop.toNat := by
  obtain ⟨hheap, hentry, htop⟩ := h.newTask_onHeap hnew
  refine ⟨?_, hentry, htop⟩
  have hentry' := hentry.trans_lt entry.toNat_lt
  have htop' := htop.trans_lt userStackTop.toNat_lt
  set task := m'.tasks t
  have henter := enterUserModeAt.toNat_lt
  obtain ⟨-, hwords⟩ := newTaskMem_words mem hheap henter hentry' htop'
  obtain ⟨w, htask, hbytes, hwmem, hsp, hstackEnd, hregs, hkept⟩ :=
    newTask_waits mem hheap henter hentry' htop'
  rw [← hbytes] at hrun hspares
  have hback : w.Resumed (runCode schedSwitch c) :=
    (Parked.kept_of_reachable (by rwa [hmem, ← hwmem]) hrun).resumed hspares.1 hspares.2
      (UInt32.toNat_inj.mp (hnext.trans htask.symm))
  -- what `sched_switch` leaves on the stack are the words behind the four registers
  obtain ⟨heip, -, hentryAt, htopAt, -⟩ := (wordsAt_append.mp hwords).2
  have hsize : taskStackSize = 4096 := rfl
  have hword : ∀ k, k < 4 → loadWord (runCode schedSwitch c).mem (w.cpu.sp + 4 * k) =
      loadWord (newTaskMem mem enterUserModeAt.toNat t task) (w.cpu.sp + 4 * k) := fun k hk => by
    rw [← hwmem]
    exact loadWord_congr fun j hj => hback.stack ⟨by omega, by omega⟩
  have hbase : task.stack + taskStackSize - 32 + 4 * 4 = w.cpu.sp := by omega
  rw [show [0, 0, 0, 0].length = 4 from rfl, hbase] at heip hentryAt htopAt
  refine ⟨?_, ?_, ?_, fun r hr => (hback.saved r hr).trans (hregs r hr)⟩
  · rw [hback.eip, hwmem, heip]
  · rw [hback.sp]
    exact (hword 2 (by omega)).trans hentryAt
  · rw [hback.sp]
    exact (hword 3 (by omega)).trans htopAt

/-- The task at boot about to switch to the one at 0x280018. -/
def bootSwitch (mem : Mem) : Cpu :=
  (Cpu.mk (fun _ => 0) 0 (storeWords mem 0x2B3FE0 [0x500, 0x132100, 0x280018])).setReg .esp 0x2B3FE0

/-- `newTask_starts` on the first task that is made after boot. -/
theorem newTask_starts_sample :
    ∃ m', schedTaskNew Layout.sample bootMachine 0x300000 0x2A0000 = some (some 0x280018, m') ∧
      Started 0x600 (m'.tasks 0x280018) (runCode schedSwitch
        ((Cpu.mk (fun _ => 0) 0 (newTaskMem (bootSwitch fun _ => 0).mem 0x600 0x280018
          (m'.tasks 0x280018))).setReg .esp 0x2B3FE0)) := by
  obtain ⟨⟨r, m'⟩, hnew, rfl, hstack, hprev, hnext⟩ := exists_of_any
    (o := schedTaskNew Layout.sample bootMachine 0x300000 0x2A0000)
    (p := fun r => r.1 = some 0x280018 ∧ (r.2.tasks 0x280018).stack = 0x280070 ∧
      ((Cpu.mk (fun _ => 0) 0 (newTaskMem (bootSwitch fun _ => 0).mem 0x600 0x280018
        (r.2.tasks 0x280018))).setReg .esp 0x2B3FE0).prev.toNat = 0x132100 ∧
      ((Cpu.mk (fun _ => 0) 0 (newTaskMem (bootSwitch fun _ => 0).mem 0x600 0x280018
        (r.2.tasks 0x280018))).setReg .esp 0x2B3FE0).next.toNat = 0x280018)
    (by decide +kernel)
  refine ⟨m', hnew, (newTask_starts (procs_schedInit _ _ _).ring 0x300000 0x2A0000 0x600 hnew rfl
    (.start rfl) ⟨?_, ?_⟩ hnext).1⟩
  · exact (by decide : 16 ≤ 0x2B3FE0)
  · have hsize : taskStackSize = 4096 := rfl
    rw [Cpu.switchBytes, newTaskBytes, hprev, hstack]
    intro a ha ha'
    have hsp : ∀ mem : Mem, ((Cpu.mk (fun _ => 0) 0 mem).setReg .esp 0x2B3FE0).sp = 0x2B3FE0 :=
      fun _ => rfl
    rw [hsp] at ha'
    simp only [Set.mem_union, Set.mem_Ico] at ha ha'
    omega

end ChalesOs
