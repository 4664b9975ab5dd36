import ChalesOs.Interrupts.IrqRuns
import ChalesOs.Kernel.Syscall
import ChalesOs.Process.Runs
import ChalesOs.Ramfs.Lookup

/-!
# Runs of the kernel

`kernelSystem` is the whole kernel: system calls with any values in the registers, stores of the
running program, and hardware interrupts between them, in any order. `kernel_refines` says that
such a run is a run of the file system, a run of the processes and a run of the interrupt handlers
at the same time. So what holds in all reachable states of one of these three systems holds in all
reachable states of the kernel (`kernel_parts`). A call that leaves the memory of programs, a name
field or a block has no outcome, and is no step of such a run.
-/

namespace ChalesOs

open ByteMemory

/-- What happens to the kernel. -/
inductive KernelOp
  /-- The running program makes a system call. -/
  | syscall (r : Regs)
  /-- The running program stores into its memory. -/
  | store (mem : Mem)
  /-- The request lines of the interrupt controllers change. -/
  | lines (master slave : UInt8)
  /-- The keyboard sends a code. -/
  | code (scancode : UInt8)
  /-- The processor takes a hardware interrupt. -/
  | interrupt

/-- One operation; a machine that has halted only takes interrupts. -/
def kernelExec (L : Layout) (k : Kernel) : KernelOp → Option Kernel
  | .syscall r => if k.machine.halted then none else (syscallHandler L k r).map Prod.snd
  | .store mem => if k.machine.halted then none else some (k.withMem mem)
  | .lines master slave =>
    (irqExec k.irq (.lines master slave)).map fun irq => { k with irq := irq }
  | .code scancode => (irqExec k.irq (.code scancode)).map fun irq => { k with irq := irq }
  | .interrupt => (irqExec k.irq .interrupt).map fun irq => { k with irq := irq }

/-- A state of a run: the kernel, and how many inodes have been created so far. -/
structure KernelRun where
  kernel : Kernel
  created : ℕ

/-- The file system of a run. -/
def KernelRun.ramfs (r : KernelRun) : RamfsRun := ⟨r.kernel.fs, r.created⟩

/-- Any sequence of operations behind `kernel_main`. -/
def kernelSystem (L : Layout) (progs : Programs) : StepSystem KernelRun KernelOp where
  start r := (procSystem L).start r.kernel.machine ∧ (ramfsSystem progs).start r.ramfs ∧
    irqSystem.start r.kernel.irq
  step r op := (kernelExec L r.kernel op).map fun k =>
    ⟨k, r.created + newInodes r.kernel.fs k.fs⟩

/-- The operation is not a write to a port. -/
def KernelOp.LeavesPorts (op : KernelOp) : Prop :=
  ∀ r port value, op = .syscall r → decode r ≠ some (.outport8 port value)

/-! ### Strings -/

variable {L : Layout} {progs : Programs} {k k' : Kernel} {c : Syscall} {m : Mem} {a fuel : ℕ}
  {s : CString} {p : UInt32} {path : Option CString} {ret : ℤ}

/-- A path a program passes has no `NUL`. -/
theorem zero_notMem_of_pathArg (h : pathArg m p = some path) (hs : path = some s) :
    (0 : UInt8) ∉ s := by
  subst hs
  rw [pathArg] at h
  by_cases hnull : p = 0
  · rw [if_pos hnull] at h
    exact absurd (Option.some_injective _ h) (by simp)
  · rw [if_neg hnull] at h
    obtain ⟨t, ht, hts⟩ := Option.map_eq_some_iff.mp h
    obtain rfl := Option.some_injective _ hts
    exact (stringAt_of_stringFrom ht).zero_notMem

/-! ### What a call does to the three parts -/

/-- Nothing, or one operation of the file system. -/
def FsMove (s s' : Ramfs) : Prop :=
  s' = s ∨ ∃ op res, op.IsCString ∧ ramfsExec s op = some (res, s')

/-- Nothing, or one operation of the processes. -/
def MachineMove (L : Layout) (m m' : Machine) : Prop :=
  m' = m ∨ ∃ op r, procExec L m op = some (r, m')

/-- Some events of the interrupt handlers. -/
def IrqMove (s s' : IrqState) : Prop := ∃ events, irqSystem.runInputs s events = some s'

/-- What an operation does to the parts of the kernel. -/
structure KernelMove (L : Layout) (k k' : Kernel) : Prop where
  fs : FsMove k.fs k'.fs
  machine : MachineMove L k.machine k'.machine
  irq : IrqMove k.irq k'.irq

theorem IrqMove.refl (s : IrqState) : IrqMove s s := ⟨[], rfl⟩

theorem KernelMove.refl (L : Layout) (k : Kernel) : KernelMove L k k :=
  ⟨Or.inl rfl, Or.inl rfl, .refl _⟩

theorem KernelMove.ofFs {system : SystemState} (h : FsMove k.fs system.fs) :
    KernelMove L k { k with system := system } :=
  ⟨h, Or.inl rfl, .refl _⟩

theorem KernelMove.withMem (mem : Mem) : KernelMove L k (k.withMem mem) :=
  ⟨Or.inl rfl, Or.inr ⟨.store mem, 0, rfl⟩, .refl _⟩

/-- A call of the scheduler. -/
theorem KernelMove.schedCall {op : ProcOp} (h : schedCall L k op = some (ret, k')) :
    KernelMove L k k' := by
  obtain ⟨r, hr, heq⟩ := Option.map_eq_some_iff.mp h
  obtain ⟨-, rfl⟩ := Prod.mk.inj heq
  exact ⟨Or.inl rfl, Or.inr ⟨op, r.1, hr⟩, .refl _⟩

/-- A call with a path. -/
theorem KernelMove.withPath {f : Option CString → Option (ℤ × Ramfs)}
    (op : Option CString → RamfsOp) (hop : ∀ path, (op path).path = some path)
    (hf : ∀ path r, f path = some r → ∃ res, ramfsExec k.fs (op path) = some (res, r.2))
    (h : ChalesOs.withPath k p f = some (ret, k')) : KernelMove L k k' := by
  obtain ⟨path, hpath, h⟩ := Option.bind_eq_some_iff.mp h
  obtain ⟨r, hr, heq⟩ := Option.map_eq_some_iff.mp h
  obtain ⟨-, rfl⟩ := Prod.mk.inj heq
  obtain ⟨res, hres⟩ := hf path r hr
  refine .ofFs (Or.inr ⟨op path, res, fun q hq => ?_, hres⟩)
  rw [hop] at hq
  exact zero_notMem_of_pathArg hpath (Option.some_injective _ hq)

/-- Bytes stored through a pointer. -/
theorem machineMove_storeBytes {bytes : List UInt8} (h : k.storeBytes L p bytes = some k') :
    k'.system = k.system ∧ MachineMove L k.machine k'.machine ∧ k'.irq = k.irq := by
  rw [Kernel.storeBytes] at h
  split_ifs at h
  obtain rfl := Option.some_injective _ h
  exact ⟨rfl, (KernelMove.withMem _).machine, rfl⟩

/-- Words stored through a pointer. -/
theorem KernelMove.storeThrough {words : List ℕ} (h : k.storeThrough L p words = some k') :
    KernelMove L k k' := by
  rw [Kernel.storeThrough] at h
  split_ifs at h
  obtain rfl := Option.some_injective _ h
  exact .withMem _

/-- Characters read from the keyboard are taken out of its buffer. -/
theorem irqMove_sysReadLoop {count room n n' : ℕ} {out out' : ℕ → UInt8} {irq : IrqState}
    {q' : Keyboard} (h : sysReadLoop count room n out irq.keyboard = some (n', out', q')) :
    IrqMove irq { irq with keyboard := q' } := by
  induction room generalizing n out irq with
  | zero =>
    simp only [sysReadLoop, Option.some_inj, Prod.mk.injEq] at h
    obtain ⟨-, -, rfl⟩ := h
    exact .refl irq
  | succ room ih =>
    rw [sysReadLoop] at h
    split_ifs at h with hdata
    · obtain ⟨out₁, -, h⟩ := Option.bind_eq_some_iff.mp h
      have hstep : irqSystem.step irq .getchar =
          some { irq with keyboard := (keyboardBufferPop irq.keyboard).2 } := by
        change some { irq with keyboard := (getchar irq.keyboard).2 } = _
        rw [getchar, if_pos hdata]
      obtain ⟨events, hevents⟩ : IrqMove { irq with keyboard := (keyboardBufferPop irq.keyboard).2 }
          { irq with keyboard := q' } := ih h
      refine ⟨.getchar :: events, ?_⟩
      rw [StepSystem.runInputs, hstep]
      exact hevents
    · simp only [Option.some_inj, Prod.mk.injEq] at h
      obtain ⟨-, -, rfl⟩ := h
      exact .refl irq

/-- What `sys_read` does to the parts. -/
theorem KernelMove.sysReadAt {fd buf count : UInt32}
    (h : sysReadAt L k fd buf count = some (ret, k')) : KernelMove L k k' := by
  rw [ChalesOs.sysReadAt] at h
  split_ifs at h
  · obtain ⟨-, rfl⟩ := Prod.mk.inj (Option.some_injective _ h)
    exact .refl L k
  · obtain ⟨r, hr, h⟩ := Option.bind_eq_some_iff.mp h
    obtain ⟨k₁, hk₁, heq⟩ := Option.map_eq_some_iff.mp h
    obtain ⟨-, rfl⟩ := Prod.mk.inj heq
    obtain ⟨⟨n, out, q⟩, hloop, rfl⟩ := Option.map_eq_some_iff.mp hr
    obtain ⟨hsystem, hmachine, hirq⟩ := machineMove_storeBytes hk₁
    refine ⟨Or.inl (congrArg SystemState.fs hsystem), hmachine, ?_⟩
    rw [Kernel.withKeyboard, hirq]
    exact irqMove_sysReadLoop hloop
  · obtain ⟨-, rfl⟩ := Prod.mk.inj (Option.some_injective _ h)
    exact .refl L k
  · obtain ⟨r, hr, h⟩ := Option.bind_eq_some_iff.mp h
    obtain ⟨k₁, hk₁, heq⟩ := Option.map_eq_some_iff.mp h
    obtain ⟨-, rfl⟩ := Prod.mk.inj heq
    obtain ⟨-, hmachine, hirq⟩ := machineMove_storeBytes hk₁
    refine ⟨Or.inr ⟨.read (cInt fd - fdFileBase) false count.toNat, ⟨r.1, r.2.1⟩, ?_, ?_⟩,
      hmachine, ?_⟩
    · exact fun p hp => absurd hp (by simp [RamfsOp.path])
    · rw [ramfsExec, hr]
      rfl
    · rw [Kernel.withFs, hirq]
      exact .refl _

/-- What `sys_write` does to the file system. -/
theorem fsMove_sysWrite {system : SystemState} {fd : ℤ} {buf : Option (ℕ → UInt8)} {count : ℕ}
    {r : ℤ × SystemState} (h : sysWrite system fd buf count = some r) :
    FsMove system.fs r.2.fs := by
  cases buf with
  | none =>
    obtain rfl := Option.some_injective _ h
    exact Or.inl rfl
  | some b =>
    simp only [sysWrite] at h
    split_ifs at h
    · obtain rfl := Option.some_injective _ h
      exact Or.inl rfl
    · obtain rfl := Option.some_injective _ h
      exact Or.inl rfl
    · obtain ⟨r₁, hr, rfl⟩ := Option.map_eq_some_iff.mp h
      refine Or.inr ⟨.write (fd - fdFileBase) (some b) count, ⟨r₁.1, []⟩, ?_, ?_⟩
      · exact fun p hp => absurd hp (by simp [RamfsOp.path])
      · rw [ramfsExec, hr]
        rfl

/-- What `sys_close` does to the file system. -/
theorem fsMove_sysClose (system : SystemState) (fd : ℤ) :
    FsMove system.fs (sysClose system fd).2.fs := by
  rw [sysClose]
  split_ifs
  · exact Or.inl rfl
  · exact Or.inr ⟨.close (fd - fdFileBase), _, fun p hp => absurd hp (by simp [RamfsOp.path]), rfl⟩

/-- What the calls for the status do to the parts: they store through a pointer at most. -/
theorem KernelMove.storeStat {st : UInt32} {r : ℤ × Option ChalesStat}
    (h : storeStat L k st r = some (ret, k')) : KernelMove L k k' := by
  obtain ⟨ret₁, result⟩ := r
  cases result with
  | none =>
    obtain ⟨-, rfl⟩ := Prod.mk.inj (Option.some_injective _ h)
    exact .refl L k
  | some result =>
    obtain ⟨k₁, hk₁, heq⟩ := Option.map_eq_some_iff.mp h
    obtain ⟨-, rfl⟩ := Prod.mk.inj heq
    exact .storeThrough hk₁

/-- **The parts of a call.** Every call but a write to a port is one operation of the file system at
most, one of the processes at most, and takes characters from the keyboard. -/
theorem Syscall.run_moves (hc : ∀ port value, c ≠ .outport8 port value)
    (h : c.run L k = some (ret, k')) : KernelMove L k k' := by
  cases c with
  | exit code => exact .schedCall h
  | putchar c =>
    obtain ⟨-, rfl⟩ := Prod.mk.inj (Option.some_injective _ h)
    exact .ofFs (Or.inl rfl)
  | getchar =>
    obtain ⟨-, rfl⟩ := Prod.mk.inj (Option.some_injective _ h)
    exact ⟨Or.inl rfl, Or.inl rfl, [.getchar], rfl⟩
  | getTicks =>
    obtain ⟨-, rfl⟩ := Prod.mk.inj (Option.some_injective _ h)
    exact .refl L k
  | sbrk increment => exact .schedCall h
  | ls path =>
    obtain ⟨path, -, h⟩ := Option.bind_eq_some_iff.mp h
    obtain ⟨text, -, heq⟩ := Option.map_eq_some_iff.mp h
    obtain ⟨-, rfl⟩ := Prod.mk.inj heq
    exact .ofFs (Or.inl rfl)
  | «open» path flags =>
    obtain ⟨path, hpath, h⟩ := Option.bind_eq_some_iff.mp h
    obtain ⟨r, hr, heq⟩ := Option.map_eq_some_iff.mp h
    obtain ⟨-, rfl⟩ := Prod.mk.inj heq
    obtain ⟨r₁, hr₁, rfl⟩ := Option.map_eq_some_iff.mp hr
    refine .ofFs (Or.inr ⟨.open path flags.toNat, ⟨r₁.1, []⟩, fun q hq => ?_, ?_⟩)
    · exact zero_notMem_of_pathArg hpath (Option.some_injective _ hq)
    · rw [ramfsExec, hr₁]
      rfl
  | close fd =>
    obtain ⟨-, rfl⟩ := Prod.mk.inj (Option.some_injective _ h)
    exact .ofFs (fsMove_sysClose k.system _)
  | read fd buf count => exact .sysReadAt h
  | write fd buf count =>
    obtain ⟨r, hr, h⟩ := Option.bind_eq_some_iff.mp h
    obtain ⟨-, heq⟩ := Option.ite_none_right_eq_some.mp h
    obtain ⟨-, rfl⟩ := Prod.mk.inj (Option.some_injective _ heq)
    exact .ofFs (fsMove_sysWrite hr)
  | mkdir path =>
    refine .withPath .mkdir (fun _ => rfl) (fun path r hr => ⟨⟨r.1, []⟩, ?_⟩) h
    rw [ramfsExec, hr]
    rfl
  | unlink path =>
    refine .withPath .unlink (fun _ => rfl) (fun path r hr => ⟨⟨r.1, []⟩, ?_⟩) h
    rw [← Option.some_injective _ hr]
    rfl
  | rmdir path =>
    refine .withPath .rmdir (fun _ => rfl) (fun path r hr => ⟨⟨r.1, []⟩, ?_⟩) h
    rw [← Option.some_injective _ hr]
    rfl
  | clearScreen =>
    obtain ⟨-, rfl⟩ := Prod.mk.inj (Option.some_injective _ h)
    exact .ofFs (Or.inl rfl)
  | outport8 port value => exact absurd rfl (hc port value)
  | inport8 port =>
    obtain ⟨-, rfl⟩ := Prod.mk.inj (Option.some_injective _ h)
    exact .refl L k
  | execv path argv envp =>
    obtain ⟨path, -, h⟩ := Option.bind_eq_some_iff.mp h
    obtain ⟨argv, -, h⟩ := Option.bind_eq_some_iff.mp h
    obtain ⟨envp, -, h⟩ := Option.bind_eq_some_iff.mp h
    exact .schedCall h
  | open2 path oflags =>
    obtain ⟨⟨r, k₁⟩, hr, heq⟩ := Option.map_eq_some_iff.mp h
    obtain ⟨-, rfl⟩ := Prod.mk.inj heq
    refine .withPath (fun path => .open2 path oflags.toNat) (fun _ => rfl)
      (fun path r hr => ⟨⟨r.1, []⟩, ?_⟩) hr
    rw [ramfsExec, hr]
    rfl
  | lseek fd off whence =>
    have hlseek := Option.some_injective _ h
    rw [sysLseek] at hlseek
    split_ifs at hlseek
    · obtain ⟨-, rfl⟩ := Prod.mk.inj hlseek
      exact .refl L k
    · obtain ⟨-, rfl⟩ := Prod.mk.inj hlseek
      exact .ofFs (Or.inr ⟨.lseek _ _ _, _, fun p hp => absurd hp (by simp [RamfsOp.path]), rfl⟩)
  | fstat fd st =>
    rw [run, sysFstat] at h
    split_ifs at h
    · obtain ⟨-, rfl⟩ := Prod.mk.inj (Option.some_injective _ h)
      exact .refl L k
    · exact .storeStat h
    · exact .storeStat h
  | stat path st =>
    rw [run, sysStat] at h
    split_ifs at h
    · obtain ⟨-, rfl⟩ := Prod.mk.inj (Option.some_injective _ h)
      exact .refl L k
    · obtain ⟨path, -, h⟩ := Option.bind_eq_some_iff.mp h
      exact .storeStat h
  | isatty fd =>
    obtain ⟨-, rfl⟩ := Prod.mk.inj (Option.some_injective _ h)
    exact .refl L k
  | getpid =>
    obtain ⟨-, rfl⟩ := Prod.mk.inj (Option.some_injective _ h)
    exact .refl L k
  | kill pid sig => exact .schedCall h
  | times t =>
    rw [run, sysTimes] at h
    split_ifs at h
    · obtain ⟨-, rfl⟩ := Prod.mk.inj (Option.some_injective _ h)
      exact .refl L k
    · obtain ⟨k₁, hk₁, heq⟩ := Option.map_eq_some_iff.mp h
      obtain ⟨-, rfl⟩ := Prod.mk.inj heq
      exact .storeThrough hk₁
  | gettimeofday tv =>
    simp only [run, sysGettimeofday] at h
    split_ifs at h
    · obtain ⟨-, rfl⟩ := Prod.mk.inj (Option.some_injective _ h)
      exact .refl L k
    · obtain ⟨k₁, hk₁, heq⟩ := Option.map_eq_some_iff.mp h
      obtain ⟨-, rfl⟩ := Prod.mk.inj heq
      exact .storeThrough hk₁
  | wait status =>
    rw [run] at h
    split_ifs at h
    exact .schedCall h
  | unknown num =>
    obtain ⟨r, -, heq⟩ := Option.map_eq_some_iff.mp h
    obtain ⟨-, rfl⟩ := Prod.mk.inj heq
    exact .ofFs (Or.inl rfl)

/-- An operation of the kernel is one of its parts. A machine that has halted stays as it is. -/
theorem kernelExec_moves {op : KernelOp} (hop : op.LeavesPorts)
    (h : kernelExec L k op = some k') :
    KernelMove L k k' ∧ (k'.machine = k.machine ∨ k.machine.halted = false) := by
  have hevent : ∀ e, (irqExec k.irq e).map (fun irq => { k with irq := irq }) = some k' →
      KernelMove L k k' ∧ (k'.machine = k.machine ∨ k.machine.halted = false) := by
    intro e he
    obtain ⟨irq, hirq, rfl⟩ := Option.map_eq_some_iff.mp he
    exact ⟨⟨Or.inl rfl, Or.inl rfl, [e], congrArg (Option.bind · _) hirq⟩, Or.inl rfl⟩
  cases op with
  | syscall regs =>
    rw [kernelExec] at h
    split_ifs at h with hrun
    obtain ⟨⟨eax, k₁⟩, hcall, rfl⟩ := Option.map_eq_some_iff.mp h
    obtain ⟨c, hdecode, hcall⟩ := Option.bind_eq_some_iff.mp hcall
    obtain ⟨⟨ret, k₂⟩, hc, heq⟩ := Option.map_eq_some_iff.mp hcall
    obtain ⟨-, rfl⟩ := Prod.mk.inj heq
    refine ⟨Syscall.run_moves (fun port value hport => ?_) hc, Or.inr (Bool.eq_false_iff.mpr hrun)⟩
    exact hop regs port value rfl (hport ▸ hdecode)
  | store mem =>
    rw [kernelExec] at h
    split_ifs at h with hrun
    obtain rfl := Option.some_injective _ h
    exact ⟨.withMem mem, Or.inr (Bool.eq_false_iff.mpr hrun)⟩
  | lines master slave =>
    rw [kernelExec] at h
    exact hevent _ h
  | code scancode =>
    rw [kernelExec] at h
    exact hevent _ h
  | interrupt =>
    rw [kernelExec] at h
    exact hevent _ h

/-! ### Runs -/

/-- A move of the file system is a run of it. -/
theorem FsMove.exists_run {s s' : Ramfs} (h : FsMove s s') (progs : Programs) (created : ℕ) :
    ∃ ops, (∀ op ∈ ops, RamfsOp.IsCString op) ∧ (ramfsSystem progs).runInputs ⟨s, created⟩ ops =
      some ⟨s', created + newInodes s s'⟩ := by
  rcases h with rfl | ⟨op, res, hop, hexec⟩
  · exact ⟨[], by simp, by rw [newInodes, if_pos rfl]; rfl⟩
  · refine ⟨[op], by simpa using hop, ?_⟩
    have hstep : (ramfsSystem progs).step ⟨s, created⟩ op =
        some ⟨s', created + newInodes s s'⟩ := by
      simp only [ramfsSystem, hexec, Option.map_some]
    rw [StepSystem.runInputs, hstep]
    rfl

/-- A move of the processes is a run of them. -/
theorem MachineMove.exists_run {m m' : Machine} (h : MachineMove L m m')
    (hrun : m' = m ∨ m.halted = false) : ∃ ops, (procSystem L).runInputs m ops = some m' := by
  rcases hrun with rfl | hrun
  · exact ⟨[], rfl⟩
  rcases h with rfl | ⟨op, r, hexec⟩
  · exact ⟨[], rfl⟩
  · have hstep : (procSystem L).step m op = some m' := by
      simp only [procSystem, hrun, Bool.false_eq_true, if_false, hexec, Option.map_some]
    refine ⟨[op], ?_⟩
    rw [StepSystem.runInputs, hstep]
    rfl

/-- **One step** of the kernel is a run of each of its parts. -/
theorem kernel_step {r r' : KernelRun} {op : KernelOp} (hop : op.LeavesPorts)
    (hstep : (kernelSystem L progs).step r op = some r') :
    (∃ ops, (∀ op ∈ ops, RamfsOp.IsCString op) ∧
        (ramfsSystem progs).runInputs r.ramfs ops = some r'.ramfs) ∧
      (∃ ops, (procSystem L).runInputs r.kernel.machine ops = some r'.kernel.machine) ∧
      ∃ events, irqSystem.runInputs r.kernel.irq events = some r'.kernel.irq := by
  obtain ⟨k', hexec, rfl⟩ := Option.map_eq_some_iff.mp hstep
  obtain ⟨hmove, hrun⟩ := kernelExec_moves hop hexec
  exact ⟨hmove.fs.exists_run progs r.created, hmove.machine.exists_run hrun, hmove.irq⟩

/-- The states of the parts are reachable on their own. -/
theorem kernel_parts {r : KernelRun}
    (h : (kernelSystem L progs).ReachableBy (fun _ op => op.LeavesPorts) r) :
    (ramfsSystem progs).ReachableBy (fun _ op => op.IsCString) r.ramfs ∧
      (procSystem L).Reachable r.kernel.machine ∧ irqSystem.Reachable r.kernel.irq := by
  refine h.invariant (p := fun r =>
    (ramfsSystem progs).ReachableBy (fun _ op => op.IsCString) r.ramfs ∧
      (procSystem L).Reachable r.kernel.machine ∧ irqSystem.Reachable r.kernel.irq) ?_ ?_
  · rintro r ⟨hmachine, hfs, hirq⟩
    exact ⟨.start hfs, .start hmachine, .start hirq⟩
  · rintro r op r' ⟨hfs, hmachine, hirq⟩ hop hstep
    obtain ⟨⟨ops, hops, hfsrun⟩, ⟨ops', hrun⟩, events, hevents⟩ := kernel_step hop hstep
    exact ⟨hfs.runInputs (fun _ _ op hmem => hops op hmem) hfsrun,
      hmachine.runInputs (fun _ _ _ _ => trivial) hrun,
      hirq.runInputs (fun _ _ _ _ => trivial) hevents⟩

/-- The kernel of the sample layout at boot. -/
def bootKernel : KernelRun := ⟨⟨bootMachine, ⟨freshRun.fs, []⟩, irqStart⟩, 7⟩

theorem bootKernel_start : (kernelSystem Layout.sample noPrograms).start bootKernel :=
  ⟨⟨_, _, rfl⟩, freshRun_start, _, rfl⟩

end ChalesOs
