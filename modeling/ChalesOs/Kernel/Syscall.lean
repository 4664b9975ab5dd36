import ChalesOs.Interrupts.Irq
import ChalesOs.Memory.Strings
import ChalesOs.Process.Exec
import ChalesOs.Ramfs.Listing
import ChalesOs.Ramfs.Status
import ChalesOs.Shell.Write

/-!
# The system calls

`syscall_handler` on the whole state of the kernel: the processes, the file system, the output and
what the interrupts work on. `decode` is its `switch`, from the registers of the program to the
call with its arguments; `Syscall.run` is the code of the calls.

The arguments are words. A path is read from the memory of programs up to its `NUL`, a pointer to
an object is written through, and an access outside of the memory of programs has no outcome: the
variables of the kernel are not in `Machine.mem`. The kernel checks pointers for `NULL` only.

`printed` is the output since the screen was cleared last; the screen is a function of it.
-/

namespace ChalesOs

open ByteMemory

/-! ### Constants -/

/-- `CHALES_ESPIPE`. -/
def eSpipe : ℤ := 29

/-- `CHALES_ENOSYS`. -/
def eNosys : ℤ := 88

/-- `CHALES_S_IFCHR`. -/
def sIfchr : ℕ := 0x2000

/-! ### Arguments -/

/-- A word as an `int`. -/
def cInt (w : UInt32) : ℤ := w.toInt32.toInt

theorem cInt_of_lt {w : UInt32} (h : w.toNat < 0x80000000) : cInt w = w.toNat := by
  rw [cInt, toInt_toInt32, if_pos h]

theorem cInt_eq_zero {w : UInt32} : cInt w = 0 ↔ w = 0 := by
  rw [cInt, toInt_toInt32, ← UInt32.toNat_inj, UInt32.toNat_zero]
  have := w.toNat_lt
  split_ifs <;> omega

/-- An `int` comes back from a register. -/
theorem cInt_ofInt {z : ℤ} (hge : -0x80000000 ≤ z) (hlt : z < 0x80000000) :
    cInt (UInt32.ofInt z) = z := by
  have hnat : ((UInt32.ofInt z).toNat : ℤ) = z % 0x100000000 := by
    have hmod : (z % 2 ^ 32).toNat < 2 ^ 32 := by omega
    rw [UInt32.ofInt, UInt32.toNat_ofNat', Nat.mod_eq_of_lt hmod]
    omega
  rw [cInt, toInt_toInt32]
  split_ifs <;> omega

/-- The `n` bytes from `a` on are mapped, and they are not variables or code of the kernel. -/
def Layout.HoldsProgram (L : Layout) (a n : ℕ) : Prop :=
  n = 0 ∨ a + n ≤ elfLoadLimit ∧
    (a + n ≤ L.kernelStart ∨ L.kernelEnd ≤ a ∨ L.userStart ≤ a ∧ a + n ≤ L.userEnd ∨
      L.userHeapStart ≤ a ∧ a + n ≤ L.userHeapEnd)

instance (L : Layout) (a n : ℕ) : Decidable (L.HoldsProgram a n) :=
  inferInstanceAs (Decidable (_ ∨ _))

/-- A `const char *`, `none` inside for `NULL`. -/
def pathArg (m : Mem) (p : UInt32) : Option (Option CString) :=
  if p = 0 then some none else (stringFrom m (0x100000000 - p.toNat) p.toNat).map some

/-- The strings an array of pointers at an address leads to, unless its `NULL` is more than `fuel`
words away. -/
def stringsFrom (m : Mem) : (fuel a : ℕ) → Option (List CString)
  | 0, _ => none
  | fuel + 1, a =>
    if loadWord m a = 0 then some []
    else
      (stringFrom m (0x100000000 - loadWord m a) (loadWord m a)).bind fun s =>
        (stringsFrom m fuel (a + 4)).map (s :: ·)

/-- A `char **`, `none` inside for `NULL`. -/
def argvArg (m : Mem) (p : UInt32) : Option (Option (List CString)) :=
  if p = 0 then some none else (stringsFrom m (0x100000000 - p.toNat) p.toNat).map some

/-- A buffer, `none` for `NULL`. -/
def bufferArg (m : Mem) (p : UInt32) : Option (ℕ → UInt8) :=
  if p = 0 then none else some fun i => m (p.toNat + i)

/-! ### The calls -/

/-- The registers a program passes. -/
structure Regs where
  eax : UInt32
  ebx : UInt32
  ecx : UInt32
  edx : UInt32
  deriving DecidableEq

/-- The system calls, with their arguments. -/
inductive Syscall
  | exit (code : UInt32)
  | putchar (c : UInt32)
  | getchar
  | getTicks
  | sbrk (increment : UInt32)
  | ls (path : UInt32)
  | open (path flags : UInt32)
  | close (fd : UInt32)
  | read (fd buf count : UInt32)
  | write (fd buf count : UInt32)
  | mkdir (path : UInt32)
  | unlink (path : UInt32)
  | rmdir (path : UInt32)
  | clearScreen
  | outport8 (port value : UInt32)
  | inport8 (port : UInt32)
  | execv (path argv envp : UInt32)
  | open2 (path oflags : UInt32)
  | lseek (fd off whence : UInt32)
  | fstat (fd st : UInt32)
  | stat (path st : UInt32)
  | isatty (fd : UInt32)
  | getpid
  | kill (pid sig : UInt32)
  | times (t : UInt32)
  | gettimeofday (tv : UInt32)
  | wait (status : UInt32)
  | unknown (num : UInt32)
  deriving DecidableEq

/-- The `switch` of `syscall_handler`, without the accesses to wider ports and `reset`, which does
not return. -/
def decode (r : Regs) : Option Syscall :=
  match r.eax.toNat with
  | 0 => some (.exit r.ebx)
  | 1 => some (.putchar r.ebx)
  | 2 => some .getchar
  | 3 => some .getTicks
  | 4 => some (.sbrk r.ebx)
  | 5 => some (.ls r.ebx)
  | 6 => some (.open r.ebx r.ecx)
  | 7 => some (.close r.ebx)
  | 8 => some (.read r.ebx r.ecx r.edx)
  | 9 => some (.write r.ebx r.ecx r.edx)
  | 10 => some (.mkdir r.ebx)
  | 11 => some (.unlink r.ebx)
  | 12 => some (.rmdir r.ebx)
  | 13 => some .clearScreen
  | 14 => some (.outport8 r.ebx r.ecx)
  | 15 => none
  | 16 => none
  | 17 => some (.inport8 r.ebx)
  | 18 => none
  | 19 => none
  | 20 => none
  | 21 => some (.execv r.ebx r.ecx r.edx)
  | 22 => some (.open2 r.ebx r.ecx)
  | 23 => some (.lseek r.ebx r.ecx r.edx)
  | 24 => some (.fstat r.ebx r.ecx)
  | 25 => some (.stat r.ebx r.ecx)
  | 26 => some (.isatty r.ebx)
  | 27 => some .getpid
  | 28 => some (.kill r.ebx r.ecx)
  | 29 => some (.times r.ebx)
  | 30 => some (.gettimeofday r.ebx)
  | 31 => some (.wait r.ebx)
  | _ => some (.unknown r.eax)

/-- The state of the kernel. -/
structure Kernel where
  machine : Machine
  system : SystemState
  irq : IrqState

namespace Kernel

/-- The memory of programs. -/
abbrev mem (k : Kernel) : Mem := k.machine.mem

/-- The file system. -/
abbrev fs (k : Kernel) : Ramfs := k.system.fs

def withMem (k : Kernel) (mem : Mem) : Kernel := { k with machine := { k.machine with mem := mem } }

def withFs (k : Kernel) (fs : Ramfs) : Kernel := { k with system := { k.system with fs := fs } }

def withKeyboard (k : Kernel) (q : Keyboard) : Kernel :=
  { k with irq := { k.irq with keyboard := q } }

def print (k : Kernel) (text : List UInt8) : Kernel :=
  { k with system := { k.system with printed := k.system.printed ++ text } }

/-- Bytes stored through a pointer, if it points to memory of programs. -/
def storeBytes (L : Layout) (k : Kernel) (p : UInt32) (bytes : List UInt8) : Option Kernel :=
  if L.HoldsProgram p.toNat bytes.length then
    some (k.withMem (ByteMemory.write k.mem p.toNat bytes))
  else none

/-- Words stored through a pointer, if it points to memory of programs. -/
def storeThrough (L : Layout) (k : Kernel) (p : UInt32) (words : List ℕ) : Option Kernel :=
  if L.HoldsProgram p.toNat (4 * words.length) then
    some (k.withMem (storeWords k.mem p.toNat words))
  else none

end Kernel

/-- The words of a `struct chales_stat`. -/
def ChalesStat.words (st : ChalesStat) : List ℕ := [st.stMode, st.stSize, st.stIno, st.stNlink]

/-- `ramfs_file_data`, by its bytes; `none` for `NULL`. -/
def fileData (s : Ramfs) (path : CString) : Option (List UInt8) :=
  (ramfsFileData s (some path)).bind fun r => r.1.map fun d => slice s.pool d r.2

variable (L : Layout) (k : Kernel)

/-- An operation of the file system with a path. -/
def withPath (path : UInt32) (f : Option CString → Option (ℤ × Ramfs)) : Option (ℤ × Kernel) :=
  (pathArg k.mem path).bind fun path => (f path).map fun r => (r.1, k.withFs r.2)

/-- `sys_read`; what is stored is what has been read. -/
def sysReadAt (fd buf count : UInt32) : Option (ℤ × Kernel) :=
  if buf = 0 then some (-eFault, k)
  else if cInt fd = 0 then
    (sysRead (fun i => k.mem (buf.toNat + i)) count.toNat k.irq.keyboard).bind fun r =>
      (k.storeBytes L buf (slice r.2.1 0 r.1.toNat)).map fun k => (r.1, k.withKeyboard r.2.2)
  else if cInt fd < fdFileBase then some (-eBadf, k)
  else
    (ramfsRead k.fs (cInt fd - fdFileBase) false count.toNat).bind fun r =>
      (k.storeBytes L buf r.2.1).map fun k => (if r.1 < 0 then -eBadf else r.1, k.withFs r.2.2)

/-- `sys_write`. The terminal reads the whole of the buffer, a file what is written to it. -/
def sysWriteAt (fd buf count : UInt32) : Option (ℤ × Kernel) :=
  (sysWrite k.system (cInt fd) (bufferArg k.mem buf) count.toNat).bind fun r =>
    if buf = 0 ∨
        L.HoldsProgram buf.toNat (if cInt fd = 1 ∨ cInt fd = 2 then count.toNat else r.1.toNat) then
      some (r.1, { k with system := r.2 })
    else none

/-- `sys_lseek`. -/
def sysLseek (fd off whence : UInt32) : ℤ × Kernel :=
  if 0 ≤ cInt fd ∧ cInt fd < fdFileBase then (-eSpipe, k)
  else
    let r := ramfsLseek k.fs (cInt fd - fdFileBase) (cInt off) (cInt whence)
    (r.1, k.withFs r.2)

/-- The result of a call for the status of a file, with what it stores through `st`. -/
def storeStat (st : UInt32) (r : ℤ × Option ChalesStat) : Option (ℤ × Kernel) :=
  match r.2 with
  | none => some (r.1, k)
  | some result => (k.storeThrough L st result.words).map fun k => (r.1, k)

/-- `sys_fstat`; the mode of the console is `0620`. -/
def sysFstat (fd st : UInt32) : Option (ℤ × Kernel) :=
  if st = 0 then some (-eFault, k)
  else if 0 ≤ cInt fd ∧ cInt fd < fdFileBase then
    storeStat L k st (0, some ⟨sIfchr ||| 0x190, 0, (cInt fd).toNat, 1⟩)
  else storeStat L k st (ramfsFstat k.fs (cInt fd - fdFileBase))

/-- `SYS_stat`. -/
def sysStat (path st : UInt32) : Option (ℤ × Kernel) :=
  if path = 0 ∨ st = 0 then some (-eFault, k)
  else (pathArg k.mem path).bind fun path => storeStat L k st (ramfsStat k.fs path)

/-- `SYS_times`: all time is user time. -/
def sysTimes (t : UInt32) : Option (ℤ × Kernel) :=
  if t = 0 then some (k.irq.ticks, k)
  else (k.storeThrough L t [k.irq.ticks, 0, 0, 0]).map fun k => (k.irq.ticks, k)

/-- `SYS_gettimeofday`. -/
def sysGettimeofday (tv : UInt32) : Option (ℤ × Kernel) :=
  let ms := k.irq.ticks
  if tv = 0 then some (-eFault, k)
  else (k.storeThrough L tv [ms / 1000, ms % 1000 * 1000]).map fun k => (0, k)

/-- A call of the scheduler. -/
def schedCall (op : ProcOp) : Option (ℤ × Kernel) :=
  (procExec L k.machine op).map fun r => (r.1, { k with machine := r.2 })

/-- The code of a call: the value for `eax`, and the kernel behind it. The calls that leave `eax` as
it is have the value 0 here. -/
def Syscall.run : Syscall → Option (ℤ × Kernel)
  | .exit code => schedCall L k (.exit code.toNat)
  | .putchar c => some (0, k.print [c.toUInt8])
  | .getchar =>
    let r := ChalesOs.getchar k.irq.keyboard
    some (r.1.toInt8.toInt, k.withKeyboard r.2)
  | .getTicks => some (k.irq.ticks, k)
  | .sbrk increment => schedCall L k (.sbrk (cInt increment))
  | .ls path =>
    (pathArg k.mem path).bind fun path => (ramfsLs k.fs path).map fun text => (0, k.print text)
  | .open path flags =>
    (pathArg k.mem path).bind fun path =>
      (syscallOpen k.system path flags.toNat).map fun r => (r.1, { k with system := r.2 })
  | .close fd =>
    let r := sysClose k.system (cInt fd)
    some (r.1, { k with system := r.2 })
  | .read fd buf count => sysReadAt L k fd buf count
  | .write fd buf count => sysWriteAt L k fd buf count
  | .mkdir path => withPath k path (ramfsMkdir k.fs)
  | .unlink path => withPath k path fun path => some (ramfsUnlink k.fs path)
  | .rmdir path => withPath k path fun path => some (ramfsRmdir k.fs path)
  | .clearScreen => some (0, { k with system := { k.system with printed := [] } })
  | .outport8 port value =>
    some (value.toUInt8.toNat, { k with irq := { k.irq with
      devices := ChalesOs.outport8 port.toUInt16 value.toUInt8 k.irq.devices } })
  | .inport8 port => some ((ChalesOs.inport8 port.toUInt16 k.irq.devices).toNat, k)
  | .execv path argv envp =>
    (pathArg k.mem path).bind fun path =>
      (argvArg k.mem argv).bind fun argv =>
        (argvArg k.mem envp).bind fun envp => schedCall L k (.exec (fileData k.fs) path argv envp)
  | .open2 path oflags =>
    (withPath k path fun path => ramfsOpen2 k.fs path oflags.toNat).map fun r =>
      (sysWrapFd r.1, r.2)
  | .lseek fd off whence => some (sysLseek k fd off whence)
  | .fstat fd st => sysFstat L k fd st
  | .stat path st => sysStat L k path st
  | .isatty fd => some (if fd.toNat < 3 then 1 else 0, k)
  | .getpid => some ((k.machine.tasks k.machine.currentTask).pid, k)
  | .kill pid sig => schedCall L k (.kill pid.toNat sig.toNat)
  | .times t => sysTimes L k t
  | .gettimeofday tv => sysGettimeofday L k tv
  | .wait status =>
    if (k.machine.tasks k.machine.currentTask).zombieValid ∧ status ≠ 0 ∧
        ¬L.HoldsProgram status.toNat 4 then none
    else schedCall L k (.wait status.toNat)
  | .unknown num =>
    (printk (cstr "[SYSCALL] unknown syscall %lu\n") [.word num]).map fun r =>
      (-eNosys, k.print r.2)

/-- The calls that leave `eax` as it is. -/
def Syscall.leavesEax : Syscall → Bool
  | .exit _ => true
  | .putchar _ => true
  | _ => false

/-- `syscall_handler`: the value of `eax` behind it, and the kernel. A program that starts another
one gets the value when it runs again. -/
def syscallHandler (r : Regs) : Option (UInt32 × Kernel) :=
  (decode r).bind fun c => (c.run L k).map fun p =>
    (if c.leavesEax then r.eax else UInt32.ofInt p.1, p.2)

end ChalesOs
