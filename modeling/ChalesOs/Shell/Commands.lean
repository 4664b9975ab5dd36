import ChalesOs.Ramfs.Listing
import ChalesOs.Ramfs.Opens
import ChalesOs.Ramfs.Streams
import ChalesOs.Shell.ReadLine
import ChalesOs.Shell.Words
import ChalesOs.Shell.Write

/-!
# The commands of the shell

The built-in commands of `shell.c`, and `shell_execute_command`, which looks up the first word of a
line among them and starts the program of that name in `bin/` otherwise. What a started program does
is not known here, so a command ends in a `ShellAction`, which says what the shell does when the
program is over.

A line is some operations of the file system, of which one creates an inode at most, and it closes
what it opens, also on its error paths (`ShellMove`). So any number of lines lead from a reachable
file system to a reachable one (`shellRun_moves`), and do not use up the table of 32 descriptors
(`shellRun_keepsFds`).
-/

namespace ChalesOs

/-- What a command does. -/
inductive ShellAction
  /-- It returns to the loop of the shell. -/
  | returns (code : ℤ) (s : SystemState)
  /-- `_syscall_execv`, and for the result the return value and what is printed. -/
  | execv (path : CString) (argv : List CString) (s : SystemState) (after : ℤ → ℤ × List UInt8)
  /-- `_syscall_reboot`. -/
  | reboot (s : SystemState)
  /-- `_syscall_exit(0)`. -/
  | exit (s : SystemState)

/-- Text that is printed. -/
def SystemState.print (s : SystemState) (text : List UInt8) : SystemState :=
  { s with printed := s.printed ++ text }

/-! ### The system calls -/

/-- `_syscall_read` of a file: the result, and the bytes in the buffer. -/
def syscallReadFile (s : SystemState) (fd : ℤ) (count : ℕ) :
    Option (ℤ × List UInt8 × SystemState) :=
  if fd < fdFileBase then some (-eBadf, [], s)
  else
    (ramfsRead s.fs (fd - fdFileBase) false count).map fun r =>
      (if r.1 < 0 then -eBadf else r.1, r.2.1, { s with fs := r.2.2 })

/-- A system call of the tree. -/
def syscallTree (f : Ramfs → Option CString → Option (ℤ × Ramfs)) (path : CString)
    (s : SystemState) : Option (ℤ × SystemState) :=
  (f s.fs (some path)).map fun r => (r.1, { s with fs := r.2 })

/-! ### The commands -/

/-- `CAT_BUF_SIZE`. -/
def catBufSize : ℕ := 256

/-- A command with a path: how it is used, its call, and what it prints when the call fails. -/
def pathCommand (usage complaint : CString)
    (call : CString → SystemState → Option (ℤ × SystemState)) (argv : List CString)
    (s : SystemState) : Option (ℤ × SystemState) :=
  match argv with
  | _ :: path :: _ =>
    (call path s).map fun r =>
      if r.1 < 0 then (1, r.2.print (complaint ++ cstr " '" ++ path ++ cstr "'\n")) else (0, r.2)
  | _ => some (1, s.print usage)

/-- `_syscall_open(path, 1)`, and `_syscall_close` of what it returns. -/
def touchFile (path : CString) (s : SystemState) : Option (ℤ × SystemState) :=
  (syscallOpen s (some path) 1).map fun r =>
    if r.1 < 0 then r else (0, (sysClose r.2 r.1).2)

/-- `cmd_touch`. -/
def cmdTouch : List CString → SystemState → Option (ℤ × SystemState) :=
  pathCommand (cstr "Usage: touch <filename>\n") (cstr "Error: cannot create file") touchFile

/-- `cmd_mkdir`. -/
def cmdMkdir : List CString → SystemState → Option (ℤ × SystemState) :=
  pathCommand (cstr "Usage: mkdir <dirname>\n") (cstr "Error: cannot create directory")
    (syscallTree ramfsMkdir)

/-- `cmd_rmdir`. -/
def cmdRmdir : List CString → SystemState → Option (ℤ × SystemState) :=
  pathCommand (cstr "Usage: rmdir <dirname>\n") (cstr "Error: cannot remove directory")
    (syscallTree fun s path => some (ramfsRmdir s path))

/-- `cmd_rm`. -/
def cmdRm : List CString → SystemState → Option (ℤ × SystemState) :=
  pathCommand (cstr "Usage: rm <filename>\n") (cstr "Error: cannot delete")
    (syscallTree fun s path => some (ramfsUnlink s path))

/-- `while ((bytes = _syscall_read(fd, buffer, CAT_BUF_SIZE)) > 0)`, with at most `fuel`
iterations. -/
def cmdCatLoop (fd : ℤ) : (fuel : ℕ) → SystemState → Option SystemState
  | 0, _ => none
  | fuel + 1, s =>
    (syscallReadFile s fd catBufSize).bind fun r =>
      if r.1 > 0 then cmdCatLoop fd fuel (r.2.2.print r.2.1) else some r.2.2

/-- `cmd_cat`; `malloced` says whether `malloc` returns a buffer. No file has more chunks than
bytes. -/
def cmdCat (malloced : Bool) (argv : List CString) (s : SystemState) :
    Option (ℤ × SystemState) :=
  match argv with
  | _ :: path :: _ =>
    (syscallOpen s (some path) 0).bind fun r =>
      if r.1 < 0 then
        some (1, r.2.print (cstr "Error: cannot open file '" ++ path ++ cstr "'\n"))
      else if ¬malloced then
        some (1, (sysClose (r.2.print (cstr "Error: out of memory\n")) r.1).2)
      else
        (cmdCatLoop r.1 (ramfsMaxFilesize + 1) r.2).map fun s =>
          (0, (sysClose (s.print (cstr "\n")) r.1).2)
  | _ => some (1, s.print (cstr "Usage: cat <filename>\n"))

/-- The loop of `cmd_echo`: words, and a blank behind all but the last. -/
def echoLoop : List CString → List UInt8
  | [] => []
  | w :: words => w ++ (if words ≠ [] then cstr " " else []) ++ echoLoop words

/-- `cmd_echo`. -/
def cmdEcho (argv : List CString) (s : SystemState) : ℤ × SystemState :=
  (0, s.print (echoLoop argv.tail ++ cstr "\n"))

/-- `cmd_ls`; without an argument it lists the root. -/
def cmdLs (argv : List CString) (s : SystemState) : Option (ℤ × SystemState) :=
  (ramfsLs s.fs (some (argv.getD 1 []))).map fun text => (0, s.print text)

/-- `cmd_clear`. -/
def cmdClear (s : SystemState) : ℤ × SystemState := (0, { s with printed := [] })

/-- `cmd_uname`. -/
def cmdUname (s : SystemState) : ℤ × SystemState :=
  (0, s.print (cstr "System Information:\n  Kernel: chales-os\n  Architecture: i386\n" ++
    cstr "  Compiler: GCC (cross-compiler)\n"))

/-- `cmd_exec`: the words behind the first are the path and the arguments. -/
def cmdExec (argv : List CString) (s : SystemState) : ShellAction :=
  match argv with
  | _ :: path :: args => .execv path (path :: args) s fun _ => (1, [])
  | _ => .returns 1 (s.print (cstr "Usage: exec <path> [<arg>...]\n"))

/-! ### The table of the commands -/

/-- The entries of `commands`. -/
inductive Builtin
  | help | clear | echo | ls | cat | touch | write | mkdir | rmdir | rm | uname | reboot | exec
  | exit
  deriving DecidableEq

namespace Builtin

/-- The name and the description of an entry. -/
def texts : Builtin → CString × CString
  | help => (cstr "help", cstr "Show available commands")
  | clear => (cstr "clear", cstr "Clear the screen")
  | echo => (cstr "echo", cstr "Print text")
  | ls => (cstr "ls", cstr "List files in directory")
  | cat => (cstr "cat", cstr "Display file contents")
  | touch => (cstr "touch", cstr "Create an empty file")
  | write => (cstr "write", cstr "Write text to a file")
  | mkdir => (cstr "mkdir", cstr "Create a directory")
  | rmdir => (cstr "rmdir", cstr "Remove a directory")
  | rm => (cstr "rm", cstr "Delete a file")
  | uname => (cstr "uname", cstr "Display system information")
  | reboot => (cstr "reboot", cstr "Reboot the system")
  | exec => (cstr "exec", cstr "Load and run an ELF binary")
  | exit => (cstr "exit", cstr "Exit the shell")

end Builtin

/-- `commands`. -/
def commands : List Builtin :=
  [.help, .clear, .echo, .ls, .cat, .touch, .write, .mkdir, .rmdir, .rm, .uname, .reboot, .exec,
    .exit]

/-- `cmd_help`. -/
def cmdHelp (s : SystemState) : ℤ × SystemState :=
  (0, s.print (cstr "Available commands:\n" ++ commands.flatMap fun c =>
    cstr "  " ++ c.texts.1 ++ cstr " - " ++ c.texts.2 ++ cstr "\n"))

/-- A command that returns. -/
def ShellAction.of (r : ℤ × SystemState) : ShellAction := .returns r.1 r.2

/-- The handler of an entry. -/
def Builtin.handler (malloced : Bool) (argv : List CString) (s : SystemState) :
    Builtin → Option ShellAction
  | .help => some (.of (cmdHelp s))
  | .clear => some (.of (cmdClear s))
  | .echo => some (.of (cmdEcho argv s))
  | .ls => (cmdLs argv s).map .of
  | .cat => (cmdCat malloced argv s).map .of
  | .touch => (cmdTouch argv s).map .of
  | .write => (cmdWrite argv s).map .of
  | .mkdir => (cmdMkdir argv s).map .of
  | .rmdir => (cmdRmdir argv s).map .of
  | .rm => (cmdRm argv s).map .of
  | .uname => some (.of (cmdUname s))
  | .reboot => some (.reboot (s.print (cstr "Rebooting...\n")))
  | .exec => some (cmdExec argv s)
  | .exit => some (.exit s)

/-- `BIN_PATH_PREFIX`. -/
def binPathPrefix : CString := cstr "bin/"

/-- `BIN_PATH_MAX`. -/
def binPathMax : ℕ := shellBufferSize + (binPathPrefix.length + 1)

/-- What is printed when there is no such program. -/
def unknownCommand (name : CString) : List UInt8 := cstr "Unknown command: " ++ name ++ cstr "\n"

/-- `shell_execute_command`. -/
def shellExecuteCommand (malloced : Bool) (argv : List CString) (s : SystemState) :
    Option ShellAction :=
  match argv with
  | [] => some (.returns 0 s)
  | name :: args =>
    match commands.find? fun c => c.texts.1 = name with
    | some c => c.handler malloced argv s
    | none =>
      if name.length + (binPathPrefix.length + 1) > binPathMax then
        some (.returns 127 (s.print (unknownCommand name)))
      else
        let path := binPathPrefix ++ name
        some (.execv path (path :: args) s fun ret =>
          if ret ≠ 0 then (127, unknownCommand name) else (0, []))

/-- `SHELL_MAX_ARGS`. -/
def shellMaxArgs : ℕ := 16

/-- The loop of `main` behind `shell_read_line`, with the line in the buffer at an address. -/
def shellLine (malloced : Bool) (buffer : ℕ) (m : Mem) (s : SystemState) : Option ShellAction :=
  (shellParseCommand shellBufferSize buffer shellMaxArgs m).bind fun r =>
    (r.2.mapM fun p => stringFrom r.1 shellBufferSize p).bind fun argv =>
      shellExecuteCommand malloced argv s

/-- The shell on any number of lines that are commands of its own: whether `malloc` returns a
buffer, and the memory with the line. -/
def shellSystem (buffer : ℕ) : StepSystem SystemState (Bool × Mem) where
  start _ := True
  step s line := (shellLine line.1 buffer line.2 s).bind fun
    | .returns _ s' => some s'
    | _ => none

/-! ### Lines -/

variable {s s₁ s₂ : Ramfs} {io io' : SystemState} {k : Fin 32} {fd ret : ℤ} {m : Mem}
  {text : CString} {malloced : Bool}

/-- A word is not longer than the line. -/
theorem length_le_of_mem_splitOnP {p : UInt8 → Bool} {w : CString} (h : w ∈ text.splitOnP p) :
    w.length ≤ text.length := by
  induction text generalizing w with
  | nil =>
    rw [List.splitOnP_nil, List.mem_singleton] at h
    rw [h]
  | cons c text ih =>
    rw [List.splitOnP_cons_eq_if_modifyHead] at h
    rw [List.length_cons]
    split_ifs at h with hc
    · rcases List.mem_cons.mp h with rfl | h
      · exact Nat.zero_le _
      · exact (ih h).trans (Nat.le_succ _)
    · -- the first word gets the character
      cases hsplit : text.splitOnP p with
      | nil => exact absurd hsplit (List.splitOnP_ne_nil p text)
      | cons v vs =>
        rw [hsplit, List.modifyHead_cons] at h
        rcases List.mem_cons.mp h with rfl | h
        · exact Nat.succ_le_succ (ih (hsplit ▸ List.mem_cons_self))
        · exact (ih (hsplit ▸ List.mem_cons_of_mem _ h)).trans (Nat.le_succ _)

/-- Pointers to strings are read one after the other. -/
theorem mapM_stringFrom {fuel : ℕ} {ps : List ℕ} {ws : List CString}
    (h : List.Forall₂ (StringAt m) ps ws) (hlen : ∀ w ∈ ws, w.length < fuel) :
    (ps.mapM fun p => stringFrom m fuel p) = some ws := by
  induction h with
  | nil => rfl
  | cons hp _ ih =>
    rw [List.mapM_cons, hp.stringFrom_eq (hlen _ List.mem_cons_self),
      ih fun w hw => hlen w (List.mem_cons_of_mem _ hw)]
    rfl

/-- **A line runs the command its words are.** -/
theorem shellLine_eq {buffer : ℕ} (h : StringAt m buffer text)
    (hlen : text.length < shellBufferSize) :
    shellLine malloced buffer m io =
      shellExecuteCommand malloced ((words text).take shellMaxArgs) io := by
  obtain ⟨m', argv, hparse, hargv, -⟩ := splits shellMaxArgs shellBufferSize m buffer text [] h hlen
  have hwords : ∀ w ∈ (words text).take shellMaxArgs, w.length < shellBufferSize := fun w hw =>
    (length_le_of_mem_splitOnP (List.mem_of_mem_filter (List.mem_of_mem_take hw))).trans_lt hlen
  rw [List.nil_append] at hparse
  rw [List.length_nil, Nat.sub_zero] at hargv
  rw [shellLine, shellParseCommand, hparse, Option.bind_some, mapM_stringFrom hargv hwords,
    Option.bind_some]

/-! ### Descriptors -/

/-- The descriptors in use are the same, also their offsets and flags. -/
def KeepsFds (s s' : Ramfs) : Prop :=
  ∀ k, (s'.fds k).ino = (s.fds k).ino ∧ ((s.fds k).ino ≠ 0 → s'.fds k = s.fds k)

theorem KeepsFds.of_fds (h : s₁.fds = s.fds) : KeepsFds s s₁ := fun k => by simp [h]

theorem KeepsFds.refl (s : Ramfs) : KeepsFds s s := .of_fds rfl

theorem KeepsFds.trans (h : KeepsFds s s₁) (h' : KeepsFds s₁ s₂) : KeepsFds s s₂ := fun k => by
  refine ⟨(h' k).1.trans (h k).1, fun hk => ?_⟩
  rw [(h' k).2 ((h k).1 ▸ hk), (h k).2 hk]

/-- A call of `open` fails, or it fills a free descriptor. -/
theorem syscallOpen_fds {path : Option CString} {flags : ℕ}
    (h : syscallOpen io path flags = some (ret, io')) :
    ret < 0 ∧ io'.fs.fds = io.fs.fds ∨ ∃ k : Fin 32, ret = (k : ℕ) + fdFileBase ∧
      (io.fs.fds k).ino = 0 ∧ ∀ j ≠ k, io'.fs.fds j = io.fs.fds j := by
  obtain ⟨r, hr, heq⟩ := Option.map_eq_some_iff.mp h
  obtain ⟨rfl, rfl⟩ := Prod.mk.inj heq
  rcases ramfsOpen_fds hr with ⟨hret, hfds⟩ | ⟨k, i, hret, hk, hfds, -⟩
  · rw [hret]
    exact Or.inl ⟨by decide, hfds⟩
  · refine Or.inr ⟨k, ?_, ramfsFindFreeFd_some hk, fun j hj => ?_⟩
    · rw [hret, if_neg (by omega), sysWrapFd, if_neg (by omega)]
    · rw [hfds, Function.update_of_ne hj]

/-- A descriptor that was free before is closed. -/
theorem KeepsFds.sysClose (hfree : (io.fs.fds k).ino = 0)
    (hother : ∀ j ≠ k, io'.fs.fds j = io.fs.fds j) :
    KeepsFds io.fs (sysClose io' ((k : ℕ) + fdFileBase)).2.fs := by
  have hfs : (ChalesOs.sysClose io' ((k : ℕ) + fdFileBase)).2.fs =
      (ramfsClose io'.fs ((k : ℕ) : ℤ)).2 := by
    rw [ChalesOs.sysClose, fdFileBase, if_neg (by omega), Int.add_sub_cancel]
  intro j
  rw [hfs]
  by_cases hj : j = k
  · subst hj
    refine ⟨?_, fun hlive => absurd hfree hlive⟩
    rw [hfree, ramfsClose, validFd_coe]
    dsimp only
    by_cases hzero : (io'.fs.fds j).ino = 0
    · rw [if_pos hzero]
      exact hzero
    · rw [if_neg hzero, Ramfs.setFd_self]
      rfl
  · have hne : ((k : ℕ) : ℤ) ≠ ((j : ℕ) : ℤ) := fun heq => hj (Fin.ext (by omega)).symm
    rw [ramfsClose_fds _ _ hne, hother j hj]
    exact ⟨rfl, fun _ => rfl⟩

/-- Reads of a file use its descriptor only. -/
theorem syscallReadFile_fds {count : ℕ} {r : ℤ × List UInt8 × SystemState}
    (h : syscallReadFile io fd count = some r) {j : Fin 32} (hj : fd ≠ (j : ℕ) + fdFileBase) :
    r.2.2.fs.fds j = io.fs.fds j := by
  rw [syscallReadFile] at h
  split_ifs at h
  · obtain rfl := Option.some_injective _ h
    rfl
  · obtain ⟨p, hp, rfl⟩ := Option.map_eq_some_iff.mp h
    exact ramfsRead_fds_eq hp (by omega)

theorem cmdCatLoop_fds {fuel : ℕ} (h : cmdCatLoop fd fuel io = some io') {j : Fin 32}
    (hj : fd ≠ (j : ℕ) + fdFileBase) : io'.fs.fds j = io.fs.fds j := by
  induction fuel generalizing io with
  | zero => exact absurd h (Option.some_ne_none _).symm
  | succ fuel ih =>
    obtain ⟨r, hr, h⟩ := Option.bind_eq_some_iff.mp h
    have hread := syscallReadFile_fds hr hj
    split_ifs at h
    · exact (ih h).trans hread
    · obtain rfl := Option.some_injective _ h
      exact hread

/-- Writes to a file use its descriptor only. -/
theorem writeWord_fds {w : CString} (h : writeWord fd io w = some io') {j : Fin 32}
    (hj : fd ≠ (j : ℕ) + fdFileBase) : io'.fs.fds j = io.fs.fds j := by
  obtain ⟨r, hr, rfl⟩ := Option.map_eq_some_iff.mp h
  simp only [sysWrite] at hr
  split_ifs at hr
  · obtain rfl := Option.some_injective _ hr
    rfl
  · obtain rfl := Option.some_injective _ hr
    rfl
  · obtain ⟨p, hp, rfl⟩ := Option.map_eq_some_iff.mp hr
    exact ramfsWrite_fds_eq hp (by omega)

theorem cmdWriteLoop_fds {ws : List CString} (h : cmdWriteLoop fd io ws = some io') {j : Fin 32}
    (hj : fd ≠ (j : ℕ) + fdFileBase) : io'.fs.fds j = io.fs.fds j := by
  induction ws generalizing io with
  | nil =>
    obtain rfl := Option.some_injective _ h
    rfl
  | cons w ws ih =>
    obtain ⟨io₁, hio₁, h⟩ := Option.bind_eq_some_iff.mp h
    obtain ⟨io₂, hio₂, h⟩ := Option.bind_eq_some_iff.mp h
    have hblank : io₂.fs.fds j = io₁.fs.fds j := by
      split_ifs at hio₂
      · exact writeWord_fds hio₂ hj
      · obtain rfl := Option.some_injective _ hio₂
        rfl
    rw [ih h, hblank, writeWord_fds hio₁ hj]

/-- The calls of the tree leave the table of descriptors alone. -/
theorem ramfsMkdir_fds {path : Option CString} {r : ℤ × Ramfs} (h : ramfsMkdir s path = some r) :
    r.2.fds = s.fds := by
  rcases ramfsMkdir_cases h with rfl | ⟨p, i, parentIno, s₁, -, -, -, -, hcreate, rfl⟩
  · rfl
  · exact (ramfsCreate_frame hcreate).2.2.1

theorem ramfsRmdir_fds (s : Ramfs) (path : Option CString) : (ramfsRmdir s path).2.fds = s.fds := by
  rcases ramfsRmdir_cases s path with heq | ⟨i, -, -, heq⟩
  · rw [heq]
  · rw [heq, Ramfs.setInode_fds]

theorem ramfsUnlink_fds (s : Ramfs) (path : Option CString) :
    (ramfsUnlink s path).2.fds = s.fds := by
  rcases ramfsUnlink_cases s path with heq | ⟨i, -, -, heq⟩
  · rw [heq]
  · rw [heq, Ramfs.setInode_fds, (ramfsRelease_frame s i).2.2.1]

/-! ### Operations of the file system -/

/-- Operations of the file system that create at most `n` inodes. -/
def RamfsMoves (n : ℕ) (s s' : Ramfs) : Prop :=
  ∀ progs created, ∃ ops created', created' ≤ created + n ∧
    (ramfsSystem progs).runInputs ⟨s, created⟩ ops = some ⟨s', created'⟩

theorem RamfsMoves.refl (n : ℕ) (s : Ramfs) : RamfsMoves n s s := fun _ created =>
  ⟨[], created, Nat.le_add_right _ _, rfl⟩

theorem RamfsMoves.trans {n n' : ℕ} (h : RamfsMoves n s s₁) (h' : RamfsMoves n' s₁ s₂) :
    RamfsMoves (n + n') s s₂ := fun progs created => by
  obtain ⟨ops, created₁, hle, hops⟩ := h progs created
  obtain ⟨ops', created₂, hle', hops'⟩ := h' progs created₁
  refine ⟨ops ++ ops', created₂, by omega, ?_⟩
  rw [StepSystem.runInputs_append, hops, Option.bind_some, hops']

/-- One operation. -/
theorem RamfsMoves.single {n : ℕ} {op : RamfsOp} {res : RamfsResult}
    (h : ramfsExec s op = some (res, s₁)) (hn : s₁.nextInode = s.nextInode ∨ 0 < n) :
    RamfsMoves n s s₁ := fun progs created => by
  have hstep : (ramfsSystem progs).step ⟨s, created⟩ op =
      some ⟨s₁, created + newInodes s s₁⟩ := by
    simp only [ramfsSystem, h, Option.map_some]
  refine ⟨[op], created + newInodes s s₁, ?_, by rw [StepSystem.runInputs, hstep]; rfl⟩
  rw [newInodes]
  split_ifs with hsame
  · exact Nat.le_add_right _ _
  · have := hn.resolve_left hsame
    omega

theorem ramfsMoves_syscallOpen {path : Option CString} {flags : ℕ}
    (h : syscallOpen io path flags = some (ret, io')) : RamfsMoves 1 io.fs io'.fs := by
  obtain ⟨r, hr, heq⟩ := Option.map_eq_some_iff.mp h
  obtain ⟨-, rfl⟩ := Prod.mk.inj heq
  have hexec : ramfsExec io.fs (.open path flags) = some (⟨r.1, []⟩, r.2) := by
    rw [ramfsExec, hr]
    rfl
  exact .single hexec (Or.inr one_pos)

theorem ramfsMoves_sysClose (io : SystemState) (fd : ℤ) :
    RamfsMoves 0 io.fs (sysClose io fd).2.fs := by
  rw [sysClose]
  split_ifs
  · exact .refl 0 _
  · have hexec : ramfsExec io.fs (.close (fd - fdFileBase)) =
        some (⟨(ramfsClose io.fs (fd - fdFileBase)).1, []⟩,
          (ramfsClose io.fs (fd - fdFileBase)).2) := rfl
    exact .single hexec (Or.inl (ramfsClose_fdsOnly _ _).nextInode)

theorem ramfsMoves_syscallReadFile {count : ℕ} {r : ℤ × List UInt8 × SystemState}
    (h : syscallReadFile io fd count = some r) : RamfsMoves 0 io.fs r.2.2.fs := by
  rw [syscallReadFile] at h
  split_ifs at h
  · obtain rfl := Option.some_injective _ h
    exact .refl 0 _
  · obtain ⟨p, hp, rfl⟩ := Option.map_eq_some_iff.mp h
    have hexec : ramfsExec io.fs (.read (fd - fdFileBase) false count) =
        some (⟨p.1, p.2.1⟩, p.2.2) := by
      rw [ramfsExec, hp]
      rfl
    exact .single hexec (Or.inl (ramfsRead_fdsOnly hp).nextInode)

theorem ramfsMoves_cmdCatLoop {fuel : ℕ} (h : cmdCatLoop fd fuel io = some io') :
    RamfsMoves 0 io.fs io'.fs := by
  induction fuel generalizing io with
  | zero => exact absurd h (Option.some_ne_none _).symm
  | succ fuel ih =>
    obtain ⟨r, hr, h⟩ := Option.bind_eq_some_iff.mp h
    have hread := ramfsMoves_syscallReadFile hr
    split_ifs at h
    · have hrest : RamfsMoves 0 (r.2.2.print r.2.1).fs io'.fs := ih h
      exact hread.trans hrest
    · obtain rfl := Option.some_injective _ h
      exact hread

theorem ramfsMoves_writeWord {w : CString} (h : writeWord fd io w = some io') :
    RamfsMoves 0 io.fs io'.fs := by
  obtain ⟨r, hr, rfl⟩ := Option.map_eq_some_iff.mp h
  simp only [sysWrite] at hr
  split_ifs at hr
  · obtain rfl := Option.some_injective _ hr
    exact .refl 0 _
  · obtain rfl := Option.some_injective _ hr
    exact .refl 0 _
  · obtain ⟨p, hp, rfl⟩ := Option.map_eq_some_iff.mp hr
    have hexec : ramfsExec io.fs (.write (fd - fdFileBase) (some fun i => w.getD i 0) w.length) =
        some (⟨p.1, []⟩, p.2) := by
      rw [ramfsExec, hp]
      rfl
    exact .single hexec (Or.inl (ramfsWrite_sameTree hp).2)

theorem ramfsMoves_cmdWriteLoop {ws : List CString} (h : cmdWriteLoop fd io ws = some io') :
    RamfsMoves 0 io.fs io'.fs := by
  induction ws generalizing io with
  | nil =>
    obtain rfl := Option.some_injective _ h
    exact .refl 0 _
  | cons w ws ih =>
    obtain ⟨io₁, hio₁, h⟩ := Option.bind_eq_some_iff.mp h
    obtain ⟨io₂, hio₂, h⟩ := Option.bind_eq_some_iff.mp h
    have hblank : RamfsMoves 0 io₁.fs io₂.fs := by
      split_ifs at hio₂
      · exact ramfsMoves_writeWord hio₂
      · obtain rfl := Option.some_injective _ hio₂
        exact .refl 0 _
    exact ((ramfsMoves_writeWord hio₁).trans hblank).trans (ih h)

/-! ### Commands -/

/-- What a command does to the file system. -/
structure ShellMove (s s' : Ramfs) : Prop where
  fds : KeepsFds s s'
  ops : RamfsMoves 1 s s'

theorem ShellMove.refl (s : Ramfs) : ShellMove s s := ⟨.refl s, .refl 1 s⟩

/-- A command that returns at once. -/
theorem ShellMove.of_eq {r r' : ℤ × SystemState} (hr : r.2.fs = io.fs) (h : some r = some r') :
    ShellMove io.fs r'.2.fs := by
  obtain rfl := Option.some_injective _ h
  rw [hr]
  exact .refl _

/-- A command with a path does what its call does. -/
theorem shellMove_pathCommand {usage complaint : CString} {argv : List CString}
    {call : CString → SystemState → Option (ℤ × SystemState)} {r : ℤ × SystemState}
    (hcall : ∀ path r, call path io = some r → ShellMove io.fs r.2.fs)
    (h : pathCommand usage complaint call argv io = some r) : ShellMove io.fs r.2.fs := by
  obtain _ | ⟨name, _ | ⟨path, argv⟩⟩ := argv
  · exact .of_eq rfl h
  · exact .of_eq rfl h
  · obtain ⟨r₁, hr₁, rfl⟩ := Option.map_eq_some_iff.mp h
    have hmove := hcall path r₁ hr₁
    split_ifs
    · exact hmove
    · exact hmove

/-- A file is opened, something is done through its descriptor, and it is closed. -/
theorem shellMove_open_close {path : Option CString} {flags : ℕ} {io₁ : SystemState}
    (hopen : syscallOpen io path flags = some (ret, io₁)) (hret : ¬ret < 0)
    (hother : ∀ j : Fin 32, ret ≠ (j : ℕ) + fdFileBase → io'.fs.fds j = io₁.fs.fds j)
    (hops : RamfsMoves 0 io₁.fs io'.fs) : ShellMove io.fs (sysClose io' ret).2.fs := by
  refine ⟨?_, ((ramfsMoves_syscallOpen hopen).trans hops).trans (ramfsMoves_sysClose io' ret)⟩
  rcases syscallOpen_fds hopen with ⟨hneg, -⟩ | ⟨k, rfl, hfree, hfds⟩
  · exact absurd hneg hret
  · refine .sysClose hfree fun j hj => (hother j fun heq => hj ?_).trans (hfds j hj)
    exact Fin.ext (by omega)

/-- A file that could not be opened has no descriptor. -/
theorem shellMove_of_open_neg {path : Option CString} {flags : ℕ} {io₁ : SystemState}
    (hopen : syscallOpen io path flags = some (ret, io₁)) (hret : ret < 0) :
    ShellMove io.fs io₁.fs := by
  refine ⟨?_, ramfsMoves_syscallOpen hopen⟩
  rcases syscallOpen_fds hopen with ⟨-, hfds⟩ | ⟨k, rfl, -⟩
  · exact .of_fds hfds
  · rw [fdFileBase] at hret
    omega

theorem shellMove_touchFile {path : CString} {r : ℤ × SystemState}
    (h : touchFile path io = some r) : ShellMove io.fs r.2.fs := by
  obtain ⟨⟨ret, io₁⟩, hopen, rfl⟩ := Option.map_eq_some_iff.mp h
  dsimp only
  split_ifs with hret
  · exact shellMove_of_open_neg hopen hret
  · exact shellMove_open_close hopen hret (fun _ _ => rfl) (.refl 0 _)

/-- A call of the tree is one operation, and leaves the table of descriptors alone. -/
theorem shellMove_syscallTree {f : Ramfs → Option CString → Option (ℤ × Ramfs)} {path : CString}
    (op : RamfsOp) (hf : ∀ r, f io.fs (some path) = some r →
      r.2.fds = io.fs.fds ∧ ∃ res, ramfsExec io.fs op = some (res, r.2)) {r : ℤ × SystemState}
    (h : syscallTree f path io = some r) : ShellMove io.fs r.2.fs := by
  obtain ⟨r₁, hr₁, rfl⟩ := Option.map_eq_some_iff.mp h
  obtain ⟨hfds, res, hexec⟩ := hf r₁ hr₁
  exact ⟨.of_fds hfds, .single hexec (Or.inr one_pos)⟩

theorem shellMove_cmdMkdir {argv : List CString} {r : ℤ × SystemState}
    (h : cmdMkdir argv io = some r) : ShellMove io.fs r.2.fs := by
  refine shellMove_pathCommand (fun path r₁ => ?_) h
  refine shellMove_syscallTree (.mkdir (some path)) fun r₂ hr₂ =>
    ⟨ramfsMkdir_fds hr₂, ⟨r₂.1, []⟩, ?_⟩
  rw [ramfsExec, hr₂]
  rfl

theorem shellMove_cmdRmdir {argv : List CString} {r : ℤ × SystemState}
    (h : cmdRmdir argv io = some r) : ShellMove io.fs r.2.fs := by
  refine shellMove_pathCommand (fun path r₁ => ?_) h
  refine shellMove_syscallTree (.rmdir (some path)) fun r₂ hr₂ => ?_
  obtain rfl := Option.some_injective _ hr₂
  exact ⟨ramfsRmdir_fds io.fs (some path), _, rfl⟩

theorem shellMove_cmdRm {argv : List CString} {r : ℤ × SystemState}
    (h : cmdRm argv io = some r) : ShellMove io.fs r.2.fs := by
  refine shellMove_pathCommand (fun path r₁ => ?_) h
  refine shellMove_syscallTree (.unlink (some path)) fun r₂ hr₂ => ?_
  obtain rfl := Option.some_injective _ hr₂
  exact ⟨ramfsUnlink_fds io.fs (some path), _, rfl⟩

theorem shellMove_cmdCat {argv : List CString} {r : ℤ × SystemState}
    (h : cmdCat malloced argv io = some r) : ShellMove io.fs r.2.fs := by
  obtain _ | ⟨name, _ | ⟨path, argv⟩⟩ := argv
  · exact .of_eq rfl h
  · exact .of_eq rfl h
  · obtain ⟨⟨ret, io₁⟩, hopen, h⟩ := Option.bind_eq_some_iff.mp h
    dsimp only at h
    split_ifs at h with hret hmalloc
    · have hmove := shellMove_of_open_neg hopen hret
      obtain rfl := Option.some_injective _ h
      exact hmove
    · obtain ⟨io₂, hloop, rfl⟩ := Option.map_eq_some_iff.mp h
      have hops : RamfsMoves 0 io₁.fs io₂.fs := ramfsMoves_cmdCatLoop hloop
      exact shellMove_open_close hopen hret (fun j hj => cmdCatLoop_fds hloop hj) hops
    · obtain rfl := Option.some_injective _ h
      exact shellMove_open_close hopen hret (fun _ _ => rfl) (.refl 0 _)

theorem shellMove_cmdWrite {argv : List CString} {r : ℤ × SystemState}
    (h : cmdWrite argv io = some r) : ShellMove io.fs r.2.fs := by
  obtain _ | ⟨name, _ | ⟨path, _ | ⟨w, argv⟩⟩⟩ := argv
  · exact .of_eq rfl h
  · exact .of_eq rfl h
  · exact .of_eq rfl h
  · obtain ⟨⟨ret, io₁⟩, hopen, h⟩ := Option.bind_eq_some_iff.mp h
    dsimp only at h
    split_ifs at h with hret
    · have hmove := shellMove_of_open_neg hopen hret
      obtain rfl := Option.some_injective _ h
      exact hmove
    · obtain ⟨io₂, hloop, rfl⟩ := Option.map_eq_some_iff.mp h
      exact shellMove_open_close hopen hret (fun j hj => cmdWriteLoop_fds hloop hj)
        (ramfsMoves_cmdWriteLoop hloop)

/-- What a command that returns has returned. -/
theorem returns_of_map {r : Option (ℤ × SystemState)} {code : ℤ}
    (h : r.map ShellAction.of = some (.returns code io')) : r = some (code, io') := by
  obtain ⟨p, rfl, heq⟩ := Option.map_eq_some_iff.mp h
  obtain ⟨rfl, rfl⟩ := ShellAction.returns.inj heq
  rfl

/-- A command that leaves the file system alone. -/
theorem ShellMove.of_returns {r : ℤ × SystemState} {code : ℤ} (hr : r.2.fs = io.fs)
    (h : some (ShellAction.returns r.1 r.2) = some (.returns code io')) :
    ShellMove io.fs io'.fs := by
  obtain ⟨-, rfl⟩ := ShellAction.returns.inj (Option.some_injective _ h)
  rw [hr]
  exact .refl _

/-- **A command** that returns. -/
theorem shellMove_handler {c : Builtin} {argv : List CString} {code : ℤ}
    (h : c.handler malloced argv io = some (.returns code io')) : ShellMove io.fs io'.fs := by
  cases c with
  | help => exact .of_returns (r := cmdHelp io) rfl h
  | clear => exact .of_returns (r := cmdClear io) rfl h
  | echo => exact .of_returns (r := cmdEcho argv io) rfl h
  | ls =>
    obtain ⟨text, -, heq⟩ := Option.map_eq_some_iff.mp (returns_of_map h)
    obtain ⟨-, rfl⟩ := Prod.mk.inj heq
    exact .refl _
  | cat => exact shellMove_cmdCat (returns_of_map h)
  | touch => exact shellMove_pathCommand (fun _ _ => shellMove_touchFile) (returns_of_map h)
  | write => exact shellMove_cmdWrite (returns_of_map h)
  | mkdir => exact shellMove_cmdMkdir (returns_of_map h)
  | rmdir => exact shellMove_cmdRmdir (returns_of_map h)
  | rm => exact shellMove_cmdRm (returns_of_map h)
  | uname => exact .of_returns (r := cmdUname io) rfl h
  | reboot => exact absurd (Option.some_injective _ h) (by simp)
  | exec =>
    obtain _ | ⟨name, _ | ⟨path, args⟩⟩ := argv
    · exact .of_returns (r := (1, io.print _)) rfl h
    · exact .of_returns (r := (1, io.print _)) rfl h
    · exact absurd (Option.some_injective _ h) (by simp [cmdExec])
  | exit => exact absurd (Option.some_injective _ h) (by simp)

theorem shellMove_shellExecuteCommand {argv : List CString} {code : ℤ}
    (h : shellExecuteCommand malloced argv io = some (.returns code io')) :
    ShellMove io.fs io'.fs := by
  cases argv with
  | nil => exact .of_returns (r := (0, io)) rfl h
  | cons name args =>
    simp only [shellExecuteCommand] at h
    cases hfind : commands.find? fun c => c.texts.1 = name with
    | some c =>
      rw [hfind] at h
      exact shellMove_handler h
    | none =>
      rw [hfind] at h
      dsimp only at h
      split_ifs at h
      · exact .of_returns (r := (127, io.print (unknownCommand name))) rfl h
      · exact absurd (Option.some_injective _ h) (by simp)

/-- One line. -/
theorem shellMove_step {buffer : ℕ} {line : Bool × Mem}
    (h : (shellSystem buffer).step io line = some io') : ShellMove io.fs io'.fs := by
  obtain ⟨action, haction, hstep⟩ := Option.bind_eq_some_iff.mp h
  obtain ⟨r, -, haction⟩ := Option.bind_eq_some_iff.mp haction
  obtain ⟨argv, -, haction⟩ := Option.bind_eq_some_iff.mp haction
  cases action with
  | returns code io₂ =>
    obtain rfl := Option.some_injective _ hstep
    exact shellMove_shellExecuteCommand haction
  | execv path argv io₂ after => exact absurd hstep (Option.some_ne_none _).symm
  | reboot io₂ => exact absurd hstep (Option.some_ne_none _).symm
  | exit io₂ => exact absurd hstep (Option.some_ne_none _).symm

/-- **Any number of lines** are operations of the file system that create at most one inode each,
and leave the descriptors in use as they are. -/
theorem shellRun_moves {buffer : ℕ} {lines : List (Bool × Mem)}
    (h : (shellSystem buffer).runInputs io lines = some io') :
    KeepsFds io.fs io'.fs ∧ RamfsMoves lines.length io.fs io'.fs := by
  induction lines generalizing io with
  | nil =>
    obtain rfl := Option.some_injective _ h
    exact ⟨.refl _, .refl 0 _⟩
  | cons line lines ih =>
    obtain ⟨io₁, hstep, h⟩ := Option.bind_eq_some_iff.mp h
    have hmove := shellMove_step hstep
    refine ⟨hmove.fds.trans (ih h).1, ?_⟩
    rw [List.length_cons, Nat.add_comm]
    exact hmove.ops.trans (ih h).2

/-- **The shell does not use up descriptors.** Behind any number of lines that are commands of the
shell, whether they succeed or fail, the descriptors in use are the same, and the next `open` gets
the descriptor it would have got before. -/
theorem shellRun_keepsFds {buffer : ℕ} {lines : List (Bool × Mem)}
    (h : (shellSystem buffer).runInputs io lines = some io') :
    KeepsFds io.fs io'.fs ∧ ramfsFindFreeFd io'.fs = ramfsFindFreeFd io.fs :=
  ⟨(shellRun_moves h).1, ramfsFindFreeFd_congr fun k => ((shellRun_moves h).1 k).1⟩

/-- A line in memory. -/
def lineMem (line : CString) : Mem := fun i => line.getD i 0

/-- `shellRun_keepsFds` for three lines, the second of which fails. -/
theorem shellRun_keepsFds_sample : ∃ io',
    (shellSystem 0).runInputs ⟨freshRun.fs, []⟩ [(true, lineMem (cstr "write /a b")),
      (true, lineMem (cstr "mkdir /a")), (false, lineMem (cstr "cat /a"))] = some io' ∧
    KeepsFds freshRun.fs io'.fs ∧ ramfsFindFreeFd io'.fs = ramfsFindFreeFd freshRun.fs := by
  have hrun : ((shellSystem 0).runInputs ⟨freshRun.fs, []⟩ [(true, lineMem (cstr "write /a b")),
      (true, lineMem (cstr "mkdir /a")), (false, lineMem (cstr "cat /a"))]).isSome = true := by
    decide +kernel
  obtain ⟨io', h⟩ := Option.isSome_iff_exists.mp hrun
  exact ⟨io', h, shellRun_keepsFds h⟩

end ChalesOs
