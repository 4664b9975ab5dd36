import ChalesOs.Ramfs.Lifetime
import ChalesOs.Ramfs.ShortWrites

/-!
# The write command of the shell

`cmd_write` of `shell.c` opens the file by the legacy `open`, which creates a missing file and
leaves an existing one as it is. It writes the words, with a space behind all but the last, one
after the other through the descriptor, and closes it.

Each of these writes puts its bytes behind those of the writes before (`Writing.write`), so in the
end the file holds the words joined by spaces, and behind them what it held there before. Only a
root that has been removed is different: it opens like a file, but the writes fail.

The command sets the file if and only if the file was not longer than the words joined by spaces,
is not the root, and has a name that fits if it is new (`setsFile_iff`).

How the block of the file grows meanwhile depends on its capacity and its place only. `Serves`
says in these terms that no write is cut short by the end of the pool.
-/

namespace ChalesOs

open ByteMemory

/-! ### The system calls -/

/-- `CHALES_FD_FILE_BASE`; the descriptors below are the terminal's. -/
def fdFileBase : ℤ := 3

/-- What the system calls of the command change: the file system, and the output. -/
structure SystemState where
  fs : Ramfs
  printed : List UInt8

/-- `sys_wrap_fd`. -/
def sysWrapFd (r : ℤ) : ℤ := if r < 0 then r else r + fdFileBase

/-- System call 6, the legacy `open`. -/
def syscallOpen (s : SystemState) (path : Option CString) (flags : ℕ) :
    Option (ℤ × SystemState) :=
  (ramfsOpen s.fs path flags).map fun r =>
    (if r.1 < 0 then -1 else sysWrapFd r.1, { s with fs := r.2 })

/-- `sys_write`. -/
def sysWrite (s : SystemState) (fd : ℤ) (buf : Option (ℕ → UInt8)) (count : ℕ) :
    Option (ℤ × SystemState) :=
  match buf with
  | none => some (-eFault, s)
  | some b =>
    if fd = 1 ∨ fd = 2 then
      some ((UInt32.ofNat count).toInt32.toInt, { s with printed := s.printed ++ slice b 0 count })
    else if fd < fdFileBase then some (-eBadf, s)
    else
      (ramfsWrite s.fs (fd - fdFileBase) (some b) count).map fun r =>
        (if r.1 < 0 then (if r.1 = -eNospc then r.1 else -eBadf) else r.1, { s with fs := r.2 })

/-- `sys_close`. -/
def sysClose (s : SystemState) (fd : ℤ) : ℤ × SystemState :=
  if 0 ≤ fd ∧ fd < fdFileBase then (0, s)
  else
    let r := ramfsClose s.fs (fd - fdFileBase)
    (if r.1 < 0 then -eBadf else 0, { s with fs := r.2 })

/-! ### The command -/

/-- `_syscall_write(fd, w, strlen(w))`. -/
def writeWord (fd : ℤ) (s : SystemState) (w : CString) : Option SystemState :=
  (sysWrite s fd (some fun i => w.getD i 0) w.length).map Prod.snd

/-- `for (int i = 2; i < argc; i++)`. -/
def cmdWriteLoop (fd : ℤ) : SystemState → (words : List CString) → Option SystemState
  | s, [] => some s
  | s, w :: words =>
    (writeWord fd s w).bind fun s =>
      (if words ≠ [] then writeWord fd s (cstr " ") else some s).bind fun s =>
        cmdWriteLoop fd s words

/-- `cmd_write`. -/
def cmdWrite (argv : List CString) (s : SystemState) : Option (ℤ × SystemState) :=
  match argv with
  | _ :: path :: w :: words =>
    (syscallOpen s (some path) 1).bind fun r =>
      if r.1 < 0 then
        some (1, { r.2 with
          printed := r.2.printed ++ cstr "Error: cannot open '" ++ path ++ cstr "'\n" })
      else (cmdWriteLoop r.1 r.2 (w :: words)).map fun s => (0, (sysClose s r.1).2)
  | _ => some (1, { s with printed := s.printed ++ cstr "Usage: write <file> <text>\n" })

/-! ### What it is meant to do -/

variable {s s₁ : Ramfs} {i : Fin 64} {k : Fin 32} {path : CString} {words chunks : List CString}
  {old text word : List UInt8} {base : ℕ}

/-- The content of the file a path names, `none` if it names none. -/
def Ramfs.textAt (s : Ramfs) (path : CString) : Option (List UInt8) :=
  (ramfsFindInode s (some path)).bind fun i =>
    if (s.inodes i).type = .file then some (s.fileBytes i) else none

/-- The words joined by single spaces. -/
def joined (words : List CString) : List UInt8 := (cstr " ").intercalate words

/-- The command succeeds, and leaves exactly the words joined by single spaces in the file. -/
def SetsFile (s : Ramfs) (path : CString) (words : List CString) : Prop :=
  ∀ name printed, ∃ s', cmdWrite (name :: path :: words) ⟨s, printed⟩ = some (0, s') ∧
    s'.fs.textAt path = some (joined words)

/-- The legacy `open` with bit 0 does not refuse the path, whatever its length. -/
def Ramfs.CanOpen (s : Ramfs) (path : CString) : Prop :=
  ∀ r, ramfsOpen s (some path) 1 = some r → 0 ≤ r.1

instance : Decidable (s.CanOpen path) :=
  decidable_of_iff ((ramfsOpen s (some path) 1).all (fun r => 0 ≤ r.1) = true)
    (by simp only [Option.all_eq_true, decide_eq_true_eq, Ramfs.CanOpen])

/-- The capacity of a block in which there are to be `needed` bytes. -/
def grownCapacity (capacity needed : ℕ) : ℕ :=
  if needed ≤ capacity then capacity else newCapacity capacity needed

/-- Writes of the given sizes, the first one at `off`, are served in full by a block of `capacity`
bytes that can grow from `base` to the end of the pool. -/
def Serves (base : ℕ) : (capacity off : ℕ) → (sizes : List ℕ) → Prop
  | _, _, [] => True
  | capacity, off, n :: sizes =>
    off + n ≤ ramfsMaxFilesize ∧
      (off + n ≤ capacity ∨ base + newCapacity capacity (off + n) ≤ ramfsPoolSize) ∧
      Serves base (grownCapacity capacity (off + n)) (off + n) sizes

instance Serves.decidable (base : ℕ) :
    ∀ capacity off sizes, Decidable (Serves base capacity off sizes)
  | _, _, [] => inferInstanceAs (Decidable True)
  | capacity, off, n :: sizes =>
    have := Serves.decidable base (grownCapacity capacity (off + n)) (off + n) sizes
    inferInstanceAs (Decidable (_ ∧ _ ∧ Serves ..))

/-- There is room in the pool for the words and the spaces between them. A new file has no block
yet. -/
def Ramfs.HasRoom (s : Ramfs) (path : CString) (words : List CString) : Prop :=
  match ramfsFindInode s (some path) with
  | some i => Serves (s.poolBase i) (s.inodes i).capacity 0
      ((words.intersperse (cstr " ")).map List.length)
  | none => Serves s.poolUsed 0 0 ((words.intersperse (cstr " ")).map List.length)

/-! ### The pool during a write -/

/-- A block of the file starts where the pool says it can grow from. -/
theorem Ramfs.poolBase_of_newest {d : ℕ} (hd : (s.inodes i).data = some d)
    (hend : d + (s.inodes i).capacity = s.poolUsed) : s.poolBase i = d := by
  rw [poolBase, if_pos ⟨d, hd, hend⟩]
  omega

/-- A reservation for which there is room grows the block as `grownCapacity` says, and leaves the
place it can grow from. -/
theorem ramfsReserve_of_room {needed : ℕ} (hneed : needed ≤ ramfsMaxFilesize)
    (hroom : needed ≤ (s.inodes i).capacity ∨
      s.poolBase i + newCapacity (s.inodes i).capacity needed ≤ ramfsPoolSize) :
    (ramfsReserve s i needed).1 = true ∧
      (ramfsReserve s i needed).2.poolBase i = s.poolBase i ∧
      ((ramfsReserve s i needed).2.inodes i).capacity =
        grownCapacity (s.inodes i).capacity needed := by
  have hnewcap := (newCapacity_spec (s.inodes i).capacity hneed).1
  rw [grownCapacity]
  rcases ramfsReserve_cases s i needed with ⟨hle, heq⟩ | ⟨hlt, ⟨d, hd, hend⟩, -, heq⟩ |
    ⟨hlt, hnew, -, pool, -, heq⟩ | ⟨hfull, -⟩
  · rw [heq, if_pos hle]
    exact ⟨rfl, rfl, rfl⟩
  · -- the block grows where it is
    rw [heq, if_neg (not_le.mpr hlt), Ramfs.poolBase_of_newest hd hend]
    refine ⟨rfl, Ramfs.poolBase_of_newest (by simpa using hd) ?_, by simp⟩
    simp only [Ramfs.setInode_self]
    omega
  · -- the block moves to the end of the pool
    have hbase : s.poolBase i = s.poolUsed := by rw [Ramfs.poolBase, if_neg hnew]
    rw [heq, if_neg (not_le.mpr hlt), hbase]
    exact ⟨rfl, Ramfs.poolBase_of_newest (by simp) (by simp), by simp⟩
  · obtain ⟨hlt, hno⟩ := Ramfs.poolFull_iff.mp hfull
    omega

/-- Where a block can grow from depends on the block and the mark of the pool. -/
theorem Ramfs.poolBase_congr {s' : Ramfs} (hdata : (s'.inodes i).data = (s.inodes i).data)
    (hcap : (s'.inodes i).capacity = (s.inodes i).capacity) (hused : s'.poolUsed = s.poolUsed) :
    s'.poolBase i = s.poolBase i := by
  have hnew : s'.IsNewest (s'.inodes i) ↔ s.IsNewest (s.inodes i) := by
    rw [IsNewest, IsNewest, hdata, hcap, hused]
  rw [poolBase, poolBase, hcap, hused]
  simp only [hnew]

/-- The memory operations of a write leave the block where it is. -/
theorem WriteJob.block_run (job : WriteJob) (buf : ℕ → UInt8) (d : ℕ) :
    (job.run buf d).poolBase job.slot = job.fs.poolBase job.slot ∧
      ((job.run buf d).inodes job.slot).capacity = (job.fs.inodes job.slot).capacity := by
  have hinode : (job.run buf d).inodes job.slot = { job.inode with size := job.newSize } := by
    rw [job.run_eq, Ramfs.setFd_inodes, Ramfs.setInode_self]
  have hused : (job.run buf d).poolUsed = job.fs.poolUsed := by
    rw [job.run_eq]
    rfl
  exact ⟨Ramfs.poolBase_congr (by rw [hinode, WriteJob.inode]) (by rw [hinode, WriteJob.inode])
    hused, by rw [hinode, WriteJob.inode]⟩

/-! ### One write -/

/-- The command has opened the file in slot `i`, which held `old`, and has written `text` so far.
The block of the file can grow from `base` on. -/
structure Writing (path : CString) (fd : ℤ) (k : Fin 32) (i : Fin 64) (base : ℕ)
    (old text : List UInt8) (s : Ramfs) : Prop where
  pool : PoolInv s
  found : ramfsFindInode s (some path) = some i
  opened : s.OpenFile fd k i
  flags : (s.fds k).flags = oRdwr
  offset : (s.fds k).offset = text.length
  bytes : s.fileBytes i = text ++ old.drop text.length
  base_eq : s.poolBase i = base

variable {fd : ℤ}

theorem Writing.writable (h : Writing path fd k i base old text s) : s.Writable fd k i :=
  ⟨h.opened, by rw [h.flags]; decide⟩

theorem Writing.writeOffset_eq (h : Writing path fd k i base old text s) :
    s.writeOffset k i = text.length := by
  rw [Ramfs.writeOffset, if_neg (by rw [h.flags]; decide), h.offset]

/-- Without `O_APPEND`, the offset stays where it is. -/
theorem Writing.seekWrite_eq (h : Writing path fd k i base old text s) :
    s.seekWrite k i = s := by
  rw [Ramfs.seekWrite, h.writeOffset_eq, ← h.offset, Ramfs.setFd, Function.update_eq_self]

/-- The offset is inside the block. -/
theorem Writing.length_le (h : Writing path fd k i base old text s) :
    text.length ≤ (s.inodes i).capacity := by
  have hsize := (h.pool.placed i).size_le
  rw [← h.pool.length_fileBytes, h.bytes, List.length_append] at hsize
  omega

/-- What a write needs to know of the state behind the reservation. -/
theorem Writing.exists_job (h : Writing path fd k i base old text s) {n : ℕ} (hn : 0 < n)
    (hmax : text.length + n ≤ ramfsMaxFilesize)
    (hroom : text.length + n ≤ (s.inodes i).capacity ∨
      base + newCapacity (s.inodes i).capacity (text.length + n) ≤ ramfsPoolSize) :
    ∃ fs, ramfsWritePrepare s fd false n = .inr ⟨fs, k, i, text.length, n⟩ ∧
      text.length + n ≤ (fs.inodes i).capacity ∧ PoolInv fs ∧ fs.fds = s.fds ∧
      fs.fileBytes i = s.fileBytes i ∧ fs.poolBase i = base ∧
      (fs.inodes i).capacity = grownCapacity (s.inodes i).capacity (text.length + n) := by
  have hprep := ramfsWritePrepare_of_writable h.writable n
  have hlimit : ramfsMaxFilesize < 0x100000000 := by decide
  have hclamp : clampCount text.length n = n := by
    rw [clampCount_eq_min (by omega) (by omega)]
    omega
  have hneed : u32 (text.length + n) = text.length + n := u32_of_lt (by omega)
  rw [h.writeOffset_eq, h.seekWrite_eq, hclamp, if_neg (by omega), if_neg hn.ne'] at hprep
  rw [← h.base_eq] at hroom
  obtain ⟨hok, hbase, hcap⟩ := ramfsReserve_of_room hmax hroom
  refine ⟨(ramfsReserve s i (text.length + n)).2, ?_, needed_le_capacity hmax hok, ?_,
    (ramfsReserve_frame s i _).1, h.pool.fileBytes_reserve i i _, hbase.trans h.base_eq, hcap⟩
  · rw [hprep, Ramfs.writeReserve, hneed]
    exact if_pos hok
  · exact h.pool.changes (T := ∅) (N := 0) (.single (.reserve i hmax))

/-- **One write** appends its bytes to the text. -/
theorem Writing.write (h : Writing path fd k i base old text s)
    (hmax : text.length + word.length ≤ ramfsMaxFilesize)
    (hroom : text.length + word.length ≤ (s.inodes i).capacity ∨
      base + newCapacity (s.inodes i).capacity (text.length + word.length) ≤ ramfsPoolSize) :
    ∃ ret s', ramfsWrite s fd (some fun j => word.getD j 0) word.length = some (ret, s') ∧
      Writing path fd k i base old (text ++ word) s' ∧
      (s'.inodes i).capacity =
        grownCapacity (s.inodes i).capacity (text.length + word.length) := by
  by_cases hn : 0 < word.length
  · obtain ⟨fs, hprep, hle, hpool, hfds, hbytes, hbase, hcap⟩ := h.exists_job hn hmax hroom
    have hin : WriteJob.InBlock ⟨fs, k, i, text.length, word.length⟩ := hle
    obtain ⟨d, hd⟩ := hin.exists_data hpool hn
    have hwrite : ramfsWrite s fd (some fun j => word.getD j 0) word.length =
        some ((word.length : ℤ), WriteJob.run ⟨fs, k, i, text.length, word.length⟩
          (fun j => word.getD j 0) d) := by
      simp only [ramfsWrite, Option.isNone_some, hprep, if_pos hin, hd]
      rfl
    have hblock := WriteJob.block_run ⟨fs, k, i, text.length, word.length⟩
      (fun j => word.getD j 0) d
    have htree := (ramfsWrite_sameTree hwrite).1
    have hfd : (WriteJob.run ⟨fs, k, i, text.length, word.length⟩
        (fun j => word.getD j 0) d).fds k =
        { s.fds k with offset := text.length + word.length } := by
      rw [WriteJob.run_eq, ← hfds]
      exact Function.update_self ..
    refine ⟨_, _, hwrite, ⟨?_, ?_, ⟨h.opened.valid, ?_, ?_, ?_⟩, ?_, ?_, ?_,
      hblock.1.trans hbase⟩, hblock.2.trans hcap⟩
    · exact h.pool.changes (ramfsWrite_changes (N := 0) h.pool hwrite)
    · exact (ramfsFindInode_of_tree htree _).trans h.found
    · rw [hfd]
      exact h.opened.live
    · rw [hfd, Ramfs.slotOfIno_of_tree htree]
      exact h.opened.slot
    · exact (Ramfs.type_of_tree htree i).trans h.opened.file
    · rw [hfd]
      exact h.flags
    · rw [hfd, List.length_append]
    · rw [WriteJob.fileBytes_run _ hd]
      dsimp only
      rw [hbytes, h.bytes, slice_getD, overwrite_append, List.drop_drop, List.length_append]
  · -- nothing to write
    obtain rfl := List.eq_nil_of_length_eq_zero (Nat.eq_zero_of_not_pos hn)
    have hprep := ramfsWritePrepare_of_writable h.writable 0
    rw [h.seekWrite_eq, h.writeOffset_eq, if_pos rfl] at hprep
    have hzero : clampCount text.length 0 = 0 := by
      rw [clampCount]
      split_ifs with hgt
      · have := u32_le text.length
        rw [Nat.add_zero] at hgt
        omega
      · rfl
    refine ⟨0, s, ?_, by rwa [List.append_nil], ?_⟩
    · rw [ramfsWrite, Option.isNone_some, List.length_nil, hprep, if_pos hzero, ite_self]
    · rw [grownCapacity, List.length_nil, Nat.add_zero, if_pos h.length_le]

/-! ### All writes -/

/-- Behind the terminal's descriptors the system calls are those of the RAMFS. -/
theorem writeWord_eq (h : 0 ≤ fd) (io : SystemState) (w : CString) :
    writeWord (fd + fdFileBase) io w =
      (ramfsWrite io.fs fd (some fun j => w.getD j 0) w.length).map fun r =>
        { io with fs := r.2 } := by
  have hbase : fdFileBase = 3 := rfl
  rw [writeWord, sysWrite, if_neg (by omega), if_neg (by omega), Int.add_sub_cancel,
    Option.map_map]
  rfl

/-- The loop writes the words, and a space between any two of them. -/
theorem cmdWriteLoop_eq (fd : ℤ) (io : SystemState) (words : List CString) :
    cmdWriteLoop fd io words = (words.intersperse (cstr " ")).foldlM (writeWord fd) io := by
  induction words generalizing io with
  | nil => rfl
  | cons w words ih =>
    rw [cmdWriteLoop]
    cases words with
    | nil => simp [cmdWriteLoop]
    | cons w' words =>
      rw [List.intersperse_cons_cons, List.foldlM_cons]
      refine congrArg (writeWord fd io w).bind (funext fun io => ?_)
      rw [if_pos (List.cons_ne_nil _ _), List.foldlM_cons]
      exact congrArg (writeWord fd io (cstr " ")).bind (funext ih)

/-- **All writes** append their bytes to the text. -/
theorem Writing.foldlM (io : SystemState) (h : Writing path fd k i base old text io.fs)
    (hserves : Serves base (io.fs.inodes i).capacity text.length (chunks.map List.length)) :
    ∃ io', chunks.foldlM (writeWord (fd + fdFileBase)) io = some io' ∧
      Writing path fd k i base old (text ++ chunks.flatten) io'.fs := by
  induction chunks generalizing io text with
  | nil => exact ⟨io, rfl, by rwa [List.flatten_nil, List.append_nil]⟩
  | cons w chunks ih =>
    obtain ⟨hmax, hroom, hserves⟩ := hserves
    obtain ⟨ret, s', hwrite, hs', hcap⟩ := h.write hmax hroom
    have hfd : 0 ≤ fd := by
      rw [eq_of_validFd h.opened.valid]
      exact Int.natCast_nonneg _
    have hstep : writeWord (fd + fdFileBase) io w = some { io with fs := s' } := by
      rw [writeWord_eq hfd, hwrite, Option.map_some]
    rw [← hcap, ← List.length_append] at hserves
    obtain ⟨io', hrun, hio'⟩ := ih { io with fs := s' } hs' hserves
    refine ⟨io', ?_, by rwa [List.flatten_cons, ← List.append_assoc]⟩
    rw [List.foldlM_cons, hstep]
    exact hrun

/-! ### Opening and closing -/

/-- The file as its path shows it. -/
theorem Writing.textAt_eq (h : Writing path fd k i base old text s) :
    s.textAt path = some (text ++ old.drop text.length) := by
  rw [Ramfs.textAt, h.found, Option.bind_some, if_pos h.opened.file, h.bytes]

/-- Descriptors do not show. -/
theorem FdsOnly.textAt_eq {s' : Ramfs} (h : FdsOnly s s') (path : CString) :
    s'.textAt path = s.textAt path := by
  have hbytes : ∀ j, s'.fileBytes j = s.fileBytes j := fun j =>
    Ramfs.fileBytes_congr (by rw [h.inodes]) (by rw [h.inodes]) fun _ _ _ _ => by rw [h.pool]
  simp only [Ramfs.textAt, ramfsFindInode_congr h.inodes, h.inodes, hbytes]

/-- A descriptor of a live file starts the invariant. -/
theorem exists_writing_of_openFd (hpool : PoolInv s)
    (hfound : ramfsFindInode s (some path) = some i)
    (hino : (s.inodes i).ino ≠ 0) (hslot : s.slotOfIno (s.inodes i).ino = some i)
    (hret : 0 ≤ (ramfsOpenFd s i).1) :
    ∃ k, Writing path (ramfsOpenFd s i).1 k i (s.poolBase i) (s.fileBytes i) []
      (ramfsOpenFd s i).2 := by
  obtain ⟨-, heq⟩ | ⟨k, hfile, -, heq⟩ := ramfsOpenFd_cases s i
  · rw [heq] at hret
    dsimp only at hret
    omega
  have hself : ((s.setFd k ⟨(s.inodes i).ino, 0, oRdwr⟩).fds k) = ⟨(s.inodes i).ino, 0, oRdwr⟩ :=
    s.setFd_self k _
  have hopened := ramfsOpenFd_changes (T := ∅) (N := 0) s i
  rw [heq] at hopened ⊢
  refine ⟨k, hpool.changes hopened,
    (ramfsFindInode_congr (FdsOnly.setFd s k _).inodes _).trans hfound,
    ⟨validFd_coe k, ?_, ?_, hfile⟩, ?_, ?_, rfl, rfl⟩
  · rwa [hself]
  · rw [hself]
    exact hslot
  · rw [hself]
  · rw [hself]
    rfl

/-- **The open** starts the invariant, and there is as much room as there was before. -/
theorem exists_writing (hpool : PoolInv s) (hid : IdInv s) (hclean : FreeCleared s)
    (hopen : s.CanOpen path) (hroot : ¬IsRootPath (some path))
    (hfits : s.Creates (some path) → (pathName path).length ≤ 255) :
    ∃ fd s₁ k i base, ramfsOpen s (some path) 1 = some (fd, s₁) ∧
      Writing path fd k i base ((s.textAt path).getD []) [] s₁ ∧
      ∀ words, s.HasRoom path words → Serves base (s₁.inodes i).capacity 0
        ((words.intersperse (cstr " ")).map List.length) := by
  obtain ⟨r, hr⟩ := Option.isSome_iff_exists.mp (ramfsOpen_isSome_of_creates 1 hfits)
  have hret := hopen r hr
  obtain rfl | ⟨i, hfound, rfl⟩ | ⟨p, i, parentIno, t, hp, -, hnone, hfree, hdir, hcreate, rfl⟩ :=
    ramfsOpen_cases hr
  · dsimp only at hret
    omega
  · -- the file exists
    have hino : (s.inodes i).ino ≠ 0 := by
      refine (ramfsFindInode_ino_ne_zero hfound).resolve_left ?_
      rintro rfl
      exact hroot (isRootPath_of_find hid.root hfound)
    have hslot : s.slotOfIno (s.inodes i).ino = some i :=
      hid.slotOfIno_iff.mpr ⟨rfl, fun h0 => absurd h0 hino⟩
    obtain ⟨k, h⟩ := exists_writing_of_openFd hpool hfound hino hslot hret
    have htext : (s.textAt path).getD [] = s.fileBytes i := by
      have hfile := h.opened.file
      rw [(ramfsOpenFd_fdsOnly s i).inodes] at hfile
      rw [Ramfs.textAt, hfound, Option.bind_some, if_pos hfile, Option.getD_some]
    refine ⟨_, (ramfsOpenFd s i).2, k, i, _, hr, by rwa [htext], fun words hroom => ?_⟩
    rw [Ramfs.HasRoom, hfound] at hroom
    rwa [(ramfsOpenFd_fdsOnly s i).inodes]
  · -- the file is new, and has no block
    obtain rfl := Option.some_injective _ hp
    obtain ⟨hi, hzero⟩ := ramfsFindFreeInode_some hfree
    have hnext : s.nextInode ≠ 0 := Nat.ne_zero_of_lt (hid.ino_lt 0)
    have hfound := ramfsFindInode_create hnone hzero hdir hcreate hnext
    have hpool' : PoolInv t :=
      hpool.changes (T := ∅) (N := s.nextInode) (.single (.create i .file _ _ hi hzero rfl hcreate))
    have hused : t.poolUsed = s.poolUsed := by
      obtain ⟨-, rfl⟩ := ramfsCreate_eq_some hcreate
      rfl
    obtain ⟨hself, hothers, -, -⟩ := ramfsCreate_frame hcreate
    have hnumber : (t.inodes i).ino = s.nextInode := by rw [hself]
    have hblock : (t.inodes i).data = none := by
      rw [hself]
      exact hclean i hzero
    have hslot : t.slotOfIno (t.inodes i).ino = some i := by
      refine Ramfs.slotOfIno_eq_some rfl fun j hj => ?_
      by_contra hji
      rw [hothers j hji, hnumber] at hj
      exact absurd hj (hid.ino_lt j).ne
    obtain ⟨k, h⟩ := exists_writing_of_openFd hpool' hfound (by rwa [hnumber]) hslot hret
    have htext : (s.textAt path).getD [] = t.fileBytes i := by
      rw [Ramfs.textAt, hnone, Option.bind_none, Option.getD_none, Ramfs.fileBytes, hblock]
    have hbase : t.poolBase i = s.poolUsed := by
      rw [Ramfs.poolBase, if_neg, hused]
      rintro ⟨d, hd, -⟩
      exact absurd (hblock.symm.trans hd) (Option.some_ne_none d).symm
    refine ⟨_, (ramfsOpenFd t i).2, k, i, _, hr, by rwa [htext], fun words hroom => ?_⟩
    rw [Ramfs.HasRoom, hnone] at hroom
    rw [(ramfsOpenFd_fdsOnly t i).inodes, (hpool'.placed i).noBlock hblock, hbase]
    exact hroom

/-! ### The command -/

/-- **The command overwrites the front of the file**: what was behind stays. -/
theorem cmdWrite_overwrites (hpool : PoolInv s) (hid : IdInv s) (hclean : FreeCleared s)
    (hopen : s.CanOpen path) (hroot : ¬IsRootPath (some path))
    (hfits : s.Creates (some path) → (pathName path).length ≤ 255)
    (hroom : s.HasRoom path words) (hwords : words ≠ []) (name : CString) (printed : List UInt8) :
    ∃ s', cmdWrite (name :: path :: words) ⟨s, printed⟩ = some (0, s') ∧
      s'.fs.textAt path =
        some (joined words ++ ((s.textAt path).getD []).drop (joined words).length) := by
  obtain ⟨fd, s₁, k, i, base, hr, hwriting, hserves⟩ :=
    exists_writing hpool hid hclean hopen hroot hfits
  have hfd : fd = ((k : ℕ) : ℤ) := eq_of_validFd hwriting.opened.valid
  have hcall : syscallOpen ⟨s, printed⟩ (some path) 1 = some (fd + fdFileBase, ⟨s₁, printed⟩) := by
    rw [syscallOpen, hr, Option.map_some, if_neg (by omega), sysWrapFd, if_neg (by omega)]
  obtain ⟨io, hrun, hio⟩ := hwriting.foldlM ⟨s₁, printed⟩ (hserves words hroom)
  have hclose : (sysClose io (fd + fdFileBase)).2.fs = (ramfsClose io.fs fd).2 := by
    have hbase : fdFileBase = 3 := rfl
    rw [sysClose, if_neg (by omega), Int.add_sub_cancel]
  refine ⟨(sysClose io (fd + fdFileBase)).2, ?_, ?_⟩
  · cases words with
    | nil => exact absurd rfl hwords
    | cons w words =>
      have hbase : fdFileBase = 3 := rfl
      rw [cmdWrite, hcall, Option.bind_some, if_neg (by omega), cmdWriteLoop_eq, hrun,
        Option.map_some]
  · rw [hclose, (ramfsClose_fdsOnly io.fs fd).textAt_eq, hio.textAt_eq, List.nil_append]
    rfl

/-! ### The root as a file -/

/-- The root has no text. -/
theorem Ramfs.textAt_root (hid : IdInv s) (hclean : FreeCleared s)
    (hroot : IsRootPath (some path)) :
    s.textAt path = if (s.inodes 0).type = .file then some [] else none := by
  rw [textAt, ramfsFindInode_of_root hroot, Option.bind_some, fileBytes, hclean 0 hid.root]

/-- A write through a descriptor that counts as free fails and changes nothing. -/
theorem writeWord_of_free (io : SystemState) (hk : (io.fs.fds k).ino = 0) (w : CString) :
    writeWord (((k : ℕ) : ℤ) + fdFileBase) io w = some io := by
  have hprep : ramfsWritePrepare io.fs ((k : ℕ) : ℤ) false w.length = .inl (-1, io.fs) := by
    refine ramfsWritePrepare_of_not_writable (Or.inr fun k' i hw => hw.live ?_)
    rwa [← Option.some_injective _ ((validFd_coe k).symm.trans hw.valid)]
  rw [writeWord_eq (Int.natCast_nonneg _), ramfsWrite, Option.isNone_some, hprep, Option.map_some]

/-- **The root stays empty**, also where it opens: its number is 0, so the descriptor counts as
free. -/
theorem cmdWrite_of_root (hid : IdInv s) (hclean : FreeCleared s) (hopen : s.CanOpen path)
    (hroot : IsRootPath (some path)) (hwords : words ≠ []) (name : CString)
    (printed : List UInt8) :
    ∃ s', cmdWrite (name :: path :: words) ⟨s, printed⟩ = some (0, s') ∧
      s'.fs.textAt path = some [] := by
  have hfound : ramfsFindInode s (some path) = some 0 := ramfsFindInode_of_root hroot
  have hr : ramfsOpen s (some path) 1 = some (ramfsOpenFd s 0) := by rw [ramfsOpen, hfound]
  have hret := hopen _ hr
  obtain ⟨-, heq⟩ | ⟨k, hfile, -, heq⟩ := ramfsOpenFd_cases s 0
  · rw [heq] at hret
    dsimp only at hret
    omega
  rw [heq] at hr
  have hbase : fdFileBase = 3 := rfl
  have hcall : syscallOpen ⟨s, printed⟩ (some path) 1 = some (((k : ℕ) : ℤ) + fdFileBase,
      ⟨s.setFd k ⟨(s.inodes 0).ino, 0, oRdwr⟩, printed⟩) := by
    rw [syscallOpen, hr, Option.map_some, if_neg (by omega), sysWrapFd, if_neg (by omega)]
  have hzero : ((s.setFd k ⟨(s.inodes 0).ino, 0, oRdwr⟩).fds k).ino = 0 := by
    rw [Ramfs.setFd_self]
    exact hid.root
  -- all writes fail
  have hloop : ∀ chunks : List CString, chunks.foldlM (writeWord (((k : ℕ) : ℤ) + fdFileBase))
      ⟨s.setFd k ⟨(s.inodes 0).ino, 0, oRdwr⟩, printed⟩ =
        some ⟨s.setFd k ⟨(s.inodes 0).ino, 0, oRdwr⟩, printed⟩ := by
    intro chunks
    induction chunks with
    | nil => rfl
    | cons w chunks ih =>
      rw [List.foldlM_cons, writeWord_of_free _ hzero]
      exact ih
  refine ⟨⟨(ramfsClose (s.setFd k ⟨(s.inodes 0).ino, 0, oRdwr⟩) k).2, printed⟩, ?_, ?_⟩
  · cases words with
    | nil => exact absurd rfl hwords
    | cons w words =>
      rw [cmdWrite, hcall, Option.bind_some, if_neg (by omega), cmdWriteLoop_eq, hloop,
        Option.map_some, sysClose, if_neg (by omega), Int.add_sub_cancel]
  · rw [(ramfsClose_fdsOnly _ _).textAt_eq, (FdsOnly.setFd s k _).textAt_eq,
      Ramfs.textAt_root hid hclean hroot, if_pos hfile]

/-! ### When the command sets the file -/

/-- **The command sets the file**, in every file system reached with fewer than `2 ^ 32 - 1` inodes
created, for every path it can open and words there is room for, if and only if the file was not
longer than the words joined by spaces, the path is not the root's or there is nothing to write,
and the name of a new file fits. -/
theorem setsFile_iff {progs : Programs} {run : RamfsRun} (h : (ramfsSystem progs).Reachable run)
    (hcreated : run.created < 0xFFFFFFFF) (hopen : run.fs.CanOpen path)
    (hroom : run.fs.HasRoom path words) (hwords : words ≠ []) :
    SetsFile run.fs path words ↔
      ((run.fs.textAt path).getD []).length ≤ (joined words).length ∧
        (IsRootPath (some path) → joined words = []) ∧
        (run.fs.Creates (some path) → (pathName path).length ≤ 255) := by
  have hpool := poolInv_of_reachable h
  have hid := (counted_of_reachable h hcreated).1
  have hclean := freeCleared_of_reachable h
  by_cases hfits : run.fs.Creates (some path) → (pathName path).length ≤ 255
  swap
  · -- the copy of the name has no outcome
    refine iff_of_false (fun hset => hfits fun hc => ?_) fun h => hfits h.2.2
    obtain ⟨s', hcall, -⟩ := hset [] []
    cases words with
    | nil => exact absurd rfl hwords
    | cons w words =>
      rw [cmdWrite, Option.bind_eq_some_iff] at hcall
      obtain ⟨r, hr, -⟩ := hcall
      rw [syscallOpen, Option.map_eq_some_iff] at hr
      obtain ⟨r, hr, -⟩ := hr
      exact hc.length_le (by decide) hr
  by_cases hroot : IsRootPath (some path)
  · have hold : (run.fs.textAt path).getD [] = [] := by
      rw [Ramfs.textAt_root hid hclean hroot]
      split_ifs <;> rfl
    have hrun := cmdWrite_of_root hid hclean hopen hroot hwords
    rw [hold]
    constructor
    · intro hset
      refine ⟨Nat.zero_le _, fun _ => ?_, hfits⟩
      obtain ⟨s', hcall, htext⟩ := hrun [] []
      obtain ⟨s'', hcall', htext'⟩ := hset [] []
      obtain rfl : s'' = s' := (Prod.mk.inj (Option.some.inj (hcall'.symm.trans hcall))).2
      exact Option.some_injective _ (htext'.symm.trans htext)
    · rintro ⟨-, hempty, -⟩ name printed
      rw [hempty hroot]
      exact hrun name printed
  have hrun := cmdWrite_overwrites hpool hid hclean hopen hroot hfits hroom hwords
  constructor
  · intro hset
    obtain ⟨s', hcall, htext⟩ := hrun [] []
    obtain ⟨s'', hcall', htext'⟩ := hset [] []
    obtain rfl : s'' = s' := (Prod.mk.inj (Option.some.inj (hcall'.symm.trans hcall))).2
    rw [htext', Option.some_inj, List.self_eq_append_right, List.drop_eq_nil_iff] at htext
    exact ⟨htext, fun h => absurd h hroot, hfits⟩
  · rintro ⟨hle, -, -⟩ name printed
    obtain ⟨s', hcall, htext⟩ := hrun name printed
    exact ⟨s', hcall, by rw [htext, List.drop_eq_nil_of_le hle, List.append_nil]⟩

/-! ### How much room is enough -/

theorem serves_of_le {total off capacity : ℕ} {sizes : List ℕ} (hmax : total ≤ ramfsMaxFilesize)
    (hroom : base + align16 (max 256 (2 * total)) ≤ ramfsPoolSize)
    (hsizes : off + sizes.sum ≤ total) : Serves base capacity off sizes := by
  induction sizes generalizing off capacity with
  | nil => trivial
  | cons n sizes ih =>
    rw [List.sum_cons] at hsizes
    refine ⟨by omega, ?_, ih (by omega)⟩
    by_cases hle : off + n ≤ capacity
    · exact Or.inl hle
    · have hnewcap : newCapacity capacity (off + n) ≤ align16 (max 256 (2 * total)) := by
        refine align16_mono ?_
        split_ifs <;> omega
      exact Or.inr (by omega)

/-- There is room when the pool has twice the text left, and at least 256 bytes. -/
theorem Ramfs.hasRoom_of_le (hmax : (joined words).length ≤ ramfsMaxFilesize)
    (hroom : s.poolUsed + align16 (max 256 (2 * (joined words).length)) ≤ ramfsPoolSize) :
    s.HasRoom path words := by
  have hsizes : 0 + ((words.intersperse (cstr " ")).map List.length).sum ≤
      (joined words).length := by
    rw [Nat.zero_add, joined, List.intercalate, List.length_flatten]
  rw [HasRoom]
  cases ramfsFindInode s (some path) with
  | none => exact serves_of_le hmax hroom hsizes
  | some i =>
    refine serves_of_le hmax ?_ hsizes
    rw [poolBase]
    split_ifs <;> omega

/-! ### A new file, and a longer one -/

/-- `setsFile_iff` for a new file in the first file system. -/
theorem setsFile_sample : SetsFile freshRun.fs (cstr "/a") [cstr "hello", cstr "world"] :=
  (setsFile_iff (.start freshRun_start) (by decide) (by decide +kernel)
    (Ramfs.hasRoom_of_le (by decide) (by decide +kernel)) (List.cons_ne_nil _ _)).mpr
    ⟨by decide +kernel, fun hroot => absurd hroot (by decide), fun _ => by decide⟩

/-- `freshRun` continued by a file of three bytes. -/
def threeBytesOps : List RamfsOp :=
  [.open2 (some (cstr "/a")) (oRdwr ||| oCreat), .write 0 (some fun _ => 7) 3, .close 0]

/-- **A longer file keeps its end.** One byte written to a file of three leaves two of them. -/
theorem not_setsFile :
    ¬∀ (progs : Programs) (run : RamfsRun), (ramfsSystem progs).Reachable run →
      run.created < 0xFFFFFFFF → ∀ path words, run.fs.CanOpen path → run.fs.HasRoom path words →
        words ≠ [] → SetsFile run.fs path words := by
  intro h
  have hrun : ((ramfsSystem noPrograms).runInputs freshRun threeBytesOps).map (fun run =>
      (decide (run.created < 0xFFFFFFFF ∧ run.fs.CanOpen (cstr "/a")), run.fs.poolUsed,
        (cmdWrite [cstr "write", cstr "/a", cstr "b"] ⟨run.fs, []⟩).map fun r =>
          r.2.fs.textAt (cstr "/a"))) = some (true, 256, some (some [0x62, 7, 7])) := by
    decide +kernel
  obtain ⟨run, hr, hstate⟩ := Option.map_eq_some_iff.mp hrun
  simp only [Prod.mk.injEq, decide_eq_true_eq] at hstate
  obtain ⟨⟨hcreated, hopen⟩, hused, htext⟩ := hstate
  have hreach : (ramfsSystem noPrograms).Reachable run :=
    .runInputs (.start freshRun_start) (fun _ _ _ _ => trivial) hr
  obtain ⟨s', hcall, htext'⟩ := h noPrograms run hreach hcreated (cstr "/a") [cstr "b"] hopen
    (Ramfs.hasRoom_of_le (by decide) (by rw [hused]; decide)) (List.cons_ne_nil _ _)
    (cstr "write") []
  rw [hcall, Option.map_some, Option.some_inj, htext'] at htext
  exact absurd htext (by decide)

end ChalesOs
