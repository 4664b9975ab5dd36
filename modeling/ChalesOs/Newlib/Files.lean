import ChalesOs.Kernel.Runs

/-!
# The calls of newlib

`newlib_syscalls.c` turns the calls of the C library into system calls. The kernel returns the
negated error number, and `sys_result` makes `-1` and `errno` of it. The calls of the tree return
`-1` without a reason, and get a fixed error number here.

A result between -4095 and -1 is taken for an error. `newlib_reports` says that this is right for
the calls of files: no success has such a value, and no error another one. `read` of the standard
input is in `Console.ReadLine`.
-/

namespace ChalesOs

open ByteMemory

/-! ### The functions -/

/-- A program that uses newlib: the kernel below it, and its `errno`. -/
structure Newlib where
  kernel : Kernel
  errno : ℤ

/-- What `fill_stat` puts into a `struct stat`. -/
structure Stat where
  stMode : ℕ
  stSize : ℕ
  stIno : ℕ
  stNlink : ℕ
  stBlksize : ℕ
  stBlocks : ℕ
  deriving DecidableEq

/-- The `struct chales_stat` at an address. -/
def chalesStatAt (m : Mem) (a : ℕ) : ChalesStat :=
  ⟨loadWord m a, loadWord m (a + 4), loadWord m (a + 8), loadWord m (a + 12)⟩

/-- `fill_stat`; the sum is one of `uint32_t`. -/
def fillStat (k : ChalesStat) : Stat :=
  ⟨k.stMode, k.stSize, k.stIno, k.stNlink, 512, u32 (k.stSize + 511) / 512⟩

namespace Newlib

variable (L : Layout) (u : Newlib)

/-- `sys3`. -/
def sys3 (num a b c : UInt32) : Option (ℤ × Newlib) :=
  (syscallHandler L u.kernel ⟨num, a, b, c⟩).map fun r => (cInt r.1, { u with kernel := r.2 })

/-- `sys_result`. -/
def sysResult (ret : ℤ) : ℤ × Newlib :=
  if ret < 0 ∧ -4095 ≤ ret then (-1, { u with errno := -ret }) else (ret, u)

/-- A call whose failure has always the same error number. -/
def failsWith (errno ret : ℤ) : ℤ × Newlib :=
  if ret < 0 then (-1, { u with errno := errno }) else (0, u)

/-- `open`. -/
def «open» (path flags : UInt32) : Option (ℤ × Newlib) :=
  (u.sys3 L 22 path flags 0).map fun r => r.2.sysResult r.1

/-- `close`. -/
def close (fd : UInt32) : Option (ℤ × Newlib) :=
  (u.sys3 L 7 fd 0 0).map fun r => r.2.sysResult r.1

/-- `read` of a descriptor that is not the standard input. -/
def readFile (fd buf len : UInt32) : Option (ℤ × Newlib) :=
  (u.sys3 L 8 fd buf len).map fun r => r.2.sysResult r.1

/-- `write`. -/
def write (fd buf len : UInt32) : Option (ℤ × Newlib) :=
  (u.sys3 L 9 fd buf len).map fun r => r.2.sysResult r.1

/-- `lseek`. -/
def lseek (fd offset whence : UInt32) : Option (ℤ × Newlib) :=
  (u.sys3 L 23 fd offset whence).map fun r => r.2.sysResult r.1

/-- The common part of `fstat` and `stat`: the kernel has filled the local variable at `k`. -/
def statResult (k : UInt32) (ret : ℤ) : ℤ × Option Stat × Newlib :=
  let r := u.sysResult ret
  if r.1 < 0 then (-1, none, r.2)
  else (0, some (fillStat (chalesStatAt r.2.kernel.mem k.toNat)), r.2)

/-- `fstat`, with what it puts into `*st`; its local variable is at `k`. -/
def fstat (k fd : UInt32) : Option (ℤ × Option Stat × Newlib) :=
  (u.sys3 L 24 fd k 0).map fun r => r.2.statResult k r.1

/-- `stat`, with what it puts into `*st`; its local variable is at `k`. -/
def stat (k path : UInt32) : Option (ℤ × Option Stat × Newlib) :=
  (u.sys3 L 25 path k 0).map fun r => r.2.statResult k r.1

/-- `unlink`. -/
def unlink (path : UInt32) : Option (ℤ × Newlib) :=
  (u.sys3 L 11 path 0 0).map fun r => r.2.failsWith eNoent r.1

/-- `mkdir`. -/
def mkdir (path : UInt32) : Option (ℤ × Newlib) :=
  (u.sys3 L 10 path 0 0).map fun r => r.2.failsWith eExist r.1

/-- `rmdir`. -/
def rmdir (path : UInt32) : Option (ℤ × Newlib) :=
  (u.sys3 L 12 path 0 0).map fun r => r.2.failsWith eNoent r.1

end Newlib

/-- The calls of files. -/
inductive FileCall
  | open (path flags : UInt32)
  | close (fd : UInt32)
  | readFile (fd buf len : UInt32)
  | write (fd buf len : UInt32)
  | lseek (fd offset whence : UInt32)
  | fstat (k fd : UInt32)
  | stat (k path : UInt32)
  | unlink (path : UInt32)
  | mkdir (path : UInt32)
  | rmdir (path : UInt32)

namespace FileCall

/-- The function of a call. -/
def exec (L : Layout) (u : Newlib) : FileCall → Option (ℤ × Newlib)
  | .open path flags => u.open L path flags
  | .close fd => u.close L fd
  | .readFile fd buf len => u.readFile L fd buf len
  | .write fd buf len => u.write L fd buf len
  | .lseek fd offset whence => u.lseek L fd offset whence
  | .fstat k fd => (u.fstat L k fd).map fun r => (r.1, r.2.2)
  | .stat k path => (u.stat L k path).map fun r => (r.1, r.2.2)
  | .unlink path => u.unlink L path
  | .mkdir path => u.mkdir L path
  | .rmdir path => u.rmdir L path

/-- The system call a function makes. -/
def syscall : FileCall → Syscall
  | .open path flags => .open2 path flags
  | .close fd => .close fd
  | .readFile fd buf len => .read fd buf len
  | .write fd buf len => .write fd buf len
  | .lseek fd offset whence => .lseek fd offset whence
  | .fstat k fd => .fstat fd k
  | .stat k path => .stat path k
  | .unlink path => .unlink path
  | .mkdir path => .mkdir path
  | .rmdir path => .rmdir path

/-- The errors of the system call. -/
def kernelErrors : FileCall → List ℤ
  | .open _ _ => [eFault, eNoent, eExist, eIsdir, eMfile]
  | .close _ => [eBadf]
  | .readFile _ _ _ => [eFault, eBadf]
  | .write _ _ _ => [eFault, eBadf, eNospc]
  | .lseek _ _ _ => [eSpipe, eBadf, eInval]
  | .fstat _ _ => [eFault, eBadf]
  | .stat _ _ => [eFault, eNoent]
  | .unlink _ => [1]
  | .mkdir _ => [1]
  | .rmdir _ => [1]

/-- The error number of a call that does not pass on that of the kernel. -/
def fixedError : FileCall → Option ℤ
  | .unlink _ => some eNoent
  | .mkdir _ => some eExist
  | .rmdir _ => some eNoent
  | _ => none

/-- What a call returns for a success of the system call. -/
def value (c : FileCall) (res : ℤ) : ℤ :=
  match c with
  | .fstat _ _ => 0
  | .stat _ _ => 0
  | .unlink _ => 0
  | .mkdir _ => 0
  | .rmdir _ => 0
  | _ => res

end FileCall

/-! ### Results of the file system -/

variable {L : Layout} {progs : Programs} {k k' : Kernel} {s : Ramfs} {ret : ℤ}

/-- A value that is an `int`, or the negation of one of some errors. -/
def Reports (errors : List ℤ) (ret : ℤ) : Prop :=
  0 ≤ ret ∧ ret < 0x80000000 ∨ ∃ e ∈ errors, ret = -e

theorem Reports.error {errors : List ℤ} {e : ℤ} (h : e ∈ errors) : Reports errors (-e) :=
  Or.inr ⟨e, h, rfl⟩

theorem Reports.zero (errors : List ℤ) : Reports errors 0 := Or.inl ⟨le_rfl, by decide⟩

/-- A read fails and returns no bytes, or gets at most a whole file. -/
theorem ramfsRead_range (hpool : PoolInv s) {fd : ℤ} {bufNull : Bool} {count : ℕ}
    {r : ℤ × List UInt8 × Ramfs} (h : ramfsRead s fd bufNull count = some r) :
    r = (-1, [], s) ∨ 0 ≤ r.1 ∧ r.1 ≤ ramfsMaxFilesize := by
  by_cases hread : bufNull = true ∨ ∀ k i, ¬s.Readable fd k i
  · rw [ramfsRead_of_not_readable hread] at h
    exact Or.inl (Option.some_injective _ h).symm
  simp only [not_or, not_forall, not_not, Bool.not_eq_true] at hread
  obtain ⟨rfl, k, i, hread⟩ := hread
  have hsize := (hpool.placed i).size_le.trans (hpool.placed i).capacity_le
  have hcount : s.readCount k i count ≤ ramfsMaxFilesize := by
    rw [Ramfs.readCount]
    omega
  rw [ramfsRead_of_readable hread] at h
  split_ifs at h
  · obtain ⟨d, -, rfl⟩ := Option.map_eq_some_iff.mp h
    exact Or.inr ⟨Int.natCast_nonneg _, Int.ofNat_le.mpr hcount⟩
  · obtain rfl := Option.some_injective _ h
    exact Or.inr ⟨le_rfl, Int.natCast_nonneg _⟩

/-- The first half of a write that is refused, or that has nothing to write. -/
theorem ramfsWritePrepare_inl {fd : ℤ} {bufNull : Bool} {count : ℕ} {r : ℤ × Ramfs}
    (h : ramfsWritePrepare s fd bufNull count = .inl r) :
    r.1 = -1 ∨ r.1 = -eNospc ∨ r.1 = 0 := by
  by_cases hw : bufNull = true ∨ ∀ k i, ¬s.Writable fd k i
  · rw [ramfsWritePrepare_of_not_writable hw] at h
    exact Or.inl (congrArg Prod.fst (Sum.inl_injective h)).symm
  simp only [not_or, not_forall, not_not, Bool.not_eq_true] at hw
  obtain ⟨rfl, k, i, hw⟩ := hw
  rw [ramfsWritePrepare_of_writable hw] at h
  split_ifs at h with hoff hcount hclamp
  · exact Or.inr (Or.inr (congrArg Prod.fst (Sum.inl_injective h)).symm)
  · exact Or.inr (Or.inl (congrArg Prod.fst (Sum.inl_injective h)).symm)
  · exact Or.inr (Or.inr (congrArg Prod.fst (Sum.inl_injective h)).symm)
  · rcases (s.seekWrite k i).writeReserve_cases k i (s.writeOffset k i)
      (clampCount (s.writeOffset k i) count) with ⟨heq, -⟩ | ⟨n, heq, -⟩
    · exact Or.inr (Or.inl (congrArg Prod.fst (Sum.inl_injective (heq.symm.trans h))).symm)
    · exact absurd (heq.symm.trans h) Sum.inr_ne_inl

/-- A write fails, or puts at most a whole file. -/
theorem ramfsWrite_range (hpool : PoolInv s) {fd : ℤ} {buf : Option (ℕ → UInt8)} {count : ℕ}
    {r : ℤ × Ramfs} (h : ramfsWrite s fd buf count = some r) :
    r.1 = -1 ∨ r.1 = -eNospc ∨ 0 ≤ r.1 ∧ r.1 ≤ ramfsMaxFilesize := by
  rw [ramfsWrite] at h
  cases hprep : ramfsWritePrepare s fd buf.isNone count with
  | inl p =>
    rw [hprep] at h
    obtain rfl := Option.some_injective _ h
    refine (ramfsWritePrepare_inl hprep).imp_right (Or.imp_right fun hzero => ?_)
    exact ⟨hzero.ge, hzero.le.trans (Int.natCast_nonneg _)⟩
  | inr job =>
    -- the bytes are in the block, and no block is longer than a file may be
    obtain ⟨k, i, -, -, -, -, -, hchanges, -⟩ := ramfsWritePrepare_inr hpool hprep
    have hcap := ((hpool.changes (hchanges ∅ 0)).placed job.slot).capacity_le
    simp only [hprep] at h
    obtain ⟨hin, h⟩ := Option.ite_none_right_eq_some.mp h
    obtain ⟨d, -, rfl⟩ := Option.map_eq_some_iff.mp h
    have hcount : job.offset + job.count ≤ ramfsMaxFilesize := le_trans hin hcap
    exact Or.inr (Or.inr ⟨Int.natCast_nonneg _, by dsimp only; omega⟩)

/-- `ramfs_open2` gets a descriptor, or has one of five errors. -/
theorem ramfsOpen2Fd_range (s : Ramfs) (i : Fin 64) (oflags : ℕ) :
    (ramfsOpen2Fd s i oflags).1 ∈ [-eIsdir, -eMfile] ∨
      0 ≤ (ramfsOpen2Fd s i oflags).1 ∧ (ramfsOpen2Fd s i oflags).1 < 32 := by
  rw [ramfsOpen2Fd]
  by_cases htype : (s.inodes i).type = .dir
  · rw [if_pos htype]
    exact Or.inl (by simp)
  rw [if_neg htype]
  cases ramfsFindFreeFd s with
  | none => exact Or.inl (by simp)
  | some k => exact Or.inr ⟨Int.natCast_nonneg _, Int.ofNat_lt.mpr k.isLt⟩

theorem ramfsOpen2_range {path : Option CString} {oflags : ℕ} {r : ℤ × Ramfs}
    (h : ramfsOpen2 s path oflags = some r) :
    r.1 ∈ [-eFault, -eNoent, -eExist, -eIsdir, -eMfile] ∨ 0 ≤ r.1 ∧ r.1 < 32 := by
  have hlast : ∀ s' i, (ramfsOpen2Fd s' i oflags).1 ∈
      [-eFault, -eNoent, -eExist, -eIsdir, -eMfile] ∨
      0 ≤ (ramfsOpen2Fd s' i oflags).1 ∧ (ramfsOpen2Fd s' i oflags).1 < 32 := fun s' i =>
    (ramfsOpen2Fd_range s' i oflags).imp_left fun h => List.mem_append_right [_, _, _] h
  rw [ramfsOpen2] at h
  by_cases hnull : path = none
  · rw [if_pos hnull] at h
    obtain rfl := Option.some_injective _ h
    exact Or.inl (by simp)
  rw [if_neg hnull] at h
  cases hfind : ramfsFindInode s path with
  | some i =>
    rw [hfind] at h
    obtain ⟨-, rfl⟩ | ⟨-, rfl⟩ :=
      ite_eq_iff.mp (Option.some_inj.mp ((apply_ite some _ _ _).trans h))
    · exact Or.inl (by simp)
    · exact hlast s i
  | none =>
    rw [hfind] at h
    by_cases hcreat : oflags &&& oCreat = 0
    · obtain rfl := Option.some_injective _ ((if_pos hcreat).symm.trans h)
      exact Or.inl (by simp)
    obtain ⟨⟨tmp, s₁⟩, -, rfl⟩ := Option.map_eq_some_iff.mp ((if_neg hcreat).symm.trans h)
    dsimp only
    by_cases htmp : tmp < 0
    · rw [if_pos htmp]
      exact Or.inl (by simp)
    rw [if_neg htmp]
    cases ramfsFindInode (ramfsClose s₁ tmp).2 path with
    | none => exact Or.inl (by simp)
    | some i => exact hlast _ i

theorem ramfsLseek_reports (s : Ramfs) (fd offset whence : ℤ) :
    Reports [eSpipe, eBadf, eInval] (ramfsLseek s fd offset whence).1 := by
  rw [ramfsLseek]
  cases validFd fd with
  | none => exact .error (by simp)
  | some k =>
    dsimp only
    by_cases hlive : (s.fds k).ino = 0
    · rw [if_pos hlive]
      exact .error (by simp)
    rw [if_neg hlive]
    cases s.slotOfIno (s.fds k).ino with
    | none => exact .error (by simp)
    | some i =>
      dsimp only
      cases hbase : (if whence = 0 then some (0 : ℤ)
          else if whence = 1 then some (s.fds k).offset
          else if whence = 2 then some (s.inodes i).size
          else none) with
      | none => exact .error (by simp)
      | some base =>
        dsimp only
        by_cases hpos : base + offset < 0 ∨ base + offset > ramfsMaxFilesize
        · rw [if_pos hpos]
          exact .error (by simp)
        · rw [if_neg hpos]
          rw [not_or, not_lt, gt_iff_lt, not_lt] at hpos
          exact Or.inl ⟨hpos.1, hpos.2.trans_lt (by decide)⟩

/-- The status is there on success only. -/
theorem ramfsFstat_reports (s : Ramfs) (fd : ℤ) :
    Reports [eFault, eBadf] (ramfsFstat s fd).1 ∧
      ((ramfsFstat s fd).2.isSome → 0 ≤ (ramfsFstat s fd).1) := by
  have herr : Reports [eFault, eBadf] (-eBadf) ∧
      ((none : Option ChalesStat).isSome → 0 ≤ -eBadf) := ⟨.error (by simp), by simp⟩
  rw [ramfsFstat]
  cases validFd fd with
  | none => exact herr
  | some k =>
    dsimp only
    by_cases hlive : (s.fds k).ino = 0
    · rw [if_pos hlive]
      exact herr
    rw [if_neg hlive]
    cases ramfsInodeByIno s (s.fds k).ino with
    | none => exact herr
    | some i => exact ⟨.zero _, fun _ => le_rfl⟩

theorem ramfsStat_reports (s : Ramfs) (path : Option CString) :
    Reports [eFault, eNoent] (ramfsStat s path).1 ∧
      ((ramfsStat s path).2.isSome → 0 ≤ (ramfsStat s path).1) := by
  rw [ramfsStat]
  cases ramfsFindInode s path with
  | none => exact ⟨.error (by simp), by simp⟩
  | some i => exact ⟨.zero _, fun _ => le_rfl⟩

/-- The calls of the tree fail with -1. -/
theorem ramfsMkdir_reports {path : Option CString} {r : ℤ × Ramfs}
    (h : ramfsMkdir s path = some r) : Reports [1] r.1 := by
  rcases ramfsMkdir_cases h with rfl | ⟨p, i, parentIno, s₁, -, -, -, -, -, rfl⟩
  · exact .error (by simp)
  · exact .zero _

theorem ramfsUnlink_reports (s : Ramfs) (path : Option CString) :
    Reports [1] (ramfsUnlink s path).1 := by
  rcases ramfsUnlink_cases s path with heq | ⟨i, -, -, heq⟩
  · rw [heq]
    exact .error (by simp)
  · rw [heq]
    exact .zero _

theorem ramfsRmdir_reports (s : Ramfs) (path : Option CString) :
    Reports [1] (ramfsRmdir s path).1 := by
  rcases ramfsRmdir_cases s path with heq | ⟨i, -, -, heq⟩
  · rw [heq]
    exact .error (by simp)
  · rw [heq]
    exact .zero _

/-! ### Results of the system calls -/

/-- A result that is passed on, in which an error leaves the processes and their memory. -/
def Outcome (errors : List ℤ) (k : Kernel) (r : ℤ × Kernel) : Prop :=
  Reports errors r.1 ∧ (r.1 < 0 → r.2.machine = k.machine)

theorem outcome_close (k : Kernel) (fd : UInt32) {r : ℤ × Kernel}
    (h : (Syscall.close fd).run L k = some r) : Outcome [eBadf] k r := by
  obtain rfl := Option.some_injective _ h
  refine ⟨?_, fun _ => rfl⟩
  dsimp only
  rw [sysClose]
  by_cases hconsole : 0 ≤ cInt fd ∧ cInt fd < fdFileBase
  · rw [if_pos hconsole]
    exact .zero _
  · rw [if_neg hconsole]
    dsimp only
    split_ifs
    · exact .error (by simp)
    · exact .zero _

/-- A call with a path passes on what the operation returns. -/
theorem outcome_withPath {errors : List ℤ} {path : UInt32}
    {f : Option CString → Option (ℤ × Ramfs)} {r : ℤ × Kernel}
    (hf : ∀ path r, f path = some r → Reports errors r.1) (h : withPath k path f = some r) :
    Outcome errors k r := by
  obtain ⟨path, -, h⟩ := Option.bind_eq_some_iff.mp h
  obtain ⟨r, hr, rfl⟩ := Option.map_eq_some_iff.mp h
  exact ⟨hf path r hr, fun _ => rfl⟩

/-- A descriptor of the RAMFS, or its error, behind `sys_wrap_fd`. -/
theorem reports_sysWrapFd {ret : ℤ}
    (h : ret ∈ [-eFault, -eNoent, -eExist, -eIsdir, -eMfile] ∨ 0 ≤ ret ∧ ret < 32) :
    Reports [eFault, eNoent, eExist, eIsdir, eMfile] (sysWrapFd ret) := by
  rw [sysWrapFd]
  have hneg : ∀ e ∈ [-eFault, -eNoent, -eExist, -eIsdir, -eMfile], e < 0 ∧
      Reports [eFault, eNoent, eExist, eIsdir, eMfile] e := by
    intro e he
    obtain ⟨e', he', rfl⟩ : ∃ e' ∈ [eFault, eNoent, eExist, eIsdir, eMfile], -e' = e := by
      simpa [eq_comm] using he
    refine ⟨?_, .error he'⟩
    revert e'
    decide
  rcases h with herr | ⟨hge, hlt⟩
  · rw [if_pos (hneg _ herr).1]
    exact (hneg _ herr).2
  · rw [if_neg (not_lt.mpr hge)]
    exact Or.inl ⟨by rw [fdFileBase]; omega, by rw [fdFileBase]; omega⟩

theorem outcome_open2 {path oflags : UInt32} {r : ℤ × Kernel}
    (h : (Syscall.open2 path oflags).run L k = some r) :
    Outcome [eFault, eNoent, eExist, eIsdir, eMfile] k r := by
  obtain ⟨r₁, h₁, rfl⟩ := Option.map_eq_some_iff.mp h
  obtain ⟨path, -, h₁⟩ := Option.bind_eq_some_iff.mp h₁
  obtain ⟨r₂, hr₂, rfl⟩ := Option.map_eq_some_iff.mp h₁
  exact ⟨reports_sysWrapFd (ramfsOpen2_range hr₂), fun _ => rfl⟩

theorem outcome_read {fd buf count : UInt32} (hpool : PoolInv k.fs) (hfd : cInt fd ≠ 0)
    {r : ℤ × Kernel} (h : (Syscall.read fd buf count).run L k = some r) :
    Outcome [eFault, eBadf] k r := by
  rw [Syscall.run, sysReadAt, if_neg hfd] at h
  by_cases hbuf : buf = 0
  · obtain rfl := Option.some_injective _ ((if_pos hbuf).symm.trans h)
    exact ⟨.error (by simp), fun _ => rfl⟩
  rw [if_neg hbuf] at h
  by_cases hbase : cInt fd < fdFileBase
  · obtain rfl := Option.some_injective _ ((if_pos hbase).symm.trans h)
    exact ⟨.error (by simp), fun _ => rfl⟩
  rw [if_neg hbase] at h
  obtain ⟨r₁, hr₁, h⟩ := Option.bind_eq_some_iff.mp h
  obtain ⟨k₁, hk₁, rfl⟩ := Option.map_eq_some_iff.mp h
  obtain ⟨-, hk₁⟩ := Option.ite_none_right_eq_some.mp hk₁
  obtain rfl := Option.some_injective _ hk₁
  rcases ramfsRead_range hpool hr₁ with hfail | ⟨hge, hle⟩
  · -- no bytes are stored
    rw [hfail]
    exact ⟨.error (by simp), fun _ => by rw [write_nil]; rfl⟩
  · rw [if_neg (not_lt.mpr hge)]
    exact ⟨Or.inl ⟨hge, hle.trans_lt (by decide)⟩, fun hlt => absurd hge (not_le.mpr hlt)⟩

theorem outcome_write {fd buf count : UInt32} (hpool : PoolInv k.fs) {r : ℤ × Kernel}
    (h : (Syscall.write fd buf count).run L k = some r) :
    Outcome [eFault, eBadf, eNospc] k r := by
  obtain ⟨r₁, hr₁, h⟩ := Option.bind_eq_some_iff.mp h
  obtain ⟨hholds, h⟩ := Option.ite_none_right_eq_some.mp h
  obtain rfl := Option.some_injective _ h
  refine ⟨?_, fun _ => rfl⟩
  rw [bufferArg] at hr₁
  by_cases hbuf : buf = 0
  · rw [if_pos hbuf] at hr₁
    obtain rfl := Option.some_injective _ hr₁
    exact .error (by simp)
  rw [if_neg hbuf] at hr₁
  simp only [sysWrite] at hr₁
  by_cases hconsole : cInt fd = 1 ∨ cInt fd = 2
  · -- the terminal takes everything, and the buffer is not longer than the memory
    rw [if_pos hconsole] at hr₁ hholds
    obtain rfl := Option.some_injective _ hr₁
    have hcount : count.toNat ≤ elfLoadLimit := by
      rcases hholds.resolve_left hbuf with hzero | ⟨hle, -⟩
      · omega
      · omega
    have hsame : (UInt32.ofNat count.toNat).toInt32.toInt = count.toNat := by
      rw [UInt32.ofNat_toNat]
      exact cInt_of_lt (hcount.trans_lt (by decide))
    rw [hsame]
    exact Or.inl ⟨Int.natCast_nonneg _, (Int.ofNat_le.mpr hcount).trans_lt (by decide)⟩
  rw [if_neg hconsole] at hr₁
  by_cases hbase : cInt fd < fdFileBase
  · obtain rfl := Option.some_injective _ ((if_pos hbase).symm.trans hr₁)
    exact .error (by simp)
  rw [if_neg hbase] at hr₁
  obtain ⟨r₂, hr₂, rfl⟩ := Option.map_eq_some_iff.mp hr₁
  dsimp only
  rcases ramfsWrite_range hpool hr₂ with hfail | hfail | ⟨hge, hle⟩
  · rw [hfail]
    exact .error (by simp)
  · rw [hfail]
    exact .error (by simp)
  · rw [if_neg (not_lt.mpr hge)]
    exact Or.inl ⟨hge, hle.trans_lt (by decide)⟩

theorem outcome_lseek {fd off whence : UInt32} {r : ℤ × Kernel}
    (h : (Syscall.lseek fd off whence).run L k = some r) :
    Outcome [eSpipe, eBadf, eInval] k r := by
  obtain rfl := Option.some_injective _ h
  rw [sysLseek]
  by_cases hconsole : 0 ≤ cInt fd ∧ cInt fd < fdFileBase
  · rw [if_pos hconsole]
    exact ⟨.error (by simp), fun _ => rfl⟩
  · rw [if_neg hconsole]
    exact ⟨ramfsLseek_reports _ _ _ _, fun _ => rfl⟩

/-- The status is stored on success only. -/
theorem outcome_storeStat {errors : List ℤ} {st : UInt32} {r₁ : ℤ × Option ChalesStat}
    {r : ℤ × Kernel} (hr₁ : Reports errors r₁.1) (hsome : r₁.2.isSome → 0 ≤ r₁.1)
    (h : storeStat L k st r₁ = some r) : Outcome errors k r := by
  obtain ⟨ret, result⟩ := r₁
  cases result with
  | none =>
    obtain rfl := Option.some_injective _ h
    exact ⟨hr₁, fun _ => rfl⟩
  | some result =>
    obtain ⟨k₁, -, rfl⟩ := Option.map_eq_some_iff.mp h
    exact ⟨hr₁, fun hlt => absurd (hsome rfl) (not_le.mpr hlt)⟩

theorem outcome_fstat {fd st : UInt32} {r : ℤ × Kernel}
    (h : (Syscall.fstat fd st).run L k = some r) : Outcome [eFault, eBadf] k r := by
  rw [Syscall.run, sysFstat] at h
  by_cases hst : st = 0
  · obtain rfl := Option.some_injective _ ((if_pos hst).symm.trans h)
    exact ⟨.error (by simp), fun _ => rfl⟩
  rw [if_neg hst] at h
  by_cases hconsole : 0 ≤ cInt fd ∧ cInt fd < fdFileBase
  · rw [if_pos hconsole] at h
    exact outcome_storeStat (.zero _) (fun _ => le_rfl) h
  · rw [if_neg hconsole] at h
    have hr := ramfsFstat_reports k.fs (cInt fd - fdFileBase)
    exact outcome_storeStat hr.1 hr.2 h

theorem outcome_stat {path st : UInt32} {r : ℤ × Kernel}
    (h : (Syscall.stat path st).run L k = some r) : Outcome [eFault, eNoent] k r := by
  rw [Syscall.run, sysStat] at h
  by_cases hnull : path = 0 ∨ st = 0
  · obtain rfl := Option.some_injective _ ((if_pos hnull).symm.trans h)
    exact ⟨.error (by simp), fun _ => rfl⟩
  rw [if_neg hnull] at h
  obtain ⟨path, -, h⟩ := Option.bind_eq_some_iff.mp h
  have hr := ramfsStat_reports k.fs path
  exact outcome_storeStat hr.1 hr.2 h

/-- The results of the system calls of files. -/
theorem FileCall.outcome {c : FileCall} (hpool : PoolInv k.fs)
    (hfile : ∀ fd buf len, c = .readFile fd buf len → fd ≠ 0) {r : ℤ × Kernel}
    (h : c.syscall.run L k = some r) : Outcome c.kernelErrors k r := by
  cases c with
  | «open» path flags => exact outcome_open2 h
  | close fd => exact outcome_close k fd h
  | readFile fd buf len =>
    exact outcome_read hpool (fun hzero => hfile fd buf len rfl (cInt_eq_zero.mp hzero)) h
  | write fd buf len => exact outcome_write hpool h
  | lseek fd offset whence => exact outcome_lseek h
  | fstat st fd => exact outcome_fstat h
  | stat st path => exact outcome_stat h
  | unlink path =>
    exact outcome_withPath (fun path r hr => Option.some_injective _ hr ▸
      ramfsUnlink_reports k.fs path) h
  | mkdir path => exact outcome_withPath (fun path r hr => ramfsMkdir_reports hr) h
  | rmdir path =>
    exact outcome_withPath (fun path r hr => Option.some_injective _ hr ▸
      ramfsRmdir_reports k.fs path) h

/-! ### Results of the functions -/

variable {u u' : Newlib} {c : FileCall} {errors : List ℤ} {res : ℤ}

theorem FileCall.kernelErrors_range (c : FileCall) : ∀ e ∈ c.kernelErrors, 0 < e ∧ e ≤ 4095 := by
  cases c <;> dsimp only [kernelErrors] <;> decide

/-- A result comes out of the register as it went in. -/
theorem Reports.cInt_eq (herrors : ∀ e ∈ errors, 0 < e ∧ e ≤ 4095) (h : Reports errors res) :
    cInt (UInt32.ofInt res) = res := by
  rcases h with ⟨hge, hlt⟩ | ⟨e, he, rfl⟩
  · exact cInt_ofInt (by omega) hlt
  · have := herrors e he
    exact cInt_ofInt (by omega) (by omega)

/-- **`sys_result`** tells a success from an error. -/
theorem Reports.sysResult (herrors : ∀ e ∈ errors, 0 < e ∧ e ≤ 4095) (h : Reports errors res)
    (u : Newlib) :
    0 ≤ res ∧ u.sysResult res = (res, u) ∨
      ∃ e ∈ errors, res = -e ∧ u.sysResult res = (-1, { u with errno := e }) := by
  rcases h with ⟨hge, -⟩ | ⟨e, he, rfl⟩
  · exact Or.inl ⟨hge, if_neg fun hlt => hlt.1.not_ge hge⟩
  · have := herrors e he
    refine Or.inr ⟨e, he, rfl, ?_⟩
    rw [Newlib.sysResult, if_pos (by omega), neg_neg]

/-- A call with a fixed error number. -/
theorem Reports.failsWith (herrors : ∀ e ∈ errors, 0 < e ∧ e ≤ 4095) (h : Reports errors res)
    (u : Newlib) (errno : ℤ) :
    0 ≤ res ∧ u.failsWith errno res = (0, u) ∨
      ∃ e ∈ errors, res = -e ∧ u.failsWith errno res = (-1, { u with errno := errno }) := by
  rcases h with ⟨hge, -⟩ | ⟨e, he, rfl⟩
  · exact Or.inl ⟨hge, if_neg (not_lt.mpr hge)⟩
  · have := herrors e he
    exact Or.inr ⟨e, he, rfl, if_pos (by omega)⟩

/-- A system call of newlib. -/
theorem sys3_eq {num a b c : UInt32} {call : Syscall} (u : Newlib)
    (hdecode : decode ⟨num, a, b, c⟩ = some call) (heax : call.leavesEax = false) :
    u.sys3 L num a b c = (call.run L u.kernel).map fun r =>
      (cInt (UInt32.ofInt r.1), { u with kernel := r.2 }) := by
  rw [Newlib.sys3, syscallHandler, hdecode, Option.bind_some, Option.map_map]
  refine congrArg (Option.map · _) (funext fun r => ?_)
  rw [heax]
  rfl

/-- What a call does with the result of its system call. -/
def FileCall.finish (c : FileCall) (u : Newlib) (res : ℤ) : ℤ × Newlib :=
  match c with
  | .fstat k _ => ((u.statResult k res).1, (u.statResult k res).2.2)
  | .stat k _ => ((u.statResult k res).1, (u.statResult k res).2.2)
  | .unlink _ => u.failsWith eNoent res
  | .mkdir _ => u.failsWith eExist res
  | .rmdir _ => u.failsWith eNoent res
  | _ => u.sysResult res

/-- Every call makes one system call. -/
theorem FileCall.exec_eq (c : FileCall) (u : Newlib) :
    c.exec L u = (c.syscall.run L u.kernel).map fun r =>
      c.finish { u with kernel := r.2 } (cInt (UInt32.ofInt r.1)) := by
  have hsys : ∀ {num a b d : UInt32} {f : ℤ × Newlib → ℤ × Newlib},
      decode ⟨num, a, b, d⟩ = some c.syscall → (∀ u res, f (res, u) = c.finish u res) →
      (u.sys3 L num a b d).map f = (c.syscall.run L u.kernel).map fun r =>
        c.finish { u with kernel := r.2 } (cInt (UInt32.ofInt r.1)) := by
    intro num a b d f hdecode hf
    rw [sys3_eq u hdecode (by cases c <;> rfl), Option.map_map]
    exact congrArg (Option.map · _) (funext fun r => hf _ _)
  cases c with
  | «open» path flags =>
    rw [exec, Newlib.«open»]
    exact hsys rfl fun _ _ => rfl
  | close fd =>
    rw [exec, Newlib.close]
    exact hsys rfl fun _ _ => rfl
  | readFile fd buf len =>
    rw [exec, Newlib.readFile]
    exact hsys rfl fun _ _ => rfl
  | write fd buf len =>
    rw [exec, Newlib.write]
    exact hsys rfl fun _ _ => rfl
  | lseek fd offset whence =>
    rw [exec, Newlib.lseek]
    exact hsys rfl fun _ _ => rfl
  | fstat k fd =>
    rw [exec, Newlib.fstat, Option.map_map]
    exact hsys rfl fun _ _ => rfl
  | stat k path =>
    rw [exec, Newlib.stat, Option.map_map]
    exact hsys rfl fun _ _ => rfl
  | unlink path =>
    rw [exec, Newlib.unlink]
    exact hsys rfl fun _ _ => rfl
  | mkdir path =>
    rw [exec, Newlib.mkdir]
    exact hsys rfl fun _ _ => rfl
  | rmdir path =>
    rw [exec, Newlib.rmdir]
    exact hsys rfl fun _ _ => rfl

/-- A reported result ends as its value, or as -1 and an error number. -/
theorem FileCall.finish_cases (c : FileCall) (u : Newlib) (h : Reports c.kernelErrors res) :
    0 ≤ res ∧ c.finish u res = (c.value res, u) ∨
      ∃ e ∈ c.kernelErrors, res = -e ∧
        c.finish u res = (-1, { u with errno := c.fixedError.getD e }) := by
  have hresult := h.sysResult c.kernelErrors_range u
  have hfails := h.failsWith c.kernelErrors_range u
  have hstat : ∀ k, 0 ≤ res ∧
      ((u.statResult k res).1, (u.statResult k res).2.2) = (0, u) ∨
      ∃ e ∈ c.kernelErrors, res = -e ∧ ((u.statResult k res).1, (u.statResult k res).2.2) =
        (-1, { u with errno := e }) := by
    intro k
    rcases hresult with ⟨hge, heq⟩ | ⟨e, he, hres, heq⟩
    · refine Or.inl ⟨hge, ?_⟩
      simp only [Newlib.statResult, heq, not_lt.mpr hge, if_false]
    · refine Or.inr ⟨e, he, hres, ?_⟩
      simp [Newlib.statResult, heq]
  cases c with
  | «open» path flags => exact hresult
  | close fd => exact hresult
  | readFile fd buf len => exact hresult
  | write fd buf len => exact hresult
  | lseek fd offset whence => exact hresult
  | fstat k fd => exact hstat k
  | stat k path => exact hstat k
  | unlink path => exact hfails eNoent
  | mkdir path => exact hfails eExist
  | rmdir path => exact hfails eNoent

/-- What a call returns when the pool is laid out as it should be. -/
theorem FileCall.exec_cases (hpool : PoolInv u.kernel.fs)
    (hfile : ∀ fd buf len, c = .readFile fd buf len → fd ≠ 0)
    (hexec : c.exec L u = some (ret, u')) :
    ∃ res, c.syscall.run L u.kernel = some (res, u'.kernel) ∧
      (0 ≤ res ∧ ret = c.value res ∧ u'.errno = u.errno ∨
        ∃ e ∈ c.kernelErrors, res = -e ∧ ret = -1 ∧ u'.errno = c.fixedError.getD e ∧
          u'.kernel.machine = u.kernel.machine) := by
  rw [exec_eq] at hexec
  obtain ⟨⟨res, k'⟩, hrun, heq⟩ := Option.map_eq_some_iff.mp hexec
  have hout := FileCall.outcome hpool hfile hrun
  rw [hout.1.cInt_eq c.kernelErrors_range] at heq
  rcases c.finish_cases { u with kernel := k' } hout.1 with ⟨hge, hfinish⟩ |
    ⟨e, he, hres, hfinish⟩
  · obtain ⟨rfl, rfl⟩ := Prod.mk.inj (heq.symm.trans hfinish)
    exact ⟨res, hrun, Or.inl ⟨hge, rfl, rfl⟩⟩
  · obtain ⟨rfl, rfl⟩ := Prod.mk.inj (heq.symm.trans hfinish)
    have hneg := c.kernelErrors_range e he
    exact ⟨res, hrun, Or.inr ⟨e, he, hres, rfl, rfl, hout.2 (by dsimp only; omega)⟩⟩

/-- A call whose system call succeeds. -/
theorem FileCall.exec_of_run {c : FileCall} {k' : Kernel}
    (hrun : c.syscall.run L u.kernel = some (res, k')) (hge : 0 ≤ res) (hlt : res < 0x80000000) :
    c.exec L u = some (c.value res, { u with kernel := k' }) := by
  have hreports : Reports c.kernelErrors res := Or.inl ⟨hge, hlt⟩
  rw [exec_eq, hrun, Option.map_some, hreports.cInt_eq c.kernelErrors_range]
  rcases c.finish_cases { u with kernel := k' } hreports with ⟨-, heq⟩ | ⟨e, he, hres, -⟩
  · rw [heq]
  · have := c.kernelErrors_range e he
    omega

end ChalesOs
