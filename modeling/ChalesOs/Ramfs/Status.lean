import ChalesOs.Ramfs.Lookup

/-!
# The status of a file

Four ways to ask how long a file is: `ramfs_stat` by path, `ramfs_fstat` by descriptor,
`ramfs_lseek` to the end, and `ramfs_file_data`, by which `exec_run` gets at the bytes of a program
without a descriptor. `views_agree` says that they all tell of the same byte string, the one a
reader gets.
-/

namespace ChalesOs

open ByteMemory

variable {s : Ramfs} {i : Fin 64} {k : Fin 32} {fd : ℤ} {path : Option CString} {b : List UInt8}
  {progs : Programs} {run : RamfsRun}

/-- `ramfs_stat`: the result, and what it stores through `st`. -/
def ramfsStat (s : Ramfs) (path : Option CString) : ℤ × Option ChalesStat :=
  match ramfsFindInode s path with
  | none => (-eNoent, none)
  | some i => (0, some (ramfsFillStat (s.inodes i)))

/-- `ramfs_file_data`: the pointer it returns, a place in the pool, and what it stores through
`size_out`. The first `none` is its first `NULL`, which stores nothing; a file without a block has
the pointer `NULL` too. -/
def ramfsFileData (s : Ramfs) (path : Option CString) : Option (Option ℕ × ℕ) :=
  match ramfsFindInode s path with
  | none => none
  | some i =>
    if (s.inodes i).type ≠ .file then none else some ((s.inodes i).data, (s.inodes i).size)

/-- All ways to look at the file found at a path show the byte string `b`. -/
structure Ramfs.ViewsAgree (s : Ramfs) (path : Option CString) (i : Fin 64) (b : List UInt8) :
    Prop where
  stat : ramfsStat s path = (0, some ⟨sIfreg ||| 0x1a4, b.length, (s.inodes i).ino, 1⟩)
  fileData : ∃ data, ramfsFileData s path = some (data, b.length) ∧
    (∀ d, data = some d → slice s.pool d b.length = b) ∧ (data = none → b = [])
  fstat : ∀ fd k, validFd fd = some k → (s.fds k).ino = (s.inodes i).ino →
    ramfsFstat s fd = ramfsStat s path
  seekEnd : ∀ fd k, validFd fd = some k → (s.fds k).ino = (s.inodes i).ino →
    (ramfsLseek s fd 0 2).1 = b.length
  readAll : ∀ fd k count, s.Readable fd k i → (s.fds k).offset = 0 → b.length ≤ count →
    (ramfsRead s fd false count).map (fun r => r.2.1) = some b

theorem ramfsFillStat_file (h : (s.inodes i).type = .file) :
    ramfsFillStat (s.inodes i) = ⟨sIfreg ||| 0x1a4, (s.inodes i).size, (s.inodes i).ino, 1⟩ := by
  rw [ramfsFillStat, if_neg (by rw [h]; decide), if_neg (by rw [h]; decide)]

theorem ramfsStat_of_find (hfind : ramfsFindInode s path = some i) :
    ramfsStat s path = (0, some (ramfsFillStat (s.inodes i))) := by
  rw [ramfsStat, hfind]

theorem ramfsFileData_of_find (hfind : ramfsFindInode s path = some i)
    (htype : (s.inodes i).type = .file) :
    ramfsFileData s path = some ((s.inodes i).data, (s.inodes i).size) := by
  rw [ramfsFileData, hfind]
  exact if_neg (not_not.mpr htype)

/-- A descriptor with the number of a live inode leads to its slot. -/
theorem IdInv.slotOfIno_fd (hid : IdInv s) (hlive : (s.inodes i).ino ≠ 0)
    (hk : (s.fds k).ino = (s.inodes i).ino) : s.slotOfIno (s.fds k).ino = some i :=
  hid.slotOfIno_iff.mpr ⟨hk.symm, fun h0 => absurd (hk.symm.trans h0) hlive⟩

/-- The status of a descriptor is that of its inode. -/
theorem IdInv.ramfsFstat_eq (hid : IdInv s) (hlive : (s.inodes i).ino ≠ 0)
    (hfd : validFd fd = some k) (hk : (s.fds k).ino = (s.inodes i).ino) :
    ramfsFstat s fd = (0, some (ramfsFillStat (s.inodes i))) := by
  have hne : (s.fds k).ino ≠ 0 := by rwa [hk]
  rw [ramfsFstat, hfd]
  dsimp only
  rw [if_neg hne, ramfsInodeByIno, if_neg hne, hid.slotOfIno_fd hlive hk]

/-- The end of a file is at its size. -/
theorem IdInv.ramfsLseek_end (hid : IdInv s) (hpool : PoolInv s) (hlive : (s.inodes i).ino ≠ 0)
    (hfd : validFd fd = some k) (hk : (s.fds k).ino = (s.inodes i).ino) :
    (ramfsLseek s fd 0 2).1 = (s.inodes i).size := by
  have hne : (s.fds k).ino ≠ 0 := by rwa [hk]
  have hmax := (hpool.placed i).size_le.trans (hpool.placed i).capacity_le
  rw [ramfsLseek, hfd]
  dsimp only
  rw [if_neg hne, hid.slotOfIno_fd hlive hk]
  dsimp only
  rw [if_neg (by decide), if_neg (by decide), if_pos rfl]
  dsimp only
  rw [if_neg (by omega), Int.add_zero]

/-- **One file, four views.** In every run that creates fewer than `2 ^ 32 - 1` inodes, for every
path at which a live file is found. -/
theorem views_agree (h : (ramfsSystem progs).Reachable run) (hcreated : run.created < 0xFFFFFFFF)
    (hfind : ramfsFindInode run.fs path = some i) (hlive : (run.fs.inodes i).ino ≠ 0)
    (htype : (run.fs.inodes i).type = .file) :
    ∃ b, run.fs.content (run.fs.inodes i).ino = some b ∧ run.fs.ViewsAgree path i b := by
  have hpool := poolInv_of_reachable h
  obtain ⟨hid, -⟩ := counted_of_reachable h hcreated
  have hlen := hpool.length_fileBytes i
  have hholds : run.fs.HoldsIno i (run.fs.inodes i).ino := ⟨rfl, fun h0 => absurd h0 hlive⟩
  refine ⟨run.fs.fileBytes i, hid.content_eq_some.mpr ⟨i, hholds, htype, rfl⟩, ?_, ?_, ?_, ?_, ?_⟩
  · rw [ramfsStat_of_find hfind, ramfsFillStat_file htype, hlen]
  · refine ⟨(run.fs.inodes i).data, ?_, fun d hd => ?_, fun hd => ?_⟩
    · rw [ramfsFileData_of_find hfind htype, hlen]
    · rw [hlen, Ramfs.fileBytes, hd]
    · rw [Ramfs.fileBytes, hd]
  · intro fd k hfd hk
    rw [hid.ramfsFstat_eq hlive hfd hk, ramfsStat_of_find hfind]
  · intro fd k hfd hk
    rw [hid.ramfsLseek_end hpool hlive hfd hk, hlen]
  · intro fd k count hread hoffset hcount
    obtain ⟨r, hr⟩ : ∃ r, ramfsRead run.fs fd false count = some r := by
      have hsome : (ramfsExec run.fs (.read fd false count)).isSome :=
        ramfsExec_isSome hpool trivial
      rw [ramfsExec, Option.isSome_map] at hsome
      exact Option.isSome_iff_exists.mp hsome
    rw [hr, Option.map_some]
    rcases hid.read hpool hr with ⟨hret, -⟩ | ⟨k', b, hk', hb, hbytes, -⟩
    · -- a readable descriptor does not fail
      rw [ramfsRead_of_readable hread] at hr
      split_ifs at hr
      · obtain ⟨d, -, rfl⟩ := Option.map_eq_some_iff.mp hr
        dsimp only at hret
        omega
      · obtain rfl := Option.some_injective _ hr
        simp at hret
    · obtain rfl := Option.some_injective _ (hread.valid.symm.trans hk')
      have hb' := hid.content_of_openFile hread.toOpenFile
      obtain rfl := Option.some_injective _ (hb.symm.trans hb')
      rw [hbytes, hoffset, List.drop_zero, List.take_of_length_le hcount]

/-- `views_agree` for a program behind `ramfs_init`. -/
theorem views_agree_sample :
    ∃ b, freshRun.fs.content (freshRun.fs.inodes 2).ino = some b ∧
      freshRun.fs.ViewsAgree (some (cstr "/bin/hello")) 2 b :=
  views_agree (.start freshRun_start) (by decide) (by decide +kernel) (by decide +kernel)
    (by decide +kernel)

end ChalesOs
