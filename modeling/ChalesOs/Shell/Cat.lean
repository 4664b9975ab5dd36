import ChalesOs.Shell.Commands

/-!
# The file on the screen

What `cmd_cat` prints is the file: it reads chunks of `CAT_BUF_SIZE` bytes until a read returns
nothing, and the chunks together are the content (`cmdCat_prints`).

`shell_write_cat` joins the two ends of the file system as a user sees them: a line with `write`,
any number of lines that leave the file alone, and a line with `cat`.
-/

namespace ChalesOs

variable {s s' : Ramfs} {io io' : SystemState} {k : Fin 32} {i : Fin 64} {fd : ℤ}
  {path text line : CString} {ws rest argv : List CString} {buffer : ℕ} {m : Mem}

/-! ### The loop -/

/-- Behind a read the descriptor is as readable as before. -/
theorem Ramfs.Readable.setFd_offset (h : s.Readable fd k i) (offset : ℕ) :
    (s.setFd k { s.fds k with offset := offset }).Readable fd k i := by
  refine ⟨⟨h.valid, ?_, ?_, h.file⟩, ?_⟩
  · rw [Ramfs.setFd_self]
    exact h.live
  · rw [Ramfs.setFd_self]
    exact h.slot
  · rw [Ramfs.setFd_self]
    exact h.mode

/-- One read of the loop. -/
theorem syscallReadFile_eq (hid : IdInv io.fs) (hpool : PoolInv io.fs)
    (hread : io.fs.Readable fd k i) {b : List UInt8}
    (hb : b = ((io.fs.fileBytes i).drop (io.fs.fds k).offset).take catBufSize) :
    syscallReadFile io (fd + fdFileBase) catBufSize = some ((b.length : ℤ), b,
      { io with fs := io.fs.setFd k { io.fs.fds k with
          offset := (io.fs.fds k).offset + b.length } }) := by
  have hfd := eq_of_validFd hread.valid
  have hbase : fdFileBase = 3 := rfl
  rw [syscallReadFile, if_neg (by omega), Int.add_sub_cancel,
    hid.read_readable hpool hread catBufSize hb, Option.map_some, if_neg (by omega)]

/-- **The loop prints the rest of the file.** -/
theorem cmdCatLoop_prints {fuel : ℕ} (hid : IdInv io.fs) (hpool : PoolInv io.fs)
    (hread : io.fs.Readable fd k i)
    (hfuel : (io.fs.fileBytes i).length - (io.fs.fds k).offset < fuel) :
    ∃ off, cmdCatLoop (fd + fdFileBase) fuel io = some
      ⟨io.fs.setFd k { io.fs.fds k with offset := off },
        io.printed ++ (io.fs.fileBytes i).drop (io.fs.fds k).offset⟩ := by
  induction fuel generalizing io with
  | zero => exact absurd hfuel (Nat.not_lt_zero _)
  | succ fuel ih =>
    generalize hb : ((io.fs.fileBytes i).drop (io.fs.fds k).offset).take catBufSize = b
    have hlen : b.length = min catBufSize
        ((io.fs.fileBytes i).length - (io.fs.fds k).offset) := by
      rw [← hb, List.length_take, List.length_drop]
    rw [catBufSize] at hlen
    rw [cmdCatLoop, syscallReadFile_eq hid hpool hread hb.symm, Option.bind_some]
    dsimp only
    by_cases hend : (io.fs.fileBytes i).length ≤ (io.fs.fds k).offset
    · -- the end of the file
      rw [if_neg (by omega), List.drop_eq_nil_of_le hend, List.append_nil]
      exact ⟨(io.fs.fds k).offset + b.length, rfl⟩
    · -- a chunk, and what is behind it
      rw [if_pos (by omega)]
      have hexec : ramfsExec io.fs (.read fd false catBufSize) = some (⟨b.length, b⟩,
          io.fs.setFd k { io.fs.fds k with offset := (io.fs.fds k).offset + b.length }) := by
        rw [ramfsExec, hid.read_readable hpool hread catBufSize hb.symm, Option.map_some]
      have hnext : io.fs.nextInode ≠ 0 := Nat.ne_zero_of_lt (hid.ino_lt 0)
      have hid' := hid.exec hpool hexec hnext
      have hpool' := hpool.changes (ramfsExec_changes hpool hexec)
      have hread' := hread.setFd_offset ((io.fs.fds k).offset + b.length)
      have hpre : b <+: (io.fs.fileBytes i).drop (io.fs.fds k).offset := hb ▸ List.take_prefix _ _
      have hrest : (io.fs.fileBytes i).drop (io.fs.fds k).offset =
          b ++ (io.fs.fileBytes i).drop ((io.fs.fds k).offset + b.length) := by
        rw [← List.drop_drop]
        exact (List.prefix_iff_eq_append.mp hpre).symm
      have hself : ((io.fs.setFd k { io.fs.fds k with
          offset := (io.fs.fds k).offset + b.length }).fds k).offset =
            (io.fs.fds k).offset + b.length := by
        rw [Ramfs.setFd_self]
      have hbytes : (io.fs.setFd k { io.fs.fds k with
          offset := (io.fs.fds k).offset + b.length }).fileBytes i = io.fs.fileBytes i := rfl
      obtain ⟨off, hoff⟩ := @ih ⟨io.fs.setFd k _, io.printed ++ b⟩ hid' hpool' hread' (by
        rw [hself, hbytes]
        omega)
      refine ⟨off, hoff.trans ?_⟩
      rw [hself, hbytes, hrest, List.append_assoc, Ramfs.setFd_self, Ramfs.setFd, Ramfs.setFd,
        Ramfs.setFd, Function.update_idem]

/-! ### The command -/

/-- A file that a path names. -/
theorem Ramfs.textAt_eq_some (h : s.textAt path = some text) :
    ∃ i, ramfsFindInode s (some path) = some i ∧ (s.inodes i).type = .file ∧
      s.fileBytes i = text := by
  obtain ⟨i, hi, h⟩ := Option.bind_eq_some_iff.mp h
  obtain ⟨hfile, h⟩ := Option.ite_none_right_eq_some.mp h
  exact ⟨i, hi, hfile, Option.some_injective _ h⟩

/-- What the command does with the descriptor it has opened. -/
theorem cmdCat_of_open {printed : List UInt8} (hid : IdInv s') (hpool : PoolInv s')
    (hopen : syscallOpen ⟨s, printed⟩ (some path) 0 =
      some (((k : ℕ) : ℤ) + fdFileBase, ⟨s', printed⟩))
    (hread : s'.Readable ((k : ℕ) : ℤ) k i) (hoff : (s'.fds k).offset = 0) (name : CString)
    (rest : List CString) :
    cmdCat true (name :: path :: rest) ⟨s, printed⟩ =
      some (0, ⟨s'.setFd k Fd.zero, printed ++ s'.fileBytes i ++ cstr "\n"⟩) := by
  have hbase : fdFileBase = 3 := rfl
  have hmax : (s'.fileBytes i).length ≤ ramfsMaxFilesize := by
    rw [hpool.length_fileBytes]
    exact (hpool.placed i).size_le.trans (hpool.placed i).capacity_le
  have hfuel : (s'.fileBytes i).length - (s'.fds k).offset < ramfsMaxFilesize + 1 := by omega
  obtain ⟨off, hloop⟩ := @cmdCatLoop_prints ⟨s', printed⟩ k i _ _ hid hpool hread hfuel
  dsimp only at hloop
  rw [cmdCat, hopen, Option.bind_some]
  dsimp only
  rw [if_neg (by omega), if_neg (not_not.mpr rfl), hloop, Option.map_some, SystemState.print,
    sysClose, if_neg (by omega), Int.add_sub_cancel, ramfsClose, validFd_coe]
  dsimp only
  rw [Ramfs.setFd_self, if_neg hread.live, hoff, List.drop_zero, Ramfs.setFd, Ramfs.setFd,
    Ramfs.setFd, Function.update_idem]

/-- **The command prints the file**, and a descriptor that was free has been used. -/
theorem cmdCat_prints (hid : IdInv s) (hpool : PoolInv s) (hroot : ¬IsRootPath (some path))
    (htext : s.textAt path = some text) (hk : ramfsFindFreeFd s = some k) (name : CString)
    (rest : List CString) (printed : List UInt8) :
    cmdCat true (name :: path :: rest) ⟨s, printed⟩ =
      some (0, ⟨s.setFd k Fd.zero, printed ++ text ++ cstr "\n"⟩) := by
  obtain ⟨i, hi, hfile, rfl⟩ := Ramfs.textAt_eq_some htext
  have hbase : fdFileBase = 3 := rfl
  have hino : (s.inodes i).ino ≠ 0 := by
    refine (ramfsFindInode_ino_ne_zero hi).resolve_left ?_
    rintro rfl
    exact hroot (isRootPath_of_find hid.root hi)
  have hopenFd : ramfsOpenFd s i = (((k : ℕ) : ℤ), s.setFd k ⟨(s.inodes i).ino, 0, oRdwr⟩) := by
    rw [ramfsOpenFd, if_neg (not_not.mpr hfile), hk]
  have hramfs : ramfsOpen s (some path) 0 = some (((k : ℕ) : ℤ),
      s.setFd k ⟨(s.inodes i).ino, 0, oRdwr⟩) := by
    rw [ramfsOpen, hi]
    exact congrArg some hopenFd
  have hopen : syscallOpen ⟨s, printed⟩ (some path) 0 = some (((k : ℕ) : ℤ) + fdFileBase,
      ⟨s.setFd k ⟨(s.inodes i).ino, 0, oRdwr⟩, printed⟩) := by
    rw [syscallOpen, hramfs, Option.map_some, if_neg (by omega), sysWrapFd, if_neg (by omega)]
  have hexec : ramfsExec s (.open (some path) 0) = some (⟨((k : ℕ) : ℤ), []⟩,
      s.setFd k ⟨(s.inodes i).ino, 0, oRdwr⟩) := by
    rw [ramfsExec, hramfs, Option.map_some]
  have hself : (s.setFd k ⟨(s.inodes i).ino, 0, oRdwr⟩).fds k = ⟨(s.inodes i).ino, 0, oRdwr⟩ :=
    s.setFd_self k _
  have hread : (s.setFd k ⟨(s.inodes i).ino, 0, oRdwr⟩).Readable ((k : ℕ) : ℤ) k i := by
    refine ⟨⟨validFd_coe k, ?_, ?_, hfile⟩, ?_⟩
    · rwa [hself]
    · rw [hself]
      exact hid.slotOfIno_iff.mpr ⟨rfl, fun h0 => absurd h0 hino⟩
    · rw [hself]
      exact (by decide : oRdwr &&& oAccmode ≠ oWronly)
  have hnext : s.nextInode ≠ 0 := Nat.ne_zero_of_lt (hid.ino_lt 0)
  rw [cmdCat_of_open (hid.exec hpool hexec hnext) (hpool.changes (ramfsExec_changes hpool hexec))
    hopen hread (congrArg Fd.offset hself) name rest, Ramfs.setFd, Ramfs.setFd, Ramfs.setFd,
    Function.update_idem]
  rfl

/-! ### Lines -/

/-- The buffer holds a line with these words. -/
def IsLine (buffer : ℕ) (m : Mem) (argv : List CString) : Prop :=
  ∃ line, StringAt m buffer line ∧ line.length < shellBufferSize ∧
    (words line).take shellMaxArgs = argv

/-- A line with a command of the shell that returns. -/
theorem IsLine.runInputs {malloced : Bool} {c : Builtin} {code : ℤ}
    (h : IsLine buffer m (c.texts.1 :: argv))
    (hrun : c.handler malloced (c.texts.1 :: argv) io = some (.returns code io')) :
    (shellSystem buffer).runInputs io [(malloced, m)] = some io' := by
  obtain ⟨line, hline, hlen, hwords⟩ := h
  have hfind : (commands.find? fun c' => c'.texts.1 = c.texts.1) = some c := by
    cases c <;> decide
  have hexec : shellLine malloced buffer m io = some (.returns code io') := by
    rw [shellLine_eq hline hlen, hwords, shellExecuteCommand, hfind]
    exact hrun
  have hstep : (shellSystem buffer).step io (malloced, m) = some io' := by
    simp only [shellSystem, hexec, Option.bind_some]
  rw [StepSystem.runInputs, hstep]
  rfl

/-- A file that can be opened has a descriptor to be opened with. -/
theorem Ramfs.CanOpen.exists_fd (h : s.CanOpen path)
    (hfits : s.Creates (some path) → (pathName path).length ≤ 255) :
    ∃ k, ramfsFindFreeFd s = some k := by
  obtain ⟨r, hr⟩ := Option.isSome_iff_exists.mp (ramfsOpen_isSome_of_creates 1 hfits)
  have hret := h r hr
  rcases ramfsOpen_fds hr with ⟨hneg, -⟩ | ⟨k, i, -, hk, -⟩
  · omega
  · exact ⟨k, hk⟩

/-- **What is written is shown.** In a file system in any reachable state there is a line with
`write` for a path other than the root's, which succeeds. Behind it come any lines that leave the
text of the file as it is, and then a line with `cat`, whose `malloc` succeeds. It prints the words
separated by blanks, and behind them what the file held there before. -/
theorem shell_write_cat {progs : Programs} {run : RamfsRun} {m₁ m₂ : Mem} {printed : List UInt8}
    (h : (ramfsSystem progs).Reachable run) (hcreated : run.created < 0xFFFFFFFF)
    (hopen : run.fs.CanOpen path) (hroot : ¬IsRootPath (some path))
    (hfits : run.fs.Creates (some path) → (pathName path).length ≤ 255)
    (hroom : run.fs.HasRoom path ws) (hws : ws ≠ [])
    (hwrite : IsLine buffer m₁ (cstr "write" :: path :: ws))
    (hcat : IsLine buffer m₂ (cstr "cat" :: path :: rest)) (malloced : Bool) :
    ∃ io₁, (shellSystem buffer).runInputs ⟨run.fs, printed⟩ [(malloced, m₁)] = some io₁ ∧
      ∀ lines io₂, run.created + lines.length + 1 < 0xFFFFFFFF →
        (shellSystem buffer).runInputs io₁ lines = some io₂ →
        io₂.fs.textAt path = io₁.fs.textAt path →
        ∃ io₃, (shellSystem buffer).runInputs io₂ [(true, m₂)] = some io₃ ∧
          io₃.printed = io₂.printed ++ (joined ws ++
            ((run.fs.textAt path).getD []).drop (joined ws).length) ++ cstr "\n" := by
  obtain ⟨io₁, hcmd, htext⟩ := cmdWrite_overwrites (poolInv_of_reachable h)
    (counted_of_reachable h hcreated).1 (freeCleared_of_reachable h) hopen hroot hfits
    hroom hws (cstr "write") printed
  have hfirst : (shellSystem buffer).runInputs ⟨run.fs, printed⟩ [(malloced, m₁)] = some io₁ := by
    exact IsLine.runInputs (c := .write) hwrite (congrArg (Option.map ShellAction.of) hcmd)
  refine ⟨io₁, hfirst, fun lines io₂ hlt hlines hsame => ?_⟩
  -- the state of the last line is a reachable state of the file system
  have hrun : (shellSystem buffer).runInputs ⟨run.fs, printed⟩ ((malloced, m₁) :: lines) =
      some io₂ := by
    rw [← List.singleton_append, StepSystem.runInputs_append, hfirst, Option.bind_some, hlines]
  obtain ⟨ops, created, hle, hops⟩ := (shellRun_moves hrun).2 progs run.created
  have hreach : (ramfsSystem progs).Reachable ⟨io₂.fs, created⟩ :=
    .runInputs h (fun _ _ _ _ => trivial) hops
  rw [List.length_cons] at hle
  have hid := (counted_of_reachable hreach (by dsimp only; omega)).1
  -- there is a descriptor, because the lines before have closed theirs
  obtain ⟨k, hk⟩ := hopen.exists_fd hfits
  have hk' : ramfsFindFreeFd io₂.fs = some k :=
    (ramfsFindFreeFd_congr fun j => ((shellRun_moves hrun).1 j).1).trans hk
  have hshow := cmdCat_prints hid (poolInv_of_reachable hreach) hroot (hsame.trans htext) hk'
    (cstr "cat") rest io₂.printed
  have hlast := IsLine.runInputs (c := .cat) hcat (congrArg (Option.map ShellAction.of) hshow)
  exact ⟨_, hlast, rfl⟩

/-- `shell_write_cat` for a new file, with a line between that makes a directory. -/
theorem shell_write_cat_sample : ∃ io₁ io₂ io₃,
    (shellSystem 0).runInputs ⟨freshRun.fs, []⟩ [(true, lineMem (cstr "write /a b  c"))] =
      some io₁ ∧
    (shellSystem 0).runInputs io₁ [(true, lineMem (cstr "mkdir /d"))] = some io₂ ∧
    (shellSystem 0).runInputs io₂ [(true, lineMem (cstr "cat /a"))] = some io₃ ∧
    io₃.printed = cstr "b c\n" := by
  obtain ⟨io₁, h₁, hshow⟩ := @shell_write_cat (cstr "/a") [cstr "b", cstr "c"] [] 0 noPrograms
    freshRun (lineMem (cstr "write /a b  c")) (lineMem (cstr "cat /a")) [] (.start freshRun_start)
    (by decide) (by decide +kernel) (by decide) (fun _ => by decide)
    (Ramfs.hasRoom_of_le (by decide) (by decide +kernel)) (List.cons_ne_nil _ _)
    ⟨cstr "write /a b  c", by decide +kernel, by decide, by decide +kernel⟩
    ⟨cstr "cat /a", by decide +kernel, by decide, by decide +kernel⟩ true
  obtain ⟨io₁', h₁', hrest⟩ : ∃ io₁,
      (shellSystem 0).runInputs ⟨freshRun.fs, []⟩ [(true, lineMem (cstr "write /a b  c"))] =
        some io₁ ∧ (((shellSystem 0).runInputs io₁ [(true, lineMem (cstr "mkdir /d"))]).any
          fun io₂ => decide (io₂.fs.textAt (cstr "/a") = io₁.fs.textAt (cstr "/a") ∧
            io₂.printed = [])) = true :=
    (Option.any_eq_true _ _).mp (by decide +kernel)
  obtain rfl := Option.some_injective _ (h₁'.symm.trans h₁)
  obtain ⟨io₂, h₂, hrest⟩ := (Option.any_eq_true _ _).mp hrest
  obtain ⟨hsame, hprinted⟩ := of_decide_eq_true hrest
  obtain ⟨io₃, h₃, htext⟩ := hshow [(true, lineMem (cstr "mkdir /d"))] io₂ (by decide) h₂ hsame
  refine ⟨io₁', io₂, io₃, h₁, h₂, h₃, htext.trans ?_⟩
  rw [hprinted]
  decide +kernel

end ChalesOs
