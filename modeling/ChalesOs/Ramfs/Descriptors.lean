import ChalesOs.Ramfs.Namespace

/-!
# The descriptor table

A descriptor is in use when its inode number is not 0. `FdStep` lists what an operation can do to
the numbers in the table, as `TreeStep` does for the tree: nothing, a free descriptor is filled by
an open, or one is cleared by its close. So a descriptor keeps its number until it is closed.

Two results rest on this. Descriptors are not shared (`descriptors_of_reachable`), under the
condition that the root is not removed: number 0 is the root's as well, so a descriptor that is
opened on the root's slot looks free. And a descriptor of a file that has been unlinked reaches no
other file (`stale_of_reachable`): its number is never given out again.
-/

namespace ChalesOs

open NameTree

variable {s s' : Ramfs} {i : Fin 64} {op : RamfsOp} {res : RamfsResult} {path : Option CString}
  {flags oflags : ℕ} {r : ℤ × Ramfs} {progs : Programs}

/-- `ramfs_open` or `ramfs_open2` on a path. -/
inductive RamfsOp.Opens (path : Option CString) : RamfsOp → Prop
  | «open» (flags : ℕ) : Opens path (.open path flags)
  | open2 (oflags : ℕ) : Opens path (.open2 path oflags)

/-- An inode that `ramfs_open` creates, and opens at once, gets a number: the counter of inode
numbers has not come back to 0. -/
def RamfsOp.NumbersFiles (s : Ramfs) : RamfsOp → Prop
  | .open path flags => s.nextInode = 0 → flags &&& 1 ≠ 0 → s.Creates path →
      ramfsFindFreeFd s = none
  | _ => True

/-- Two states whose descriptors have the same numbers. -/
def SameFds (s s' : Ramfs) : Prop := ∀ k, (s'.fds k).ino = (s.fds k).ino

/-- What an operation does to the numbers in the descriptor table: nothing, and if it is an open
it has failed, or a free descriptor is filled, or one is cleared. -/
inductive FdStep (s : Ramfs) (op : RamfsOp) (ret : ℤ) (s' : Ramfs) : Prop
  | keep : (∀ path, op.Opens path → ret < 0) → SameFds s s' → FdStep s op ret s'
  | fill {path : Option CString} {k : Fin 32} : op.Opens path → ret = ((k : ℕ) : ℤ) →
      (s.fds k).ino = 0 → (∀ k', k' ≠ k → (s'.fds k').ino = (s.fds k').ino) →
      (∃ i, (s'.inodes i).type = .file ∧ (s'.fds k).ino = (s'.inodes i).ino ∧
        (ramfsFindInode s path = some i ∨ (s.inodes i).ino = 0) ∧
        (op.NumbersFiles s → ramfsFindInode s' path = some i)) → FdStep s op ret s'
  | clear {k : Fin 32} : op = .close ((k : ℕ) : ℤ) →
      (∀ k', k' ≠ k → (s'.fds k').ino = (s.fds k').ino) → FdStep s op ret s'

/-! ### Every operation is a step of the table -/

theorem SameFds.of_fds (h : s'.fds = s.fds) : SameFds s s' := fun k => by rw [h]

theorem SameFds.setFd {k : Fin 32} {f : Fd} (h : f.ino = (s.fds k).ino) :
    SameFds s (s.setFd k f) := fun k' => by
  by_cases hk : k' = k
  · rw [hk, Ramfs.setFd_self, h]
  · rw [s.setFd_of_ne f hk]

theorem SameFds.trans {s₁ s₂ s₃ : Ramfs} (h : SameFds s₁ s₂) (h' : SameFds s₂ s₃) :
    SameFds s₁ s₃ :=
  fun k => (h' k).trans (h k)

/-- A number that names a descriptor is that descriptor. -/
theorem eq_of_validFd {fd : ℤ} {k : Fin 32} (h : validFd fd = some k) : fd = ((k : ℕ) : ℤ) := by
  rw [validFd] at h
  split_ifs at h with hfd
  obtain rfl := Option.some_injective _ h
  exact (Int.toNat_of_nonneg hfd.1).symm

theorem validFd_coe (k : Fin 32) : validFd ((k : ℕ) : ℤ) = some k := by
  rw [validFd, dif_pos ⟨Int.natCast_nonneg _, by omega⟩]
  rfl

/-- `ramfs_open` leaves the table alone, or fills a free descriptor with the number of a file, of
the one just created or one that has been there. -/
theorem ramfsOpen_fds (h : ramfsOpen s path flags = some r) :
    r.1 = -1 ∧ r.2.fds = s.fds ∨
    ∃ (k : Fin 32) (i : Fin 64), r.1 = ((k : ℕ) : ℤ) ∧ ramfsFindFreeFd s = some k ∧
      r.2.fds = Function.update s.fds k ⟨(r.2.inodes i).ino, 0, oRdwr⟩ ∧
      (r.2.inodes i).type = .file ∧ (ramfsFindInode s path = some i ∨ (s.inodes i).ino = 0) ∧
      (ramfsFindInode r.2 path = some i ∨ s.nextInode = 0 ∧ flags &&& 1 ≠ 0 ∧ s.Creates path) := by
  rcases ramfsOpen_cases h with rfl | ⟨i, hi, rfl⟩ | ⟨p, i, parentIno, s₁, rfl, hflags, hnone,
    hfree, hdir, hcreate, rfl⟩
  · exact Or.inl ⟨rfl, rfl⟩
  · rcases ramfsOpenFd_cases s i with ⟨-, heq⟩ | ⟨k, htype, hk, heq⟩
    · rw [heq]
      exact Or.inl ⟨rfl, rfl⟩
    · have hfind := (ramfsFindInode_of_tree (ramfsOpenFd_fdsOnly s i).sameTree.1 path).trans hi
      rw [heq] at hfind ⊢
      exact Or.inr ⟨k, i, rfl, hk, rfl, htype, Or.inl hi, Or.inl hfind⟩
  · have hfds := (ramfsCreate_frame hcreate).2.2.1
    rcases ramfsOpenFd_cases s₁ i with ⟨-, heq⟩ | ⟨k, htype, hk, heq⟩
    · rw [heq]
      exact Or.inl ⟨rfl, hfds⟩
    · have hfind := ramfsFindInode_of_tree (ramfsOpenFd_fdsOnly s₁ i).sameTree.1 (some p)
      rw [heq] at hfind ⊢
      rw [ramfsFindFreeFd, hfds] at hk
      have hino := (ramfsFindFreeInode_some hfree).2
      refine Or.inr ⟨k, i, rfl, hk, congrArg (Function.update · k _) hfds, htype, Or.inr hino, ?_⟩
      by_cases hnext : s.nextInode = 0
      · exact Or.inr ⟨hnext, hflags, .intro hnone hfree hdir⟩
      · exact Or.inl (hfind.trans
          (ramfsFindInode_create hnone hino hdir hcreate hnext))

theorem ramfsOpen_fdStep (h : ramfsOpen s path flags = some r) :
    FdStep s (.open path flags) r.1 r.2 := by
  rcases ramfsOpen_fds h with ⟨hret, hfds⟩ | ⟨k, i, hret, hk, hfds, htype, hi, hfind⟩
  · exact .keep (fun _ _ => by omega) (.of_fds hfds)
  · refine .fill (.open flags) hret (ramfsFindFreeFd_some hk) (fun k' hk' => ?_)
      ⟨i, htype, ?_, hi, fun hop => ?_⟩
    · rw [hfds, Function.update_of_ne hk']
    · rw [hfds, Function.update_self]
    · refine hfind.resolve_right fun ⟨hnext, hflags, hcreates⟩ => ?_
      simp [hop hnext hflags hcreates] at hk

theorem ramfsClose_fds (s : Ramfs) (fd : ℤ) {k : Fin 32} (hk : fd ≠ ((k : ℕ) : ℤ)) :
    (ramfsClose s fd).2.fds k = s.fds k := by
  rw [ramfsClose]
  cases hfd : validFd fd with
  | none => rfl
  | some k' =>
    dsimp only
    split_ifs
    · rfl
    · refine s.setFd_of_ne _ ?_
      rintro rfl
      exact hk (eq_of_validFd hfd)

/-- The creation inside `ramfs_open2` leaves the numbers in the table as they were. -/
theorem sameFds_close_of_open {tmp : ℤ} {s₁ : Ramfs} (h : ramfsOpen s path 1 = some (tmp, s₁)) :
    SameFds s (ramfsClose s₁ tmp).2 := by
  intro k
  rcases ramfsOpen_fds h with ⟨rfl, hfds⟩ | ⟨k', i, rfl, hk', hfds, -⟩
  · rw [ramfsClose_fds s₁ _ (by omega), hfds]
  by_cases hk : k = k'
  · subst hk
    rw [ramfsFindFreeFd_some hk', ramfsClose, validFd_coe]
    dsimp only
    split_ifs with hzero
    · exact hzero
    · rw [Ramfs.setFd_self]
      rfl
  · dsimp only at hfds
    rw [ramfsClose_fds s₁ _ (by omega), hfds, Function.update_of_ne hk]

/-- The end of `ramfs_open2` behind changes that keep the table. -/
theorem ramfsOpen2Fd_fdStep {s₁ : Ramfs} (hs₁ : SameFds s s₁)
    (hi : ramfsFindInode s₁ path = some i)
    (hs : ramfsFindInode s path = some i ∨ (s.inodes i).ino = 0) :
    FdStep s (.open2 path oflags) (ramfsOpen2Fd s₁ i oflags).1 (ramfsOpen2Fd s₁ i oflags).2 := by
  have htree := (ramfsOpen2Fd_sameTree s₁ i oflags).1
  rcases ramfsOpen2Fd_cases s₁ i oflags with ⟨ret, hlt, heq⟩ | ⟨k, htype, hk, heq⟩
  · rw [heq]
    exact .keep (fun _ _ => hlt) hs₁
  have hnum := congrArg Entry.num (congrFun htree i)
  have htype' := (Ramfs.type_of_tree htree i).trans htype
  rw [heq] at htree hnum htype' ⊢
  refine .fill (k := k) (.open2 oflags) rfl ((hs₁ k).symm.trans hk) (fun k' hk' => ?_)
    ⟨i, htype', ?_, hs, fun _ => (ramfsFindInode_of_tree htree path).trans hi⟩
  · rw [Ramfs.setFd_of_ne _ _ hk', ← hs₁ k']
    split_ifs <;> rfl
  · rw [Ramfs.setFd_self]
    exact hnum.symm

theorem ramfsOpen2_fdStep (h : ramfsOpen2 s path oflags = some r) :
    FdStep s (.open2 path oflags) r.1 r.2 := by
  have hnoent : -eNoent < 0 := by simp [eNoent]
  rcases ramfsOpen2_split h with ⟨hlt, heq, -⟩ | ⟨i, hi, rfl⟩ | ⟨tmp, s₁, -, hnone, hopen, hr⟩
  · exact .keep (fun _ _ => hlt) (heq ▸ .of_fds rfl)
  · exact ramfsOpen2Fd_fdStep (.of_fds rfl) hi (Or.inl hi)
  rcases hr with ⟨htmp, rfl⟩ | ⟨htmp, ⟨-, rfl⟩ | ⟨i, hi, rfl⟩⟩
  · refine .keep (fun _ _ => hnoent) (.of_fds ?_)
    rcases ramfsOpen_fds hopen with ⟨-, hfds⟩ | ⟨k, -, rfl, -⟩
    · exact hfds
    · omega
  · exact .keep (fun _ _ => hnoent) (sameFds_close_of_open hopen)
  · exact ramfsOpen2Fd_fdStep (sameFds_close_of_open hopen) hi
      (Or.inr (find_of_ramfsOpen hnone hopen htmp (ramfsClose_fdsOnly s₁ tmp).inodes hi).2.1)

theorem ramfsRead_sameFds {fd : ℤ} {bufNull : Bool} {count : ℕ} {r : ℤ × List UInt8 × Ramfs}
    (h : ramfsRead s fd bufNull count = some r) : SameFds s r.2.2 := by
  rcases ramfsRead_cases h with heq | ⟨k, i, -, -, -, heq⟩
  · exact .of_fds (congrArg Ramfs.fds heq)
  · rw [heq]
    exact .setFd rfl

theorem ramfsWrite_sameFds {fd : ℤ} {buf : Option (ℕ → UInt8)} {count : ℕ} {r : ℤ × Ramfs}
    (h : ramfsWrite s fd buf count = some r) : SameFds s r.2 := by
  rcases ramfsWrite_cases h with (heq | ⟨k, i, -, heq⟩) |
    ⟨k, i, job, d, -, -, hfs, -, -, -, -, heq⟩
  · exact .of_fds (congrArg Ramfs.fds heq)
  · rw [heq]
    exact .setFd rfl
  · have hseek : SameFds s (s.seekWrite k i) := .setFd rfl
    have hreserved : SameFds s job.fs := by
      rw [hfs]
      exact hseek.trans (.of_fds (ramfsReserve_frame (s.seekWrite k i) i _).1)
    rw [heq, WriteJob.run_eq]
    exact hreserved.trans (.setFd rfl)

/-- **Every operation is a step of the descriptor table.** -/
theorem ramfsExec_fdStep (h : ramfsExec s op = some (res, s')) : FdStep s op res.ret s' := by
  cases h using ramfsExec_elim with
  | «open» path flags r _ hr => exact ramfsOpen_fdStep hr
  | open2 path oflags r _ hr => exact ramfsOpen2_fdStep hr
  | close fd =>
    cases hfd : validFd fd with
    | none =>
      refine .keep (fun _ hop => by cases hop) (.of_fds ?_)
      rw [ramfsClose, hfd]
    | some k =>
      obtain rfl := eq_of_validFd hfd
      exact .clear rfl fun k' hk' => by rw [ramfsClose_fds s _ (by omega)]
  | read fd bufNull count r _ hr => exact .keep (fun _ hop => by cases hop) (ramfsRead_sameFds hr)
  | write fd buf count r _ hr => exact .keep (fun _ hop => by cases hop) (ramfsWrite_sameFds hr)
  | lseek fd offset whence =>
    refine .keep (fun _ hop => by cases hop) ?_
    rcases ramfsLseek_cases s fd offset whence with ⟨ret, -, heq⟩ | ⟨k, i, pos, -, -, -, heq⟩
    · rw [heq]
      exact .of_fds rfl
    · rw [heq]
      exact .setFd rfl
  | mkdir path r _ hr =>
    refine .keep (fun _ hop => by cases hop) (.of_fds ?_)
    rcases ramfsMkdir_cases hr with rfl | ⟨p, i, parentIno, s₁, -, -, -, -, hcreate, rfl⟩
    · rfl
    · exact (ramfsCreate_frame hcreate).2.2.1
  | rmdir path =>
    refine .keep (fun _ hop => by cases hop) (.of_fds ?_)
    rcases ramfsRmdir_cases s path with heq | ⟨i, -, -, heq⟩
    · rw [heq]
    · rw [heq]
      rfl
  | unlink path =>
    refine .keep (fun _ hop => by cases hop) (.of_fds ?_)
    rcases ramfsUnlink_cases s path with heq | ⟨i, -, -, heq⟩
    · rw [heq]
    · rw [heq, Ramfs.setInode_fds, (ramfsRelease_frame s i).2.2.1]

/-- A descriptor in use keeps its number until it is closed. -/
theorem FdStep.ino_eq {ret : ℤ} {k : Fin 32} (h : FdStep s op ret s') (hk : (s.fds k).ino ≠ 0)
    (hop : op ≠ .close ((k : ℕ) : ℤ)) : (s'.fds k).ino = (s.fds k).ino := by
  cases h with
  | keep _ hsame => exact hsame k
  | @fill _ k' _ _ hfree hothers _ =>
    refine hothers k ?_
    rintro rfl
    exact hk hfree
  | @clear k' hclose hothers =>
    refine hothers k ?_
    rintro rfl
    exact hop hclose

/-! ### The root -/

/-- The paths of the root: `NULL`, the empty string, and a single slash. -/
def IsRootPath (path : Option CString) : Prop :=
  path = none ∨ path = some [] ∨ path = some [slash]

instance (path : Option CString) : Decidable (IsRootPath path) :=
  inferInstanceAs (Decidable (_ ∨ _ ∨ _))

/-- The operation does not remove the root. -/
def RamfsOp.SparesRoot : RamfsOp → Prop
  | .rmdir path => ¬IsRootPath path
  | _ => True

theorem ramfsFindInode_of_root (h : IsRootPath path) : ramfsFindInode s path = some 0 := by
  rcases h with rfl | rfl | rfl
  · rfl
  · rfl
  · rfl

/-- No other path leads to the root's slot. -/
theorem isRootPath_of_find (hroot : (s.inodes 0).ino = 0)
    (h : ramfsFindInode s path = some 0) : IsRootPath path := by
  cases path with
  | none => exact Or.inl rfl
  | some path =>
    rw [ramfsFindInode] at h
    split_ifs at h with hpath
    · exact Or.inr (hpath.imp (congrArg some) (congrArg some))
    · cases hdir : ramfsResolveDir s (ramfsSplitPath path).1 with
      | none => simp [hdir] at h
      | some parentIno =>
        simp only [hdir] at h
        have hfound := s.findSlot_some h
        simp only [decide_eq_true_eq] at hfound
        exact absurd hroot hfound.1

/-- The root stays a directory, unless it is removed. -/
theorem TreeStep.rootDir (h : TreeStep s op s') (hop : op.SparesRoot)
    (hroot : (s.inodes 0).ino = 0) (hdir : (s.inodes 0).type = .dir) :
    (s'.inodes 0).type = .dir := by
  rw [← Ramfs.tree_isDir] at hdir ⊢
  cases h with
  | keep heq => rwa [heq.1]
  | create _ _ _ _ _ hi _ htree _ => rwa [htree, Function.update_of_ne hi.symm]
  | @remove path i hremove hfind htree _ =>
    have hi : 0 ≠ i := by
      rintro rfl
      rcases hremove with ⟨rfl, -⟩ | ⟨-, htype⟩
      · exact hop (isRootPath_of_find hroot hfind)
      · rw [Ramfs.tree_isDir, htype] at hdir
        exact absurd hdir (by decide)
    rwa [htree, Function.update_of_ne hi]

/-- In every run that spares it, the root is a directory. -/
theorem rootDir_of_reachable {run : RamfsRun}
    (h : (ramfsSystem progs).ReachableBy (fun _ op => op.SparesRoot) run) :
    (run.fs.inodes 0).ino = 0 ∧ (run.fs.inodes 0).type = .dir := by
  refine ramfs_tree_invariant (fun s => (s.inodes 0).ino = 0 ∧ (s.inodes 0).type = .dir)
    (fun _ op => op.SparesRoot) h (fun pool => ⟨ramfsRoot_ino pool 0, ?_⟩)
    (fun _ _ hop => ?_) fun s op s' hs hop hstep => ⟨hstep.root hs.1, hstep.rootDir hop hs.1 hs.2⟩
  · simp [ramfsRoot]
  · cases hop <;> trivial

/-! ### Descriptors are not shared -/

/-- The run continued by an operation that leads to `s'`. -/
def RamfsRun.next (run : RamfsRun) (s' : Ramfs) : RamfsRun :=
  ⟨s', run.created + newInodes run.fs s'⟩

/-- If the open succeeds, the descriptor it returns was free and is in use, and until it is closed
no other open returns it. -/
def RamfsRun.OpensApart (progs : Programs) (run : RamfsRun) (op : RamfsOp) : Prop :=
  ∀ res s', ramfsExec run.fs op = some (res, s') → 0 ≤ res.ret →
    ∃ k : Fin 32, res.ret = ((k : ℕ) : ℤ) ∧ (run.fs.fds k).ino = 0 ∧ (s'.fds k).ino ≠ 0 ∧
      ∀ run', (ramfsSystem progs).RunWithin (fun _ op => op ≠ .close ((k : ℕ) : ℤ))
          (fun _ => True) (run.next s') run' →
        ∀ op' path' res' s'', op'.Opens path' → ramfsExec run'.fs op' = some (res', s'') →
          res'.ret ≠ res.ret

/-- **The root survives and descriptors are not shared.** In every run in which the root is not
removed and every inode that `ramfs_open` creates and opens gets a number. -/
theorem descriptors_of_reachable {run : RamfsRun}
    (h : (ramfsSystem progs).ReachableBy
      (fun run op => op.SparesRoot ∧ op.NumbersFiles run.fs) run) :
    (run.fs.inodes 0).type = .dir ∧
    ∀ op path, op.Opens path → op.NumbersFiles run.fs → run.OpensApart progs op := by
  obtain ⟨hroot, hdir⟩ := rootDir_of_reachable (h.mono fun _ _ hok => hok.1)
  refine ⟨hdir, fun op path hopens hnum res s' hexec hret => ?_⟩
  have hdir' : (s'.inodes 0).type = .dir := by
    refine (ramfsExec_treeStep hexec).rootDir ?_ hroot hdir
    cases hopens <;> trivial
  cases ramfsExec_fdStep hexec with
  | keep hneg => exact absurd hret (not_le.mpr (hneg path hopens))
  | clear hclose => subst hclose; cases hopens
  | @fill _ k _ hk hfree _ hfile =>
    obtain ⟨i, htype, hino, -, hfind⟩ := hfile
    -- a file that an open has found is not the root, so its number is not 0
    have huse : (s'.fds k).ino ≠ 0 := by
      rw [hino]
      refine (ramfsFindInode_ino_ne_zero (hfind hnum)).resolve_left ?_
      rintro rfl
      exact absurd (hdir'.symm.trans htype) (by decide)
    refine ⟨k, hk, hfree, huse, fun run' hrun op' path' res' s'' hopens' hexec' => ?_⟩
    -- and the descriptor keeps it until it is closed
    have huse' : (run'.fs.fds k).ino ≠ 0 := by
      refine hrun.invariant (q := fun run => (run.fs.fds k).ino ≠ 0) huse
        fun a op b ha _ _ hop hs => ?_
      obtain ⟨⟨res, s⟩, hexec, rfl⟩ := Option.map_eq_some_iff.mp hs
      rwa [(ramfsExec_fdStep hexec).ino_eq ha hop]
    rw [hk]
    cases ramfsExec_fdStep hexec' with
    | keep hneg =>
      have := hneg path' hopens'
      omega
    | clear hclose => subst hclose; cases hopens'
    | @fill _ k' _ hk' hfree' _ _ =>
      rw [hk']
      intro heq
      obtain rfl : k' = k := Fin.ext (by omega)
      exact huse' hfree'

/-- `descriptors_of_reachable` behind `ramfs_init`, for an open of `/bin/hello`. -/
theorem descriptors_sample :
    (freshRun.fs.inodes 0).type = .dir ∧
      freshRun.OpensApart noPrograms (.open (some (cstr "/bin/hello")) 0) :=
  have h := @descriptors_of_reachable noPrograms freshRun (.start freshRun_start)
  ⟨h.1, h.2 _ _ (.open 0) fun _ hflags => absurd rfl hflags⟩

/-- Without the condition both halves fail: `ramfs_rmdir` removes the root, and then all opens of
the root return the same descriptor. -/
theorem not_descriptors :
    (¬∀ (progs : Programs) (run : RamfsRun), (ramfsSystem progs).Reachable run →
      (run.fs.inodes 0).type = .dir) ∧
    ¬∀ (progs : Programs) (run : RamfsRun), (ramfsSystem progs).Reachable run →
      ∀ op path, op.Opens path → run.OpensApart progs op := by
  have hrun : ((ramfsSystem noPrograms).runInputs freshRun [.rmdir (some [slash])]).map (fun r =>
      ((r.fs.inodes 0).type, (ramfsExec r.fs (.open (some [slash]) 0)).map fun p =>
        (p.1.ret, (p.2.fds 0).ino))) = some (.file, some (0, 0)) := by decide +kernel
  obtain ⟨run, hr, heq⟩ := Option.map_eq_some_iff.mp hrun
  obtain ⟨htype, hopen⟩ := Prod.mk.inj heq
  obtain ⟨⟨res, s'⟩, hexec, heq⟩ := Option.map_eq_some_iff.mp hopen
  obtain ⟨hret, hino⟩ := Prod.mk.inj heq
  have hreach : (ramfsSystem noPrograms).Reachable run :=
    .runInputs (.start freshRun_start) (fun _ _ _ _ => trivial) hr
  refine ⟨fun h => ?_, fun h => ?_⟩
  · exact absurd (htype.symm.trans (h _ run hreach)) (by decide)
  · obtain ⟨k, hk, -, huse, -⟩ := h _ run hreach _ _ (.open 0) res s' hexec hret.ge
    obtain rfl : k = 0 := Fin.ext (by simpa using hk.symm.trans hret)
    exact huse hino

/-! ### Stale descriptors -/

/-- Every operation on the descriptor fails and changes nothing. -/
structure Ramfs.Stale (s : Ramfs) (fd : ℤ) : Prop where
  read : ∀ bufNull count, ramfsRead s fd bufNull count = some (-1, [], s)
  write : ∀ buf count, ramfsWrite s fd buf count = some (-1, s)
  lseek : ∀ offset whence, ramfsLseek s fd offset whence = (-eBadf, s)
  fstat : ramfsFstat s fd = (-eBadf, none)

/-- Descriptor `k` has been opened on the file number `f`, by a path that `ok` allows, and not
been closed since. -/
inductive OpenedOn (progs : Programs) (ok : Option CString → Prop) (k : Fin 32) (f : ℕ) :
    RamfsRun → Prop
  | «open» {run : RamfsRun} {op : RamfsOp} {path : Option CString} {res : RamfsResult}
      {s' : Ramfs} {i : Fin 64} : (ramfsSystem progs).Reachable run → op.Opens path → ok path →
      ramfsExec run.fs op = some (res, s') → res.ret = ((k : ℕ) : ℤ) →
      ramfsFindInode s' path = some i → (s'.inodes i).ino = f →
      OpenedOn progs ok k f (run.next s')
  | step {run run' : RamfsRun} {op : RamfsOp} : OpenedOn progs ok k f run →
      op ≠ .close ((k : ℕ) : ℤ) → (ramfsSystem progs).step run op = some run' →
      OpenedOn progs ok k f run'

/-- Descriptor `k` has been opened on the file number `f`, that file has been unlinked since, and
the descriptor has not been closed. -/
inductive UnlinkedSince (progs : Programs) (ok : Option CString → Prop) (k : Fin 32) (f : ℕ) :
    RamfsRun → Prop
  | unlink {run : RamfsRun} {path : Option CString} {i : Fin 64} {res : RamfsResult}
      {s' : Ramfs} : OpenedOn progs ok k f run → ramfsFindInode run.fs path = some i →
      (run.fs.inodes i).ino = f → ramfsExec run.fs (.unlink path) = some (res, s') →
      res.ret = 0 → UnlinkedSince progs ok k f (run.next s')
  | step {run run' : RamfsRun} {op : RamfsOp} : UnlinkedSince progs ok k f run →
      op ≠ .close ((k : ℕ) : ℤ) → (ramfsSystem progs).step run op = some run' →
      UnlinkedSince progs ok k f run'

/-- A descriptor whose number no inode has is stale. -/
theorem Ramfs.stale_of_gone {k : Fin 32} (h : ∀ i, (s.inodes i).ino ≠ (s.fds k).ino) :
    s.Stale ((k : ℕ) : ℤ) := by
  have hslot : s.slotOfIno (s.fds k).ino = none := Ramfs.slotOfIno_eq_none.mpr h
  have hopen : ∀ k' i, ¬s.OpenFile ((k : ℕ) : ℤ) k' i := fun k' i hopen => by
    obtain rfl : k = k' := Option.some_injective _ ((validFd_coe k).symm.trans hopen.valid)
    exact Option.some_ne_none i (hopen.slot.symm.trans hslot)
  refine ⟨fun bufNull count => ?_, fun buf count => ?_, fun offset whence => ?_, ?_⟩
  · exact ramfsRead_of_not_readable (Or.inr fun k' i h => hopen k' i h.toOpenFile)
  · rw [ramfsWrite,
      ramfsWritePrepare_of_not_writable (Or.inr fun k' i h => hopen k' i h.toOpenFile)]
  · rw [ramfsLseek, validFd_coe]
    dsimp only
    rw [hslot]
    split_ifs <;> rfl
  · rw [ramfsFstat, validFd_coe]
    dsimp only
    split_ifs with hzero
    · rfl
    · rw [ramfsInodeByIno, if_neg hzero, hslot]

theorem RamfsRun.step_next {run : RamfsRun} (h : ramfsExec run.fs op = some (res, s')) :
    (ramfsSystem progs).step run op = some (run.next s') := by
  simp only [ramfsSystem, h]
  rfl

theorem RamfsOp.Opens.unique {path' : Option CString} (h : op.Opens path) (h' : op.Opens path') :
    path = path' := by
  cases h <;> cases h' <;> rfl

/-- A descriptor has the number of the file it has been opened on. -/
theorem OpenedOn.holds {run : RamfsRun} {k : Fin 32} {f : ℕ}
    (h : OpenedOn progs (fun path => ¬IsRootPath path) k f run) :
    (ramfsSystem progs).Reachable run ∧ f ≠ 0 ∧
      (run.created < 0xFFFFFFFF → (run.fs.fds k).ino = f) := by
  induction h with
  | @«open» run op path res s' i hreach hopens hpath hexec hret hfind hino =>
    have hreach' : (ramfsSystem progs).Reachable (run.next s') :=
      .step hreach trivial (RamfsRun.step_next hexec)
    refine ⟨hreach', ?_, fun hlt => ?_⟩
    · rw [← hino]
      refine (ramfsFindInode_ino_ne_zero hfind).resolve_left ?_
      rintro rfl
      exact hpath (isRootPath_of_find (nameInv_of_reachable hreach').root hfind)
    · have hnext : run.fs.nextInode ≠ 0 :=
        Nat.ne_zero_of_lt ((counted_of_reachable hreach (lt_of_le_of_lt (Nat.le_add_right _ _)
          hlt)).1.ino_lt 0)
      cases ramfsExec_fdStep hexec with
      | keep hneg =>
        have := hneg path hopens
        omega
      | clear hclose => subst hclose; cases hopens
      | @fill path' k' hopens' hret' _ _ hfile =>
        obtain rfl : k' = k := Fin.ext (by omega)
        obtain rfl := hopens.unique hopens'
        obtain ⟨j, -, hnum, -, hfind'⟩ := hfile
        -- the open has numbered the file it created, because the counter has not wrapped
        have hop : op.NumbersFiles run.fs := by
          cases hopens with
          | «open» flags => exact fun hzero => absurd hzero hnext
          | open2 oflags => trivial
        obtain rfl := Option.some_injective _ ((hfind' hop).symm.trans hfind)
        exact hnum.trans hino
  | @step run run' op _ hop hs ih =>
    obtain ⟨hreach, hf, hnum⟩ := ih
    refine ⟨.step hreach trivial hs, hf, fun hlt => ?_⟩
    obtain ⟨⟨res, s'⟩, hexec, rfl⟩ := Option.map_eq_some_iff.mp hs
    have hnum := hnum (lt_of_le_of_lt (Nat.le_add_right _ _) hlt)
    rw [(ramfsExec_fdStep hexec).ino_eq (by rwa [hnum]) hop, hnum]

/-- A number that has been given out and is in no slot stays so, as long as the counter does not
wrap. -/
theorem gone_step {run run' : RamfsRun} {f : ℕ} (hreach : (ramfsSystem progs).Reachable run)
    (hs : (ramfsSystem progs).step run op = some run') (hlt : run'.created < 0xFFFFFFFF)
    (hf : f ≠ 0) (hnext : f < run.fs.nextInode) (hgone : ∀ i, (run.fs.inodes i).ino ≠ f) :
    f < run'.fs.nextInode ∧ ∀ i, (run'.fs.inodes i).ino ≠ f := by
  have hcount' := (counted_of_reachable (.step hreach trivial hs) hlt).2
  obtain ⟨⟨res, s'⟩, hexec, rfl⟩ := Option.map_eq_some_iff.mp hs
  have hle : run.created ≤ run.created + newInodes run.fs s' := Nat.le_add_right _ _
  have hcount := (counted_of_reachable hreach (lt_of_le_of_lt hle hlt)).2
  dsimp only at hcount' ⊢
  refine ⟨by omega, fun i => ?_⟩
  have hgone' : (run.fs.tree i).num ≠ f := hgone i
  change (s'.tree i).num ≠ f
  cases ramfsExec_treeStep hexec with
  | keep heq => rwa [heq.1]
  | @create _ j _ _ _ _ _ _ _ _ htree _ =>
    rw [htree]
    by_cases hij : i = j
    · rw [hij, Function.update_self]
      exact hnext.ne'
    · rwa [Function.update_of_ne hij]
  | @remove _ j _ _ htree _ =>
    rw [htree]
    by_cases hij : i = j
    · rw [hij, Function.update_self]
      exact hf.symm
    · rwa [Function.update_of_ne hij]

/-- A descriptor whose file has been unlinked has a number that no inode has. -/
theorem UnlinkedSince.holds {run : RamfsRun} {k : Fin 32} {f : ℕ}
    (h : UnlinkedSince progs (fun path => ¬IsRootPath path) k f run) :
    (ramfsSystem progs).Reachable run ∧ f ≠ 0 ∧
      (run.created < 0xFFFFFFFF → (run.fs.fds k).ino = f ∧ f < run.fs.nextInode ∧
        ∀ i, (run.fs.inodes i).ino ≠ f) := by
  induction h with
  | @unlink run path i res s' hopened hfind hino hexec hret =>
    obtain ⟨hreach, hf, hnum⟩ := hopened.holds
    refine ⟨.step hreach trivial (RamfsRun.step_next hexec), hf, fun hlt => ?_⟩
    have hlt' : run.created < 0xFFFFFFFF := lt_of_le_of_lt (Nat.le_add_right _ _) hlt
    have hnum := hnum hlt'
    have hid := (counted_of_reachable hreach hlt').1
    have hfd := (ramfsExec_fdStep hexec).ino_eq (by rwa [hnum]) nofun
    obtain ⟨rfl, rfl⟩ := Prod.mk.inj (Option.some_injective _ hexec)
    rcases ramfsUnlink_cases run.fs path with heq | ⟨j, hj, -, heq⟩
    · simp [heq] at hret
    obtain rfl := Option.some_injective _ (hfind.symm.trans hj)
    obtain ⟨htree, hnext⟩ := tree_unlink run.fs i
    rw [heq] at hfd ⊢
    -- the slot with the number is cleared, and no other slot has it
    refine ⟨hfd.trans hnum, ?_, fun j => ?_⟩
    · change f < ((ramfsRelease run.fs i).setInode i Inode.zero).nextInode
      rw [hnext, ← hino]
      exact hid.ino_lt i
    · change (((ramfsRelease run.fs i).setInode i Inode.zero).tree j).num ≠ f
      rw [htree]
      by_cases hji : j = i
      · rw [hji, Function.update_self]
        exact hf.symm
      · rw [Function.update_of_ne hji]
        exact fun hj => hji (hid.inj i j (by rwa [hino]) (hino.trans hj.symm)).symm
  | @step run run' op _ hop hs ih =>
    obtain ⟨hreach, hf, hgone⟩ := ih
    refine ⟨.step hreach trivial hs, hf, fun hlt => ?_⟩
    have hs' := hs
    obtain ⟨⟨res, s'⟩, hexec, rfl⟩ := Option.map_eq_some_iff.mp hs'
    obtain ⟨hnum, hnext, hgone⟩ := hgone (lt_of_le_of_lt (Nat.le_add_right _ _) hlt)
    refine ⟨?_, gone_step hreach hs hlt hf hnext hgone⟩
    rw [(ramfsExec_fdStep hexec).ino_eq (by rwa [hnum]) hop, hnum]

/-- **A stale descriptor never reaches another file.** In every run that creates fewer than
`2 ^ 32 - 1` inodes, a descriptor that was opened on a file, by another path than the root's, is
stale once the file has been unlinked, until it is closed. -/
theorem stale_of_unlinkedSince {run : RamfsRun} {k : Fin 32} {f : ℕ}
    (h : UnlinkedSince progs (fun path => ¬IsRootPath path) k f run)
    (hcreated : run.created < 0xFFFFFFFF) : run.fs.Stale ((k : ℕ) : ℤ) := by
  obtain ⟨-, -, hgone⟩ := h.holds
  obtain ⟨hnum, -, hgone⟩ := hgone hcreated
  exact Ramfs.stale_of_gone fun i => by rw [hnum]; exact hgone i

theorem RamfsOp.open_ne_close (path : Option CString) (flags : ℕ) (fd : ℤ) :
    RamfsOp.open path flags ≠ .close fd :=
  nofun

/-- `stale_of_unlinkedSince` for `/bin/hello`, opened, unlinked, and created anew in the same
slot. -/
theorem stale_sample :
    ∃ run, UnlinkedSince noPrograms (fun path => ¬IsRootPath path) 0 2 run ∧
      ramfsFindInode run.fs (some (cstr "/bin/hello")) = some 2 ∧ run.fs.Stale 0 := by
  have hrun : (ramfsExec freshRun.fs (.open (some (cstr "/bin/hello")) 0)).bind (fun p₁ =>
      (ramfsExec p₁.2 (.unlink (some (cstr "/bin/hello")))).bind fun p₂ =>
        (ramfsExec p₂.2 (.open (some (cstr "/bin/hello")) 1)).map fun p₃ =>
          ((p₁.1.ret, ramfsFindInode p₁.2 (some (cstr "/bin/hello")), (p₁.2.inodes 2).ino),
            p₂.1.ret, ramfsFindInode p₃.2 (some (cstr "/bin/hello")),
            7 + newInodes freshRun.fs p₁.2 + newInodes p₁.2 p₂.2 + newInodes p₂.2 p₃.2)) =
      some ((0, some 2, 2), 0, some 2, 8) := by decide +kernel
  obtain ⟨⟨res₁, s₁⟩, hexec₁, hrun⟩ := Option.bind_eq_some_iff.mp hrun
  obtain ⟨⟨res₂, s₂⟩, hexec₂, hrun⟩ := Option.bind_eq_some_iff.mp hrun
  obtain ⟨⟨res₃, s₃⟩, hexec₃, hrun⟩ := Option.map_eq_some_iff.mp hrun
  simp only [Prod.mk.injEq] at hrun
  obtain ⟨⟨hret₁, hfind₁, hino⟩, hret₂, hfind₃, hcreated⟩ := hrun
  have hopened : OpenedOn noPrograms (fun path => ¬IsRootPath path) 0 2 (freshRun.next s₁) :=
    .open (.start freshRun_start) (.open 0) (by decide) hexec₁ hret₁ hfind₁ hino
  have hunlinked : UnlinkedSince noPrograms (fun path => ¬IsRootPath path) 0 2
      (((freshRun.next s₁).next s₂).next s₃) :=
    .step (.unlink hopened hfind₁ hino hexec₂ hret₂) (RamfsOp.open_ne_close _ _ _)
      (RamfsRun.step_next hexec₃)
  exact ⟨_, hunlinked, hfind₃, stale_of_unlinkedSince hunlinked (hcreated.trans_lt (by decide))⟩

/-- Without the condition on the path it fails: behind a removal of the root, the root is a file
that can be opened and unlinked, and the next open returns the same descriptor. -/
theorem not_stale :
    ¬∀ (progs : Programs) (k : Fin 32) (f : ℕ) (run : RamfsRun),
      UnlinkedSince progs (fun _ => True) k f run → run.created < 0xFFFFFFFF →
        run.fs.Stale ((k : ℕ) : ℤ) := by
  intro h
  have hrun : ((ramfsSystem noPrograms).runInputs freshRun [.rmdir (some [slash])]).bind
      (fun run => (ramfsExec run.fs (.open (some [slash]) 0)).bind fun p₁ =>
        (ramfsExec p₁.2 (.unlink (some [slash]))).bind fun p₂ =>
          (ramfsExec p₂.2 (.open (some (cstr "/bin/hello")) 0)).map fun p₃ =>
            ((p₁.1.ret, (p₁.2.inodes 0).ino), p₂.1.ret, (ramfsFstat p₃.2 0).1,
              run.created + newInodes run.fs p₁.2 + newInodes p₁.2 p₂.2 +
                newInodes p₂.2 p₃.2)) = some ((0, 0), 0, 0, 7) := by decide +kernel
  obtain ⟨run, hr, hrun⟩ := Option.bind_eq_some_iff.mp hrun
  obtain ⟨⟨res₁, s₁⟩, hexec₁, hrun⟩ := Option.bind_eq_some_iff.mp hrun
  obtain ⟨⟨res₂, s₂⟩, hexec₂, hrun⟩ := Option.bind_eq_some_iff.mp hrun
  obtain ⟨⟨res₃, s₃⟩, hexec₃, hrun⟩ := Option.map_eq_some_iff.mp hrun
  simp only [Prod.mk.injEq] at hrun
  obtain ⟨⟨hret₁, hino⟩, hret₂, hstat, hcreated⟩ := hrun
  -- the root opened as a file has the number 0, and so has a cleared descriptor
  have hopened : OpenedOn noPrograms (fun _ => True) 0 0 (run.next s₁) :=
    .open (.runInputs (.start freshRun_start) (fun _ _ _ _ => trivial) hr) (.open 0) trivial
      hexec₁ hret₁ rfl hino
  have hunlinked : UnlinkedSince noPrograms (fun _ => True) 0 0
      (((run.next s₁).next s₂).next s₃) :=
    .step (.unlink hopened rfl hino hexec₂ hret₂) (RamfsOp.open_ne_close _ _ _)
      (RamfsRun.step_next hexec₃)
  have hstale := (h _ _ _ _ hunlinked (hcreated.trans_lt (by decide))).fstat
  rw [show ramfsFstat s₃ 0 = _ from hstale] at hstat
  exact absurd hstat (by decide)

end ChalesOs
