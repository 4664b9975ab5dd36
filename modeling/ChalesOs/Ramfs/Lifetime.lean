import ChalesOs.Ramfs.Descriptors
import ChalesOs.Ramfs.InodeTable

/-!
# The life of one file

The pool takes a block back only if it is the newest one. A file that is created, filled and
removed with nothing else in between always has the newest block: its first reservation puts the
block at the mark of the pool, and from then on the block ends at the mark and grows in place.
`FileBlock` is this invariant. It starts with a creation, because a free slot has no block
(`freeCleared_of_reachable`), every operation on the file keeps it, and behind `ramfs_unlink` it
says that the mark is back where it was (`file_neutral`).
-/

namespace ChalesOs

variable {s s₁ s₂ t t' : Ramfs} {i j : Fin 64} {n : ℕ} {path : CString} {op : RamfsOp}
  {res : RamfsResult} {progs : Programs} {run : RamfsRun}

/-- The operation is applied to the file with the given number only: it opens a path of the file,
or goes through a descriptor of it. The end of a write is a 32-bit number. -/
def RamfsOp.OnFile (s : Ramfs) (n : ℕ) : RamfsOp → Prop
  | .open p _ | .open2 p _ => ∃ i, ramfsFindInode s p = some i ∧ (s.inodes i).ino = n
  | .close fd | .read fd _ _ | .lseek fd _ _ => ∃ k, validFd fd = some k ∧ (s.fds k).ino = n
  | .write fd buf count => (∃ k, validFd fd = some k ∧ (s.fds k).ino = n) ∧
      (RamfsOp.write fd buf count).InRange s
  | _ => False

/-- Any sequence of operations on the file. -/
def FileRun (n : ℕ) : Ramfs → Ramfs → Prop :=
  Relation.ReflTransGen fun s s' => ∃ op res, op.OnFile s n ∧ ramfsExec s op = some (res, s')

/-- What is as it was in `s`: the mark of the pool, and every inode with its bytes, but the one in
slot `i`, which is free again. -/
structure Ramfs.RestoredBut (s : Ramfs) (i : Fin 64) (s' : Ramfs) : Prop where
  poolUsed : s'.poolUsed = s.poolUsed
  slot : s'.inodes i = Inode.zero
  inodes : ∀ j, j ≠ i → s'.inodes j = s.inodes j
  bytes : ∀ j, j ≠ i → s'.fileBytes j = s.fileBytes j

/-! ### Free slots -/

/-- A free slot has no block. -/
def FreeCleared (s : Ramfs) : Prop := ∀ i, (s.inodes i).ino = 0 → (s.inodes i).data = none

theorem FreeCleared.of_inodes (h : FreeCleared s) (heq : t.inodes = s.inodes) : FreeCleared t := by
  intro i hi
  rw [heq] at hi ⊢
  exact h i hi

/-- A slot is replaced by an inode that is live or has no block. -/
theorem FreeCleared.update (h : FreeCleared s) {inode : Inode}
    (heq : t.inodes = Function.update s.inodes i inode) (hi : inode.ino = 0 → inode.data = none) :
    FreeCleared t := by
  intro j hj
  rw [heq] at hj ⊢
  by_cases hji : j = i
  · subst hji
    rw [Function.update_self] at hj ⊢
    exact hi hj
  · rw [Function.update_of_ne hji] at hj ⊢
    exact h j hj

theorem FreeCleared.create {type : NodeType} {parentIno : ℕ} {name : CString} (h : FreeCleared s)
    (hfree : ramfsFindFreeInode s = some i)
    (hcreate : ramfsCreate s i type parentIno name = some t) : FreeCleared t := by
  obtain ⟨-, rfl⟩ := ramfsCreate_eq_some hcreate
  exact h.update rfl fun _ => h i (ramfsFindFreeInode_some hfree).2

theorem FreeCleared.open {p : Option CString} {flags : ℕ} {r : ℤ × Ramfs} (h : FreeCleared s)
    (hr : ramfsOpen s p flags = some r) : FreeCleared r.2 := by
  rcases ramfsOpen_cases hr with rfl | ⟨i, -, rfl⟩ | ⟨q, i, parentIno, s₁, -, -, -, hfree, -,
    hcreate, rfl⟩
  · exact h
  · exact h.of_inodes (ramfsOpenFd_fdsOnly s i).inodes
  · exact (h.create hfree hcreate).of_inodes (ramfsOpenFd_fdsOnly s₁ i).inodes

theorem FreeCleared.open2Fd (h : FreeCleared s) (i : Fin 64) (oflags : ℕ) :
    FreeCleared (ramfsOpen2Fd s i oflags).2 := by
  rcases ramfsOpen2Fd_cases s i oflags with ⟨ret, -, heq⟩ | ⟨k, -, -, heq⟩
  · rwa [heq]
  · rw [heq]
    split_ifs
    · exact h.update (i := i) rfl (h i)
    · exact h.of_inodes rfl

/-- A reservation is for a live inode. -/
theorem FreeCleared.write {fd : ℤ} {buf : Option (ℕ → UInt8)} {count : ℕ} {r : ℤ × Ramfs}
    (h : FreeCleared s) (hr : ramfsWrite s fd buf count = some r) : FreeCleared r.2 := by
  rcases ramfsWrite_cases hr with (heq | ⟨k, i, -, heq⟩) |
    ⟨k, i, job, d, hw, -, hfs, -, -, -, -, heq⟩
  · rwa [heq]
  · rw [heq]
    exact h.of_inodes rfl
  · obtain ⟨-, -, data, capacity, hinodes⟩ := ramfsReserve_frame (s.seekWrite k i) i
      (u32 (s.writeOffset k i + clampCount (s.writeOffset k i) count))
    have hlive : (s.inodes i).ino ≠ 0 := by
      rw [Ramfs.slotOfIno_some hw.slot]
      exact hw.live
    have hreserved : FreeCleared job.fs := by
      rw [hfs]
      exact h.update hinodes fun hzero => absurd hzero hlive
    rw [heq, WriteJob.run_eq]
    exact hreserved.update (i := job.slot) rfl (hreserved job.slot)

/-- Every operation keeps free slots without a block. -/
theorem FreeCleared.exec (h : FreeCleared s) (hexec : ramfsExec s op = some (res, t)) :
    FreeCleared t := by
  cases hexec using ramfsExec_elim with
  | «open» p flags r _ hr => exact h.open hr
  | open2 p oflags r _ hr =>
    rcases ramfsOpen2_split hr with ⟨-, heq, -⟩ | ⟨i, -, rfl⟩ | ⟨tmp, s₁, -, -, hopen, hr⟩
    · rwa [heq]
    · exact h.open2Fd i oflags
    have hopened := h.open hopen
    have hclosed := hopened.of_inodes (ramfsClose_fdsOnly s₁ tmp).inodes
    -- the nested open, the close, and the second half
    rcases hr with ⟨-, rfl⟩ | ⟨-, ⟨-, rfl⟩ | ⟨j, -, rfl⟩⟩
    · exact hopened
    · exact hclosed
    · exact hclosed.open2Fd j oflags
  | close fd => exact h.of_inodes (ramfsClose_fdsOnly s fd).inodes
  | read fd bufNull count r _ hr => exact h.of_inodes (ramfsRead_fdsOnly hr).inodes
  | write fd buf count r _ hr => exact h.write hr
  | lseek fd offset whence => exact h.of_inodes (ramfsLseek_fdsOnly s fd offset whence).inodes
  | mkdir p r _ hr =>
    rcases ramfsMkdir_cases hr with rfl | ⟨q, i, parentIno, s₁, -, -, hfree, -, hcreate, rfl⟩
    · exact h
    · exact h.create hfree hcreate
  | rmdir p =>
    rcases ramfsRmdir_cases s p with heq | ⟨i, -, -, heq⟩
    · rwa [heq]
    · rw [heq]
      exact h.update (i := i) rfl fun _ => rfl
  | unlink p =>
    rcases ramfsUnlink_cases s p with heq | ⟨i, -, -, heq⟩
    · rwa [heq]
    · have hinodes : ((ramfsRelease s i).setInode i Inode.zero).inodes =
          Function.update s.inodes i Inode.zero := by
        rw [Ramfs.setInode, (ramfsRelease_frame s i).1]
      rw [heq]
      exact h.update hinodes fun _ => rfl

theorem freeCleared_of_reachable (h : (ramfsSystem progs).Reachable run) :
    FreeCleared run.fs := by
  refine h.invariant (p := fun r => FreeCleared r.fs) (fun r hr => ?_) fun r op r' hr _ hstep => ?_
  · obtain ⟨pool, hinit, -⟩ := hr
    refine ramfsInit_invariant (p := fun _ => FreeCleared) (fun i _ => ?_)
      (fun _ _ _ _ _ hs _ hexec => hs.exec hexec) (fun _ _ hs => hs) hinit
    -- the root directory has no block either
    rw [ramfsRoot]
    dsimp only
    rw [Function.update_apply]
    split_ifs <;> rfl
  · obtain ⟨⟨res, s'⟩, hexec, rfl⟩ := Option.map_eq_some_iff.mp hstep
    exact hr.exec hexec

/-! ### The block of one file -/

/-- Since `s`, nothing but the file in slot `i` has changed, which the path names. It has the
number `s` had for the next inode, and no block or the newest one, which starts where the pool
ended. -/
structure FileBlock (s : Ramfs) (path : CString) (i : Fin 64) (t : Ramfs) : Prop where
  found : ramfsFindInode t (some path) = some i
  ino : (t.inodes i).ino = s.nextInode
  file : (t.inodes i).type = .file
  others : ∀ j, j ≠ i → t.inodes j = s.inodes j
  pool : Set.EqOn t.pool s.pool (Set.Iio s.poolUsed)
  block : (t.inodes i).data = none ∧ t.poolUsed = s.poolUsed ∨
    (t.inodes i).data = some s.poolUsed ∧ s.poolUsed + (t.inodes i).capacity = t.poolUsed

theorem FileBlock.of_fdsOnly (h : FileBlock s path i t) (heq : FdsOnly t t') :
    FileBlock s path i t' := by
  obtain ⟨hinodes, -, hpool, hused⟩ := heq
  refine ⟨(ramfsFindInode_congr hinodes _).trans h.found, ?_, ?_, ?_, ?_, ?_⟩
  · rw [hinodes]
    exact h.ino
  · rw [hinodes]
    exact h.file
  · rw [hinodes]
    exact h.others
  · rw [hpool]
    exact h.pool
  · rw [hinodes, hused]
    exact h.block

/-- The size of the file changes, and bytes behind the old mark. -/
theorem FileBlock.resize (h : FileBlock s path i t) {pool : ℕ → UInt8} (size : ℕ)
    (hpool : Set.EqOn pool t.pool (Set.Iio s.poolUsed)) :
    FileBlock s path i ({ t with pool := pool }.setInode i { t.inodes i with size := size }) := by
  have htree :
      ({ t with pool := pool }.setInode i { t.inodes i with size := size }).tree = t.tree :=
    Ramfs.tree_setInode_of_entry (s := { t with pool := pool }) rfl
  refine ⟨(ramfsFindInode_of_tree htree _).trans h.found, ?_, ?_, fun j hj => ?_,
    hpool.trans h.pool, ?_⟩
  · rw [Ramfs.setInode_self]
    exact h.ino
  · rw [Ramfs.setInode_self]
    exact h.file
  · rw [Ramfs.setInode_of_ne _ _ hj]
    exact h.others j hj
  · rw [Ramfs.setInode_self]
    exact h.block

/-- **A reservation puts the block at the old mark, or grows it in place.** -/
theorem FileBlock.reserve (h : FileBlock s path i t) {needed : ℕ}
    (hneed : needed ≤ ramfsMaxFilesize) : FileBlock s path i (ramfsReserve t i needed).2 := by
  have hfound := (ramfsFindInode_of_tree (ramfsReserve_sameTree t i needed).1 (some path)).trans
    h.found
  have hnewcap := (newCapacity_spec (t.inodes i).capacity hneed).1
  rcases ramfsReserve_cases t i needed with ⟨-, heq⟩ | ⟨hlt, ⟨d, hd, hend⟩, -, heq⟩ |
    ⟨-, hnot, -, pool, hpool, heq⟩ | ⟨-, heq⟩
  · rw [heq]
    exact h
  · -- the block is the newest, so it is the one at the old mark
    rw [heq] at hfound ⊢
    refine ⟨hfound, ?_, ?_, fun j hj => ?_, h.pool, Or.inr ?_⟩
    · simpa using h.ino
    · simpa using h.file
    · exact (t.setInode_of_ne _ hj).trans (h.others j hj)
    · rcases h.block with ⟨hnone, -⟩ | ⟨hdata, hused⟩
      · rw [hnone] at hd
        exact absurd hd (Option.some_ne_none d).symm
      · dsimp only
        rw [Ramfs.setInode_self]
        exact ⟨hdata, by dsimp only; omega⟩
  · -- the block is not the newest, so there is none yet
    obtain ⟨hnone, hused⟩ := h.block.resolve_right fun ⟨hdata, hused⟩ => hnot ⟨_, hdata, hused⟩
    have hsame : pool = t.pool := by
      rcases hpool with ⟨hpool, -⟩ | ⟨d, hd, -⟩
      · exact hpool
      · rw [hnone] at hd
        exact absurd hd (Option.some_ne_none d).symm
    rw [heq] at hfound ⊢
    refine ⟨hfound, ?_, ?_, fun j hj => ?_, hsame ▸ h.pool, Or.inr ?_⟩
    · simpa using h.ino
    · simpa using h.file
    · exact (t.setInode_of_ne _ hj).trans (h.others j hj)
    · dsimp only
      rw [Ramfs.setInode_self, ← hused]
      exact ⟨rfl, rfl⟩
  · rw [heq]
    exact h

/-! ### Operations on the file -/

theorem FileBlock.open2Fd (h : FileBlock s path i t) (oflags : ℕ) :
    FileBlock s path i (ramfsOpen2Fd t i oflags).2 := by
  rcases ramfsOpen2Fd_cases t i oflags with ⟨ret, -, heq⟩ | ⟨k, -, -, heq⟩
  · rwa [heq]
  · rw [heq]
    split_ifs
    · have hsized := h.resize 0 (Set.eqOn_refl t.pool _)
      exact hsized.of_fdsOnly (.setFd _ k _)
    · exact h.of_fdsOnly (.setFd t k _)

/-- A creation in a slot without a block starts the invariant. -/
theorem FileBlock.create {parentIno : ℕ} (hclean : FreeCleared s) (hnext : s.nextInode ≠ 0)
    (hnone : ramfsFindInode s (some path) = none) (hfree : ramfsFindFreeInode s = some i)
    (hdir : ramfsResolveDir s (ramfsSplitPath path).1 = some parentIno)
    (hcreate : ramfsCreate s i .file parentIno (ramfsSplitPath path).2 = some t) :
    FileBlock s path i t := by
  have hino := (ramfsFindFreeInode_some hfree).2
  have hfound := ramfsFindInode_create hnone hino hdir hcreate hnext
  obtain ⟨-, rfl⟩ := ramfsCreate_eq_some hcreate
  refine ⟨hfound, ?_, ?_, fun j hj => s.setInode_of_ne _ hj, Set.eqOn_refl _ _, Or.inl ⟨?_, rfl⟩⟩
  · exact congrArg Inode.ino (s.setInode_self i _)
  · exact congrArg Inode.type (s.setInode_self i _)
  · exact (congrArg Inode.data (s.setInode_self i _)).trans (hclean i hino)

/-- The file is the only one with its number. -/
theorem FileBlock.eq_of_ino (h : FileBlock s path i t)
    (hnew : ∀ j, (s.inodes j).ino ≠ s.nextInode) (hj : (t.inodes j).ino = s.nextInode) :
    j = i := by
  by_contra hji
  rw [h.others j hji] at hj
  exact hnew j hj

/-- What finds the number finds the file. -/
theorem FileBlock.slotOfIno (h : FileBlock s path i t)
    (hnew : ∀ j, (s.inodes j).ino ≠ s.nextInode) : t.slotOfIno s.nextInode = some i :=
  Ramfs.slotOfIno_eq_some h.ino fun _ => h.eq_of_ino hnew

/-- A write to the file. -/
theorem FileBlock.write (h : FileBlock s path i t) (hnew : ∀ j, (s.inodes j).ino ≠ s.nextInode)
    {fd : ℤ} {buf : Option (ℕ → UInt8)} {count : ℕ} {r : ℤ × Ramfs}
    (hfd : ∃ k, validFd fd = some k ∧ (t.fds k).ino = s.nextInode)
    (hr : ramfsWrite t fd buf count = some r) : FileBlock s path i r.2 := by
  rcases ramfsWrite_cases hr with (heq | ⟨k, j, -, heq⟩) |
    ⟨k, j, job, d, hw, hoff, hfs, rfl, rfl, hin, hd, heq⟩
  · rwa [heq]
  · rw [heq]
    exact h.of_fdsOnly (.setFd t k _)
  · -- the descriptor is one of the file
    obtain ⟨k', hk', hnum⟩ := hfd
    obtain rfl := Option.some.inj (hk'.symm.trans hw.valid)
    obtain rfl : job.slot = i := by
      have hslot := hw.slot
      rw [hnum, h.slotOfIno hnew] at hslot
      exact (Option.some.inj hslot).symm
    have hreserved : FileBlock s path job.slot job.fs := by
      rw [hfs]
      exact (h.of_fdsOnly (.setFd t job.fd _)).reserve (u32_add_clampCount_le hoff)
    -- the block starts at the old mark
    have hstart : d = s.poolUsed := by
      rcases hreserved.block with ⟨hnone, -⟩ | ⟨hdata, -⟩
      · exact absurd (hnone.symm.trans hd) (Option.some_ne_none d).symm
      · exact Option.some.inj (hd.symm.trans hdata)
    rw [heq, WriteJob.run_eq]
    refine (hreserved.resize _ (hin.eqOn_newPool.mono ?_)).of_fdsOnly (.setFd _ job.fd _)
    intro a ha
    rw [Set.mem_compl_iff, Set.mem_Ico, hstart]
    exact fun hmem => absurd ha (not_lt.mpr hmem.1)

/-- **Every operation on the file keeps the invariant.** -/
theorem FileBlock.exec (h : FileBlock s path i t) (hnew : ∀ j, (s.inodes j).ino ≠ s.nextInode)
    (hop : op.OnFile t s.nextInode) (hexec : ramfsExec t op = some (res, t')) :
    FileBlock s path i t' := by
  cases hexec using ramfsExec_elim with
  | «open» p flags r _ hr =>
    obtain ⟨j, hj, hino⟩ := hop
    obtain rfl := h.eq_of_ino hnew hino
    rw [ramfsOpen, hj] at hr
    obtain rfl := Option.some.inj hr
    exact h.of_fdsOnly (ramfsOpenFd_fdsOnly t j)
  | open2 p oflags r _ hr =>
    obtain ⟨j, hj, hino⟩ := hop
    obtain rfl := h.eq_of_ino hnew hino
    rcases ramfsOpen2_split hr with ⟨-, heq, -⟩ | ⟨j', hj', rfl⟩ | ⟨tmp, s₁, -, hnone, -, -⟩
    · rwa [heq]
    · obtain rfl := Option.some.inj (hj.symm.trans hj')
      exact h.open2Fd oflags
    · exact absurd (hnone.symm.trans hj) (Option.some_ne_none j).symm
  | close fd => exact h.of_fdsOnly (ramfsClose_fdsOnly t fd)
  | read fd bufNull count r _ hr => exact h.of_fdsOnly (ramfsRead_fdsOnly hr)
  | write fd buf count r _ hr => exact h.write hnew hop.1 hr
  | lseek fd offset whence => exact h.of_fdsOnly (ramfsLseek_fdsOnly t fd offset whence)
  | mkdir | rmdir | unlink => exact hop.elim

/-- Any sequence of operations on the file keeps the invariant. -/
theorem FileBlock.fileRun (h : FileBlock s path i t) (hnew : ∀ j, (s.inodes j).ino ≠ s.nextInode)
    (hrun : FileRun s.nextInode t t') : FileBlock s path i t' := by
  induction hrun with
  | refl => exact h
  | tail _ hstep ih =>
    obtain ⟨op, res, hop, hexec⟩ := hstep
    exact ih.exec hnew hop hexec

/-- The invariant behind an open that creates the file. -/
theorem fileBlock_of_createsInode (hclean : FreeCleared s) (hnext : s.nextInode ≠ 0)
    (hop : op.Opens (some path)) (hc : op.CreatesInode s)
    (hexec : ramfsExec s op = some (res, t)) :
    ∃ i, (s.inodes i).ino = 0 ∧ FileBlock s path i t := by
  -- the part of `ramfs_open`, which `ramfs_open2` calls
  have hopen : ∀ {flags r}, s.Creates (some path) → flags &&& 1 ≠ 0 →
      ramfsOpen s (some path) flags = some r →
        ∃ i, (s.inodes i).ino = 0 ∧ FileBlock s path i r.2 := by
    intro flags r hcreates hflags hr
    obtain ⟨q, i, parentIno, s₁, hq, hnone, hfree, hdir, hcreate, rfl⟩ :=
      ramfsOpen_of_creates hcreates hflags hr
    obtain rfl := Option.some.inj hq
    exact ⟨i, (ramfsFindFreeInode_some hfree).2,
      (FileBlock.create hclean hnext hnone hfree hdir hcreate).of_fdsOnly
        (ramfsOpenFd_fdsOnly s₁ i)⟩
  cases hexec using ramfsExec_elim with
  | «open» p flags r _ hr =>
    cases hop
    exact hopen hc.2 hc.1 hr
  | open2 p oflags r _ hr =>
    cases hop
    rcases ramfsOpen2_split hr with ⟨-, -, hnot⟩ | ⟨j, hj, -⟩ | ⟨tmp, s₁, -, -, hopened, hr⟩
    · exact absurd hnot (not_or_intro (not_not.mpr hc.2.1) hc.1)
    · exact absurd (hc.2.1.symm.trans hj) (Option.some_ne_none j).symm
    obtain ⟨i, hino, hblock⟩ := hopen hc.2 (by decide) hopened
    have hclosed := hblock.of_fdsOnly (ramfsClose_fdsOnly s₁ tmp)
    refine ⟨i, hino, ?_⟩
    rcases hr with ⟨-, rfl⟩ | ⟨-, ⟨-, rfl⟩ | ⟨j, hj, rfl⟩⟩
    · exact hblock
    · exact hclosed
    · obtain rfl := Option.some.inj (hclosed.found.symm.trans hj)
      exact hclosed.open2Fd oflags
  | close | read | write | lseek | mkdir | rmdir | unlink => cases hop

/-! ### The end of the file -/

/-- **Removing the file gives back what it took.** -/
theorem FileBlock.unlink (h : FileBlock s path i t) (hpool : PoolInv s) :
    ∃ s', ramfsUnlink t (some path) = (0, s') ∧ s.RestoredBut i s' := by
  obtain ⟨hinodes, -, -, hbytes⟩ := ramfsRelease_frame t i
  have hothers : ∀ j, j ≠ i →
      ((ramfsRelease t i).setInode i Inode.zero).inodes j = s.inodes j := by
    intro j hj
    rw [Ramfs.setInode_of_ne _ _ hj, hinodes]
    exact h.others j hj
  refine ⟨(ramfsRelease t i).setInode i Inode.zero, ?_, ?_, Ramfs.setInode_self _ i _, hothers, ?_⟩
  · rw [ramfsUnlink, h.found]
    dsimp only
    rw [if_neg (not_not.mpr h.file)]
  · rw [Ramfs.setInode_poolUsed, ramfsRelease]
    -- the release takes the block back, if there is one
    rcases h.block with ⟨hnone, hused⟩ | ⟨hdata, hused⟩
    · rw [if_neg]
      · exact hused
      · rintro ⟨d, hd, -⟩
        exact absurd (hnone.symm.trans hd) (Option.some_ne_none d).symm
    · rw [if_pos ⟨_, hdata, hused⟩]
      dsimp only
      omega
  · intro j hj
    refine Ramfs.fileBytes_congr (congrArg Inode.data (hothers j hj))
      (congrArg Inode.size (hothers j hj)) fun d k hd hk => ?_
    have hend := ((hpool.placed j).block d hd).2.2.2
    have hsize := (hpool.placed j).size_le
    rw [Ramfs.setInode_pool, hbytes]
    exact h.pool (Set.mem_Iio.mpr (by omega))

/-- **Creating, filling and removing a file is neutral.** From every state reached with fewer than
`2 ^ 32 - 1` inodes created: when an open creates a file, any sequence of operations is applied to
that file only, and the path is unlinked, then the unlink succeeds, and the mark of the pool and
every other inode with its bytes are as they were. -/
theorem file_neutral (h : (ramfsSystem progs).Reachable run) (hcreated : run.created < 0xFFFFFFFF)
    (hop : op.Opens (some path)) (hc : op.CreatesInode run.fs)
    (hexec : ramfsExec run.fs op = some (res, s₁))
    (hrun : FileRun run.fs.nextInode s₁ s₂) :
    ∃ i s₃, (run.fs.inodes i).ino = 0 ∧ ramfsUnlink s₂ (some path) = (0, s₃) ∧
      run.fs.RestoredBut i s₃ := by
  obtain ⟨hid, hnext⟩ := counted_of_reachable h hcreated
  have hnew : ∀ j, (run.fs.inodes j).ino ≠ run.fs.nextInode := fun j => (hid.ino_lt j).ne
  obtain ⟨i, hfree, hblock⟩ :=
    fileBlock_of_createsInode (freeCleared_of_reachable h) (by omega) hop hc hexec
  obtain ⟨s₃, hunlink, hrestored⟩ :=
    (hblock.fileRun hnew hrun).unlink (poolInv_of_reachable h)
  exact ⟨i, s₃, hfree, hunlink, hrestored⟩

/-- What is done to a file creates none. -/
theorem RamfsOp.OnFile.not_createsInode (hop : op.OnFile t n) : ¬op.CreatesInode t := by
  cases op with
  | «open» p flags | open2 p oflags =>
    obtain ⟨i, hi, -⟩ := hop
    exact fun hc => Option.some_ne_none i (hi.symm.trans hc.2.1)
  | mkdir => exact hop.elim
  | close | read | write | lseek | rmdir | unlink => exact id

/-- Operations on a file always have an outcome. -/
theorem RamfsOp.OnFile.isSome (hop : op.OnFile t n) (ht : PoolInv t) :
    (ramfsExec t op).isSome := by
  cases op with
  | «open» p flags =>
    obtain ⟨i, hi, -⟩ := hop
    rw [ramfsExec, Option.isSome_map, ramfsOpen, hi]
    rfl
  | open2 p oflags =>
    obtain ⟨i, hi, -⟩ := hop
    rw [ramfsExec, Option.isSome_map, ramfsOpen2, hi]
    dsimp only
    split_ifs <;> rfl
  | close | read | lseek => exact ramfsExec_isSome ht trivial
  | write fd buf count => exact ramfsExec_isSome ht hop.2
  | mkdir | rmdir | unlink => exact hop.elim

end ChalesOs
