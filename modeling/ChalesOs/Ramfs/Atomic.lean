import ChalesOs.Ramfs.TableRuns

/-!
# What a failed operation leaves behind

Most errors are atomic: the operation has looked things up, and returns before it has changed
anything. `RamfsOp.LeavesTraces` lists the exceptions, as conditions on the state before the call:

* An open creates a file and then gets no descriptor. The file stays.
* `ramfs_open2` creates a file and does not find it again, because it has got the number 0, or
  because its name of 257 bytes or more is cut by the size, which is stored behind the name field.
* A write through an append descriptor finds no space. It has moved the offset to the end of the
  file first.

`ramfsMem_error_iff` says that these are the only ones: in every state of a run in which the names
fit, an operation, under whatever name, is atomic when it fails if and only if it is none of them.
-/

namespace ChalesOs

open ByteMemory

variable {P : PoolPlace} {progs : Programs} {b b' b₁ : RamfsMem} {s : Ramfs} {i : Fin 64}
  {k : Fin 32} {op : RamfsOp} {res : RamfsResult} {run : RamfsMemRun} {path : Option CString}
  {t name u : CString} {type : NodeType} {fd : ℤ} {buf : Option (ℕ → UInt8)} {r : ℤ × RamfsMem}
  {flags oflags count offset needed ino parentIno a : ℕ} {m : Mem}

/-! ### The exceptions -/

namespace RamfsMem

/-- The content of file number `f`, `none` if no file has this number. -/
def content (P : PoolPlace) (b : RamfsMem) (f : ℕ) : Option (List UInt8) :=
  match b.slotOfIno f with
  | some i => if b.type i = NodeType.file.code then some (b.fileBytes P i) else none
  | none => none

/-- What an error must not change: the inode table, the counter, the pool, the contents of the
files, and the descriptors. -/
structure Unchanged (P : PoolPlace) (b b' : RamfsMem) : Prop where
  table : b'.table = b.table
  nextInode : b'.nextInode = b.nextInode
  poolUsed : b'.poolUsed = b.poolUsed
  content : ∀ f, b'.content P f = b.content P f
  fds : b'.fds = b.fds

/-- The descriptor `fd` is number `k` and stands for the file in slot `i`, open for writing. -/
structure Writable (b : RamfsMem) (fd : ℤ) (k : Fin 32) (i : Fin 64) : Prop where
  valid : validFd fd = some k
  live : (b.fds k).ino ≠ 0
  slot : b.slotOfIno (b.fds k).ino = some i
  file : b.type i = NodeType.file.code
  mode : (b.fds k).flags &&& oAccmode ≠ oRdonly

/-- The block of slot `i` is smaller than `needed`, and the pool has no room for the capacity
`ramfs_reserve` asks for. -/
def PoolFull (P : PoolPlace) (b : RamfsMem) (i : Fin 64) (needed : ℕ) : Prop :=
  b.capacity i < needed ∧
    if b.IsNewest P i then
      u32 (b.poolUsed + (0x100000000 - b.capacity i) + newcap (b.capacity i) needed) > ramfsPoolSize
    else u32 (b.poolUsed + newcap (b.capacity i) needed) > ramfsPoolSize

/-- The file in slot `i` gets no byte of a write of `count` bytes through descriptor `k`: the
offset is at the maximal size, or the pool is full and the block ends in front of the offset. -/
def NoSpace (P : PoolPlace) (b : RamfsMem) (k : Fin 32) (i : Fin 64) (count : ℕ) : Prop :=
  ramfsMaxFilesize ≤ b.writeOffset k i ∧ count ≠ 0 ∨
    b.writeOffset k i < ramfsMaxFilesize ∧ clampCount (b.writeOffset k i) count ≠ 0 ∧
      b.PoolFull P i (u32 (b.writeOffset k i + clampCount (b.writeOffset k i) count)) ∧
      b.capacity i ≤ b.writeOffset k i

/-- The state behind the append branch of `ramfs_write`. -/
def seekWrite (b : RamfsMem) (k : Fin 32) (i : Fin 64) : RamfsMem :=
  b.setFd k { b.fds k with offset := b.writeOffset k i }

theorem setFd_self (f : Fd) : (b.setFd k f).fds k = f := Function.update_self ..

theorem Unchanged.of_eq (h : b' = b) : b.Unchanged P b' := by
  subst h
  exact ⟨rfl, rfl, rfl, fun _ => rfl, rfl⟩

theorem Writable.unique {k' : Fin 32} {i' : Fin 64} (h : b.Writable fd k i)
    (h' : b.Writable fd k' i') : k = k' ∧ i = i' := by
  obtain rfl := Option.some_injective _ (h.valid.symm.trans h'.valid)
  exact ⟨rfl, Option.some_injective _ (h.slot.symm.trans h'.slot)⟩

end RamfsMem

/-- The operation fails after it has changed something. -/
def RamfsOp.LeavesTraces (P : PoolPlace) (b : RamfsMem) : RamfsOp → Prop
  | .open path flags => flags &&& 1 ≠ 0 ∧ b.Creates path ∧ b.ramfsFindFreeFd = none
  | .open2 path oflags => oflags &&& oCreat ≠ 0 ∧ b.Creates path ∧
      (b.ramfsFindFreeFd = none ∨ b.nextInode = 0 ∨ 257 ≤ (pathName (path.getD [])).length)
  | .write fd buf count => buf.isSome = true ∧ ∃ k i, b.Writable fd k i ∧ b.NoSpace P k i count ∧
      (b.fds k).offset ≠ b.writeOffset k i
  | _ => False

theorem u32_succ_ne (n : ℕ) : u32 (n + 1) ≠ n := by
  rw [u32]
  omega

/-! ### Names that are too long -/

/-- A string in memory that ends earlier is another one. -/
theorem strcmpAt_ne_zero {k : ℕ} (hu : (0 : UInt8) ∉ u) (hk : k < u.length)
    (hzero : m (a + k) = 0) : strcmpAt m a u ≠ 0 := by
  induction u generalizing a k with
  | nil => exact absurd hk (Nat.not_lt_zero k)
  | cons c u ih =>
    rw [strcmpAt]
    split_ifs with heq
    · cases k with
      | zero => exact absurd hzero heq.1
      | succ k =>
        refine ih (fun hmem => hu (List.mem_cons_of_mem c hmem)) (Nat.lt_of_succ_lt_succ hk) ?_
        rwa [Nat.add_assoc, Nat.add_comm 1]
    · intro hdiff
      have hc : m a = c := UInt8.toNat_inj.mp (by omega)
      exact heq ⟨fun h0 => hu (hc.symm.trans h0 ▸ List.mem_cons_self), hc⟩

/-- When every name in the table ends in its field, every name ends within the length of a new
name of 257 bytes or more once that has been copied: the new one at its size, those it runs over
with it at the latest. -/
theorem exists_end_of_long (hends : ∀ j : Fin 64, ∃ n ≤ 255, m (nameAddr (slotAddr 0 j) + n) = 0)
    (hlong : 257 ≤ name.length) (i j : Fin 64) :
    ∃ n < name.length,
      fillInode m (slotAddr 0 i) ino type name parentIno (nameAddr (slotAddr 0 j) + n) = 0 := by
  have hkeep : ∀ c, c < slotAddr 0 i ∨
      slotAddr 0 i + 272 ≤ c ∧ slotAddr 0 i + (name.length + 9) ≤ c →
      fillInode m (slotAddr 0 i) ino type name parentIno c = m c := fun c hc =>
    eqOn_fillInode_of_le (le_max_left 272 _) (le_max_right _ _) (by
      rw [Set.mem_compl_iff, Set.mem_Ico]
      omega)
  have haddr : ∀ j, nameAddr (slotAddr 0 j) = 280 * j + 8 := fun j => by
    rw [nameAddr, slotAddr, inodeBytes, Nat.zero_add]
  have hslot : slotAddr 0 i = 280 * i := Nat.zero_add _
  obtain ⟨n, hn, hzero⟩ := hends j
  rcases lt_trichotomy (j : ℕ) i with hlt | heq | hgt
  · -- in front of the new inode nothing has changed
    exact ⟨n, by omega, (hkeep _ (Or.inl (by rw [haddr]; omega))).trans hzero⟩
  · refine ⟨256, hlong, ?_⟩
    rw [show nameAddr (slotAddr 0 j) + 256 = slotAddr 0 i + 264 by rw [haddr]; omega]
    exact eq_zero_of_loadWord loadWord_fillInode_size
  · by_cases hover : nameAddr (slotAddr 0 j) ≤ nameAddr (slotAddr 0 i) + name.length
    · -- the copy runs over this name, and they end together
      rw [haddr, haddr] at hover
      refine ⟨280 * i + 8 + name.length - (280 * j + 8), by omega, ?_⟩
      rw [haddr, Nat.add_sub_cancel' hover, ← haddr]
      exact fillInode_end (by omega)
    · rw [haddr, haddr] at hover
      exact ⟨n, by omega, (hkeep _ (Or.inr (by rw [haddr]; omega))).trans hzero⟩

namespace RamfsMem

/-! ### Creations -/

theorem ramfsCreate_eq_some (h : b.ramfsCreate i type parentIno name = some b₁) :
    b₁ = { b with
      table := fillInode b.table (slotAddr 0 i) b.nextInode type name parentIno
      nextInode := u32 (b.nextInode + 1) } := by
  rw [RamfsMem.ramfsCreate] at h
  split_ifs at h
  exact (Option.some_injective _ h).symm

/-- A new file with a name of 257 bytes or more is not found by its path. -/
theorem ramfsFindInode_of_long
    (hends : ∀ j, ∃ n ≤ 255, b.table (RamfsMem.name j + n) = 0) (ht : (0 : UInt8) ∉ t)
    (hlong : 257 ≤ (pathName t).length)
    (htable : b₁.table =
      fillInode b.table (slotAddr 0 i) ino .file (ramfsSplitPath t).2 parentIno) :
    b₁.ramfsFindInode (some t) = none := by
  have hpath : ¬(t = [] ∨ t = [slash]) := by
    rintro (rfl | rfl)
    · exact absurd hlong (by decide)
    · exact absurd hlong (by decide)
  rw [RamfsMem.ramfsFindInode, if_neg hpath]
  simp only [ramfsSplitPath_eq] at htable ⊢
  cases b₁.ramfsResolveDir (List.take 255 (pathDir t)) with
  | none => rfl
  | some n =>
    refine List.find?_eq_none.mpr fun j _ => ?_
    obtain ⟨n, hn, hzero⟩ : ∃ n < (pathName t).length, fillInode b.table (slotAddr 0 i) ino .file
        (pathName t) parentIno (RamfsMem.name j + n) = 0 := exists_end_of_long hends hlong i j
    have hother : strcmpAt b₁.table (RamfsMem.name j) (pathName t) ≠ 0 := by
      rw [htable]
      exact strcmpAt_ne_zero (fun hmem => ht (mem_of_mem_pathName hmem)) hn hzero
    simp [hother]

/-- A creation whose name has at most 256 bytes, as lookups see it. -/
theorem Holds.reads_create (h : b.Holds P s) (hino : ino < 0x100000000)
    (hparent : parentIno < 0x100000000) (hname : name.length ≤ 256) (hnul : (0 : UInt8) ∉ name)
    (htable : b₁.table = fillInode b.table (slotAddr 0 i) ino type name parentIno) :
    ∃ s₁, b₁.Reads s₁ ∧ s₁.inodes i = { s.inodes i with
        ino := ino, type := type, name := name, size := 0, parentIno := parentIno } ∧
      ∀ j, j ≠ i → s₁.inodes j = s.inodes j := by
  refine ⟨s.setInode i _, ?_, s.setInode_self i _, fun j hj => s.setInode_of_ne _ hj⟩
  have hself : ∀ v off, loadWord (fillInode b.table (slotAddr 0 i) ino type name parentIno)
      (slotAddr 0 i + off) = v → loadWord b₁.table (slotAddr 0 i + off) = v := by
    intro v off heq
    rw [htable, heq]
  have hkeep : ∀ j, j ≠ i → (s.inodes j).StoredAt P.addr b₁.table (slotAddr 0 j) := by
    intro j hj
    have hval : (j : ℕ) ≠ i := fun heq => hj (Fin.ext heq)
    rw [htable]
    refine (h.stored j).congr ((eqOn_fillInode_of_le le_rfl (by omega)).mono fun c hc => ?_)
    rw [slotAddr, inodeBytes, Set.mem_Ico] at hc
    rw [slotAddr, inodeBytes, Set.mem_compl_iff, Set.mem_Ico]
    omega
  constructor <;> intro j <;> by_cases hj : j = i
  · subst hj
    rw [Ramfs.setInode_self]
    exact hself _ 0 (loadWord_fillInode_ino.trans (u32_of_lt hino))
  · rw [Ramfs.setInode_of_ne _ _ hj]
    exact (hkeep j hj).ino
  · subst hj
    rw [Ramfs.setInode_self]
    exact hself _ 4 loadWord_fillInode_type
  · rw [Ramfs.setInode_of_ne _ _ hj]
    exact (hkeep j hj).type
  · subst hj
    rw [Ramfs.setInode_self, htable]
    exact stringAt_fillInode hname hnul
  · rw [Ramfs.setInode_of_ne _ _ hj]
    exact (hkeep j hj).name
  · subst hj
    rw [Ramfs.setInode_self]
    exact hself _ 268 (loadWord_fillInode_parentIno.trans (u32_of_lt hparent))
  · rw [Ramfs.setInode_of_ne _ _ hj]
    exact (hkeep j hj).parentIno

/-- A new file is found by its path, unless it has got the number 0 or its name has 257 bytes or
more. -/
theorem Holds.ramfsFindInode_of_create (h : b.Holds P s) (ht : (0 : UInt8) ∉ t)
    (hnone : b.ramfsFindInode (some t) = none) (hfree : b.ramfsFindFreeInode = some i)
    (hdir : b.ramfsResolveDir (ramfsSplitPath t).1 = some parentIno)
    (htable : b₁.table =
      fillInode b.table (slotAddr 0 i) b.nextInode .file (ramfsSplitPath t).2 parentIno) :
    b₁.ramfsFindInode (some t) =
      if b.nextInode = 0 ∨ 257 ≤ (pathName t).length then none else some i := by
  have hpath : ∀ u, some t = some u → (0 : UInt8) ∉ u := fun u hu => Option.some.inj hu ▸ ht
  obtain ⟨hdirNul, hnameNul⟩ := Reads.zero_notMem_split ht
  by_cases hlong : 257 ≤ (pathName t).length
  · rw [if_pos (Or.inr hlong)]
    refine ramfsFindInode_of_long (fun j => ⟨_, ?_, (h.stored j).name.end_eq_zero⟩) ht hlong htable
    exact Nat.lt_succ_iff.mp (h.stored j).name_lt
  -- the name can be read, so lookups go by the records
  rw [h.reads.ramfsFindInode_eq hpath] at hnone
  rw [h.reads.ramfsFindFreeInode_eq] at hfree
  rw [h.reads.ramfsResolveDir_eq hdirNul] at hdir
  obtain ⟨hi, hino⟩ := ramfsFindFreeInode_some hfree
  have hname : (ramfsSplitPath t).2.length ≤ 256 := by
    rw [ramfsSplitPath_eq]
    exact Nat.lt_succ_iff.mp (not_le.mp hlong)
  obtain ⟨s₁, hreads, hself, hne⟩ := h.reads_create (h.nextInode ▸ h.nextInode_lt)
    (h.resolveDir_lt hdir) hname hnameNul htable
  rw [hreads.ramfsFindInode_eq hpath]
  by_cases hzero : b.nextInode = 0
  · -- the new inode has the number of a free slot
    rw [if_pos (Or.inl hzero)]
    by_contra hsome
    obtain ⟨j, hj⟩ := Option.ne_none_iff_exists'.mp hsome
    obtain rfl := ChalesOs.ramfsFindInode_of_create hino (by rw [hself]) hne hnone hj
    refine absurd (ramfsFindInode_ino_ne_zero hj) (not_or_intro hi (not_not.mpr ?_))
    rw [hself]
    exact hzero
  · rw [if_neg (not_or_intro hzero hlong)]
    exact ramfsFindInode_of_new hnone hino hdir hne (by rw [hself]; exact hzero) (by rw [hself])
      (by rw [hself]) (by rw [hself])

/-! ### Opens -/

theorem ramfsOpenFd_cases (b : RamfsMem) (i : Fin 64) :
    b.ramfsOpenFd i = (-1, b) ∨ ∃ k, b.ramfsFindFreeFd = some k ∧
      b.ramfsOpenFd i = (((k : ℕ) : ℤ), b.setFd k ⟨b.ino i, 0, oRdwr⟩) := by
  rw [RamfsMem.ramfsOpenFd]
  split_ifs
  · exact Or.inl rfl
  · cases b.ramfsFindFreeFd with
    | none => exact Or.inl rfl
    | some k => exact Or.inr ⟨k, rfl, rfl⟩

theorem ramfsOpen_of_creates (hc : b.Creates path) (hflags : flags &&& 1 ≠ 0) :
    ∃ i parentIno, b.ramfsFindFreeInode = some i ∧
      b.ramfsResolveDir (ramfsSplitPath (path.getD [])).1 = some parentIno ∧
      b.ramfsOpen path flags =
        (b.ramfsCreate i .file parentIno (ramfsSplitPath (path.getD [])).2).map
          fun b => b.ramfsOpenFd i := by
  obtain ⟨hnone, hfree, hdir⟩ := hc
  obtain ⟨i, hi⟩ := Option.isSome_iff_exists.mp hfree
  obtain ⟨parentIno, hparent⟩ := Option.isSome_iff_exists.mp hdir
  refine ⟨i, parentIno, hi, hparent, ?_⟩
  simp only [RamfsMem.ramfsOpen, hnone, if_pos hflags, hi, hparent]

/-- An open that creates nothing fails, or opens what it has found. -/
theorem ramfsOpen_of_not_creates (hb : ¬(flags &&& 1 ≠ 0 ∧ b.Creates path)) :
    b.ramfsOpen path flags = some (-1, b) ∨
      ∃ i, b.ramfsFindInode path = some i ∧ b.ramfsOpen path flags = some (b.ramfsOpenFd i) := by
  rw [RamfsMem.ramfsOpen]
  cases hfind : b.ramfsFindInode path with
  | some i => exact Or.inr ⟨i, rfl, rfl⟩
  | none =>
    refine Or.inl ?_
    dsimp only
    split_ifs with hflags
    · cases hfree : b.ramfsFindFreeInode with
      | none => rfl
      | some i =>
        dsimp only
        cases hdir : b.ramfsResolveDir (ramfsSplitPath (path.getD [])).1 with
        | none => rfl
        | some n => exact absurd ⟨hflags, hfind, by rw [hfree]; rfl, by rw [hdir]; rfl⟩ hb
    · rfl

/-- Behind a creation `ramfs_open` fails exactly when no descriptor is free. -/
theorem ramfsOpenFd_of_create (hcreate : b.ramfsCreate i .file parentIno name = some b₁) :
    (b₁.ramfsOpenFd i).2.nextInode = u32 (b.nextInode + 1) ∧
      ((b₁.ramfsOpenFd i).1 < 0 ↔ b.ramfsFindFreeFd = none) := by
  have hb₁ := ramfsCreate_eq_some hcreate
  have hfile : b₁.type i = NodeType.file.code := by
    rw [hb₁]
    exact loadWord_fillInode_type
  have hfree : b₁.ramfsFindFreeFd = b.ramfsFindFreeFd := by
    rw [hb₁]
    rfl
  have hnext : b₁.nextInode = u32 (b.nextInode + 1) := by rw [hb₁]
  rw [RamfsMem.ramfsOpenFd, if_neg (not_not.mpr hfile), hfree]
  cases b.ramfsFindFreeFd with
  | none => exact ⟨hnext, iff_of_true (by decide : (-1 : ℤ) < 0) rfl⟩
  | some k =>
    exact ⟨hnext, iff_of_false (not_lt.mpr (Int.natCast_nonneg _)) (Option.some_ne_none k)⟩

/-- An error of `ramfs_open`. -/
theorem ramfsOpen_error_iff (h : b.ramfsOpen path flags = some r) :
    (r.1 < 0 → b.Unchanged P r.2) ↔ ¬(RamfsOp.open path flags).LeavesTraces P b := by
  by_cases hb : flags &&& 1 ≠ 0 ∧ b.Creates path
  · obtain ⟨i, parentIno, -, -, heq⟩ := ramfsOpen_of_creates hb.2 hb.1
    obtain ⟨b₁, hcreate, rfl⟩ := Option.map_eq_some_iff.mp (heq ▸ h)
    obtain ⟨hnext, hneg⟩ := ramfsOpenFd_of_create hcreate
    have hchanged : ¬b.Unchanged P (b₁.ramfsOpenFd i).2 := fun hsame =>
      u32_succ_ne _ (hnext.symm.trans hsame.nextInode)
    simp only [RamfsOp.LeavesTraces, hb.2, ← hneg, hchanged]
    tauto
  · refine iff_of_true (fun hret => .of_eq ?_) fun hleave => hb ⟨hleave.1, hleave.2.1⟩
    rcases ramfsOpen_of_not_creates hb with heq | ⟨i, -, heq⟩
    · obtain rfl := Option.some.inj (heq.symm.trans h)
      rfl
    · obtain rfl := Option.some.inj (heq.symm.trans h)
      rcases ramfsOpenFd_cases b i with heq | ⟨k, -, heq⟩
      · rw [heq]
      · rw [heq] at hret
        exact absurd hret (not_lt.mpr (Int.natCast_nonneg _))

theorem ramfsFindFreeFd_ne_none (hk : (b.fds k).ino = 0) : b.ramfsFindFreeFd ≠ none := by
  intro hnone
  rw [RamfsMem.ramfsFindFreeFd, List.find?_eq_none] at hnone
  exact hnone k (List.mem_finRange k) (decide_eq_true hk)

theorem ramfsOpen2Fd_nextInode (b : RamfsMem) (i : Fin 64) (oflags : ℕ) :
    (b.ramfsOpen2Fd i oflags).2.nextInode = b.nextInode := by
  rw [RamfsMem.ramfsOpen2Fd]
  by_cases hdir : b.type i = NodeType.dir.code
  · rw [if_pos hdir]
  rw [if_neg hdir]
  cases b.ramfsFindFreeFd with
  | none => rfl
  | some k =>
    dsimp only
    split_ifs <;> rfl

/-- The end of `ramfs_open2` succeeds on a file when a descriptor is free. -/
theorem ramfsOpen2Fd_nonneg (htype : b.type i = NodeType.file.code) (hk : (b.fds k).ino = 0) :
    0 ≤ (b.ramfsOpen2Fd i oflags).1 := by
  have hdir : ¬b.type i = NodeType.dir.code := by
    rw [htype]
    decide
  rw [RamfsMem.ramfsOpen2Fd, if_neg hdir]
  cases hfree : b.ramfsFindFreeFd with
  | none => exact absurd hfree (ramfsFindFreeFd_ne_none hk)
  | some k => exact Int.natCast_nonneg _

/-- The end of `ramfs_open2` fails before it changes anything. -/
theorem ramfsOpen2Fd_of_neg (h : (b.ramfsOpen2Fd i oflags).1 < 0) :
    (b.ramfsOpen2Fd i oflags).2 = b := by
  rw [RamfsMem.ramfsOpen2Fd] at h ⊢
  by_cases hdir : b.type i = NodeType.dir.code
  · rw [if_pos hdir]
  rw [if_neg hdir] at h ⊢
  cases hfree : b.ramfsFindFreeFd with
  | none => rfl
  | some k =>
    rw [hfree] at h
    exact absurd h (not_lt.mpr (Int.natCast_nonneg _))

/-- Behind `ramfs_close` the descriptor is free. -/
theorem ramfsClose_fds_ino (b : RamfsMem) (k : Fin 32) :
    ((b.ramfsClose (k : ℕ)).2.fds k).ino = 0 := by
  rw [RamfsMem.ramfsClose, validFd_coe]
  dsimp only
  split_ifs with hzero
  · exact hzero
  · rw [setFd_self]
    rfl

/-- `ramfs_close` changes nothing but its descriptor. -/
theorem ramfsClose_frame (b : RamfsMem) (fd : ℤ) :
    (b.ramfsClose fd).2.table = b.table ∧ (b.ramfsClose fd).2.nextInode = b.nextInode := by
  rw [RamfsMem.ramfsClose]
  cases validFd fd with
  | none => exact ⟨rfl, rfl⟩
  | some k =>
    dsimp only
    split_ifs <;> exact ⟨rfl, rfl⟩

/-- Behind a creation `ramfs_open2` fails exactly when no descriptor is free, or the new inode has
got the number 0, or its name has 257 bytes or more. -/
theorem Holds.ramfsOpen2_of_creates (hb : b.Holds P s)
    (hpath : ∀ t, path = some t → (0 : UInt8) ∉ t) (hc : b.Creates path)
    (hflags : oflags &&& oCreat ≠ 0) (h : b.ramfsOpen2 path oflags = some r) :
    r.2.nextInode = u32 (b.nextInode + 1) ∧
      (r.1 < 0 ↔ b.ramfsFindFreeFd = none ∨ b.nextInode = 0 ∨
        257 ≤ (pathName (path.getD [])).length) := by
  have hnoent : -eNoent < 0 := by simp [eNoent]
  obtain ⟨t, rfl⟩ : ∃ t, path = some t := by
    cases path with
    | none => exact absurd hc.1 (by simp [RamfsMem.ramfsFindInode])
    | some t => exact ⟨t, rfl⟩
  rw [RamfsMem.ramfsOpen2, if_neg (Option.some_ne_none t), hc.1] at h
  dsimp only at h
  rw [if_neg hflags] at h
  obtain ⟨⟨tmp, b₂⟩, hopen, hr⟩ := Option.map_eq_some_iff.mp h
  obtain ⟨i, parentIno, hfree, hdir, heq⟩ := ramfsOpen_of_creates hc (by decide : 1 &&& 1 ≠ 0)
  obtain ⟨b₁, hcreate, hopenFd⟩ := Option.map_eq_some_iff.mp (heq ▸ hopen)
  obtain ⟨hnext, hneg⟩ := ramfsOpenFd_of_create hcreate
  have htable₁ := congrArg RamfsMem.table (ramfsCreate_eq_some hcreate)
  rcases ramfsOpenFd_cases b₁ i with hfail | ⟨k, hk, hok⟩
  · -- no descriptor for the nested open
    rw [hopenFd] at hfail hnext hneg
    obtain ⟨rfl, rfl⟩ := Prod.mk.inj hfail
    have hlt : (-1 : ℤ) < 0 := by decide
    rw [if_pos hlt] at hr
    subst hr
    exact ⟨hnext, iff_of_true hnoent (Or.inl (hneg.mp hlt))⟩
  -- the nested open has got a descriptor, which is given back
  rw [hok] at hopenFd hnext hneg
  obtain ⟨rfl, rfl⟩ := Prod.mk.inj hopenFd
  have hnonneg : ¬(((k : ℕ) : ℤ) < 0) := not_lt.mpr (Int.natCast_nonneg _)
  rw [if_neg hnonneg] at hr
  have hclosed := ramfsClose_fds_ino (b₁.setFd k ⟨b₁.ino i, 0, oRdwr⟩) k
  obtain ⟨htable, hnext'⟩ := ramfsClose_frame (b₁.setFd k ⟨b₁.ino i, 0, oRdwr⟩) (k : ℕ)
  generalize ((b₁.setFd k ⟨b₁.ino i, 0, oRdwr⟩).ramfsClose (k : ℕ)).2 = b₃ at *
  have htable₃ : b₃.table = fillInode b.table (slotAddr 0 i) b.nextInode .file
      (ramfsSplitPath t).2 parentIno := htable.trans htable₁
  rw [hb.ramfsFindInode_of_create (hpath t rfl) hc.1 hfree hdir htable₃] at hr
  by_cases hlost : b.nextInode = 0 ∨ 257 ≤ (pathName t).length
  · rw [if_pos hlost] at hr
    subst hr
    exact ⟨hnext'.trans hnext, iff_of_true hnoent (Or.inr hlost)⟩
  · rw [if_neg hlost] at hr
    subst hr
    have htype : b₃.type i = NodeType.file.code := by
      rw [RamfsMem.type, htable₃]
      exact loadWord_fillInode_type
    refine ⟨(ramfsOpen2Fd_nextInode b₃ i oflags).trans (hnext'.trans hnext), iff_of_false ?_ ?_⟩
    · exact not_lt.mpr (ramfsOpen2Fd_nonneg htype hclosed)
    · exact not_or_intro (fun hfd => hnonneg (hneg.mpr hfd)) hlost

/-- An error of `ramfs_open2`. -/
theorem Holds.ramfsOpen2_error_iff (hb : b.Holds P s)
    (hpath : ∀ t, path = some t → (0 : UInt8) ∉ t) (h : b.ramfsOpen2 path oflags = some r) :
    (r.1 < 0 → b.Unchanged P r.2) ↔ ¬(RamfsOp.open2 path oflags).LeavesTraces P b := by
  by_cases hcreates : oflags &&& oCreat ≠ 0 ∧ b.Creates path
  · obtain ⟨hnext, hneg⟩ := hb.ramfsOpen2_of_creates hpath hcreates.2 hcreates.1 h
    have hchanged : ¬b.Unchanged P r.2 := fun hsame =>
      u32_succ_ne _ (hnext.symm.trans hsame.nextInode)
    simp only [RamfsOp.LeavesTraces, hcreates.2, ← hneg, hchanged]
    tauto
  refine iff_of_true (fun hret => .of_eq ?_) fun hleave => hcreates ⟨hleave.1, hleave.2.1⟩
  rw [RamfsMem.ramfsOpen2] at h
  by_cases hnull : path = none
  · rw [if_pos hnull] at h
    exact congrArg Prod.snd (Option.some.inj h).symm
  rw [if_neg hnull] at h
  cases hfind : b.ramfsFindInode path with
  | some i =>
    simp only [hfind] at h
    split_ifs at h
    · exact congrArg Prod.snd (Option.some.inj h).symm
    · obtain rfl := Option.some.inj h
      exact ramfsOpen2Fd_of_neg hret
  | none =>
    simp only [hfind] at h
    by_cases hcreat : oflags &&& oCreat = 0
    · rw [if_pos hcreat] at h
      exact congrArg Prod.snd (Option.some.inj h).symm
    rw [if_neg hcreat] at h
    -- the nested open has created nothing, so it has failed
    have hnot : ¬(1 &&& 1 ≠ 0 ∧ b.Creates path) := fun hc => hcreates ⟨hcreat, hc.2⟩
    rcases ramfsOpen_of_not_creates hnot with heq | ⟨i, hi, -⟩
    · rw [heq] at h
      exact congrArg Prod.snd (Option.some.inj h).symm
    · rw [hfind] at hi
      exact absurd hi (Option.some_ne_none i).symm

/-! ### Writes -/

/-- A reservation succeeds, or finds the pool full and changes nothing. -/
theorem ramfsReserve_cases {ok : Bool} (h : b.ramfsReserve P i needed = some (ok, b')) :
    ok = true ∧ ¬b.PoolFull P i needed ∨ ok = false ∧ b' = b ∧ b.PoolFull P i needed := by
  rw [RamfsMem.ramfsReserve] at h
  by_cases hfit : needed ≤ b.capacity i
  · rw [if_pos hfit] at h
    obtain ⟨rfl, -⟩ := Prod.mk.inj (Option.some.inj h)
    exact Or.inl ⟨rfl, fun hfull => absurd hfull.1 (not_lt.mpr hfit)⟩
  rw [if_neg hfit] at h
  dsimp only at h
  by_cases hnew : b.IsNewest P i
  · rw [if_pos hnew] at h
    split_ifs at h with hfull
    · obtain ⟨rfl, rfl⟩ := Prod.mk.inj (Option.some.inj h)
      exact Or.inr ⟨rfl, rfl, not_le.mp hfit, by rwa [if_pos hnew]⟩
    · obtain ⟨rfl, -⟩ := Prod.mk.inj (Option.some.inj h)
      exact Or.inl ⟨rfl, fun hpool => hfull (by simpa only [if_pos hnew] using hpool.2)⟩
  · rw [if_neg hnew] at h
    split_ifs at h with hfull
    · obtain ⟨rfl, rfl⟩ := Prod.mk.inj (Option.some.inj h)
      exact Or.inr ⟨rfl, rfl, not_le.mp hfit, by rwa [if_neg hnew]⟩
    · obtain ⟨pool, -, heq⟩ := Option.map_eq_some_iff.mp h
      obtain ⟨rfl, -⟩ := Prod.mk.inj heq
      exact Or.inl ⟨rfl, fun hpool => hfull (by simpa only [if_neg hnew] using hpool.2)⟩

/-- The copy returns what it has written, which is no error. -/
theorem writeBlock_nonneg {bytes : ℕ → UInt8} (h : b.writeBlock P i k offset count bytes = some r) :
    ¬r.1 < 0 := by
  obtain ⟨pool, -, h⟩ := Option.bind_eq_some_iff.mp h
  obtain ⟨d, -, rfl⟩ := Option.map_eq_some_iff.mp h
  exact not_lt.mpr (Int.natCast_nonneg _)

/-- A write through a writable descriptor fails exactly when there is no space, and then has
moved at most the offset. -/
theorem ramfsWrite_of_writable (hw : b.Writable fd k i) (hbuf : buf.isSome = true)
    (h : b.ramfsWrite P fd buf count = some r) :
    (r.1 < 0 ↔ b.NoSpace P k i count) ∧ (r.1 < 0 → r.2 = b.seekWrite k i) := by
  have hnospc : -eNospc < 0 := by simp [eNospc]
  obtain ⟨bytes, rfl⟩ := Option.isSome_iff_exists.mp hbuf
  have hopen : ¬((some bytes).isNone = true ∨ (b.fds k).ino = 0) := not_or_intro (by simp) hw.live
  simp only [RamfsMem.ramfsWrite, hw.valid, if_neg hopen, hw.slot, if_neg (not_not.mpr hw.file),
    if_neg hw.mode] at h
  change (if b.writeOffset k i ≥ ramfsMaxFilesize then
      some (if count = 0 then 0 else -eNospc, b.seekWrite k i)
    else if clampCount (b.writeOffset k i) count = 0 then some (0, b.seekWrite k i)
    else ((b.seekWrite k i).ramfsReserve P i
      (u32 (b.writeOffset k i + clampCount (b.writeOffset k i) count))).bind _) = some r at h
  by_cases hoff : b.writeOffset k i ≥ ramfsMaxFilesize
  · rw [if_pos hoff] at h
    obtain rfl := Option.some.inj h
    refine ⟨?_, fun _ => rfl⟩
    by_cases hcount : count = 0
    · rw [if_pos hcount]
      refine iff_of_false (lt_irrefl 0) ?_
      rintro (⟨-, hne⟩ | ⟨hlt, -⟩)
      · exact hne hcount
      · exact absurd hoff (not_le.mpr hlt)
    · rw [if_neg hcount]
      exact iff_of_true hnospc (Or.inl ⟨hoff, hcount⟩)
  rw [if_neg hoff] at h
  by_cases hclamp : clampCount (b.writeOffset k i) count = 0
  · rw [if_pos hclamp] at h
    obtain rfl := Option.some.inj h
    refine ⟨iff_of_false (lt_irrefl 0) ?_, fun _ => rfl⟩
    rintro (⟨hge, -⟩ | ⟨-, hne, -⟩)
    · exact hoff hge
    · exact hne hclamp
  rw [if_neg hclamp] at h
  obtain ⟨⟨ok, b₂⟩, hreserve, h⟩ := Option.bind_eq_some_iff.mp h
  rcases ramfsReserve_cases hreserve with ⟨rfl, hroom⟩ | ⟨rfl, rfl, hfull⟩
  · -- the whole count has been copied
    rw [if_pos rfl] at h
    refine ⟨iff_of_false (writeBlock_nonneg h) ?_, fun hneg => absurd hneg (writeBlock_nonneg h)⟩
    rintro (⟨hge, -⟩ | ⟨-, -, hfull, -⟩)
    · exact hoff hge
    · exact hroom hfull
  · rw [if_neg Bool.false_ne_true] at h
    change (if b.writeOffset k i ≥ b.capacity i then _ else _) = _ at h
    by_cases hcap : b.writeOffset k i ≥ b.capacity i
    · rw [if_pos hcap] at h
      obtain rfl := Option.some.inj h
      exact ⟨iff_of_true hnospc (Or.inr ⟨not_le.mp hoff, hclamp, hfull, hcap⟩), fun _ => rfl⟩
    · -- the part up to the end of the block has been copied
      rw [if_neg hcap] at h
      refine ⟨iff_of_false (writeBlock_nonneg h) ?_, fun hneg => absurd hneg (writeBlock_nonneg h)⟩
      rintro (⟨hge, -⟩ | ⟨-, -, -, hle⟩)
      · exact hoff hge
      · exact hcap hle

theorem ramfsWrite_of_not_writable (hw : buf.isNone = true ∨ ∀ k i, ¬b.Writable fd k i) :
    b.ramfsWrite P fd buf count = some (-1, b) := by
  rw [RamfsMem.ramfsWrite]
  cases hfd : validFd fd with
  | none => rfl
  | some k =>
    dsimp only
    by_cases hbuf : buf.isNone = true ∨ (b.fds k).ino = 0
    · rw [if_pos hbuf]
    rw [if_neg hbuf]
    cases hslot : b.slotOfIno (b.fds k).ino with
    | none => rfl
    | some i =>
      dsimp only
      by_cases hfile : b.type i = NodeType.file.code
      · rw [if_neg (not_not.mpr hfile)]
        by_cases hmode : (b.fds k).flags &&& oAccmode = oRdonly
        · rw [if_pos hmode]
        · have hwritable : b.Writable fd k i :=
            ⟨hfd, fun hzero => hbuf (Or.inr hzero), hslot, hfile, hmode⟩
          exact absurd hwritable (hw.resolve_left (fun hnone => hbuf (Or.inl hnone)) k i)
      · rw [if_pos hfile]

/-- An error of `ramfs_write`. -/
theorem ramfsWrite_error_iff (h : b.ramfsWrite P fd buf count = some r) :
    (r.1 < 0 → b.Unchanged P r.2) ↔ ¬(RamfsOp.write fd buf count).LeavesTraces P b := by
  by_cases hw : buf.isNone = true ∨ ∀ k i, ¬b.Writable fd k i
  · rw [ramfsWrite_of_not_writable hw] at h
    obtain rfl := Option.some.inj h
    refine iff_of_true (fun _ => .of_eq rfl) ?_
    rintro ⟨hbuf, k, i, hkw, -⟩
    rcases hw with hnone | hw
    · simp [Option.isNone_iff_eq_none.mp hnone] at hbuf
    · exact hw k i hkw
  simp only [not_or, not_forall, not_not, Option.isNone_iff_eq_none, ← ne_eq,
    ← Option.isSome_iff_ne_none] at hw
  obtain ⟨hbuf, k, i, hw⟩ := hw
  obtain ⟨hneg, hseek⟩ := ramfsWrite_of_writable hw hbuf h
  -- the state behind an error is `seekWrite`, which moves the offset of descriptor `k` only
  have hsame : b.Unchanged P (b.seekWrite k i) ↔ (b.fds k).offset = b.writeOffset k i := by
    constructor
    · intro hsame
      have hk := congrArg Fd.offset (congrFun hsame.fds k)
      rw [seekWrite, setFd_self] at hk
      exact hk.symm
    · intro heq
      refine .of_eq ?_
      rw [seekWrite, ← heq, setFd, Function.update_eq_self]
  constructor
  · rintro hun ⟨-, k', i', hw', hno, hne⟩
    obtain ⟨rfl, rfl⟩ := hw.unique hw'
    have hlt := hneg.mpr hno
    exact hne (hsame.mp (hseek hlt ▸ hun hlt))
  · intro hnot hlt
    rw [hseek hlt, hsame]
    by_contra hne
    exact hnot ⟨hbuf, k, i, hw, hneg.mp hlt, hne⟩

/-! ### All operations -/

section NoTraces

/-! The other operations fail before they change anything. -/

theorem ramfsClose_of_neg (h : (b.ramfsClose fd).1 < 0) : (b.ramfsClose fd).2 = b := by
  rw [RamfsMem.ramfsClose] at h ⊢
  cases hfd : validFd fd with
  | none => rfl
  | some k =>
    simp only [hfd] at h ⊢
    by_cases hzero : (b.fds k).ino = 0
    · rw [if_pos hzero]
    · rw [if_neg hzero] at h
      exact absurd h (lt_irrefl 0)

theorem ramfsRead_of_neg {bufNull : Bool} {out : ℤ × List UInt8 × RamfsMem}
    (h : b.ramfsRead P fd bufNull count = some out) (hret : out.1 < 0) : out.2.2 = b := by
  have hfail : ∀ ret bytes, some (ret, bytes, b) = some out → out.2.2 = b := fun ret bytes heq =>
    congrArg (fun r => r.2.2) (Option.some.inj heq).symm
  rw [RamfsMem.ramfsRead] at h
  cases hfd : validFd fd with
  | none =>
    rw [hfd] at h
    exact hfail _ _ h
  | some k =>
    simp only [hfd] at h
    by_cases hopen : bufNull = true ∨ (b.fds k).ino = 0
    · rw [if_pos hopen] at h
      exact hfail _ _ h
    rw [if_neg hopen] at h
    cases hslot : b.slotOfIno (b.fds k).ino with
    | none =>
      rw [hslot] at h
      exact hfail _ _ h
    | some i =>
      simp only [hslot] at h
      generalize (if count < b.size i - (b.fds k).offset then count
        else b.size i - (b.fds k).offset) = n at h
      split_ifs at h
      · exact hfail _ _ h
      · exact hfail _ _ h
      · exact hfail _ _ h
      · obtain ⟨d, -, rfl⟩ := Option.map_eq_some_iff.mp h
        exact absurd hret (not_lt.mpr (Int.natCast_nonneg _))
      · exact hfail _ _ h

theorem ramfsLseek_of_neg {offset whence : ℤ} (h : (b.ramfsLseek fd offset whence).1 < 0) :
    (b.ramfsLseek fd offset whence).2 = b := by
  rw [RamfsMem.ramfsLseek] at h ⊢
  cases hfd : validFd fd with
  | none => rfl
  | some k =>
    simp only [hfd] at h ⊢
    by_cases hzero : (b.fds k).ino = 0
    · rw [if_pos hzero]
    rw [if_neg hzero] at h ⊢
    cases hslot : b.slotOfIno (b.fds k).ino with
    | none => rfl
    | some i =>
      simp only [hslot] at h ⊢
      generalize (if whence = 0 then some 0 else if whence = 1 then some ((b.fds k).offset : ℤ)
        else if whence = 2 then some (b.size i : ℤ) else none) = base at h ⊢
      cases base with
      | none => rfl
      | some base =>
        dsimp only at h ⊢
        by_cases hpos : base + offset < 0 ∨ base + offset > ramfsMaxFilesize
        · rw [if_pos hpos]
        · rw [if_neg hpos] at h
          exact absurd (Or.inl h) hpos

theorem ramfsMkdir_of_neg (h : b.ramfsMkdir path = some r) (hret : r.1 < 0) : r.2 = b := by
  have hfail : some (-1, b) = some r → r.2 = b := fun heq =>
    congrArg Prod.snd (Option.some.inj heq).symm
  cases path with
  | none => exact hfail h
  | some t =>
    simp only [RamfsMem.ramfsMkdir] at h
    split_ifs at h
    · exact hfail h
    · exact hfail h
    cases hfree : b.ramfsFindFreeInode with
    | none =>
      rw [hfree] at h
      exact hfail h
    | some i =>
      cases hdir : b.ramfsResolveDir (ramfsSplitPath t).1 with
      | none =>
        simp only [hfree, hdir] at h
        exact hfail h
      | some parentIno =>
        simp only [hfree, hdir] at h
        obtain ⟨b₁, -, rfl⟩ := Option.map_eq_some_iff.mp h
        exact absurd hret (lt_irrefl 0)

theorem ramfsRmdir_of_neg (h : (b.ramfsRmdir path).1 < 0) : (b.ramfsRmdir path).2 = b := by
  rw [RamfsMem.ramfsRmdir] at h ⊢
  cases hfind : b.ramfsFindInode path with
  | none => rfl
  | some i =>
    simp only [hfind] at h ⊢
    by_cases hdir : b.type i = NodeType.dir.code
    · rw [if_neg (not_not.mpr hdir)] at h
      exact absurd h (lt_irrefl 0)
    · rw [if_pos hdir]

theorem ramfsUnlink_of_neg (h : (b.ramfsUnlink P path).1 < 0) : (b.ramfsUnlink P path).2 = b := by
  rw [RamfsMem.ramfsUnlink] at h ⊢
  cases hfind : b.ramfsFindInode path with
  | none => rfl
  | some i =>
    simp only [hfind] at h ⊢
    by_cases hfile : b.type i = NodeType.file.code
    · rw [if_neg (not_not.mpr hfile)] at h
      exact absurd h (lt_irrefl 0)
    · rw [if_pos hfile]

end NoTraces

/-- An error of any operation. -/
theorem Holds.error_iff (hb : b.Holds P s) (hop : op.IsCString)
    (h : b.ramfsExec P op = some (res, b')) :
    (res.ret < 0 → b.Unchanged P b') ↔ ¬op.LeavesTraces P b := by
  cases op with
  | «open» path flags =>
    obtain ⟨r, hr, heq⟩ := Option.map_eq_some_iff.mp h
    obtain ⟨rfl, rfl⟩ := Prod.mk.inj heq
    exact ramfsOpen_error_iff hr
  | open2 path oflags =>
    obtain ⟨r, hr, heq⟩ := Option.map_eq_some_iff.mp h
    obtain ⟨rfl, rfl⟩ := Prod.mk.inj heq
    exact hb.ramfsOpen2_error_iff (fun t ht => hop t (congrArg some ht)) hr
  | close fd =>
    obtain ⟨rfl, rfl⟩ := Prod.mk.inj (Option.some.inj h)
    exact iff_of_true (fun hret => .of_eq (ramfsClose_of_neg hret)) not_false
  | read fd bufNull count =>
    obtain ⟨r, hr, heq⟩ := Option.map_eq_some_iff.mp h
    obtain ⟨rfl, rfl⟩ := Prod.mk.inj heq
    exact iff_of_true (fun hret => .of_eq (ramfsRead_of_neg hr hret)) not_false
  | write fd buf count =>
    obtain ⟨r, hr, heq⟩ := Option.map_eq_some_iff.mp h
    obtain ⟨rfl, rfl⟩ := Prod.mk.inj heq
    exact ramfsWrite_error_iff hr
  | lseek fd offset whence =>
    obtain ⟨rfl, rfl⟩ := Prod.mk.inj (Option.some.inj h)
    exact iff_of_true (fun hret => .of_eq (ramfsLseek_of_neg hret)) not_false
  | mkdir path =>
    obtain ⟨r, hr, heq⟩ := Option.map_eq_some_iff.mp h
    obtain ⟨rfl, rfl⟩ := Prod.mk.inj heq
    exact iff_of_true (fun hret => .of_eq (ramfsMkdir_of_neg hr hret)) not_false
  | rmdir path =>
    obtain ⟨rfl, rfl⟩ := Prod.mk.inj (Option.some.inj h)
    exact iff_of_true (fun hret => .of_eq (ramfsRmdir_of_neg hret)) not_false
  | unlink path =>
    obtain ⟨rfl, rfl⟩ := Prod.mk.inj (Option.some.inj h)
    exact iff_of_true (fun hret => .of_eq (ramfsUnlink_of_neg hret)) not_false

end RamfsMem

/-- **Errors are atomic but for the exceptions.** In every state of a run in which the names fit,
an operation that fails, under whatever name, leaves everything as it was if and only if it is
none of those that `RamfsOp.LeavesTraces` lists. -/
theorem ramfsMem_error_iff (h : (ramfsMemSystem P progs).ReachableBy RamfsMemRun.NamesFit run)
    (hop : op.IsCString) (hexec : run.fs.ramfsExec P op = some (res, b')) :
    (res.ret < 0 → run.fs.Unchanged P b') ↔ ¬op.LeavesTraces P run.fs := by
  obtain ⟨run', -, hholds, -⟩ := ramfsMem_refines h
  exact hholds.error_iff hop hexec

/-- `ramfsMem_error_iff` for a directory that exists already. -/
theorem ramfsMem_error_sample :
    ∃ b res b', (ramfsMemSystem samplePlace noPrograms).start ⟨b, 7⟩ ∧
      b.ramfsExec samplePlace (.mkdir (some (cstr "/bin"))) = some (res, b') ∧ res.ret = -1 ∧
      b.Unchanged samplePlace b' := by
  obtain ⟨b, hstart, hholds⟩ := exists_freshMem
  have hrun : (ramfsMkdir freshRun.fs (some (cstr "/bin"))).map (fun p => p.1) = some (-1) := by
    decide +kernel
  obtain ⟨⟨ret, s'⟩, hmkdir, hret⟩ := Option.map_eq_some_iff.mp hrun
  have hpath : ∀ t, some (cstr "/bin") = some t → (0 : UInt8) ∉ t := fun t ht =>
    Option.some.inj ht ▸ by decide
  have hop : (RamfsOp.mkdir (some (cstr "/bin"))).IsCString := fun t ht =>
    hpath t (Option.some.inj ht)
  obtain ⟨⟨ret', b'⟩, hmkdir', hsame⟩ := (hholds.mkdir hpath
    fun t ht _ => Option.some.inj ht ▸ by decide).exists_left hmkdir
  obtain rfl : ret' = -1 := hsame.ret.trans hret
  have hexec : b.ramfsExec samplePlace (.mkdir (some (cstr "/bin"))) = some (⟨-1, []⟩, b') :=
    Option.map_eq_some_iff.mpr ⟨_, hmkdir', rfl⟩
  exact ⟨b, _, b', hstart, hexec, rfl,
    (ramfsMem_error_iff (.start hstart) hop hexec).mpr not_false (by decide)⟩

/-- Not all errors are atomic: when all descriptors are in use, `ramfs_open2` creates the file
before it fails. -/
theorem not_errorAtomic :
    ¬∀ (P : PoolPlace) (progs : Programs) (run : RamfsMemRun),
      (ramfsMemSystem P progs).ReachableBy (fun _ op => op.IsCString) run →
      ∀ (op : RamfsOp) res b', op.IsCString → run.fs.ramfsExec P op = some (res, b') →
        res.ret < 0 → run.fs.Unchanged P b' := by
  intro h
  have hrun : ((ramfsSystem noPrograms).runInputs freshRun
      (List.replicate 32 (.open (some (cstr "/bin/hello")) 0))).bind (fun run =>
        (ramfsOpen2 run.fs (some (cstr "/a")) (oRdwr ||| oCreat)).map fun p =>
          (p.1, run.fs.nextInode, p.2.nextInode)) = some (-2, 8, 9) := by decide +kernel
  obtain ⟨run, hr, hrun⟩ := Option.bind_eq_some_iff.mp hrun
  obtain ⟨⟨ret, s'⟩, hopen, hrun⟩ := Option.map_eq_some_iff.mp hrun
  simp only [Prod.mk.injEq] at hrun
  obtain ⟨rfl, hnext, hnext'⟩ := hrun
  -- the run on the records is one on the bytes
  have hreach : (ramfsSystem noPrograms).ReachableBy (fun _ op => op.IsCString) run := by
    refine .runInputs (.start freshRun_start) (fun _ _ op hop => ?_) hr
    obtain rfl := List.eq_of_mem_replicate hop
    rintro t ⟨⟩
    decide
  obtain ⟨run', hreach', hholds, -⟩ := exists_ramfsMem (P := samplePlace) hreach
  have hpath : ∀ t, some (cstr "/a") = some t → (0 : UInt8) ∉ t := fun t ht =>
    Option.some.inj ht ▸ by decide
  have hop : (RamfsOp.open2 (some (cstr "/a")) (oRdwr ||| oCreat)).IsCString := fun t ht =>
    hpath t (Option.some.inj ht)
  obtain ⟨⟨ret, b'⟩, hopen', hsame⟩ := (hholds.open2 (oRdwr ||| oCreat) hpath
    fun t ht _ _ => Option.some.inj ht ▸ by decide).exists_left hopen
  have hexec : run'.fs.ramfsExec samplePlace (.open2 (some (cstr "/a")) (oRdwr ||| oCreat)) =
      some (⟨ret, []⟩, b') := Option.map_eq_some_iff.mpr ⟨_, hopen', rfl⟩
  have hneg : ret < 0 := by
    rw [show ret = -2 from hsame.ret]
    decide
  have hun := h _ _ run' (hreach'.mono fun _ _ hfit => hfit.isCString) _ _ b' hop hexec hneg
  have := hun.nextInode
  rw [hholds.nextInode, hsame.fs.nextInode, hnext, hnext'] at this
  omega

end ChalesOs
