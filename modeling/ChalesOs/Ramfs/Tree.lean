import ChalesOs.Lib.NameTree
import ChalesOs.Ramfs.Runs
import ChalesOs.Ramfs.Segments

/-!
# What the operations do to the tree

`Ramfs.tree` forgets sizes and blocks: an inode is an entry of a `NameTree` table. Lookups depend on
it alone. `TreeStep` lists what an operation can do to it, with all that the operation has looked
up before: nothing, a creation of the pair it has not found, or the removal of what it has found.
`ramfsExec_treeStep` is the one case analysis over the operations; every invariant of the tree
follows from it.
-/

namespace ChalesOs

open NameTree

variable {s s' : Ramfs} {i j : Fin 64} {op : RamfsOp} {res : RamfsResult}

/-- An inode as an entry of the tree. -/
def Inode.entry (inode : Inode) : Entry CString :=
  ⟨inode.ino, inode.type = .dir, inode.name, inode.parentIno⟩

/-- The inode table as a tree. -/
def Ramfs.tree (s : Ramfs) (i : Fin 64) : Entry CString := (s.inodes i).entry

/-- The path argument of an operation, if it has one. -/
def RamfsOp.path : RamfsOp → Option (Option CString)
  | .open path _ | .open2 path _ | .mkdir path | .rmdir path | .unlink path => some path
  | .close _ | .read .. | .write .. | .lseek .. => none

/-! ### The tree and the updates of the state -/

@[simp] theorem Ramfs.tree_num (s : Ramfs) (i : Fin 64) : (s.tree i).num = (s.inodes i).ino := rfl

@[simp] theorem Ramfs.tree_name (s : Ramfs) (i : Fin 64) : (s.tree i).name = (s.inodes i).name :=
  rfl

@[simp] theorem Ramfs.tree_parent (s : Ramfs) (i : Fin 64) :
    (s.tree i).parent = (s.inodes i).parentIno := rfl

@[simp] theorem Ramfs.tree_isDir (s : Ramfs) (i : Fin 64) :
    (s.tree i).isDir = true ↔ (s.inodes i).type = .dir :=
  decide_eq_true_iff

theorem Ramfs.live_tree : Live s.tree i ↔ (s.inodes i).ino ≠ 0 := Iff.rfl

theorem Ramfs.tree_congr (h : s'.inodes = s.inodes) : s'.tree = s.tree :=
  funext fun i => congrArg Inode.entry (congrFun h i)

theorem Ramfs.tree_setInode (s : Ramfs) (i : Fin 64) (inode : Inode) :
    (s.setInode i inode).tree = Function.update s.tree i inode.entry :=
  funext fun j => by
    by_cases hj : j = i
    · subst hj
      rw [Function.update_self, Ramfs.tree, Ramfs.setInode_self]
    · rw [Function.update_of_ne hj, Ramfs.tree, Ramfs.setInode_of_ne _ _ hj]
      rfl

/-- A new size or block does not show. -/
theorem Ramfs.tree_setInode_of_entry {inode : Inode} (h : inode.entry = (s.inodes i).entry) :
    (s.setInode i inode).tree = s.tree := by
  rw [tree_setInode, h]
  exact Function.update_eq_self i s.tree

/-- Two states with the same tree and the same counter. -/
def SameTree (s s' : Ramfs) : Prop := s'.tree = s.tree ∧ s'.nextInode = s.nextInode

theorem SameTree.refl (s : Ramfs) : SameTree s s := ⟨rfl, rfl⟩

theorem SameTree.trans {s₁ s₂ s₃ : Ramfs} (h : SameTree s₁ s₂) (h' : SameTree s₂ s₃) :
    SameTree s₁ s₃ :=
  ⟨h'.1.trans h.1, h'.2.trans h.2⟩

theorem SameTree.of_inodes (h : s'.inodes = s.inodes) (hnext : s'.nextInode = s.nextInode) :
    SameTree s s' :=
  ⟨Ramfs.tree_congr h, hnext⟩

/-! ### Lookups see the tree only -/

/-- The type of an inode shows in its entry. -/
theorem Ramfs.type_of_tree (h : s'.tree = s.tree) (i : Fin 64) :
    (s'.inodes i).type = (s.inodes i).type := by
  have hdir : (s'.inodes i).type = .dir ↔ (s.inodes i).type = .dir := by
    rw [← Ramfs.tree_isDir, h, Ramfs.tree_isDir]
  cases htype : (s.inodes i).type with
  | dir => exact hdir.mpr htype
  | file =>
    cases htype' : (s'.inodes i).type with
    | file => rfl
    | dir => exact absurd (htype.symm.trans (hdir.mp htype')) (by decide)

/-- A property of inodes that sees the entry only. -/
theorem Ramfs.findSlot_of_tree {p : Inode → Bool} (hp : ∀ a b, a.entry = b.entry → p a = p b)
    (h : s'.tree = s.tree) : s'.findSlot p = s.findSlot p :=
  findSlot_congr fun i => hp _ _ (congrFun h i)

theorem Ramfs.slotOfIno_of_tree (h : s'.tree = s.tree) (ino : ℕ) :
    s'.slotOfIno ino = s.slotOfIno ino := by
  refine findSlot_of_tree ?_ h
  rintro ⟨⟩ ⟨⟩ heq
  obtain ⟨rfl, -, -, -⟩ := Entry.mk.inj heq
  rfl

theorem resolveSegments_of_tree (h : s'.tree = s.tree) (ino : ℕ) (segs : List CString) :
    resolveSegments s' ino segs = resolveSegments s ino segs := by
  induction segs generalizing ino with
  | nil => rfl
  | cons seg segs ih =>
    rw [resolveSegments, resolveSegments, ih, Ramfs.findSlot_of_tree (s := s) _ h]
    · cases s.findSlot _ with
      | none => rfl
      | some found =>
        dsimp only
        rw [ih, ← Ramfs.tree_num, h, Ramfs.tree_num]
    · rintro ⟨⟩ ⟨⟩ heq
      obtain ⟨rfl, htype, rfl, rfl⟩ := Entry.mk.inj heq
      simp only [decide_eq_decide] at htype
      simp only [htype]

theorem ramfsResolveDir_of_tree (h : s'.tree = s.tree) (dirpath : CString) :
    ramfsResolveDir s' dirpath = ramfsResolveDir s dirpath := by
  rw [ramfsResolveDir, ramfsResolveDir, resolveSegments_of_tree h]

/-- **Lookups see the tree only.** -/
theorem ramfsFindInode_of_tree (h : s'.tree = s.tree) (path : Option CString) :
    ramfsFindInode s' path = ramfsFindInode s path := by
  simp only [ramfsFindInode, ramfsResolveDir_of_tree h]
  cases path with
  | none => rfl
  | some path =>
    dsimp only
    congr 1
    cases ramfsResolveDir s (ramfsSplitPath path).1 with
    | none => rfl
    | some parentIno =>
      refine Ramfs.findSlot_of_tree ?_ h
      rintro ⟨⟩ ⟨⟩ heq
      obtain ⟨rfl, -, rfl, rfl⟩ := Entry.mk.inj heq
      rfl

/-! ### What an operation does -/

/-- What an operation does to the tree: nothing, a creation, or a removal. -/
inductive TreeStep (s : Ramfs) (op : RamfsOp) (s' : Ramfs) : Prop
  | keep : SameTree s s' → TreeStep s op s'
  | create {path : CString} {i : Fin 64} {parentIno : ℕ} (type : NodeType) :
      op.path = some (some path) → ramfsFindInode s (some path) = none →
      ramfsResolveDir s (ramfsSplitPath path).1 = some parentIno →
      (ramfsSplitPath path).2.length < ramfsMaxFilename → i ≠ 0 → (s.inodes i).ino = 0 →
      s'.tree = Function.update s.tree i
        ⟨s.nextInode, type = .dir, (ramfsSplitPath path).2, parentIno⟩ →
      s'.nextInode = u32 (s.nextInode + 1) → TreeStep s op s'
  | remove {path : Option CString} {i : Fin 64} :
      op = .rmdir path ∧ (s.inodes i).type = .dir ∨
        op = .unlink path ∧ (s.inodes i).type = .file →
      ramfsFindInode s path = some i → s'.tree = Function.update s.tree i Inode.zero.entry →
      s'.nextInode = s.nextInode → TreeStep s op s'

/-- What keeps the tree behind a step does not show. -/
theorem TreeStep.trans_same {s'' : Ramfs} (h : TreeStep s op s') (h' : SameTree s' s'') :
    TreeStep s op s'' := by
  cases h with
  | keep h => exact .keep (h.trans h')
  | create type hop hnone hdir hlen hi hino htree hnext =>
    exact .create type hop hnone hdir hlen hi hino (h'.1.trans htree) (h'.2.trans hnext)
  | remove hop hfind htree hnext =>
    exact .remove hop hfind (h'.1.trans htree) (h'.2.trans hnext)

/-- The tree does not see descriptors. -/
theorem FdsOnly.sameTree (h : FdsOnly s s') : SameTree s s' := .of_inodes h.inodes h.nextInode

theorem ramfsOpen2Fd_sameTree (s : Ramfs) (i : Fin 64) (oflags : ℕ) :
    SameTree s (ramfsOpen2Fd s i oflags).2 := by
  rcases ramfsOpen2Fd_cases s i oflags with ⟨ret, -, heq⟩ | ⟨k, -, -, heq⟩
  · rw [heq]
    exact .refl s
  · rw [heq]
    by_cases htrunc : oflags &&& oTrunc ≠ 0 ∧ oflags &&& oAccmode ≠ oRdonly
    · rw [if_pos htrunc]
      exact ⟨Ramfs.tree_setInode_of_entry (s := s) (i := i) rfl, rfl⟩
    · rw [if_neg htrunc]
      exact ⟨rfl, rfl⟩

theorem ramfsReserve_sameTree (s : Ramfs) (i : Fin 64) (needed : ℕ) :
    SameTree s (ramfsReserve s i needed).2 := by
  obtain ⟨-, hnext, data, capacity, hinodes⟩ := ramfsReserve_frame s i needed
  refine ⟨?_, hnext⟩
  have htree :
      (s.setInode i { s.inodes i with data := data, capacity := capacity }).tree = s.tree :=
    Ramfs.tree_setInode_of_entry rfl
  exact (Ramfs.tree_congr hinodes).trans htree

theorem WriteJob.run_sameTree (job : WriteJob) (buf : ℕ → UInt8) (d : ℕ) :
    SameTree job.fs (job.run buf d) := by
  rw [job.run_eq]
  exact ⟨Ramfs.tree_setInode_of_entry (s := job.fs) (i := job.slot) rfl, rfl⟩

theorem ramfsWrite_sameTree {fd : ℤ} {buf : Option (ℕ → UInt8)} {count : ℕ} {r : ℤ × Ramfs}
    (h : ramfsWrite s fd buf count = some r) : SameTree s r.2 := by
  rcases ramfsWrite_cases h with (heq | ⟨k, i, -, heq⟩) |
    ⟨k, i, job, d, -, -, hfs, -, -, -, -, heq⟩
  · exact (FdsOnly.of_eq heq).sameTree
  · rw [heq]
    exact (FdsOnly.setFd s k _).sameTree
  · have hreserved : SameTree s job.fs := by
      rw [hfs]
      exact (FdsOnly.setFd s k _).sameTree.trans (ramfsReserve_sameTree _ i _)
    rw [heq]
    exact hreserved.trans (job.run_sameTree _ d)

/-- The creation `ramfs_open` and `ramfs_mkdir` share, as a step of the tree. -/
theorem TreeStep.of_create {path : CString} {type : NodeType} {parentIno : ℕ} {s₁ : Ramfs}
    (hop : op.path = some (some path)) (hnone : ramfsFindInode s (some path) = none)
    (hfree : ramfsFindFreeInode s = some i)
    (hdir : ramfsResolveDir s (ramfsSplitPath path).1 = some parentIno)
    (hcreate : ramfsCreate s i type parentIno (ramfsSplitPath path).2 = some s₁) :
    TreeStep s op s₁ := by
  obtain ⟨hi, hino⟩ := ramfsFindFreeInode_some hfree
  obtain ⟨hlen, rfl⟩ := ramfsCreate_eq_some hcreate
  exact .create type hop hnone hdir hlen hi hino (s.tree_setInode i _) rfl

theorem ramfsOpen_treeStep {path : Option CString} {flags : ℕ} {r : ℤ × Ramfs}
    (hop : op.path = some path) (h : ramfsOpen s path flags = some r) : TreeStep s op r.2 := by
  rcases ramfsOpen_cases h with rfl | ⟨i, -, rfl⟩ | ⟨p, i, parentIno, s₁, rfl, -, hnone, hfree,
    hdir, hcreate, rfl⟩
  · exact .keep (.refl s)
  · exact .keep (ramfsOpenFd_fdsOnly s i).sameTree
  · exact (TreeStep.of_create hop hnone hfree hdir hcreate).trans_same
      (ramfsOpenFd_fdsOnly s₁ i).sameTree

theorem ramfsOpen2_treeStep {path : Option CString} {oflags : ℕ} {r : ℤ × Ramfs}
    (hop : op.path = some path) (h : ramfsOpen2 s path oflags = some r) : TreeStep s op r.2 := by
  rcases ramfsOpen2_split h with ⟨-, heq, -⟩ | ⟨i, -, rfl⟩ | ⟨tmp, s₁, -, -, hopen, hr⟩
  · rw [heq]
    exact .keep (.refl s)
  · exact .keep (ramfsOpen2Fd_sameTree s i oflags)
  have h₁ : TreeStep s op s₁ := ramfsOpen_treeStep hop hopen
  have h₂ := h₁.trans_same (ramfsClose_fdsOnly s₁ tmp).sameTree
  rcases hr with ⟨-, rfl⟩ | ⟨-, ⟨-, rfl⟩ | ⟨j, -, rfl⟩⟩
  · exact h₁
  · exact h₂
  · exact h₂.trans_same (ramfsOpen2Fd_sameTree _ j oflags)

/-- The end of `ramfs_unlink`, as an update of the tree. -/
theorem tree_unlink (s : Ramfs) (i : Fin 64) :
    ((ramfsRelease s i).setInode i Inode.zero).tree =
        Function.update s.tree i Inode.zero.entry ∧
      ((ramfsRelease s i).setInode i Inode.zero).nextInode = s.nextInode := by
  obtain ⟨hinodes, hnext, -, -⟩ := ramfsRelease_frame s i
  exact ⟨by rw [Ramfs.tree_setInode, Ramfs.tree_congr hinodes], hnext⟩

/-- **Every operation is a step of the tree.** -/
theorem ramfsExec_treeStep (h : ramfsExec s op = some (res, s')) : TreeStep s op s' := by
  cases h using ramfsExec_elim with
  | «open» path flags r _ hr => exact ramfsOpen_treeStep rfl hr
  | open2 path oflags r _ hr => exact ramfsOpen2_treeStep rfl hr
  | close fd => exact .keep (ramfsClose_fdsOnly s fd).sameTree
  | read fd bufNull count r _ hr => exact .keep (ramfsRead_fdsOnly hr).sameTree
  | write fd buf count r _ hr => exact .keep (ramfsWrite_sameTree hr)
  | lseek fd offset whence => exact .keep (ramfsLseek_fdsOnly s fd offset whence).sameTree
  | mkdir path r _ hr =>
    rcases ramfsMkdir_cases hr with rfl | ⟨p, i, parentIno, s₁, rfl, hnone, hfree, hdir,
      hcreate, rfl⟩
    · exact .keep (.refl s)
    · exact .of_create rfl hnone hfree hdir hcreate
  | rmdir path =>
    rcases ramfsRmdir_cases s path with heq | ⟨i, hfind, htype, heq⟩
    · exact heq ▸ .keep (.refl s)
    · rw [heq]
      exact .remove (Or.inl ⟨rfl, htype⟩) hfind (s.tree_setInode i _) rfl
  | unlink path =>
    rcases ramfsUnlink_cases s path with heq | ⟨i, hfind, htype, heq⟩
    · exact heq ▸ .keep (.refl s)
    · rw [heq]
      obtain ⟨htree, hnext⟩ := tree_unlink s i
      exact .remove (Or.inr ⟨rfl, htype⟩) hfind htree hnext

/-! ### Lookup after a creation -/

/-- An open that asks for creation would create an inode: the path names nothing, a slot is free,
and the directory is there. -/
def Ramfs.Creates (s : Ramfs) (path : Option CString) : Prop :=
  ramfsFindInode s path = none ∧ (ramfsFindFreeInode s).isSome = true ∧
    (ramfsResolveDir s (ramfsSplitPath (path.getD [])).1).isSome = true

instance (s : Ramfs) (path : Option CString) : Decidable (s.Creates path) :=
  inferInstanceAs (Decidable (_ ∧ _ ∧ _))

/-- What the operations have looked up before they create. -/
theorem Ramfs.Creates.intro {path : CString} {parentIno : ℕ}
    (hnone : ramfsFindInode s (some path) = none) (hfree : ramfsFindFreeInode s = some i)
    (hdir : ramfsResolveDir s (ramfsSplitPath path).1 = some parentIno) :
    s.Creates (some path) :=
  ⟨hnone, by rw [hfree]; rfl, by rw [Option.getD_some, hdir]; rfl⟩

/-- What `ramfs_open` does when it creates. -/
theorem ramfsOpen_of_creates {path : Option CString} {flags : ℕ} {r : ℤ × Ramfs}
    (hc : s.Creates path) (hflags : flags &&& 1 ≠ 0) (h : ramfsOpen s path flags = some r) :
    ∃ p i parentIno s₁, path = some p ∧ ramfsFindInode s path = none ∧
      ramfsFindFreeInode s = some i ∧ ramfsResolveDir s (ramfsSplitPath p).1 = some parentIno ∧
      ramfsCreate s i .file parentIno (ramfsSplitPath p).2 = some s₁ ∧ r = ramfsOpenFd s₁ i := by
  obtain ⟨hnone, hfree, hdir⟩ := hc
  obtain ⟨i, hi⟩ := Option.isSome_iff_exists.mp hfree
  obtain ⟨parentIno, hparent⟩ := Option.isSome_iff_exists.mp hdir
  obtain ⟨p, rfl⟩ : ∃ p, path = some p := by
    cases path with
    | none => simp [ramfsFindInode] at hnone
    | some p => exact ⟨p, rfl⟩
  rw [Option.getD_some] at hparent
  simp only [ramfsOpen, hnone, if_pos hflags, hi, Option.getD_some, hparent] at h
  obtain ⟨s₁, hcreate, rfl⟩ := Option.map_eq_some_iff.mp h
  exact ⟨p, i, parentIno, s₁, rfl, hnone, hi, hparent, hcreate, rfl⟩

/-- When `ramfs_open` has created an inode, its name has fitted. -/
theorem Ramfs.Creates.length_le {path : CString} {flags : ℕ} {r : ℤ × Ramfs}
    (hc : s.Creates (some path)) (hflags : flags &&& 1 ≠ 0)
    (h : ramfsOpen s (some path) flags = some r) : (pathName path).length ≤ 255 := by
  obtain ⟨p, i, parentIno, s₁, hp, -, -, -, hcreate, -⟩ := ramfsOpen_of_creates hc hflags h
  obtain rfl := Option.some_injective _ hp
  have hlt := (ramfsCreate_eq_some hcreate).1
  rw [ramfsSplitPath_eq] at hlt
  exact Nat.le_of_lt_succ hlt

/-- `ramfs_open` has an outcome, unless it creates an inode whose name is too long. -/
theorem ramfsOpen_isSome_of_creates {path : CString} (flags : ℕ)
    (hfits : s.Creates (some path) → (pathName path).length ≤ 255) :
    (ramfsOpen s (some path) flags).isSome := by
  by_cases hc : s.Creates (some path)
  · refine ramfsOpen_isSome s (some path) flags fun p hp => ?_
    obtain rfl := Option.some_injective _ hp
    rw [ramfsSplitPath_eq]
    exact hfits hc
  rw [ramfsOpen]
  cases hfind : ramfsFindInode s (some path) with
  | some i => rfl
  | none =>
    dsimp only [Option.getD_some]
    split_ifs
    · cases hfree : ramfsFindFreeInode s with
      | none => rfl
      | some i =>
        cases hdir : ramfsResolveDir s (ramfsSplitPath path).1 with
        | none => rfl
        | some parentIno => exact absurd (.intro hfind hfree hdir) hc
    · rfl

/-- A path that names nothing names the new file in slot `i`, if it has its name there. -/
theorem ramfsFindInode_of_new {path : CString} {parentIno : ℕ}
    (hnone : ramfsFindInode s (some path) = none) (hi : (s.inodes i).ino = 0)
    (hdir : ramfsResolveDir s (ramfsSplitPath path).1 = some parentIno)
    (hne : ∀ j, j ≠ i → s'.inodes j = s.inodes j) (hino : (s'.inodes i).ino ≠ 0)
    (htype : (s'.inodes i).type = .file) (hname : (s'.inodes i).name = (ramfsSplitPath path).2)
    (hparent : (s'.inodes i).parentIno = parentIno) :
    ramfsFindInode s' (some path) = some i := by
  have hfound : ramfsFindInode s' (some path) ≠ none := by
    have hdirs : SameDirs s s' := fun j hj => hne j <| by
      rintro rfl
      rcases hj with hj | hj
      · exact hj.1 hi
      · simp [htype] at hj
    rw [ramfsFindInode] at hnone ⊢
    split_ifs at hnone ⊢
    simp only [ramfsResolveDir_congr hdirs, hdir, Ne, Ramfs.findSlot_eq_none, not_forall]
    exact ⟨i, by simp [hino, hname, hparent, strcmp_self]⟩
  obtain ⟨j, hj⟩ := Option.ne_none_iff_exists'.mp hfound
  rw [hj, ramfsFindInode_of_create hi htype hne hnone hj]

/-- **A new file is found by its path**, if it has got a number. -/
theorem ramfsFindInode_create {path : CString} {parentIno : ℕ}
    (hnone : ramfsFindInode s (some path) = none) (hi : (s.inodes i).ino = 0)
    (hdir : ramfsResolveDir s (ramfsSplitPath path).1 = some parentIno)
    (hcreate : ramfsCreate s i .file parentIno (ramfsSplitPath path).2 = some s')
    (hnext : s.nextInode ≠ 0) : ramfsFindInode s' (some path) = some i := by
  obtain ⟨hself, hne, -, -⟩ := ramfsCreate_frame hcreate
  exact ramfsFindInode_of_new hnone hi hdir hne (by rw [hself]; exact hnext) (by rw [hself])
    (by rw [hself]) (by rw [hself])

end ChalesOs
