import ChalesOs.Ramfs.Content
import ChalesOs.Ramfs.Segments
import ChalesOs.Ramfs.Tree

/-!
# The namespace over whole runs

Two invariants of the tree. Names are unique in their directory (`namespace_unique`): a creation
has just looked for exactly the pair it inserts, once more than it seems, because the search for
the name and the creation split the path separately. And everything hangs below the root
(`noOrphans_of_reachable`), under the condition that `ramfs_rmdir`, which does not check for
entries of the directory it removes, is called on empty directories only.

`ramfs_tree_invariant` is the induction over runs: what holds in front of `ramfs_init` and is kept
by the steps of the tree holds in every state reached.
-/

namespace ChalesOs

open NameTree

variable {s s' : Ramfs} {i j : Fin 64} {op : RamfsOp} {path : CString} {parentIno : ℕ}
  {progs : Programs}

/-- **Tree invariants.** What holds in front of the first operation and is kept by every guarded
step of the tree holds in every state reached, when the operations of `ramfs_init` meet the
guard. -/
theorem ramfs_tree_invariant (p : Ramfs → Prop) (ok : Ramfs → RamfsOp → Prop) {r : RamfsRun}
    (h : (ramfsSystem progs).ReachableBy (fun r op => ok r.fs op) r)
    (hroot : ∀ pool, p (ramfsRoot pool)) (hinit : ∀ s op, progs.InitOp op → ok s op)
    (hstep : ∀ s op s', p s → ok s op → TreeStep s op s' → p s') : p r.fs := by
  refine h.invariant (p := fun r => p r.fs) (fun r ⟨pool, hr, _⟩ => ?_)
    fun r op r' hp hok hs => ?_
  · exact ramfsInit_invariant (p := fun _ => p) (hroot pool)
      (fun _ s op _ s' hp hop hexec => hstep s op s' hp (hinit s op hop) (ramfsExec_treeStep hexec))
      (fun _ _ hp => hp) hr
  · obtain ⟨⟨res, s'⟩, hexec, rfl⟩ := Option.map_eq_some_iff.mp hs
    exact hstep _ op s' hp hok (ramfsExec_treeStep hexec)

/-- Nothing is live in the tree in front of the first operation. -/
theorem not_live_ramfsRoot (pool : ℕ → UInt8) : ¬Live (ramfsRoot pool).tree i :=
  not_not.mpr (ramfsRoot_ino pool i)

/-! ### Unique names -/

/-- The invariant of names: slot 0 is no entry, names are unique in their directory, and no name
has a slash. -/
structure NameInv (s : Ramfs) : Prop where
  root : (s.inodes 0).ino = 0
  unique : UniqueNames s.tree
  noSlash : ∀ i, (s.inodes i).ino ≠ 0 → slash ∉ (s.inodes i).name

/-- A path that is not found names no entry of the directory its first part leads to. -/
theorem name_ne_of_find_none (hnone : ramfsFindInode s (some path) = none)
    (hdir : ramfsResolveDir s (ramfsSplitPath path).1 = some parentIno) (j : Fin 64)
    (hj : (s.inodes j).ino ≠ 0) (hparent : (s.inodes j).parentIno = parentIno) :
    (s.inodes j).name ≠ (ramfsSplitPath path).2 := by
  intro hname
  rw [ramfsFindInode] at hnone
  split_ifs at hnone
  simp only [hdir, Ramfs.findSlot_eq_none, decide_eq_false_iff_not, not_and] at hnone
  exact hnone j hj hparent (by rw [hname, strcmp_self])

/-- Slot 0 never becomes an entry. -/
theorem TreeStep.root (h : TreeStep s op s') (hroot : (s.inodes 0).ino = 0) :
    (s'.inodes 0).ino = 0 := by
  rw [← Ramfs.tree_num] at hroot ⊢
  cases h with
  | keep heq => rwa [heq.1]
  | create _ _ _ _ _ hi _ htree _ => rwa [htree, Function.update_of_ne hi.symm]
  | @remove _ i _ _ htree _ =>
    rw [htree]
    by_cases hi : 0 = i
    · rw [hi, Function.update_self]
      rfl
    · rwa [Function.update_of_ne hi]

/-- Every operation keeps names unique. -/
theorem NameInv.treeStep (h : NameInv s) (hs : TreeStep s op s') : NameInv s' := by
  have hslash := h.noSlash
  refine ⟨hs.root h.root, ?_, fun j hj => ?_⟩
  · cases hs with
    | keep heq => exact heq.1 ▸ h.unique
    | create _ _ hnone hdir _ _ _ htree _ =>
      rw [htree]
      exact h.unique.create fun j hj hparent => name_ne_of_find_none hnone hdir j hj hparent
    | remove _ _ htree _ =>
      rw [htree]
      exact h.unique.clear rfl
  · rw [← Ramfs.tree_num] at hj
    rw [← Ramfs.tree_name]
    cases hs with
    | keep heq =>
      rw [heq.1] at hj ⊢
      exact hslash j hj
    | @create path i _ _ _ _ _ _ _ _ htree _ =>
      rw [htree] at hj ⊢
      -- the new name is what stands behind the last slash
      by_cases hji : j = i
      · rw [hji, Function.update_self, ramfsSplitPath_eq]
        exact slash_notMem_pathName path
      · rw [Function.update_of_ne hji] at hj ⊢
        exact hslash j hj
    | @remove _ i _ _ htree _ =>
      rw [htree] at hj ⊢
      obtain ⟨hji, hlive⟩ := Live.of_clear (t := s.tree) (e := Inode.zero.entry) rfl hj
      rw [Function.update_of_ne hji]
      exact hslash j hlive

theorem nameInv_ramfsRoot (pool : ℕ → UInt8) : NameInv (ramfsRoot pool) where
  root := ramfsRoot_ino pool 0
  unique _ _ hi := absurd hi (not_live_ramfsRoot pool)
  noSlash i hi := absurd (ramfsRoot_ino pool i) hi

/-- Names are unique in every state reached. -/
theorem nameInv_of_reachable {ok : RamfsRun → RamfsOp → Prop} {r : RamfsRun}
    (h : (ramfsSystem progs).ReachableBy ok r) : NameInv r.fs :=
  ramfs_tree_invariant NameInv (fun _ _ => True) (h.mono fun _ _ _ => trivial) nameInv_ramfsRoot
    (fun _ _ _ => trivial) fun _ _ _ hs _ hstep => hs.treeStep hstep

/-- **The namespace is unique.** In every run that creates fewer than `2 ^ 32 - 1` inodes live
inode numbers are pairwise different and below `ramfs_next_inode`, no live name has a slash, and
no two live inodes have the same parent and the same name. -/
theorem namespace_unique {r : RamfsRun} (h : (ramfsSystem progs).Reachable r)
    (hcreated : r.created < 0xFFFFFFFF) :
    (∀ i j, (r.fs.inodes i).ino ≠ 0 → (r.fs.inodes j).ino ≠ 0 →
      (r.fs.inodes i).ino = (r.fs.inodes j).ino → i = j) ∧
    (∀ i, (r.fs.inodes i).ino ≠ 0 → (r.fs.inodes i).ino < r.fs.nextInode) ∧
    (∀ i, (r.fs.inodes i).ino ≠ 0 → slash ∉ (r.fs.inodes i).name) ∧
    ∀ i j, (r.fs.inodes i).ino ≠ 0 → (r.fs.inodes j).ino ≠ 0 →
      (r.fs.inodes i).parentIno = (r.fs.inodes j).parentIno →
      (r.fs.inodes i).name = (r.fs.inodes j).name → i = j := by
  obtain ⟨hid, -⟩ := counted_of_reachable h hcreated
  have hname := nameInv_of_reachable h
  exact ⟨fun i j hi _ => hid.inj i j hi, fun i _ => hid.ino_lt i, hname.noSlash, hname.unique⟩

/-- `namespace_unique` behind `ramfs_init`. -/
theorem namespace_unique_sample :
    (∀ i j, (freshRun.fs.inodes i).ino ≠ 0 → (freshRun.fs.inodes j).ino ≠ 0 →
      (freshRun.fs.inodes i).ino = (freshRun.fs.inodes j).ino → i = j) ∧
    (∀ i, (freshRun.fs.inodes i).ino ≠ 0 → (freshRun.fs.inodes i).ino < freshRun.fs.nextInode) ∧
    (∀ i, (freshRun.fs.inodes i).ino ≠ 0 → slash ∉ (freshRun.fs.inodes i).name) ∧
    ∀ i j, (freshRun.fs.inodes i).ino ≠ 0 → (freshRun.fs.inodes j).ino ≠ 0 →
      (freshRun.fs.inodes i).parentIno = (freshRun.fs.inodes j).parentIno →
      (freshRun.fs.inodes i).name = (freshRun.fs.inodes j).name → i = j :=
  namespace_unique (.start freshRun_start) (by decide)

/-! ### No orphans -/

/-- What `ramfs_resolve_dir` finds is reached by a walk. -/
theorem exists_walk_of_resolveSegments {n m : ℕ} {segs : List CString}
    (h : resolveSegments s n segs = some m) : ∃ as, Walk s.tree n as m := by
  induction segs generalizing n with
  | nil => exact ⟨[], Option.some.inj h⟩
  | cons seg segs ih =>
    rw [resolveSegments] at h
    split_ifs at h
    · exact ih h
    split at h
    · simp at h
    · next k hfound =>
      have hk := s.findSlot_some hfound
      simp only [decide_eq_true_eq] at hk
      obtain ⟨as, hw⟩ := ih h
      exact ⟨(s.inodes k).name :: as, k, hk.1, (s.tree_isDir k).mpr hk.2.2.1, hk.2.1, rfl, hw⟩

theorem exists_walk_of_resolveDir {m : ℕ} {dir : CString} (h : ramfsResolveDir s dir = some m) :
    ∃ as, Walk s.tree 0 as m :=
  exists_walk_of_resolveSegments (Option.filter_eq_some_iff.mp h).1

/-- The condition of `noOrphans_of_reachable`: a directory that is removed has no entries. -/
def RamfsOp.RemovesEmpty (s : Ramfs) : RamfsOp → Prop
  | .rmdir path => ∀ i, ramfsFindInode s path = some i → i ≠ 0 → (s.inodes i).type = .dir →
      ∀ j, j ≠ i → (s.inodes j).ino ≠ 0 → (s.inodes j).parentIno ≠ (s.inodes i).ino
  | _ => True

/-- An operation that removes empty directories only leaves everything below the root. -/
theorem TreeStep.rooted (h : TreeStep s op s') (hok : op.RemovesEmpty s)
    (hzero : (s.inodes 0).ino = 0) (hroot : Rooted s.tree) : Rooted s'.tree := by
  cases h with
  | keep heq => exact heq.1 ▸ hroot
  | create _ _ _ hdir _ _ hino htree _ =>
    obtain ⟨as, hw⟩ := exists_walk_of_resolveDir hdir
    rw [htree]
    exact hroot.create (not_not.mpr hino) hw
  | @remove path i hop hfind htree _ =>
    rw [htree]
    have hfile : (Live s.tree i → (s.inodes i).type ≠ .dir) →
        Rooted (Function.update s.tree i Inode.zero.entry) := fun hfile =>
      hroot.clear_of_not_dir rfl fun hi => Bool.eq_false_iff.mpr fun hdir =>
        hfile hi ((s.tree_isDir i).mp hdir)
    rcases hop with ⟨rfl, hdir⟩ | ⟨-, htype⟩
    · by_cases hi : i = 0
      · exact hfile fun hlive => absurd (hi ▸ hzero) hlive
      · exact hroot.clear rfl fun j hji hj => hok i hfind hi hdir j hji hj
    · exact hfile fun _ => by simp [htype]

/-- **No orphans.** In every run that removes empty directories only, the parent of every live
inode is the root or a live directory, and a walk from the root leads there. -/
theorem noOrphans_of_reachable {r : RamfsRun}
    (h : (ramfsSystem progs).ReachableBy (fun r op => op.RemovesEmpty r.fs) r) (i : Fin 64)
    (hi : (r.fs.inodes i).ino ≠ 0) :
    ((r.fs.inodes i).parentIno = 0 ∨ ∃ j, (r.fs.inodes j).ino ≠ 0 ∧
      (r.fs.inodes j).type = .dir ∧ (r.fs.inodes j).ino = (r.fs.inodes i).parentIno) ∧
    ∃ as, Walk r.fs.tree 0 as (r.fs.inodes i).parentIno := by
  have hinv : (r.fs.inodes 0).ino = 0 ∧ Rooted r.fs.tree := by
    refine ramfs_tree_invariant (fun s => (s.inodes 0).ino = 0 ∧ Rooted s.tree)
      (fun s op => op.RemovesEmpty s) h (fun pool => ?_) (fun s op hop => ?_)
      fun s op s' hs hok hstep => ⟨hstep.root hs.1, hstep.rooted hok hs.1 hs.2⟩
    · exact ⟨ramfsRoot_ino pool 0, fun j hj => absurd hj (not_live_ramfsRoot pool)⟩
    · cases hop <;> trivial
  obtain ⟨as, hw⟩ := hinv.2 i hi
  refine ⟨?_, as, hw⟩
  rcases hw.end_cases with hzero | ⟨j, hj, hdir, hnum⟩
  · exact Or.inl hzero.symm
  · exact Or.inr ⟨j, hj, (r.fs.tree_isDir j).mp hdir, hnum⟩

/-- `noOrphans_of_reachable` for `/bin/hello` behind `ramfs_init`. -/
theorem noOrphans_sample :
    ((freshRun.fs.inodes 2).parentIno = 0 ∨ ∃ j, (freshRun.fs.inodes j).ino ≠ 0 ∧
      (freshRun.fs.inodes j).type = .dir ∧
      (freshRun.fs.inodes j).ino = (freshRun.fs.inodes 2).parentIno) ∧
    ∃ as, Walk freshRun.fs.tree 0 as (freshRun.fs.inodes 2).parentIno :=
  noOrphans_of_reachable (.start freshRun_start) 2 (by decide +kernel)

/-- `freshRun` continued by the removal of a directory with a file in it. -/
def orphanOps : List RamfsOp :=
  [.mkdir (some (cstr "/d")), .open (some (cstr "/d/f")) 1, .rmdir (some (cstr "/d"))]

/-- Without the condition there are orphans: `ramfs_rmdir` removes a directory that is not
empty. -/
theorem not_noOrphans :
    ¬∀ (progs : Programs) (r : RamfsRun), (ramfsSystem progs).Reachable r → ∀ i,
      (r.fs.inodes i).ino ≠ 0 → (r.fs.inodes i).parentIno = 0 ∨ ∃ j, (r.fs.inodes j).ino ≠ 0 ∧
        (r.fs.inodes j).type = .dir ∧ (r.fs.inodes j).ino = (r.fs.inodes i).parentIno := by
  intro h
  have hrun : ((ramfsSystem noPrograms).runInputs freshRun orphanOps).map (fun r =>
      ((r.fs.inodes 9).ino, (r.fs.inodes 9).parentIno, decide (∃ j, (r.fs.inodes j).ino = 8))) =
      some (9, 8, false) := by decide +kernel
  obtain ⟨r, hr, heq⟩ := Option.map_eq_some_iff.mp hrun
  simp only [Prod.mk.injEq, decide_eq_false_iff_not, not_exists] at heq
  obtain ⟨hino, hparent, hnone⟩ := heq
  rcases h noPrograms r (.runInputs (.start freshRun_start) (fun _ _ _ _ => trivial) hr) 9
    (by omega) with hzero | ⟨j, -, -, hj⟩
  · omega
  · exact hnone j (hj.trans hparent)

end ChalesOs
