import ChalesOs.Ramfs.Descriptors

/-!
# Lookups and what paths spell

Read component by component, a path spells the entry with the name behind the last slash, in the
directory to which a walk along the components in front of it leads (`Ramfs.Spells`). The lookup
of the code is this reading (`ramfsFindInode_iff`), but for one thing: it walks along the first
255 bytes of the directory part only.

So a path with a longer directory part can lead to an entry, or create one, that it does not spell,
and a creation with a longer name leaves the inode. `lookupSound_iff` says exactly when neither
happens, and `ramfsFindInode_spellPath` is the converse: an entry is found by the path made of the
names above it.
-/

namespace ChalesOs

open NameTree

variable {s s' : Ramfs} {i j : Fin 64} {op : RamfsOp} {res : RamfsResult} {p : CString}
  {path : Option CString} {progs : Programs} {run : RamfsRun}

/-- The path argument is a C string: it has no `NUL` in it. -/
def RamfsOp.IsCString (op : RamfsOp) : Prop := ∀ p, op.path = some (some p) → (0 : UInt8) ∉ p

/-! ### Lookups are walks -/

/-- What lookups rely on: names are unique in their directory, and have no slash and no `NUL`. -/
structure PathInv (s : Ramfs) : Prop extends NameInv s where
  noNul : ∀ i, (s.inodes i).ino ≠ 0 → (0 : UInt8) ∉ (s.inodes i).name

/-- No operation on C strings puts a `NUL` into a name. -/
theorem TreeStep.noNul (h : TreeStep s op s') (hop : op.IsCString)
    (hs : ∀ i, (s.inodes i).ino ≠ 0 → (0 : UInt8) ∉ (s.inodes i).name) (i : Fin 64)
    (hi : (s'.inodes i).ino ≠ 0) : (0 : UInt8) ∉ (s'.inodes i).name := by
  rw [← Ramfs.tree_num] at hi
  rw [← Ramfs.tree_name]
  cases h with
  | keep heq =>
    rw [heq.1] at hi ⊢
    exact hs i hi
  | @create path j _ _ hpath _ _ _ _ _ htree _ =>
    rw [htree] at hi ⊢
    by_cases hij : i = j
    · rw [hij, Function.update_self, ramfsSplitPath_eq]
      exact fun hmem => hop path hpath (mem_of_mem_pathName hmem)
    · rw [Function.update_of_ne hij] at hi ⊢
      exact hs i hi
  | @remove _ j _ _ htree _ =>
    rw [htree] at hi ⊢
    obtain ⟨hij, hlive⟩ := Live.of_clear (t := s.tree) (e := Inode.zero.entry) rfl hi
    rw [Function.update_of_ne hij]
    exact hs i hlive

theorem pathInv_of_reachable (h : (ramfsSystem progs).ReachableBy (fun _ op => op.IsCString) run) :
    PathInv run.fs where
  toNameInv := nameInv_of_reachable h
  noNul := by
    refine ramfs_tree_invariant _ (fun _ op => op.IsCString) h
      (fun pool i hi => absurd (ramfsRoot_ino pool i) hi) (fun _ op hop p hp => ?_)
      fun s op s' hs hop hstep => hstep.noNul hop hs
    cases hop with
    | mkdir =>
      obtain rfl := Option.some_injective _ (Option.some_injective _ hp)
      decide
    | @«open» bin hbin =>
      obtain rfl := Option.some_injective _ (Option.some_injective _ hp)
      have hall : ∀ name ∈ progs.binaries.map Prod.fst, (0 : UInt8) ∉ name := by
        simp only [Programs.binaries, List.map_cons, List.map_nil]
        decide
      exact hall bin.1 (List.mem_map_of_mem hbin)
    | write | close => exact absurd hp (by simp [RamfsOp.path])

/-- What `ramfs_resolve_dir` looks for is the directory with the name of the segment. -/
theorem PathInv.findSlot_dir (h : PathInv s) {n : ℕ} {seg : CString} (hseg : (0 : UInt8) ∉ seg) :
    (s.findSlot fun inode => inode.ino ≠ 0 ∧ inode.parentIno = n ∧ inode.type = .dir ∧
        strncmp inode.name seg seg.length = 0 ∧ inode.name.getD seg.length 0 = 0) = some i ↔
      Live s.tree i ∧ (s.tree i).isDir = true ∧ (s.tree i).parent = n ∧ (s.tree i).name = seg := by
  have htest : ∀ j, ((s.inodes j).ino ≠ 0 ∧ (s.inodes j).parentIno = n ∧
      (s.inodes j).type = .dir ∧ strncmp (s.inodes j).name seg seg.length = 0 ∧
      (s.inodes j).name.getD seg.length 0 = 0) ↔
      Live s.tree j ∧ (s.tree j).isDir = true ∧ (s.tree j).parent = n ∧
        (s.tree j).name = seg := by
    intro j
    rw [Ramfs.live_tree, Ramfs.tree_isDir, Ramfs.tree_parent, Ramfs.tree_name]
    by_cases hj : (s.inodes j).ino ≠ 0
    · rw [strncmp_eq_zero (h.noNul j hj) hseg]
      tauto
    · tauto
  rw [Ramfs.findSlot_iff]
  · rw [decide_eq_true_iff, htest]
  · intro j k hj hk
    rw [decide_eq_true_iff, htest] at hj hk
    exact h.unique j k hj.1 hk.1 (hj.2.2.1.trans hk.2.2.1.symm) (hj.2.2.2.trans hk.2.2.2.symm)

/-- **`ramfs_resolve_dir` is a walk** along the segments that are not empty. -/
theorem PathInv.resolveSegments_iff (h : PathInv s) {n m : ℕ} {segs : List CString}
    (hsegs : ∀ seg ∈ segs, (0 : UInt8) ∉ seg) :
    resolveSegments s n segs = some m ↔ Walk s.tree n (segs.filter fun seg => seg ≠ []) m := by
  induction segs generalizing n with
  | nil => exact Option.some_inj
  | cons seg segs ih =>
    have ih := fun {n} => ih (n := n) fun seg hseg => hsegs seg (List.mem_cons_of_mem _ hseg)
    rw [resolveSegments]
    by_cases hempty : seg = []
    · rw [if_pos hempty, List.filter_cons_of_neg (by simpa using hempty), ih]
    rw [if_neg hempty, List.filter_cons_of_pos (by simpa using hempty), walk_cons]
    have hseg := hsegs seg List.mem_cons_self
    constructor
    · intro hm
      split at hm
      · simp at hm
      · next k hfound =>
        obtain ⟨hlive, hdir, hparent, hname⟩ := (h.findSlot_dir hseg).mp hfound
        exact ⟨k, hlive, hdir, hparent, hname, ih.mp hm⟩
    · rintro ⟨k, hlive, hdir, hparent, hname, hw⟩
      rw [(h.findSlot_dir hseg).mpr ⟨hlive, hdir, hparent, hname⟩]
      exact ih.mpr hw

theorem PathInv.ramfsResolveDir_iff (h : PathInv s) {m : ℕ} {dir : CString}
    (hdir : (0 : UInt8) ∉ dir) :
    ramfsResolveDir s dir = some m ↔ Walk s.tree 0 (dirSegments dir) m ∧ m ≠ 0xFFFFFFFF := by
  rw [ramfsResolveDir, Option.filter_eq_some_iff, h.resolveSegments_iff, decide_eq_true_iff,
    dirSegments]
  exact fun seg hseg hmem => hdir (mem_of_mem_splitOn hseg hmem)

/-- The part of a path along which `ramfs_find_inode` walks: the first 255 bytes of the directory
part. -/
def pathCut (path : CString) : CString := (pathDir path).take 255

theorem notMem_pathCut (hp : (0 : UInt8) ∉ p) : (0 : UInt8) ∉ pathCut p :=
  fun hmem => hp (mem_of_mem_pathDir (List.mem_of_mem_take hmem))

/-- **Lookups, component by component.** -/
theorem PathInv.ramfsFindInode_iff (h : PathInv s) (hp : (0 : UInt8) ∉ p)
    (hroot : ¬IsRootPath (some p)) :
    ramfsFindInode s (some p) = some i ↔ (s.inodes i).ino ≠ 0 ∧ (s.inodes i).name = pathName p ∧
      ramfsResolveDir s (pathCut p) = some (s.inodes i).parentIno := by
  have hname : (0 : UInt8) ∉ pathName p := fun hmem => hp (mem_of_mem_pathName hmem)
  have hempty : ¬(p = [] ∨ p = [slash]) := fun hp =>
    hroot (Or.inr (hp.imp (congrArg some) (congrArg some)))
  rw [ramfsFindInode, if_neg hempty, ramfsSplitPath_eq]
  dsimp only
  rw [← pathCut]
  cases hdir : ramfsResolveDir s (pathCut p) with
  | none => simp
  | some m =>
    have htest : ∀ j, ((s.inodes j).ino ≠ 0 ∧ (s.inodes j).parentIno = m ∧
        strcmp (s.inodes j).name (pathName p) = 0) ↔ (s.inodes j).ino ≠ 0 ∧
          (s.inodes j).name = pathName p ∧ m = (s.inodes j).parentIno := by
      intro j
      by_cases hj : (s.inodes j).ino ≠ 0
      · rw [strcmp_eq_zero (h.noNul j hj) hname]
        tauto
      · tauto
    dsimp only
    rw [Ramfs.findSlot_iff]
    · rw [decide_eq_true_iff, htest, Option.some_inj]
    · intro j k hj hk
      rw [decide_eq_true_iff, htest] at hj hk
      exact h.unique j k hj.1 hk.1 (hj.2.2.symm.trans hk.2.2) (hj.2.1.trans hk.2.1.symm)

/-! ### Every entry is found by its path -/

/-- **Entries are found by their paths.** In every run that creates fewer than `2 ^ 32 - 1`
inodes, the path made of the names above a live inode and its own, each behind one or more
slashes, leads to it, if no name is empty and the directory part has fewer than 256 bytes. -/
theorem ramfsFindInode_spellPath
    (h : (ramfsSystem progs).ReachableBy (fun _ op => op.IsCString) run)
    (hcreated : run.created < 0xFFFFFFFF) (comps : List (ℕ × CString)) (gap : ℕ)
    (hi : (run.fs.inodes i).ino ≠ 0)
    (hw : Walk run.fs.tree 0 (comps.map Prod.snd) (run.fs.inodes i).parentIno)
    (hne : ∀ comp ∈ comps ++ [(gap, (run.fs.inodes i).name)], comp.2 ≠ [])
    (hlen : (pathDir (spellPath (comps ++ [(gap, (run.fs.inodes i).name)]))).length < 256) :
    ramfsFindInode run.fs (some (spellPath (comps ++ [(gap, (run.fs.inodes i).name)]))) =
      some i := by
  have hinv := pathInv_of_reachable h
  obtain ⟨hid, hnext⟩ := counted_of_reachable h hcreated
  -- every component is the name of a live inode
  have hcomp : ∀ comp ∈ comps ++ [(gap, (run.fs.inodes i).name)],
      ∃ j, (run.fs.inodes j).ino ≠ 0 ∧ (run.fs.inodes j).name = comp.2 := by
    intro comp hmem
    rcases List.mem_append.mp hmem with hmem | hmem
    · exact hw.exists_of_mem (List.mem_map_of_mem hmem)
    · obtain rfl := List.mem_singleton.mp hmem
      exact ⟨i, hi, rfl⟩
  have hslash : ∀ comp ∈ comps ++ [(gap, (run.fs.inodes i).name)], slash ∉ comp.2 := by
    intro comp hmem
    obtain ⟨j, hj, hname⟩ := hcomp comp hmem
    exact hname ▸ hinv.noSlash j hj
  have hname : (gap, (run.fs.inodes i).name) ∈ comps ++ [(gap, (run.fs.inodes i).name)] := by
    simp
  have hnul : (0 : UInt8) ∉ spellPath (comps ++ [(gap, (run.fs.inodes i).name)]) := by
    intro hmem
    rcases mem_of_mem_spellPath hmem with hzero | ⟨comp, hcmem, hmem⟩
    · exact absurd hzero (by decide)
    · obtain ⟨j, hj, hname⟩ := hcomp comp hcmem
      exact hinv.noNul j hj (hname ▸ hmem)
  have hspell := spellPath_concat comps gap (run.fs.inodes i).name
  have hpathName : pathName (spellPath (comps ++ [(gap, (run.fs.inodes i).name)])) =
      (run.fs.inodes i).name := by
    rw [hspell, pathName_append (hslash _ hname)]
  have hpathDir : pathDir (spellPath (comps ++ [(gap, (run.fs.inodes i).name)])) =
      spellPath comps ++ List.replicate gap slash := by
    rw [hspell, pathDir_append (hslash _ hname)]
  have hroot : ¬IsRootPath (some (spellPath (comps ++ [(gap, (run.fs.inodes i).name)]))) := by
    intro hroot
    refine hne _ hname (hpathName.symm.trans ?_)
    rcases hroot with hroot | hroot | hroot
    · simp at hroot
    · rw [Option.some_injective _ hroot]
      rfl
    · rw [Option.some_injective _ hroot]
      rfl
  -- the name and the parent are what the last component and the walk say
  refine (hinv.ramfsFindInode_iff hnul hroot).mpr ⟨hi, hpathName.symm, ?_⟩
  rw [hinv.ramfsResolveDir_iff (notMem_pathCut hnul), pathCut,
    List.take_of_length_le (by omega), hpathDir, dirSegments_spellPath gap fun comp hmem =>
      ⟨hslash comp (List.mem_append_left _ hmem), hne comp (List.mem_append_left _ hmem)⟩]
  refine ⟨hw, ?_⟩
  -- the walk ends at a number in use, which does not read as -1
  rcases hw.end_cases with hzero | ⟨j, -, -, hnum⟩
  · omega
  · have := hid.ino_lt j
    rw [Ramfs.tree_num] at hnum
    omega

/-- `ramfsFindInode_spellPath` for `/bin/hello`, with some more slashes. -/
theorem ramfsFindInode_spellPath_sample :
    ramfsFindInode freshRun.fs (some (cstr "//bin///hello")) = some 2 := by
  have hname : (freshRun.fs.inodes 2).name = cstr "hello" := by decide +kernel
  have hparent : (freshRun.fs.inodes 2).parentIno = 1 := by decide +kernel
  have hbin : (freshRun.fs.tree 1).num = 1 ∧ (freshRun.fs.tree 1).isDir = true ∧
      (freshRun.fs.tree 1).parent = 0 ∧ (freshRun.fs.tree 1).name = cstr "bin" := by
    decide +kernel
  obtain ⟨hnum, hdir, hroot, hbinName⟩ := hbin
  have hw : Walk freshRun.fs.tree 0 ([(1, cstr "bin")].map Prod.snd)
      (freshRun.fs.inodes 2).parentIno :=
    ⟨1, by rw [Live, hnum]; decide, hdir, hroot, hbinName, hnum.trans hparent.symm⟩
  have hpath : spellPath ([(1, cstr "bin")] ++ [(2, (freshRun.fs.inodes 2).name)]) =
      cstr "//bin///hello" := by
    rw [hname]
    decide
  rw [← hpath]
  refine ramfsFindInode_spellPath (.start freshRun_start) (by decide) [(1, cstr "bin")] 2
    (by decide +kernel) hw ?_ ?_
  · rw [hname]
    decide
  · rw [hname]
    decide

/-! ### Operations act on what their paths spell -/

/-- The path spells the inode in slot `i`: it is a path of the root and `i` is the root's slot, or
its last component is the name of the inode, and the components in front of it lead to its
directory. -/
def Ramfs.Spells (s : Ramfs) (p : CString) (i : Fin 64) : Prop :=
  if IsRootPath (some p) then i = 0
  else (s.inodes i).name = pathName p ∧
    Walk s.tree 0 (dirSegments (pathDir p)) (s.inodes i).parentIno

/-- The step acts on inodes that the path spells only: on those it changes or removes, on those it
creates, and on those it opens. -/
structure ActsAsSpelled (s : Ramfs) (p : CString) (s' : Ramfs) : Prop where
  changed : ∀ i, s'.inodes i ≠ s.inodes i → i = 0 ∨ (s.inodes i).ino ≠ 0 → s.Spells p i
  created : ∀ i, (s.inodes i).ino = 0 → (s'.inodes i).ino ≠ 0 → s'.Spells p i
  opened : ∀ k, (s'.fds k).ino ≠ (s.fds k).ino →
    ∃ i, (s'.inodes i).ino = (s'.fds k).ino ∧ s'.Spells p i

/-- A lookup of the path finds what it spells, and every operation on it has an outcome, in which
it has acted on what the path spells. -/
structure Ramfs.LookupSound (s : Ramfs) (p : CString) : Prop where
  lookup : ∀ i, ramfsFindInode s (some p) = some i → s.Spells p i
  ops : ∀ op, op.path = some (some p) → ∃ res s', ramfsExec s op = some (res, s') ∧
    ActsAsSpelled s p s'

/-- Cutting the directory part does no harm: if the first 255 bytes of it lead to a directory, then
the whole of it leads there as well, or that directory has no entry with the name of the path, and
none can be created. -/
def Ramfs.CutHarmless (s : Ramfs) (p : CString) : Prop :=
  ∀ m, ramfsResolveDir s (pathCut p) = some m →
    Walk s.tree 0 (dirSegments (pathDir p)) m ∨
    (∀ i, (s.inodes i).ino ≠ 0 → (s.inodes i).parentIno = m → (s.inodes i).name ≠ pathName p) ∧
      (ramfsFindFreeInode s = none ∨ s.nextInode = 0)

/-- A path whose directory part has the same components when it is cut is harmless, above all one
with a directory part of at most 255 bytes. -/
theorem PathInv.cutHarmless_of_dirSegments (h : PathInv s) (hp : (0 : UInt8) ∉ p)
    (hcut : dirSegments (pathCut p) = dirSegments (pathDir p)) : s.CutHarmless p := by
  intro m hm
  rw [h.ramfsResolveDir_iff (notMem_pathCut hp), hcut] at hm
  exact Or.inl hm.1

theorem pathCut_of_length_le (h : (pathDir p).length ≤ 255) : pathCut p = pathDir p :=
  List.take_of_length_le h

/-- An operation on a path changes the inode the path is found at, or fills a free slot. -/
theorem changed_slot (h : ramfsExec s op = some (res, s')) (hop : op.path = some path)
    (hi : s'.inodes i ≠ s.inodes i) :
    ramfsFindInode s path = some i ∨ i ≠ 0 ∧ (s.inodes i).ino = 0 := by
  -- only a creation changes a slot in `ramfs_open`, and the slot was free
  have hopen : ∀ {path flags r}, ramfsOpen s path flags = some r →
      r.2.inodes i ≠ s.inodes i → i ≠ 0 ∧ (s.inodes i).ino = 0 := by
    intro path flags r hr hi
    rcases ramfsOpen_cases hr with rfl | ⟨j, -, rfl⟩ | ⟨p, j, parentIno, s₁, -, -, -, hfree, -,
      hcreate, rfl⟩
    · exact absurd rfl hi
    · rw [(ramfsOpenFd_fdsOnly _ _).inodes] at hi
      exact absurd rfl hi
    · rw [(ramfsOpenFd_fdsOnly _ _).inodes] at hi
      obtain rfl : i = j := by_contra fun hij => hi ((ramfsCreate_frame hcreate).2.1 i hij)
      exact ramfsFindFreeInode_some hfree
  -- the second half of `ramfs_open2` changes the slot it has found
  have hopen2 : ∀ {s₁ j oflags}, i ≠ j → (ramfsOpen2Fd s₁ j oflags).2.inodes i = s₁.inodes i := by
    intro s₁ j oflags hij
    rcases ramfsOpen2Fd_cases s₁ j oflags with ⟨ret, -, heq⟩ | ⟨k, -, -, heq⟩
    · rw [heq]
    · rw [heq, Ramfs.setFd_inodes]
      split_ifs
      · exact s₁.setInode_of_ne _ hij
      · rfl
  cases h using ramfsExec_elim with
  | «open» path flags r _ hr =>
    exact Or.inr (hopen hr hi)
  | open2 path oflags r _ hr =>
    obtain rfl := Option.some_injective _ hop
    rcases ramfsOpen2_split hr with ⟨-, heq, -⟩ | ⟨j, hj, rfl⟩ | ⟨tmp, s₁, -, hnone, hopen₁, hr⟩
    · exact absurd (by rw [heq]) hi
    · obtain rfl : i = j := by_contra fun hij => hi (hopen2 hij)
      exact Or.inl hj
    · right
      rcases hr with ⟨-, rfl⟩ | ⟨htmp, ⟨-, rfl⟩ | ⟨j, hj, rfl⟩⟩
      · exact hopen hopen₁ hi
      · rw [(ramfsClose_fdsOnly _ _).inodes] at hi
        exact hopen hopen₁ hi
      · by_cases hij : i = j
        · obtain ⟨hj, hino, -⟩ :=
            find_of_ramfsOpen hnone hopen₁ htmp (ramfsClose_fdsOnly s₁ tmp).inodes hj
          exact hij ▸ ⟨hj, hino⟩
        · rw [hopen2 hij, (ramfsClose_fdsOnly _ _).inodes] at hi
          exact hopen hopen₁ hi
  | close | read | write | lseek => simp [RamfsOp.path] at hop
  | mkdir path r _ hr =>
    rcases ramfsMkdir_cases hr with rfl | ⟨p, j, parentIno, s₁, -, -, hfree, -, hcreate, rfl⟩
    · exact absurd rfl hi
    · obtain rfl : i = j := by_contra fun hij => hi ((ramfsCreate_frame hcreate).2.1 i hij)
      exact Or.inr (ramfsFindFreeInode_some hfree)
  | rmdir path =>
    obtain rfl := Option.some_injective _ hop
    rcases ramfsRmdir_cases s path with heq | ⟨j, hj, -, heq⟩
    · exact absurd (by rw [heq]) hi
    · obtain rfl : i = j := by_contra fun hij => hi (by rw [heq]; exact s.setInode_of_ne _ hij)
      exact Or.inl hj
  | unlink path =>
    obtain rfl := Option.some_injective _ hop
    rcases ramfsUnlink_cases s path with heq | ⟨j, hj, -, heq⟩
    · exact absurd (by rw [heq]) hi
    · obtain rfl : i = j := by_contra fun hij => hi <| by
        rw [heq, Ramfs.setInode_of_ne _ _ hij, (ramfsRelease_frame s j).1]
      exact Or.inl hj

theorem Ramfs.Spells.of_tree (h : s.Spells p i) (htree : s'.tree = s.tree) : s'.Spells p i := by
  rw [Ramfs.Spells, ← Ramfs.tree_name, ← Ramfs.tree_parent, htree]
  exact h

theorem PathInv.spells_of_find (h : PathInv s) (hp : (0 : UInt8) ∉ p) (hcut : s.CutHarmless p)
    (hfind : ramfsFindInode s (some p) = some i) : s.Spells p i := by
  rw [Ramfs.Spells]
  by_cases hroot : IsRootPath (some p)
  · rw [if_pos hroot]
    exact (Option.some_injective _ ((ramfsFindInode_of_root hroot).symm.trans hfind)).symm
  rw [if_neg hroot]
  obtain ⟨hi, hname, hdir⟩ := (h.ramfsFindInode_iff hp hroot).mp hfind
  rcases hcut _ hdir with hw | ⟨hnone, -⟩
  · exact ⟨hname, hw⟩
  · exact absurd hname (hnone i hi rfl)

/-- What an operation on a harmless path creates, the path spells. -/
theorem Ramfs.CutHarmless.spells_of_created (hcut : s.CutHarmless p)
    (hop : op.path = some (some p)) (hs : TreeStep s op s') (hi : (s.inodes i).ino = 0)
    (hi' : (s'.inodes i).ino ≠ 0) : s'.Spells p i := by
  have hnum : (s.tree i).num = 0 := hi
  have hnum' : (s'.tree i).num ≠ 0 := hi'
  cases hs with
  | keep heq => exact absurd hnum (by rwa [heq.1] at hnum')
  | @create path j m type hpath hnone hdir _ hj hino htree _ =>
    obtain rfl := Option.some_injective _ (Option.some_injective _ (hop.symm.trans hpath))
    obtain rfl : i = j := by_contra fun hij => by
      rw [htree, Function.update_of_ne hij] at hnum'
      exact hnum' hnum
    rw [htree, Function.update_self] at hnum'
    rw [ramfsSplitPath_eq] at hdir htree
    have hroot : ¬IsRootPath (some p) := fun hroot => by
      simp [ramfsFindInode_of_root hroot] at hnone
    -- the creation has happened, so the cut was harmless because the walks agree
    have hw : Walk s.tree 0 (dirSegments (pathDir p)) m := by
      refine (hcut m hdir).resolve_right ?_
      rintro ⟨-, hfree | hnext⟩
      · rw [ramfsFindFreeInode, List.find?_eq_none] at hfree
        exact hfree i (List.mem_finRange i) (decide_eq_true ⟨hj, hino⟩)
      · exact hnum' hnext
    rw [Ramfs.Spells, if_neg hroot, ← Ramfs.tree_name, ← Ramfs.tree_parent, htree,
      Function.update_self]
    exact ⟨rfl, hw.create (not_not.mpr hino)⟩
  | @remove _ j _ _ htree _ =>
    rw [htree] at hnum'
    exact absurd hnum (Live.of_clear (t := s.tree) (e := Inode.zero.entry) rfl hnum').2

/-- An operation on a path has an outcome, unless it creates an inode whose name is too long. -/
theorem ramfsExec_isSome_of_creates (hop : op.path = some (some p))
    (hfits : s.Creates (some p) → (pathName p).length ≤ 255) : (ramfsExec s op).isSome := by
  cases op with
  | «open» path flags =>
    obtain rfl := Option.some_injective _ hop
    rw [ramfsExec, Option.isSome_map]
    exact ramfsOpen_isSome_of_creates flags hfits
  | open2 path oflags =>
    obtain rfl := Option.some_injective _ hop
    rw [ramfsExec, Option.isSome_map, ramfsOpen2, if_neg (Option.some_ne_none p)]
    cases ramfsFindInode s (some p) with
    | some i =>
      dsimp only
      split_ifs <;> rfl
    | none =>
      dsimp only
      split_ifs
      · rfl
      · rw [Option.isSome_map]
        exact ramfsOpen_isSome_of_creates 1 hfits
  | close | read | write | lseek => simp [RamfsOp.path] at hop
  | mkdir path =>
    obtain rfl := Option.some_injective _ hop
    rw [ramfsExec, Option.isSome_map, ramfsMkdir]
    split_ifs with hempty hfound
    · rfl
    · rfl
    cases hfree : ramfsFindFreeInode s with
    | none => rfl
    | some i =>
      dsimp only
      cases hdir : ramfsResolveDir s (ramfsSplitPath p).1 with
      | none => rfl
      | some parentIno =>
        rw [Option.isSome_map, ramfsSplitPath_eq]
        exact ramfsCreate_isSome (hfits (.intro (by simpa using hfound) hfree hdir))
  | rmdir | unlink => rfl

/-- **Harmless paths are sound**, if the name fits or there is nothing to create. -/
theorem PathInv.lookupSound_of_cut (h : PathInv s) (hp : (0 : UInt8) ∉ p)
    (hcut : s.CutHarmless p) (hfits : s.Creates (some p) → (pathName p).length ≤ 255) :
    s.LookupSound p where
  lookup _ hfind := h.spells_of_find hp hcut hfind
  ops op hop := by
    obtain ⟨⟨res, s'⟩, hexec⟩ :=
      Option.isSome_iff_exists.mp (ramfsExec_isSome_of_creates hop hfits)
    have hstep := ramfsExec_treeStep hexec
    refine ⟨res, s', hexec, fun i hi hlive => ?_,
      fun i hi hi' => hcut.spells_of_created hop hstep hi hi', fun k hk => ?_⟩
    · rcases changed_slot hexec hop hi with hfind | ⟨hzero, hino⟩
      · exact h.spells_of_find hp hcut hfind
      · exact absurd hlive (not_or_intro hzero (not_not.mpr hino))
    · cases ramfsExec_fdStep hexec with
      | keep _ hsame => exact absurd (hsame k) hk
      | clear hclose =>
        subst hclose
        simp [RamfsOp.path] at hop
      | @fill path k' hopens _ hfree hothers hfile =>
        obtain rfl : k = k' := by_contra fun hkk => hk (hothers k hkk)
        obtain rfl : path = some p := by
          cases hopens <;> exact Option.some_injective _ hop
        obtain ⟨i, -, hnum, hi, -⟩ := hfile
        have hlive : (s'.inodes i).ino ≠ 0 := fun hzero => hk (by rw [hnum, hzero, hfree])
        refine ⟨i, hnum.symm, ?_⟩
        by_cases hino : (s.inodes i).ino = 0
        · exact hcut.spells_of_created hop hstep hino hlive
        · have hfind := hi.resolve_right hino
          -- the file was there, so the open has not changed the tree
          cases hstep with
          | keep heq => exact (h.spells_of_find hp hcut hfind).of_tree heq.1
          | create _ hpath hnone =>
            obtain rfl := Option.some_injective _ (Option.some_injective _ (hop.symm.trans hpath))
            simp [hfind] at hnone
          | remove hremove => rcases hremove with ⟨rfl, -⟩ | ⟨rfl, -⟩ <;> cases hopens

/-- Where lookups are sound, a name that is created fits. -/
theorem Ramfs.LookupSound.length_le (hsound : s.LookupSound p) (hc : s.Creates (some p)) :
    (pathName p).length ≤ 255 := by
  obtain ⟨res, s', hexec, -⟩ := hsound.ops (.open (some p) 1) rfl
  rw [ramfsExec, Option.map_eq_some_iff] at hexec
  obtain ⟨r, hr, -⟩ := hexec
  exact hc.length_le (by decide) hr

/-- **Sound paths are harmless.** Where the cut leads astray, a lookup finds the wrong inode, or
`ramfs_open` creates one in the wrong directory. -/
theorem PathInv.cut_of_lookupSound (h : PathInv s) (hp : (0 : UInt8) ∉ p)
    (hsound : s.LookupSound p) : s.CutHarmless p := by
  intro m hm
  by_cases hroot : IsRootPath (some p)
  · left
    rcases hroot with hroot | hroot | hroot
    · simp at hroot
    · obtain rfl := Option.some_injective _ hroot
      exact ((h.ramfsResolveDir_iff (notMem_pathCut hp)).mp hm).1
    · obtain rfl := Option.some_injective _ hroot
      exact ((h.ramfsResolveDir_iff (notMem_pathCut hp)).mp hm).1
  refine or_iff_not_imp_left.mpr fun hw => ?_
  -- what the path spells belongs to the directory the whole path leads to
  have hspells : ∀ {s' : Ramfs} {i : Fin 64}, s'.Spells p i → (s'.inodes i).parentIno = m →
      Walk s'.tree 0 (dirSegments (pathDir p)) m := by
    intro s' i hsp hparent
    rw [Ramfs.Spells, if_neg hroot] at hsp
    exact hparent ▸ hsp.2
  have hnone : ∀ i, (s.inodes i).ino ≠ 0 → (s.inodes i).parentIno = m →
      (s.inodes i).name ≠ pathName p := fun i hi hparent hname =>
    hw (hspells (hsound.lookup i ((h.ramfsFindInode_iff hp hroot).mpr
      ⟨hi, hname, hparent ▸ hm⟩)) hparent)
  refine ⟨hnone, ?_⟩
  by_contra hnot
  obtain ⟨hfree, hnext⟩ := not_or.mp hnot
  have hfind : ramfsFindInode s (some p) = none := by
    refine Option.eq_none_iff_forall_ne_some.mpr fun i hi => ?_
    obtain ⟨hi, hname, hparent⟩ := (h.ramfsFindInode_iff hp hroot).mp hi
    exact hnone i hi (Option.some_injective _ (hparent.symm.trans hm)) hname
  have hcreates : s.Creates (some p) := by
    refine ⟨hfind, Option.isSome_iff_ne_none.mpr hfree, ?_⟩
    rw [Option.getD_some, ramfsSplitPath_eq]
    exact Option.isSome_iff_exists.mpr ⟨m, hm⟩
  -- otherwise an open creates the path in the directory of the cut path
  obtain ⟨res, s', hexec, hacts⟩ := hsound.ops (.open (some p) 1) rfl
  rw [ramfsExec, Option.map_eq_some_iff] at hexec
  obtain ⟨r, hr, heq⟩ := hexec
  obtain ⟨-, rfl⟩ := Prod.mk.inj heq
  obtain ⟨p', i, m', s₁, hp', -, hslot, hdir, hcreate, rfl⟩ :=
    ramfsOpen_of_creates hcreates (by decide) hr
  obtain rfl := Option.some_injective _ hp'
  rw [ramfsSplitPath_eq] at hdir
  obtain rfl : m' = m := Option.some_injective _ (hdir.symm.trans hm)
  obtain ⟨hself, hne, -, -⟩ := ramfsCreate_frame hcreate
  have hinodes := (ramfsOpenFd_fdsOnly s₁ i).inodes
  have hsp := hacts.created i (ramfsFindFreeInode_some hslot).2 (by rwa [hinodes, hself])
  -- the new inode is a file, so the walk does not pass it
  refine hw ((hspells hsp (by rw [hinodes, hself])).mono fun j _ hdir => ?_)
  rw [Ramfs.tree_isDir, hinodes] at hdir
  have hji : j ≠ i := by
    rintro rfl
    rw [hself] at hdir
    exact NodeType.noConfusion hdir
  rw [Ramfs.tree, Ramfs.tree, hinodes, hne j hji]

/-- **When lookups are sound.** In every state reached and for every path, lookups and operations
on the path keep to what it spells if and only if cutting its directory part does no harm, and the
name fits its field unless nothing can be created. -/
theorem lookupSound_iff (h : (ramfsSystem progs).ReachableBy (fun _ op => op.IsCString) run)
    (hp : (0 : UInt8) ∉ p) :
    run.fs.LookupSound p ↔ run.fs.CutHarmless p ∧
      (run.fs.Creates (some p) → (pathName p).length ≤ 255) :=
  have hinv := pathInv_of_reachable h
  ⟨fun hsound => ⟨hinv.cut_of_lookupSound hp hsound, hsound.length_le⟩,
    fun ⟨hcut, hfits⟩ => hinv.lookupSound_of_cut hp hcut hfits⟩

/-- `lookupSound_iff` for `/bin/hello`. -/
theorem lookupSound_sample : freshRun.fs.LookupSound (cstr "/bin/hello") := by
  have hreach : (ramfsSystem noPrograms).ReachableBy (fun _ op => op.IsCString) freshRun :=
    .start freshRun_start
  refine (lookupSound_iff hreach (by decide)).mpr ⟨?_, fun _ => by decide⟩
  exact (pathInv_of_reachable hreach).cutHarmless_of_dirSegments (by decide)
    (congrArg dirSegments (pathCut_of_length_le (by decide)))

/-- A path with a directory part of 256 bytes, 255 slashes and an `x`. -/
def longPath : CString := List.replicate 255 slash ++ cstr "x/bin"

/-- The path leads to `/bin`, but spells something else. -/
theorem not_lookupSound :
    ¬∀ (progs : Programs) (run : RamfsRun),
      (ramfsSystem progs).ReachableBy (fun _ op => op.IsCString) run →
      ∀ p, (0 : UInt8) ∉ p → run.fs.LookupSound p := by
  intro h
  have hsound := h noPrograms freshRun (.start freshRun_start) longPath (by decide +kernel)
  have hsp := hsound.lookup 1 (by decide +kernel)
  rw [Ramfs.Spells, if_neg (by decide +kernel),
    show dirSegments (pathDir longPath) = [cstr "x"] by decide +kernel] at hsp
  obtain ⟨-, i, -, -, -, hname, -⟩ := hsp
  have hnot : ∀ i, (freshRun.fs.inodes i).name ≠ cstr "x" := by decide +kernel
  exact hnot i hname

end ChalesOs
