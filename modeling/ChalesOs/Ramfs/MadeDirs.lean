import ChalesOs.Ramfs.Lookup

/-!
# Using a directory that was made

`ramfs_mkdir` takes the text behind the last slash for the name, whatever it is, and the first 255
bytes of the text in front of it for the directory. A walk along the whole path skips empty pieces,
and a path below the new directory has the whole path for its directory part. So a path that ends
in a slash makes a directory with an empty name, which no walk enters, and a path of more than 255
bytes makes one of which every longer path loses the end.

`usableDir_iff` says that nothing else goes wrong: for all other paths the walk leads to the new
directory, and so does every path below it, as long as inode numbers tell inodes apart.
-/

namespace ChalesOs

open NameTree

variable {s s' : Ramfs} {i j : Fin 64} {n m : ℕ} {p x : CString} {progs : Programs} {run : RamfsRun}

/-- The directory in slot `i` can be used by the path: the path resolves to its number, so does
the directory part of every path below it, no other slot has that number, and an open that creates
a file below the path gives it that number for its directory. -/
structure Ramfs.UsableDir (s : Ramfs) (i : Fin 64) (p : CString) : Prop where
  resolve : ramfsResolveDir s p = some (s.inodes i).ino
  below : ∀ x, x ≠ [] → slash ∉ x →
    ramfsResolveDir s (ramfsSplitPath (p ++ slash :: x)).1 = some (s.inodes i).ino
  alone : ∀ j, (s.inodes j).ino = (s.inodes i).ino → j = i
  puts : ∀ x r, x ≠ [] → slash ∉ x → s.Creates (some (p ++ slash :: x)) →
    ramfsOpen s (some (p ++ slash :: x)) 1 = some r →
      ∃ j, (s.inodes j).ino = 0 ∧ (r.2.inodes j).name = x ∧
        (r.2.inodes j).parentIno = (s.inodes i).ino

/-- The condition on the path and on the next inode number: the path has at most 255 bytes and
does not end in a slash, and the number is not in use and does not read as -1. -/
def Ramfs.MakesUsable (s : Ramfs) (p : CString) : Prop :=
  p.length ≤ 255 ∧ pathName p ≠ [] ∧ (∀ j, (s.inodes j).ino ≠ s.nextInode) ∧
    s.nextInode ≠ 0xFFFFFFFF

/-! ### The pieces of a path and of its first bytes -/

/-- The pieces of a path are those in front of its last slash, and its name. -/
theorem dirSegments_eq (p : CString) :
    dirSegments p = dirSegments (pathDir p) ++ dirSegments (pathName p) := by
  rcases slash_cases p with h | ⟨dir, name, rfl, h⟩
  · rw [pathDir_of_not_mem h, pathName_of_not_mem h]
    rfl
  · rw [pathDir_append h, pathName_append h, dirSegments_append]

/-- A long path, cut to 255 bytes, is its directory part cut, or that part and the beginning of
the name. -/
theorem take_cases (hlen : 255 < p.length) (hname : (pathName p).length ≤ 255) :
    p.take 255 = pathCut p ∨
      ∃ k, k < (pathName p).length ∧ p.take 255 = pathCut p ++ slash :: (pathName p).take k := by
  rcases slash_cases p with h | ⟨dir, name, rfl, h⟩
  · rw [pathName_of_not_mem h] at hname
    omega
  rw [pathCut, pathDir_append h, pathName_append h]
  rw [List.length_append, List.length_cons] at hlen
  by_cases hdir : 255 ≤ dir.length
  · exact Or.inl (List.take_append_of_le_length hdir)
  · refine Or.inr ⟨254 - dir.length, by omega, ?_⟩
    rw [List.take_append, List.take_of_length_le (l := dir) (by omega),
      show 255 - dir.length = 254 - dir.length + 1 by omega, List.take_succ_cons]

/-- The directory part of a path below `p`. -/
theorem ramfsSplitPath_below (hx : slash ∉ x) :
    (ramfsSplitPath (p ++ slash :: x)).1 = p.take 255 := by
  rw [ramfsSplitPath_eq, pathDir_append hx]

/-- A file created below `p` belongs to the directory that the first 255 bytes of `p` lead to. -/
theorem parentIno_of_open_below {r : ℤ × Ramfs} (hx : slash ∉ x)
    (hdir : ramfsResolveDir s (p.take 255) = some n) (hc : s.Creates (some (p ++ slash :: x)))
    (h : ramfsOpen s (some (p ++ slash :: x)) 1 = some r) :
    ∃ j, (s.inodes j).ino = 0 ∧ (r.2.inodes j).name = x ∧ (r.2.inodes j).parentIno = n := by
  obtain ⟨q, j, m, s₁, hq, -, hfree, hm, hcreate, rfl⟩ := ramfsOpen_of_creates hc (by decide) h
  obtain rfl := Option.some.inj hq
  rw [ramfsSplitPath_below hx, hdir] at hm
  obtain rfl := Option.some.inj hm
  obtain ⟨hself, -, -, -⟩ := ramfsCreate_frame hcreate
  refine ⟨j, (ramfsFindFreeInode_some hfree).2, ?_, ?_⟩
  · rw [(ramfsOpenFd_fdsOnly _ _).inodes, hself, ramfsSplitPath_eq]
    exact pathName_append hx
  · rw [(ramfsOpenFd_fdsOnly _ _).inodes, hself]

/-! ### The tree behind a creation -/

/-- What `ramfs_mkdir` has done, as the tree shows it: the directory that the cut path leads to
has a new entry in slot `i`. -/
structure MadeDir (s : Ramfs) (p : CString) (i : Fin 64) (m : ℕ) (s' : Ramfs) : Prop where
  ne_root : i ≠ 0
  free : (s.inodes i).ino = 0
  parent : ramfsResolveDir s (pathCut p) = some m
  name_lt : (pathName p).length < ramfsMaxFilename
  tree : s'.tree = Function.update s.tree i ⟨s.nextInode, true, pathName p, m⟩

/-- `ramfs_mkdir` returns 0 for a directory it has made. -/
theorem madeDir_of_ramfsMkdir (h : ramfsMkdir s (some p) = some (0, s'))
    (hfree : ramfsFindFreeInode s = some i) : ∃ m, MadeDir s p i m s' := by
  rcases ramfsMkdir_cases h with heq | ⟨q, j, m, s₁, hq, -, hj, hdir, hcreate, heq⟩
  · exact absurd (Prod.mk.inj heq).1 (by decide)
  obtain rfl := Option.some.inj hq
  obtain rfl := Option.some.inj (hfree.symm.trans hj)
  obtain ⟨-, rfl⟩ := Prod.mk.inj heq
  obtain ⟨hi, hino⟩ := ramfsFindFreeInode_some hfree
  obtain ⟨hlen, rfl⟩ := ramfsCreate_eq_some hcreate
  rw [ramfsSplitPath_eq] at hdir hlen
  refine ⟨m, hi, hino, hdir, hlen, ?_⟩
  have htree := s.tree_setInode i { s.inodes i with
    ino := s.nextInode, type := .dir, name := (ramfsSplitPath p).2, size := 0, parentIno := m }
  rw [ramfsSplitPath_eq] at htree
  rw [ramfsSplitPath_eq]
  exact htree

theorem MadeDir.ino (h : MadeDir s p i m s') : (s'.inodes i).ino = s.nextInode := by
  rw [← Ramfs.tree_num, h.tree, Function.update_self]

theorem MadeDir.ino_of_ne (h : MadeDir s p i m s') (hj : j ≠ i) :
    (s'.inodes j).ino = (s.inodes j).ino := by
  rw [← Ramfs.tree_num, h.tree, Function.update_of_ne hj, Ramfs.tree_num]

/-- The directory with the new entry is still where it was. -/
theorem MadeDir.walk_parent (h : MadeDir s p i m s') (hs : PathInv s) (hp : (0 : UInt8) ∉ p) :
    Walk s'.tree 0 (dirSegments (pathCut p)) m := by
  rw [h.tree]
  exact ((hs.ramfsResolveDir_iff (notMem_pathCut hp)).mp h.parent).1.create (not_not.mpr h.free)

/-- The number of that directory is not the new one. -/
theorem MadeDir.parent_ne (h : MadeDir s p i m s') (hs : PathInv s) (hp : (0 : UInt8) ∉ p)
    (hnew : ∀ j, (s.inodes j).ino ≠ s.nextInode) : m ≠ s.nextInode := by
  rintro rfl
  have hw := ((hs.ramfsResolveDir_iff (notMem_pathCut hp)).mp h.parent).1
  rcases hw.end_cases with hzero | ⟨j, -, -, hnum⟩
  · exact hnew i (h.free.trans hzero)
  · exact hnew j hnum

/-- When no other slot has the new number, a walk to it ends with the new name. -/
theorem MadeDir.walk_end (h : MadeDir s p i m s') {as : List CString}
    (hw : Walk s'.tree 0 as s.nextInode) (hzero : s.nextInode ≠ 0)
    (halone : ∀ j, (s'.inodes j).ino = s.nextInode → j = i) :
    ∃ bs, as = bs ++ [pathName p] := by
  rcases List.eq_nil_or_concat as with rfl | ⟨bs, a, rfl⟩
  · exact absurd hw.symm hzero
  · rw [List.concat_eq_append, walk_concat] at hw
    obtain ⟨j, -, -, hname, hnum, -⟩ := hw
    obtain rfl := halone j hnum
    rw [h.tree, Function.update_self] at hname
    dsimp only at hname
    exact ⟨bs, by rw [hname, List.concat_eq_append]⟩

/-- The condition is enough. -/
theorem MadeDir.usable (h : MadeDir s p i m s') (hs : PathInv s) (hs' : PathInv s')
    (hp : (0 : UInt8) ∉ p) (hc : s.MakesUsable p) : s'.UsableDir i p := by
  obtain ⟨hlen, hname, hnew, hminus⟩ := hc
  have hzero : s.nextInode ≠ 0 := fun hzero => hnew i (h.free.trans hzero.symm)
  have hcut : pathCut p = pathDir p :=
    List.take_of_length_le ((List.length_take_le' _ _).trans hlen)
  -- the walk along the directory part, and one step into the new directory
  have hw : Walk s'.tree 0 (dirSegments p) s.nextInode := by
    rw [dirSegments_eq, dirSegments_of_not_mem (slash_notMem_pathName p) hname, ← hcut]
    refine walk_concat.mpr ⟨i, ?_, ?_, ?_, ?_, ?_⟩
    · rw [Ramfs.live_tree, h.ino]
      exact hzero
    · rw [h.tree, Function.update_self]
    · rw [h.tree, Function.update_self]
    · rw [h.tree, Function.update_self]
    · rw [h.tree, Function.update_self, ← h.tree]
      exact h.walk_parent hs hp
  have hresolve : ramfsResolveDir s' p = some s.nextInode :=
    (hs'.ramfsResolveDir_iff hp).mpr ⟨hw, hminus⟩
  refine ⟨by rw [h.ino, hresolve], fun x _ hx => ?_, fun j hj => ?_, fun x r _ hx hc hr => ?_⟩
  · rw [ramfsSplitPath_below hx, List.take_of_length_le hlen, hresolve, h.ino]
  · by_contra hji
    rw [h.ino, h.ino_of_ne hji] at hj
    exact hnew j hj
  · rw [h.ino]
    refine parentIno_of_open_below hx ?_ hc hr
    rw [List.take_of_length_le hlen, hresolve]

/-- The condition is needed. -/
theorem MadeDir.makesUsable (h : MadeDir s p i m s') (hs : PathInv s) (hs' : PathInv s')
    (hp : (0 : UInt8) ∉ p) (hu : s'.UsableDir i p) : s.MakesUsable p := by
  obtain ⟨hresolve, hbelow, halone, -⟩ := hu
  rw [h.ino] at hresolve halone
  obtain ⟨hw, hminus⟩ := (hs'.ramfsResolveDir_iff hp).mp hresolve
  -- the root's slot has the number 0
  have hzero : s.nextInode ≠ 0 := by
    intro hzero
    exact h.ne_root (halone 0 (hs'.root.trans hzero.symm)).symm
  have hnew : ∀ j, (s.inodes j).ino ≠ s.nextInode := by
    intro j hj
    by_cases hji : j = i
    · rw [hji, h.free] at hj
      exact hzero hj.symm
    · exact hji (halone j ((h.ino_of_ne hji).trans hj))
  refine ⟨?_, ?_, hnew, hminus⟩
  · by_contra hlong
    have hcut := hbelow [0x61] (List.cons_ne_nil _ _) (by decide)
    rw [ramfsSplitPath_below (by decide), h.ino,
      hs'.ramfsResolveDir_iff fun hmem => hp (List.mem_of_mem_take hmem)] at hcut
    have hparent : ¬Walk s'.tree 0 (dirSegments (pathCut p)) s.nextInode := by
      intro hw
      exact h.parent_ne hs hp hnew ((h.walk_parent hs hp).unique hs'.unique hw)
    rcases take_cases (not_le.mp hlong) (Nat.le_of_lt_succ h.name_lt) with htake | ⟨k, hk, htake⟩
    · rw [htake] at hcut
      exact hparent hcut.1
    · rw [htake, dirSegments_append] at hcut
      by_cases hempty : (pathName p).take k = []
      · rw [hempty] at hcut
        exact hparent ((List.append_nil (dirSegments (pathCut p))) ▸ hcut.1)
      · -- the beginning of the name is not the name
        have hbegin : slash ∉ (pathName p).take k := fun hmem =>
          slash_notMem_pathName p (List.mem_of_mem_take hmem)
        rw [dirSegments_of_not_mem hbegin hempty] at hcut
        obtain ⟨bs, hbs⟩ := h.walk_end hcut.1 hzero halone
        have hlast := congrArg List.length (List.cons.inj (List.append_inj' hbs rfl).2).1
        rw [List.length_take] at hlast
        omega
  · obtain ⟨bs, hbs⟩ := h.walk_end hw hzero halone
    have hmem : pathName p ∈ dirSegments p := by
      rw [hbs]
      exact List.mem_append_right _ (List.mem_singleton_self _)
    exact of_decide_eq_true (List.mem_filter.mp hmem).2

/-! ### All reachable states -/

/-- **When a directory that was made can be used.** In every state reached and for every path for
which `ramfs_mkdir` returns 0, the new directory can be used by the path if and only if the path
has at most 255 bytes and does not end in a slash, and the number it got is its own. -/
theorem usableDir_iff (h : (ramfsSystem progs).ReachableBy (fun _ op => op.IsCString) run)
    (hp : (0 : UInt8) ∉ p) (hmkdir : ramfsMkdir run.fs (some p) = some (0, s'))
    (hfree : ramfsFindFreeInode run.fs = some i) :
    s'.UsableDir i p ↔ run.fs.MakesUsable p := by
  have hs := pathInv_of_reachable h
  have hexec : ramfsExec run.fs (.mkdir (some p)) = some (⟨0, []⟩, s') := by
    rw [ramfsExec, hmkdir]
    rfl
  have hop : (RamfsOp.mkdir (some p)).IsCString := by
    intro q hq
    obtain rfl := Option.some.inj (Option.some.inj hq)
    exact hp
  have hstep := ramfsExec_treeStep hexec
  have hs' : PathInv s' := ⟨hs.toNameInv.treeStep hstep, hstep.noNul hop hs.noNul⟩
  obtain ⟨m, hmade⟩ := madeDir_of_ramfsMkdir hmkdir hfree
  exact ⟨hmade.makesUsable hs hs' hp, hmade.usable hs hs' hp⟩

/-- In a run that has created fewer than `2 ^ 32 - 2` inodes, only the path counts. -/
theorem makesUsable_iff (h : (ramfsSystem progs).ReachableBy (fun _ op => op.IsCString) run)
    (hcreated : run.created < 0xFFFFFFFE) :
    run.fs.MakesUsable p ↔ p.length ≤ 255 ∧ pathName p ≠ [] := by
  obtain ⟨hid, hnext⟩ := counted_of_reachable h (by omega)
  constructor
  · rintro ⟨hlen, hname, -⟩
    exact ⟨hlen, hname⟩
  · rintro ⟨hlen, hname⟩
    refine ⟨hlen, hname, fun j hj => ?_, by omega⟩
    have := hid.ino_lt j
    omega

/-- `usableDir_iff` for `/d`. -/
theorem usableDir_sample :
    ∃ s', ramfsMkdir freshRun.fs (some (cstr "/d")) = some (0, s') ∧
      s'.UsableDir 8 (cstr "/d") := by
  have hrun : (ramfsMkdir freshRun.fs (some (cstr "/d"))).map Prod.fst = some 0 := by
    decide +kernel
  obtain ⟨⟨ret, s'⟩, hmkdir, hret⟩ := Option.map_eq_some_iff.mp hrun
  obtain rfl : ret = 0 := hret
  refine ⟨s', hmkdir, (usableDir_iff (.start freshRun_start) (by decide) hmkdir
    (by decide +kernel)).mpr ?_⟩
  exact (makesUsable_iff (.start freshRun_start) (by decide)).mpr ⟨by decide, by decide⟩

/-- Not all directories can be used: `/bin/` makes one without a name in `/bin`, and leads to
`/bin`. -/
theorem not_usableDir :
    ¬∀ (progs : Programs) (run : RamfsRun),
      (ramfsSystem progs).ReachableBy (fun _ op => op.IsCString) run →
      ∀ p s' i, (0 : UInt8) ∉ p → ramfsMkdir run.fs (some p) = some (0, s') →
        ramfsFindFreeInode run.fs = some i → s'.UsableDir i p := by
  intro h
  have hrun : (ramfsMkdir freshRun.fs (some (cstr "/bin/"))).map (fun r =>
      (r.1, ramfsResolveDir r.2 (cstr "/bin/"), (r.2.inodes 8).ino)) = some (0, some 1, 8) := by
    decide +kernel
  obtain ⟨⟨ret, s'⟩, hmkdir, hstate⟩ := Option.map_eq_some_iff.mp hrun
  simp only [Prod.mk.injEq] at hstate
  obtain ⟨rfl, hdir, hino⟩ := hstate
  have hu := h noPrograms freshRun (.start freshRun_start) (cstr "/bin/") s' 8 (by decide) hmkdir
    (by decide +kernel)
  have hresolve := hu.resolve
  rw [hdir, hino] at hresolve
  exact absurd (Option.some.inj hresolve) (by decide)

end ChalesOs
