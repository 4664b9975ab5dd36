import ChalesOs.Ramfs.State

/-!
# Path lookup

A path is cut at its last slash: `ramfsResolveDir` walks the directories named by the text in
front of it, of which `ramfsSplitPath` keeps at most 255 bytes, and `ramfsFindInode` looks for
the text behind it among the entries of the directory reached. All searches go through the inode
table from slot 0 up and take the first hit.

The root is slot 0 and has inode number 0, which in every other slot means that the slot is free.
A search by name skips free slots, so what a lookup returns is the root's slot or a live inode
(`ramfsFindInode_ino_ne_zero`).
-/

namespace ChalesOs

/-- `'/'`. -/
def slash : UInt8 := 0x2f

/-- `strncmp`, with the `NUL` behind the end of either string. -/
def strncmp : CString → CString → ℕ → ℤ
  | _, _, 0 => 0
  | a :: s₁, b :: s₂, n + 1 =>
    if a = b then strncmp s₁ s₂ n else (a.toNat : ℤ) - b.toNat
  | s₁, s₂, _ + 1 => ((s₁.headD 0).toNat : ℤ) - (s₂.headD 0).toNat

/-- `strcmp`. -/
def strcmp : CString → CString → ℤ
  | a :: s₁, b :: s₂ => if a = b then strcmp s₁ s₂ else (a.toNat : ℤ) - b.toNat
  | s₁, s₂ => ((s₁.headD 0).toNat : ℤ) - (s₂.headD 0).toNat

/-- The first inode slot with a property, `for (i = 0; i < RAMFS_MAX_FILES; i++)`. -/
def Ramfs.findSlot (s : Ramfs) (p : Inode → Bool) : Option (Fin 64) :=
  (List.finRange 64).find? fun i => p (s.inodes i)

/-- The slot with a given inode number. -/
def Ramfs.slotOfIno (s : Ramfs) (ino : ℕ) : Option (Fin 64) :=
  s.findSlot fun inode => inode.ino = ino

/-- The directory walk of `ramfs_resolve_dir` over the text between the slashes; empty pieces
are skipped. -/
def resolveSegments (s : Ramfs) : (currentIno : ℕ) → List CString → Option ℕ
  | currentIno, [] => some currentIno
  | currentIno, seg :: segs =>
    if seg = [] then resolveSegments s currentIno segs
    else
      match s.findSlot fun inode => inode.ino ≠ 0 ∧ inode.parentIno = currentIno ∧
          inode.type = .dir ∧ strncmp inode.name seg seg.length = 0 ∧
          inode.name.getD seg.length 0 = 0 with
      | none => none
      | some found => resolveSegments s (s.inodes found).ino segs

/-- `ramfs_resolve_dir`; an inode number that reads as -1 in an `int32_t` is -1. -/
def ramfsResolveDir (s : Ramfs) (dirpath : CString) : Option ℕ :=
  (resolveSegments s 0 (dirpath.splitOn slash)).filter fun ino => ino ≠ 0xFFFFFFFF

/-- The index of the last slash of a path, with the index of its first byte and the last slash
seen so far. -/
def lastSlash : ℕ → Option ℕ → CString → Option ℕ
  | _, found, [] => found
  | i, found, c :: cs => lastSlash (i + 1) (if c = slash then some i else found) cs

/-- `ramfs_split_path` with a buffer of `RAMFS_MAX_FILENAME` bytes: the directory part, cut to
what the buffer holds, and the last component. -/
def ramfsSplitPath (path : CString) : CString × CString :=
  match lastSlash 0 none path with
  | none => ([], path)
  | some i =>
    let dirLen := if i ≥ ramfsMaxFilename then ramfsMaxFilename - 1 else i
    (path.take dirLen, path.drop (i + 1))

/-- `ramfs_find_inode`: the slot of a path, `none` for -1. -/
def ramfsFindInode (s : Ramfs) (path : Option CString) : Option (Fin 64) :=
  match path with
  | none => some 0
  | some path =>
    if path = [] ∨ path = [slash] then some 0
    else
      let (dirbuf, name) := ramfsSplitPath path
      match ramfsResolveDir s dirbuf with
      | none => none
      | some parentIno => s.findSlot fun inode =>
          inode.ino ≠ 0 ∧ inode.parentIno = parentIno ∧ strcmp inode.name name = 0

/-- `ramfs_find_free_inode`: the search starts behind the root's slot. -/
def ramfsFindFreeInode (s : Ramfs) : Option (Fin 64) :=
  (List.finRange 64).find? fun i => i ≠ 0 ∧ (s.inodes i).ino = 0

/-- `ramfs_find_free_fd`. -/
def ramfsFindFreeFd (s : Ramfs) : Option (Fin 32) :=
  (List.finRange 32).find? fun fd => (s.fds fd).ino = 0

/-! ### What a search finds -/

variable {s : Ramfs} {i : Fin 64} {fd : Fin 32}

/-- A slot found has the property searched for. -/
theorem Ramfs.findSlot_some {p : Inode → Bool} (h : s.findSlot p = some i) :
    p (s.inodes i) = true :=
  List.find?_some (p := fun i => p (s.inodes i)) h

/-- A search that finds nothing has looked at every slot. -/
theorem Ramfs.findSlot_eq_none {p : Inode → Bool} :
    s.findSlot p = none ↔ ∀ i, p (s.inodes i) = false := by
  simp [findSlot, List.find?_eq_none]

theorem Ramfs.slotOfIno_some {ino : ℕ} (h : s.slotOfIno ino = some i) :
    (s.inodes i).ino = ino := by
  simpa using s.findSlot_some h

theorem Ramfs.slotOfIno_eq_none {ino : ℕ} :
    s.slotOfIno ino = none ↔ ∀ i, (s.inodes i).ino ≠ ino := by
  simp [slotOfIno, findSlot_eq_none]

/-- When at most one slot has a property, a search finds the slot that has it. -/
theorem Ramfs.findSlot_iff {p : Inode → Bool}
    (huniq : ∀ i j, p (s.inodes i) = true → p (s.inodes j) = true → i = j) :
    s.findSlot p = some i ↔ p (s.inodes i) = true := by
  refine ⟨s.findSlot_some, fun hi => ?_⟩
  cases h : s.findSlot p with
  | none => exact absurd hi (by rw [s.findSlot_eq_none.mp h i]; exact Bool.false_ne_true)
  | some j => rw [huniq j i (s.findSlot_some h) hi]

/-- When no other slot has the number, the search by number finds the slot that has it. -/
theorem Ramfs.slotOfIno_eq_some {ino : ℕ} (hi : (s.inodes i).ino = ino)
    (huniq : ∀ j, (s.inodes j).ino = ino → j = i) : s.slotOfIno ino = some i := by
  refine (s.findSlot_iff fun j k hj hk => ?_).mpr (by simpa using hi)
  rw [huniq j (by simpa using hj), huniq k (by simpa using hk)]

theorem ramfsFindFreeInode_some (h : ramfsFindFreeInode s = some i) :
    i ≠ 0 ∧ (s.inodes i).ino = 0 := by
  simpa using List.find?_some h

theorem ramfsFindFreeFd_some (h : ramfsFindFreeFd s = some fd) : (s.fds fd).ino = 0 := by
  simpa using List.find?_some h

/-- A slot found by path is the root's or holds a live inode. -/
theorem ramfsFindInode_ino_ne_zero {path : Option CString} (h : ramfsFindInode s path = some i) :
    i = 0 ∨ (s.inodes i).ino ≠ 0 := by
  cases path with
  | none => exact Or.inl (Option.some_injective _ h).symm
  | some path =>
    rw [ramfsFindInode] at h
    split_ifs at h
    · exact Or.inl (Option.some_injective _ h).symm
    · cases hdir : ramfsResolveDir s (ramfsSplitPath path).1 with
      | none => simp [hdir] at h
      | some parentIno =>
        simp only [hdir] at h
        have := s.findSlot_some h
        simp only [decide_eq_true_eq] at this
        exact Or.inr this.1

/-! ### Lookup after a file has been created

A new file makes no path resolve but its own: the directory walk skips files and free slots, so
it does not see the slot, and the search by name sees that slot and what it saw before. -/

variable {s' : Ramfs}

theorem Ramfs.findSlot_congr {p : Inode → Bool} (h : ∀ i, p (s'.inodes i) = p (s.inodes i)) :
    s'.findSlot p = s.findSlot p := by
  simp only [findSlot, h]

/-- Two file systems with the same live directories, in the same slots. -/
def SameDirs (s s' : Ramfs) : Prop :=
  ∀ i, (s.inodes i).ino ≠ 0 ∧ (s.inodes i).type = .dir ∨
    (s'.inodes i).ino ≠ 0 ∧ (s'.inodes i).type = .dir → s'.inodes i = s.inodes i

theorem resolveSegments_congr (h : SameDirs s s') (ino : ℕ) (segs : List CString) :
    resolveSegments s' ino segs = resolveSegments s ino segs := by
  induction segs generalizing ino with
  | nil => rfl
  | cons seg segs ih =>
    rw [resolveSegments, resolveSegments, ih]
    split_ifs
    · rfl
    rw [Ramfs.findSlot_congr fun i => ?_]
    · cases hf : s.findSlot _ with
      | none => rfl
      | some found =>
        have hfound := s.findSlot_some hf
        simp only [decide_eq_true_eq] at hfound
        dsimp only
        rw [ih, h found (Or.inl ⟨hfound.1, hfound.2.2.1⟩)]
    · by_cases hi : (s.inodes i).ino ≠ 0 ∧ (s.inodes i).type = .dir ∨
        (s'.inodes i).ino ≠ 0 ∧ (s'.inodes i).type = .dir
      · rw [h i hi]
      · simp only [not_or] at hi
        rw [decide_eq_false fun hp => hi.2 ⟨hp.1, hp.2.2.1⟩,
          decide_eq_false fun hp => hi.1 ⟨hp.1, hp.2.2.1⟩]

theorem ramfsResolveDir_congr (h : SameDirs s s') (dirpath : CString) :
    ramfsResolveDir s' dirpath = ramfsResolveDir s dirpath := by
  rw [ramfsResolveDir, ramfsResolveDir, resolveSegments_congr h]

/-- Lookup depends on the inode table only. -/
theorem ramfsFindInode_congr (h : s'.inodes = s.inodes) (path : Option CString) :
    ramfsFindInode s' path = ramfsFindInode s path := by
  have hdirs : SameDirs s s' := fun i _ => by rw [h]
  simp only [ramfsFindInode, ramfsResolveDir_congr hdirs,
    Ramfs.findSlot_congr fun i => congrArg _ (congrFun h i)]

/-- When a path does not resolve, but does after slot `k` has become a file, it resolves to
slot `k`. -/
theorem ramfsFindInode_of_create {k : Fin 64} {path : Option CString} (hk : (s.inodes k).ino = 0)
    (hk' : (s'.inodes k).type = .file) (hne : ∀ j, j ≠ k → s'.inodes j = s.inodes j)
    (hnone : ramfsFindInode s path = none) (h : ramfsFindInode s' path = some i) : i = k := by
  have hdirs : SameDirs s s' := fun j hj => hne j <| by
    rintro rfl
    rcases hj with hj | hj
    · exact hj.1 hk
    · simp [hk'] at hj
  cases path with
  | none => simp [ramfsFindInode] at hnone
  | some path =>
    by_contra hik
    rw [ramfsFindInode] at h hnone
    split_ifs at h hnone
    dsimp only at h hnone
    rw [ramfsResolveDir_congr hdirs] at h
    cases hdir : ramfsResolveDir s (ramfsSplitPath path).1 with
    | none => simp [hdir] at h
    | some parentIno =>
      simp only [hdir] at h hnone
      have hi := s'.findSlot_some h
      rw [hne i hik, Ramfs.findSlot_eq_none.mp hnone i] at hi
      exact Bool.false_ne_true hi

end ChalesOs
