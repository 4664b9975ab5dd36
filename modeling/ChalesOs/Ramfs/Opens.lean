import ChalesOs.Ramfs.Descriptors

/-!
# The legacy open and the newlib open

`ramfs_open2` creates a file by a nested `ramfs_open`, closes the descriptor it gets, looks the
path up again, and fills a descriptor of its own. For the flags that mean what bit 0 means to
`ramfs_open`, this detour is not visible: the descriptor closed is the first free one, so it is
the one filled again, and every field of it is written. `open2_agrees_open` says so for every
reachable file system and every path.
-/

namespace ChalesOs

variable {s s₁ s₂ : Ramfs} {i : Fin 64} {k : Fin 32} {p : CString} {r r₂ : ℤ × Ramfs}

/-- `CHALES_O_RDWR | CHALES_O_CREAT`. -/
def oRdwrCreat : ℕ := oRdwr ||| oCreat

/-- Two opens with the same outcome: the file systems are the same, and so are the descriptors,
except that each of them may have its own error number. -/
structure OpensAlike {σ : Type} (r r₂ : ℤ × σ) : Prop where
  fs : r₂.2 = r.2
  ret : 0 ≤ r.1 ∧ r₂.1 = r.1 ∨ r.1 < 0 ∧ r₂.1 < 0

/-- Both opens fail. -/
theorem OpensAlike.failed {ret ret₂ : ℤ} (h : ret < 0) (h₂ : ret₂ < 0) :
    OpensAlike (ret, s) (ret₂, s) :=
  ⟨rfl, Or.inr ⟨h, h₂⟩⟩

/-- The search for a free descriptor looks at the numbers in the table only. -/
theorem ramfsFindFreeFd_congr (h : SameFds s s₂) : ramfsFindFreeFd s₂ = ramfsFindFreeFd s := by
  rw [ramfsFindFreeFd, ramfsFindFreeFd]
  exact congrArg (List.find? · (List.finRange 32)) (funext fun k => by rw [h k])

/-- Both opens end alike on a slot. -/
theorem opensAlike_fd (s : Ramfs) (i : Fin 64) :
    OpensAlike (ramfsOpenFd s i) (ramfsOpen2Fd s i oRdwrCreat) := by
  rw [ramfsOpenFd, ramfsOpen2Fd]
  cases htype : (s.inodes i).type with
  | dir =>
    rw [if_pos (by simp), if_pos rfl]
    exact .failed (by decide) (by decide)
  | file =>
    rw [if_neg (by simp), if_neg (by simp)]
    cases ramfsFindFreeFd s with
    | none => exact .failed (by decide) (by decide)
    | some k =>
      dsimp only
      rw [if_neg (by decide)]
      exact ⟨rfl, Or.inl ⟨Int.natCast_nonneg _, rfl⟩⟩

/-- Filling a free descriptor, closing it and filling one again ends like filling it at once. -/
theorem opensAlike_reopened (hk : ramfsFindFreeFd s = some k) (hino : (s.inodes i).ino ≠ 0)
    (htype : (s.inodes i).type = .file) :
    OpensAlike (ramfsOpenFd s i)
      (ramfsOpen2Fd (ramfsClose (ramfsOpenFd s i).2 ((k : ℕ) : ℤ)).2 i oRdwrCreat) := by
  have hopen : ramfsOpenFd s i = (((k : ℕ) : ℤ), s.setFd k ⟨(s.inodes i).ino, 0, oRdwr⟩) := by
    rw [ramfsOpenFd, if_neg (not_not.mpr htype), hk]
  have hclose : (ramfsClose (ramfsOpenFd s i).2 ((k : ℕ) : ℤ)).2 = s.setFd k Fd.zero := by
    rw [hopen, ramfsClose, validFd_coe]
    dsimp only
    rw [Ramfs.setFd_self, if_neg hino, Ramfs.setFd, Ramfs.setFd, Ramfs.setFd,
      Function.update_idem]
  -- the table has the numbers it had, so the same descriptor is free
  have hsame : SameFds s (s.setFd k Fd.zero) := SameFds.setFd (ramfsFindFreeFd_some hk).symm
  have hk' : ramfsFindFreeFd (s.setFd k Fd.zero) = some k := (ramfsFindFreeFd_congr hsame).trans hk
  obtain ⟨hfs, hret⟩ := opensAlike_fd (s.setFd k Fd.zero) i
  rw [hclose]
  have hagain : ramfsOpenFd (s.setFd k Fd.zero) i = ramfsOpenFd s i := by
    have htype' : ((s.setFd k Fd.zero).inodes i).type = .file := htype
    rw [hopen, ramfsOpenFd, if_neg (not_not.mpr htype'), hk']
    simp only [Ramfs.setFd, Function.update_idem]
  rw [hagain] at hfs hret
  exact ⟨hfs, hret⟩

/-- **The two opens** of a path, in a state in which the next inode gets a number. -/
theorem opensAlike_of_opens (hnext : s.nextInode ≠ 0) (h : ramfsOpen s (some p) 1 = some r)
    (h₂ : ramfsOpen2 s (some p) oRdwrCreat = some r₂) : OpensAlike r r₂ := by
  rw [ramfsOpen2, if_neg (Option.some_ne_none p)] at h₂
  cases hfind : ramfsFindInode s (some p) with
  | some i =>
    simp only [hfind] at h₂
    rw [ramfsOpen, hfind] at h
    rw [if_neg (by decide)] at h₂
    obtain rfl := Option.some.inj h
    obtain rfl := Option.some.inj h₂
    exact opensAlike_fd s i
  | none =>
    simp only [hfind, if_neg (by decide : ¬oRdwrCreat &&& oCreat = 0), h, Option.map_some,
      Option.some.injEq] at h₂
    rcases ramfsOpen_cases h with rfl | ⟨i, hi, -⟩ | ⟨q, i, parentIno, s₁, hq, -, -, hfree, hdir,
      hcreate, rfl⟩
    · rw [if_pos (by decide : (-1 : ℤ) < 0)] at h₂
      subst h₂
      exact .failed (by decide) (by decide)
    · rw [hfind] at hi
      exact absurd hi (Option.some_ne_none i).symm
    obtain rfl := Option.some.inj hq
    obtain ⟨-, hino⟩ := ramfsFindFreeInode_some hfree
    obtain ⟨hself, -, -, -⟩ := ramfsCreate_frame hcreate
    have htype : (s₁.inodes i).type = .file := by rw [hself]
    rcases ramfsOpenFd_cases s₁ i with ⟨-, heq⟩ | ⟨k, -, hk, heq⟩
    · -- the file is created, but gets no descriptor
      rw [heq] at h₂ ⊢
      rw [if_pos (by decide : (-1 : ℤ) < 0)] at h₂
      subst h₂
      exact .failed (by decide) (by decide)
    · -- the file is created and opened, closed again, and found by its path
      have hret : (ramfsOpenFd s₁ i).1 = ((k : ℕ) : ℤ) := by rw [heq]
      have hclosed : (ramfsClose (ramfsOpenFd s₁ i).2 ((k : ℕ) : ℤ)).2.inodes = s₁.inodes :=
        (ramfsClose_fdsOnly _ _).inodes.trans (ramfsOpenFd_fdsOnly s₁ i).inodes
      have hfound : ramfsFindInode (ramfsClose (ramfsOpenFd s₁ i).2 ((k : ℕ) : ℤ)).2 (some p) =
          some i :=
        (ramfsFindInode_congr hclosed _).trans
          (ramfsFindInode_create hfind hino hdir hcreate hnext)
      rw [hret, if_neg (not_lt.mpr (Int.natCast_nonneg _))] at h₂
      simp only [hfound] at h₂
      subst h₂
      exact opensAlike_reopened hk (by rw [hself]; exact hnext) htype

/-- **The two opens agree.** In every file system reached with fewer than `2 ^ 32 - 1` inodes
created, and for every path whose last component has at most 255 bytes, `ramfs_open2` with
`CHALES_O_RDWR | CHALES_O_CREAT` and `ramfs_open` with bit 0 both return, and leave the same
inode table, pool, inode counter and descriptors; both return the same descriptor, or both fail. -/
theorem open2_agrees_open {progs : Programs} {run : RamfsRun}
    (h : (ramfsSystem progs).Reachable run) (hcreated : run.created < 0xFFFFFFFF)
    (hname : (pathName p).length ≤ 255) :
    ∃ r r₂, ramfsOpen run.fs (some p) 1 = some r ∧
      ramfsOpen2 run.fs (some p) (oRdwr ||| oCreat) = some r₂ ∧ OpensAlike r r₂ := by
  have hnext : run.fs.nextInode ≠ 0 := by
    rw [(counted_of_reachable h hcreated).2]
    exact Nat.succ_ne_zero _
  have hsplit : ∀ q, some p = some q → (ramfsSplitPath q).2.length ≤ 255 := by
    rintro q ⟨rfl⟩
    rw [ramfsSplitPath_eq]
    exact hname
  obtain ⟨r, hr⟩ := Option.isSome_iff_exists.mp (ramfsOpen_isSome run.fs (some p) 1 hsplit)
  obtain ⟨r₂, hr₂⟩ :=
    Option.isSome_iff_exists.mp (ramfsOpen2_isSome run.fs (some p) oRdwrCreat hsplit)
  exact ⟨r, r₂, hr, hr₂, opensAlike_of_opens hnext hr hr₂⟩

end ChalesOs
