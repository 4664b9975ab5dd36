import Mathlib.Data.Set.BooleanAlgebra
import Mathlib.Order.CompletePartialOrder
import ChalesOs.Ramfs.ReadWrite

/-!
# Runs of the file system

`ramfsExec_changes` cuts every operation into elementary changes, and `ramfsInit_invariant` does
the same for `ramfs_init`, which is a sequence of operations on an empty file system. With
`PoolInv.change` this makes the layout of the pool an invariant of all runs.

An operation in range (`RamfsOp.InRange`: no name longer than its field, no wrapping sum in a
write) always has an outcome: it never touches a byte outside the block it means
(`ramfsExec_isSome`).
-/

namespace ChalesOs

open ByteMemory

variable {s s' : Ramfs} {T : Set ℕ} {N : ℕ} {i : Fin 64}

/-- The files an operation is applied to, by inode number: the ones it may change. -/
def RamfsOp.touches (s : Ramfs) : RamfsOp → Set ℕ
  | .open2 path _ =>
    {f | f = s.nextInode ∨ ∃ i, ramfsFindInode s path = some i ∧ (s.inodes i).ino = f}
  | .write fd _ _ => {f | ∃ k, validFd fd = some k ∧ (s.fds k).ino = f}
  | .unlink path => {f | ∃ i, ramfsFindInode s path = some i ∧ (s.inodes i).ino = f}
  | _ => ∅

/-- The conditions under which an operation stays inside the objects it means: the last path
component fits the name field, and the end of a write is a 32-bit number. -/
def RamfsOp.InRange (s : Ramfs) : RamfsOp → Prop
  | .open path _ | .open2 path _ | .mkdir path =>
    ∀ p, path = some p → (ramfsSplitPath p).2.length ≤ 255
  | .write fd _ count => ∀ k i, s.Writable fd k i → s.writeOffset k i + count < 0x100000000
  | _ => True

/-! ### Operations on descriptors -/

/-- Nothing but descriptors is different. -/
structure FdsOnly (s s' : Ramfs) : Prop where
  inodes : s'.inodes = s.inodes
  nextInode : s'.nextInode = s.nextInode
  pool : s'.pool = s.pool
  poolUsed : s'.poolUsed = s.poolUsed

theorem FdsOnly.of_eq (h : s' = s) : FdsOnly s s' := by
  subst h
  exact ⟨rfl, rfl, rfl, rfl⟩

theorem FdsOnly.setFd (s : Ramfs) (k : Fin 32) (f : Fd) : FdsOnly s (s.setFd k f) :=
  ⟨rfl, rfl, rfl, rfl⟩

/-- The end of `ramfs_open` fails and changes nothing, because the inode is no file or no
descriptor is free, or fills the first free descriptor. -/
theorem ramfsOpenFd_cases (s : Ramfs) (i : Fin 64) :
    ((s.inodes i).type ≠ .file ∨ ramfsFindFreeFd s = none) ∧ ramfsOpenFd s i = (-1, s) ∨
    ∃ k : Fin 32, (s.inodes i).type = .file ∧ ramfsFindFreeFd s = some k ∧
      ramfsOpenFd s i = (((k : ℕ) : ℤ), s.setFd k ⟨(s.inodes i).ino, 0, oRdwr⟩) := by
  rw [ramfsOpenFd]
  by_cases htype : (s.inodes i).type ≠ .file
  · exact Or.inl ⟨Or.inl htype, if_pos htype⟩
  rw [if_neg htype]
  cases hfree : ramfsFindFreeFd s with
  | none => exact Or.inl ⟨Or.inr rfl, rfl⟩
  | some k => exact Or.inr ⟨k, not_not.mp htype, rfl, rfl⟩

theorem ramfsOpenFd_fdsOnly (s : Ramfs) (i : Fin 64) : FdsOnly s (ramfsOpenFd s i).2 := by
  rcases ramfsOpenFd_cases s i with ⟨-, heq⟩ | ⟨k, -, -, heq⟩
  · rw [heq]
    exact .of_eq rfl
  · rw [heq]
    exact .setFd s k _

/-- `ramfs_close` changes nothing, or clears the descriptor. -/
theorem ramfsClose_cases (s : Ramfs) (fd : ℤ) :
    (ramfsClose s fd).2 = s ∨
      ∃ k, validFd fd = some k ∧ (ramfsClose s fd).2 = s.setFd k Fd.zero := by
  rw [ramfsClose]
  cases validFd fd with
  | none => exact Or.inl rfl
  | some k =>
    dsimp only
    by_cases hzero : (s.fds k).ino = 0
    · exact Or.inl (congrArg Prod.snd (if_pos hzero))
    · exact Or.inr ⟨k, rfl, congrArg Prod.snd (if_neg hzero)⟩

theorem ramfsClose_fdsOnly (s : Ramfs) (fd : ℤ) : FdsOnly s (ramfsClose s fd).2 := by
  rcases ramfsClose_cases s fd with heq | ⟨k, -, heq⟩
  · exact .of_eq heq
  · rw [heq]
    exact .setFd s k _

theorem ramfsRead_fdsOnly {fd : ℤ} {bufNull : Bool} {count : ℕ} {r : ℤ × List UInt8 × Ramfs}
    (h : ramfsRead s fd bufNull count = some r) : FdsOnly s r.2.2 := by
  rcases ramfsRead_cases h with heq | ⟨k, i, -, -, -, heq⟩
  · exact .of_eq heq
  · rw [heq]
    exact .setFd s k _

/-- `ramfs_lseek` fails and changes nothing, or moves the offset of a descriptor. -/
theorem ramfsLseek_cases (s : Ramfs) (fd offset whence : ℤ) :
    (∃ ret, ret < 0 ∧ ramfsLseek s fd offset whence = (ret, s)) ∨
    ∃ k i, ∃ pos : ℤ, s.slotOfIno (s.fds k).ino = some i ∧ 0 ≤ pos ∧ pos ≤ ramfsMaxFilesize ∧
      ramfsLseek s fd offset whence = (pos, s.setFd k { s.fds k with offset := pos.toNat }) := by
  have hbad : -eBadf < 0 := by simp [eBadf]
  have hinval : -eInval < 0 := by simp [eInval]
  rw [ramfsLseek]
  cases validFd fd with
  | none => exact Or.inl ⟨_, hbad, rfl⟩
  | some k =>
    dsimp only
    by_cases hlive : (s.fds k).ino = 0
    · exact Or.inl ⟨_, hbad, if_pos hlive⟩
    rw [if_neg hlive]
    cases hslot : s.slotOfIno (s.fds k).ino with
    | none => exact Or.inl ⟨_, hbad, rfl⟩
    | some i =>
      dsimp only
      generalize (if whence = 0 then some 0 else if whence = 1 then some ((s.fds k).offset : ℤ)
        else if whence = 2 then some ((s.inodes i).size : ℤ) else none) = base
      cases base with
      | none => exact Or.inl ⟨_, hinval, rfl⟩
      | some base =>
        dsimp only
        by_cases hpos : base + offset < 0 ∨ base + offset > ramfsMaxFilesize
        · exact Or.inl ⟨_, hinval, if_pos hpos⟩
        · exact Or.inr ⟨k, i, base + offset, hslot, by omega, by omega, if_neg hpos⟩

theorem ramfsLseek_fdsOnly (s : Ramfs) (fd offset whence : ℤ) :
    FdsOnly s (ramfsLseek s fd offset whence).2 := by
  rcases ramfsLseek_cases s fd offset whence with ⟨ret, -, heq⟩ | ⟨k, i, pos, -, -, -, heq⟩
  · rw [heq]
    exact .of_eq rfl
  · rw [heq]
    exact .setFd s k _

/-! ### Every operation is a sequence of elementary changes -/

theorem ramfsOpenFd_changes (s : Ramfs) (i : Fin 64) : RamfsChanges T N s (ramfsOpenFd s i).2 := by
  rcases ramfsOpenFd_cases s i with ⟨-, heq⟩ | ⟨k, -, -, heq⟩
  · rw [heq]
  · rw [heq]
    exact .single (.setFd k _ (Nat.zero_le _) (Or.inr ⟨i, rfl⟩))

/-- `ramfs_open` fails and changes nothing, opens the file the path names, or creates it in a
free slot and opens it. -/
theorem ramfsOpen_cases {path : Option CString} {flags : ℕ} {r : ℤ × Ramfs}
    (h : ramfsOpen s path flags = some r) :
    r = (-1, s) ∨ (∃ i, ramfsFindInode s path = some i ∧ r = ramfsOpenFd s i) ∨
    ∃ p i parentIno s₁, path = some p ∧ flags &&& 1 ≠ 0 ∧ ramfsFindInode s path = none ∧
      ramfsFindFreeInode s = some i ∧ ramfsResolveDir s (ramfsSplitPath p).1 = some parentIno ∧
      ramfsCreate s i .file parentIno (ramfsSplitPath p).2 = some s₁ ∧ r = ramfsOpenFd s₁ i := by
  rw [ramfsOpen] at h
  cases hfind : ramfsFindInode s path with
  | some i =>
    rw [hfind] at h
    exact Or.inr (Or.inl ⟨i, rfl, (Option.some_injective _ h).symm⟩)
  | none =>
    obtain ⟨p, rfl⟩ : ∃ p, path = some p := by
      cases path with
      | none => simp [ramfsFindInode] at hfind
      | some p => exact ⟨p, rfl⟩
    simp only [hfind, Option.getD_some] at h
    by_cases hflags : flags &&& 1 ≠ 0
    · rw [if_pos hflags] at h
      cases hfree : ramfsFindFreeInode s with
      | none =>
        rw [hfree] at h
        exact Or.inl (Option.some_injective _ h).symm
      | some i =>
        simp only [hfree] at h
        cases hdir : ramfsResolveDir s (ramfsSplitPath p).1 with
        | none =>
          rw [hdir] at h
          exact Or.inl (Option.some_injective _ h).symm
        | some parentIno =>
          rw [hdir] at h
          obtain ⟨s₁, hcreate, hr⟩ := Option.map_eq_some_iff.mp h
          exact Or.inr (Or.inr ⟨p, i, parentIno, s₁, rfl, hflags, rfl, rfl, hdir, hcreate,
            hr.symm⟩)
    · rw [if_neg hflags] at h
      exact Or.inl (Option.some_injective _ h).symm

theorem ramfsOpen_changes {path : Option CString} {flags : ℕ} {r : ℤ × Ramfs}
    (h : ramfsOpen s path flags = some r) : RamfsChanges T s.nextInode s r.2 := by
  rcases ramfsOpen_cases h with rfl | ⟨i, -, rfl⟩ | ⟨p, i, parentIno, s₁, -, -, -, hfree, -,
    hcreate, rfl⟩
  · exact .refl
  · exact ramfsOpenFd_changes s i
  · obtain ⟨hi, hino⟩ := ramfsFindFreeInode_some hfree
    exact .head (.create i .file parentIno _ hi hino rfl hcreate) (ramfsOpenFd_changes s₁ i)

theorem ramfsClose_changes (s : Ramfs) (fd : ℤ) : RamfsChanges T N s (ramfsClose s fd).2 := by
  rcases ramfsClose_cases s fd with heq | ⟨k, -, heq⟩
  · rw [heq]
  · rw [heq]
    exact .single (.setFd k _ (Nat.zero_le _) (Or.inl rfl))

/-- The end of `ramfs_open2` fails and changes nothing, or fills a free descriptor with the
number of the file, emptied first if the flags say so. -/
theorem ramfsOpen2Fd_cases (s : Ramfs) (i : Fin 64) (oflags : ℕ) :
    (∃ ret, ret < 0 ∧ ramfsOpen2Fd s i oflags = (ret, s)) ∨
    ∃ k : Fin 32, (s.inodes i).type = .file ∧ (s.fds k).ino = 0 ∧
      ramfsOpen2Fd s i oflags = (((k : ℕ) : ℤ),
        (if oflags &&& oTrunc ≠ 0 ∧ oflags &&& oAccmode ≠ oRdonly then
          s.setInode i { s.inodes i with size := 0 }
        else s).setFd k ⟨(s.inodes i).ino, 0, oflags &&& (oAccmode ||| oAppend)⟩) := by
  rw [ramfsOpen2Fd]
  cases htype : (s.inodes i).type with
  | dir => exact Or.inl ⟨-eIsdir, by simp [eIsdir], rfl⟩
  | file =>
    rw [if_neg (by simp)]
    cases hfree : ramfsFindFreeFd s with
    | none => exact Or.inl ⟨-eMfile, by simp [eMfile], rfl⟩
    | some k =>
      refine Or.inr ⟨k, rfl, ramfsFindFreeFd_some hfree, ?_⟩
      by_cases htrunc : oflags &&& oTrunc ≠ 0 ∧ oflags &&& oAccmode ≠ oRdonly
      · simp only [if_pos htrunc, Ramfs.setInode_self]
      · simp only [if_neg htrunc]

theorem ramfsOpen2Fd_changes {oflags : ℕ} (hT : (s.inodes i).ino ∈ T) :
    RamfsChanges T N s (ramfsOpen2Fd s i oflags).2 := by
  rcases ramfsOpen2Fd_cases s i oflags with ⟨ret, -, heq⟩ | ⟨k, -, -, heq⟩
  · rw [heq]
  · rw [heq]
    by_cases htrunc : oflags &&& oTrunc ≠ 0 ∧ oflags &&& oAccmode ≠ oRdonly
    · rw [if_pos htrunc]
      exact .head (.truncate i hT)
        (.single (.setFd k _ (Nat.zero_le _) (Or.inr ⟨i, by rw [Ramfs.setInode_self]⟩)))
    · rw [if_neg htrunc]
      exact .single (.setFd k _ (Nat.zero_le _) (Or.inr ⟨i, rfl⟩))

/-- Behind a creation, `ramfs_open2` finds the inode just created. -/
theorem find_of_ramfsOpen {path : Option CString} {tmp : ℤ} {s₁ s₂ : Ramfs}
    (hnone : ramfsFindInode s path = none) (hopen : ramfsOpen s path 1 = some (tmp, s₁))
    (htmp : 0 ≤ tmp) (hs₂ : s₂.inodes = s₁.inodes) (hfind : ramfsFindInode s₂ path = some i) :
    i ≠ 0 ∧ (s.inodes i).ino = 0 ∧ (s₂.inodes i).ino = s.nextInode := by
  rcases ramfsOpen_cases hopen with h | ⟨j, hj, -⟩ | ⟨p, k, parentIno, s₃, -, -, -, hfree, -,
    hcreate, h⟩
  · obtain ⟨rfl, -⟩ := Prod.mk.inj h
    omega
  · simp [hnone] at hj
  · obtain ⟨hk, hino⟩ := ramfsFindFreeInode_some hfree
    obtain ⟨hself, hne, -, -⟩ := ramfsCreate_frame hcreate
    have hinodes : s₂.inodes = s₃.inodes := by
      rw [hs₂, congrArg (fun r => r.2.inodes) h, (ramfsOpenFd_fdsOnly s₃ k).inodes]
    rw [ramfsFindInode_congr hinodes] at hfind
    obtain rfl := ramfsFindInode_of_create hino (by rw [hself]) hne hnone hfind
    exact ⟨hk, hino, by rw [hinodes, hself]⟩

/-- `ramfs_open2` fails and changes nothing, finishes on the file the path names, or creates it
by `ramfs_open`, closes it again, and looks it up. -/
theorem ramfsOpen2_split {path : Option CString} {oflags : ℕ} {r : ℤ × Ramfs}
    (h : ramfsOpen2 s path oflags = some r) :
    (r.1 < 0 ∧ r.2 = s ∧ (ramfsFindInode s path ≠ none ∨ oflags &&& oCreat = 0)) ∨
    (∃ i, ramfsFindInode s path = some i ∧ r = ramfsOpen2Fd s i oflags) ∨
    ∃ tmp s₁, oflags &&& oCreat ≠ 0 ∧ ramfsFindInode s path = none ∧
      ramfsOpen s path 1 = some (tmp, s₁) ∧ (tmp < 0 ∧ r = (-eNoent, s₁) ∨ 0 ≤ tmp ∧
        (ramfsFindInode (ramfsClose s₁ tmp).2 path = none ∧ r = (-eNoent, (ramfsClose s₁ tmp).2) ∨
          ∃ i, ramfsFindInode (ramfsClose s₁ tmp).2 path = some i ∧
            r = ramfsOpen2Fd (ramfsClose s₁ tmp).2 i oflags)) := by
  rw [ramfsOpen2] at h
  by_cases hpath : path = none
  · rw [if_pos hpath] at h
    obtain rfl := Option.some_injective _ h
    exact Or.inl ⟨by simp [eFault], rfl, Or.inl (by simp [hpath, ramfsFindInode])⟩
  rw [if_neg hpath] at h
  cases hfind : ramfsFindInode s path with
  | some i =>
    simp only [hfind] at h
    split_ifs at h
    · obtain rfl := Option.some_injective _ h
      exact Or.inl ⟨by simp [eExist], rfl, Or.inl (Option.some_ne_none i)⟩
    · exact Or.inr (Or.inl ⟨i, rfl, (Option.some_injective _ h).symm⟩)
  | none =>
    simp only [hfind] at h
    by_cases hflags : oflags &&& oCreat = 0
    · rw [if_pos hflags] at h
      obtain rfl := Option.some_injective _ h
      exact Or.inl ⟨by simp [eNoent], rfl, Or.inr hflags⟩
    rw [if_neg hflags] at h
    obtain ⟨⟨tmp, s₁⟩, hopen, h⟩ := Option.map_eq_some_iff.mp h
    refine Or.inr (Or.inr ⟨tmp, s₁, hflags, rfl, hopen, ?_⟩)
    dsimp only at h
    by_cases htmp : tmp < 0
    · rw [if_pos htmp] at h
      exact Or.inl ⟨htmp, h.symm⟩
    rw [if_neg htmp] at h
    refine Or.inr ⟨not_lt.mp htmp, ?_⟩
    cases hfind₂ : ramfsFindInode (ramfsClose s₁ tmp).2 path with
    | none =>
      rw [hfind₂] at h
      exact Or.inl ⟨rfl, h.symm⟩
    | some i =>
      rw [hfind₂] at h
      exact Or.inr ⟨i, rfl, h.symm⟩

/-- `ramfs_open2` fails and changes no file, or finishes on the file the path names, which it
may have created. -/
theorem ramfsOpen2_cases {path : Option CString} {oflags : ℕ} {r : ℤ × Ramfs}
    (h : ramfsOpen2 s path oflags = some r) :
    (r.1 < 0 ∧ RamfsChanges ∅ s.nextInode s r.2) ∨
    ∃ s₁ i, RamfsChanges ∅ s.nextInode s s₁ ∧ r = ramfsOpen2Fd s₁ i oflags ∧
      (s₁ = s ∧ ramfsFindInode s path = some i ∨
        ramfsFindInode s path = none ∧ (s₁.inodes i).ino = s.nextInode) := by
  rcases ramfsOpen2_split h with ⟨hlt, heq, -⟩ | ⟨i, hi, rfl⟩ | ⟨tmp, s₁, -, hnone, hopen, hr⟩
  · rw [heq]
    exact Or.inl ⟨hlt, .refl⟩
  · exact Or.inr ⟨s, i, .refl, rfl, Or.inl ⟨rfl, hi⟩⟩
  have h₁ : RamfsChanges ∅ s.nextInode s s₁ := ramfsOpen_changes hopen
  have h₂ : RamfsChanges ∅ s.nextInode s (ramfsClose s₁ tmp).2 :=
    h₁.trans (ramfsClose_changes s₁ tmp)
  rcases hr with ⟨-, rfl⟩ | ⟨htmp, ⟨-, rfl⟩ | ⟨j, hj, rfl⟩⟩
  · exact Or.inl ⟨by simp [eNoent], h₁⟩
  · exact Or.inl ⟨by simp [eNoent], h₂⟩
  · exact Or.inr ⟨_, j, h₂, rfl, Or.inr ⟨hnone,
      (find_of_ramfsOpen hnone hopen htmp (ramfsClose_fdsOnly s₁ tmp).inodes hj).2.2⟩⟩

theorem ramfsOpen2_changes {path : Option CString} {oflags : ℕ} {r : ℤ × Ramfs}
    (h : ramfsOpen2 s path oflags = some r) :
    RamfsChanges ((RamfsOp.open2 path oflags).touches s) s.nextInode s r.2 := by
  rcases ramfsOpen2_cases h with ⟨-, h⟩ | ⟨s₁, i, h₁, rfl, hi⟩
  · exact h.mono_touches (Set.empty_subset _)
  · refine (h₁.mono_touches (Set.empty_subset _)).trans (ramfsOpen2Fd_changes ?_)
    rcases hi with ⟨rfl, hi⟩ | ⟨-, hi⟩
    · exact Or.inr ⟨i, hi, rfl⟩
    · exact Or.inl hi

theorem ramfsRead_changes (hs : PoolInv s) {fd : ℤ} {bufNull : Bool} {count : ℕ}
    {r : ℤ × List UInt8 × Ramfs} (h : ramfsRead s fd bufNull count = some r) :
    RamfsChanges T N s r.2.2 := by
  rcases ramfsRead_cases h with heq | ⟨k, i, hread, hpos, -, heq⟩
  · rw [heq]
  · -- the offset ends within the size of the file
    rw [heq]
    refine .single (.setFd k _ ?_ (Or.inr ⟨i, Ramfs.slotOfIno_some hread.slot⟩))
    have hsize := (hs.placed i).size_le.trans (hs.placed i).capacity_le
    refine (Nat.mod_le _ _).trans ?_
    rw [Ramfs.readCount] at hpos ⊢
    omega

theorem PoolInv.writeOffset_le (hs : PoolInv s) (k : Fin 32) (i : Fin 64) :
    s.writeOffset k i ≤ ramfsMaxFilesize := by
  rw [Ramfs.writeOffset]
  split_ifs
  · exact (hs.placed i).size_le.trans (hs.placed i).capacity_le
  · exact hs.offset_le k

/-- The memory operations of a job inside its block are a write to the block and a move of the
offset. -/
theorem WriteJob.InBlock.run_changes {job : WriteJob} (hin : job.InBlock)
    (hfs : PoolInv job.fs) {buf : ℕ → UInt8} {d : ℕ} (hd : job.inode.data = some d)
    (hT : job.inode.ino ∈ T) (hfd : (job.fs.fds job.fd).ino = job.inode.ino) :
    RamfsChanges T N job.fs (job.run buf d) := by
  have hplaced := hfs.placed job.slot
  rw [job.run_eq]
  refine .head (.write job.slot hT hd hin.eqOn_newPool (max_le hplaced.size_le hin))
    (.single (.setFd job.fd _ (le_trans hin hplaced.capacity_le) (Or.inr ⟨job.slot, ?_⟩)))
  rw [Ramfs.setInode_self]
  exact hfd.symm

/-- **What a job relies on.** The first half of a write only moves the offset of an append
descriptor and reserves room; when the end of the write is a 32-bit number, the job stays inside
the block. -/
theorem ramfsWritePrepare_inr (hs : PoolInv s) {fd : ℤ} {bufNull : Bool} {count : ℕ}
    {job : WriteJob} (h : ramfsWritePrepare s fd bufNull count = .inr job) :
    ∃ k i, s.Writable fd k i ∧ job.fd = k ∧ job.slot = i ∧ job.offset = s.writeOffset k i ∧
      0 < job.count ∧ (∀ T N, RamfsChanges T N s job.fs) ∧ job.inode.ino = (s.fds k).ino ∧
      job.inode.size = (s.inodes i).size ∧ job.fs.fds = (s.seekWrite k i).fds ∧
      (s.writeOffset k i + count < 0x100000000 → job.count ≤ count ∧ job.InBlock) := by
  rcases ramfsWritePrepare_cases s fd bufNull count with ⟨ret, s', heq, -⟩ |
    ⟨k, i, cnt, n, hw, hoff, hcnt, hn, heq, hcase⟩
  · simp [heq] at h
  obtain rfl := Sum.inr_injective (heq.symm.trans h)
  have hneed : u32 (s.writeOffset k i + cnt) ≤ ramfsMaxFilesize := hcnt ▸
    u32_add_clampCount_le hoff
  obtain ⟨hfds, -, data, capacity, hinodes⟩ :=
    ramfsReserve_frame (s.seekWrite k i) i (u32 (s.writeOffset k i + cnt))
  have hinode : (ramfsReserve (s.seekWrite k i) i (u32 (s.writeOffset k i + cnt))).2.inodes i =
      { s.inodes i with data := data, capacity := capacity } := by
    rw [hinodes, Function.update_self]
    rfl
  refine ⟨k, i, hw, rfl, rfl, rfl, hn, fun T N => ?_, ?_, ?_, hfds, fun hsum => ?_⟩
  · exact .head (.setFd k { s.fds k with offset := s.writeOffset k i } (hs.writeOffset_le k i)
      (Or.inr ⟨i, Ramfs.slotOfIno_some hw.slot⟩)) (.single (.reserve i hneed))
  · rw [WriteJob.inode, hinode]
    exact Ramfs.slotOfIno_some hw.slot
  · rw [WriteJob.inode, hinode]
  · obtain ⟨hwrap, hle, -⟩ := clampCount_spec hoff hsum
    rw [← hcnt] at hwrap hle
    rw [WriteJob.InBlock, WriteJob.inode]
    dsimp only
    -- the block has room for the whole count, or the count is what it has room for
    rcases hcase with ⟨hok, rfl⟩ | ⟨hfull, hlt, rfl⟩
    · exact ⟨hle, hwrap.symm.le.trans (needed_le_capacity hneed hok)⟩
    · have hcap := hfull.1
      rw [hwrap] at hcap
      rw [ramfsReserve_of_full hfull]
      constructor
      · change (s.inodes i).capacity < _ at hcap
        omega
      · show s.writeOffset k i + ((s.inodes i).capacity - s.writeOffset k i) ≤
          (s.inodes i).capacity
        omega

/-- A file that is written to has a block. -/
theorem WriteJob.InBlock.exists_data {job : WriteJob} (hin : job.InBlock) (hfs : PoolInv job.fs)
    (hpos : 0 < job.count) : ∃ d, job.inode.data = some d := by
  cases hd : job.inode.data with
  | some d => exact ⟨d, rfl⟩
  | none =>
    have hcap := (hfs.placed job.slot).noBlock hd
    rw [WriteJob.InBlock, WriteJob.inode, hcap] at hin
    omega

theorem ramfsWrite_changes (hs : PoolInv s) {fd : ℤ} {buf : Option (ℕ → UInt8)} {count : ℕ}
    {r : ℤ × Ramfs} (h : ramfsWrite s fd buf count = some r) :
    RamfsChanges ((RamfsOp.write fd buf count).touches s) N s r.2 := by
  rw [ramfsWrite] at h
  cases hprep : ramfsWritePrepare s fd buf.isNone count with
  | inl r' =>
    rw [hprep] at h
    obtain rfl := Option.some_injective _ h
    rcases ramfsWritePrepare_cases s fd buf.isNone count with
      ⟨ret, s', heq, -, rfl | ⟨k, i, hw, rfl⟩⟩ | ⟨k, i, cnt, n, -, -, -, -, heq, -⟩
    · obtain rfl := Sum.inl_injective (heq.symm.trans hprep)
      exact .refl
    · obtain rfl := Sum.inl_injective (heq.symm.trans hprep)
      exact .single (.setFd k _ (hs.writeOffset_le k i)
        (Or.inr ⟨i, Ramfs.slotOfIno_some hw.slot⟩))
    · exact absurd (heq.symm.trans hprep) (by simp)
  | inr job =>
    simp only [hprep] at h
    split_ifs at h with hin
    obtain ⟨d, hd, rfl⟩ := Option.map_eq_some_iff.mp h
    obtain ⟨k, i, hw, hk, rfl, -, -, hchanges, hino, -, hfds, -⟩ := ramfsWritePrepare_inr hs hprep
    refine (hchanges _ _).trans (hin.run_changes (hs.changes (hchanges ∅ 0)) hd ?_ ?_)
    · rw [hino]
      exact ⟨k, hw.valid, rfl⟩
    · rw [hino, hfds, hk]
      simp [Ramfs.seekWrite]

theorem ramfsLseek_changes (s : Ramfs) (fd offset whence : ℤ) :
    RamfsChanges T N s (ramfsLseek s fd offset whence).2 := by
  rcases ramfsLseek_cases s fd offset whence with ⟨ret, -, heq⟩ | ⟨k, i, pos, hslot, -, hle, heq⟩
  · rw [heq]
  · rw [heq]
    exact .single (.setFd k _ (Int.toNat_le.mpr hle) (Or.inr ⟨i, Ramfs.slotOfIno_some hslot⟩))

/-- `ramfs_mkdir` fails and changes nothing, or creates the directory in a free slot. -/
theorem ramfsMkdir_cases {path : Option CString} {r : ℤ × Ramfs}
    (h : ramfsMkdir s path = some r) :
    r = (-1, s) ∨ ∃ p i parentIno s₁, path = some p ∧ ramfsFindInode s path = none ∧
      ramfsFindFreeInode s = some i ∧ ramfsResolveDir s (ramfsSplitPath p).1 = some parentIno ∧
      ramfsCreate s i .dir parentIno (ramfsSplitPath p).2 = some s₁ ∧ r = (0, s₁) := by
  have hfail : some (-1, s) = some r → r = (-1, s) := fun h => (Option.some_injective _ h).symm
  cases path with
  | none => exact Or.inl (hfail h)
  | some p =>
    simp only [ramfsMkdir] at h
    split_ifs at h with hempty hfind
    · exact Or.inl (hfail h)
    · exact Or.inl (hfail h)
    cases hfree : ramfsFindFreeInode s with
    | none => exact Or.inl (hfail (by rwa [hfree] at h))
    | some i =>
      simp only [hfree] at h
      cases hdir : ramfsResolveDir s (ramfsSplitPath p).1 with
      | none => exact Or.inl (hfail (by rwa [hdir] at h))
      | some parentIno =>
        rw [hdir] at h
        obtain ⟨s₁, hcreate, rfl⟩ := Option.map_eq_some_iff.mp h
        exact Or.inr ⟨p, i, parentIno, s₁, rfl, by simpa using hfind, rfl, hdir, hcreate, rfl⟩

theorem ramfsMkdir_changes {path : Option CString} {r : ℤ × Ramfs}
    (h : ramfsMkdir s path = some r) : RamfsChanges T s.nextInode s r.2 := by
  rcases ramfsMkdir_cases h with rfl | ⟨p, i, parentIno, s₁, -, -, hfree, -, hcreate, rfl⟩
  · exact .refl
  · obtain ⟨hi, hino⟩ := ramfsFindFreeInode_some hfree
    exact .single (.create i .dir parentIno _ hi hino rfl hcreate)

/-- `ramfs_rmdir` fails and changes nothing, or clears the slot of a directory. -/
theorem ramfsRmdir_cases (s : Ramfs) (path : Option CString) :
    ramfsRmdir s path = (-1, s) ∨ ∃ i, ramfsFindInode s path = some i ∧
      (s.inodes i).type = .dir ∧ ramfsRmdir s path = (0, s.setInode i Inode.zero) := by
  rw [ramfsRmdir]
  cases ramfsFindInode s path with
  | none => exact Or.inl rfl
  | some i =>
    by_cases htype : (s.inodes i).type ≠ .dir
    · exact Or.inl (if_pos htype)
    · exact Or.inr ⟨i, rfl, not_not.mp htype, if_neg htype⟩

theorem ramfsRmdir_changes (s : Ramfs) (path : Option CString) :
    RamfsChanges T N s (ramfsRmdir s path).2 := by
  rcases ramfsRmdir_cases s path with heq | ⟨i, -, htype, heq⟩
  · rw [heq]
  · rw [heq]
    exact .single (.clear i htype)

/-- `ramfs_unlink` fails and changes nothing, or gives a file's block back and clears its slot. -/
theorem ramfsUnlink_cases (s : Ramfs) (path : Option CString) :
    ramfsUnlink s path = (-1, s) ∨ ∃ i, ramfsFindInode s path = some i ∧
      (s.inodes i).type = .file ∧
      ramfsUnlink s path = (0, (ramfsRelease s i).setInode i Inode.zero) := by
  rw [ramfsUnlink]
  cases ramfsFindInode s path with
  | none => exact Or.inl rfl
  | some i =>
    by_cases htype : (s.inodes i).type ≠ .file
    · exact Or.inl (if_pos htype)
    · exact Or.inr ⟨i, rfl, not_not.mp htype, if_neg htype⟩

theorem ramfsUnlink_changes (s : Ramfs) (path : Option CString) :
    RamfsChanges ((RamfsOp.unlink path).touches s) N s (ramfsUnlink s path).2 := by
  rcases ramfsUnlink_cases s path with heq | ⟨i, hfind, -, heq⟩
  · rw [heq]
  · rw [heq]
    exact .single (.unlink i ⟨i, hfind, rfl⟩)

/-- What an operation has done is what its function has done. -/
@[elab_as_elim]
theorem ramfsExec_elim {motive : ∀ (op : RamfsOp) (res : RamfsResult) (s' : Ramfs),
      ramfsExec s op = some (res, s') → Prop}
    («open» : ∀ path flags r h, ramfsOpen s path flags = some r →
      motive (.open path flags) ⟨r.1, []⟩ r.2 h)
    (open2 : ∀ path oflags r h, ramfsOpen2 s path oflags = some r →
      motive (.open2 path oflags) ⟨r.1, []⟩ r.2 h)
    (close : ∀ fd h, motive (.close fd) ⟨(ramfsClose s fd).1, []⟩ (ramfsClose s fd).2 h)
    (read : ∀ fd bufNull count r h, ramfsRead s fd bufNull count = some r →
      motive (.read fd bufNull count) ⟨r.1, r.2.1⟩ r.2.2 h)
    (write : ∀ fd buf count r h, ramfsWrite s fd buf count = some r →
      motive (.write fd buf count) ⟨r.1, []⟩ r.2 h)
    (lseek : ∀ fd offset whence h, motive (.lseek fd offset whence)
      ⟨(ramfsLseek s fd offset whence).1, []⟩ (ramfsLseek s fd offset whence).2 h)
    (mkdir : ∀ path r h, ramfsMkdir s path = some r → motive (.mkdir path) ⟨r.1, []⟩ r.2 h)
    (rmdir : ∀ path h, motive (.rmdir path) ⟨(ramfsRmdir s path).1, []⟩ (ramfsRmdir s path).2 h)
    (unlink : ∀ path h,
      motive (.unlink path) ⟨(ramfsUnlink s path).1, []⟩ (ramfsUnlink s path).2 h)
    {op : RamfsOp} {res : RamfsResult} {s' : Ramfs} (h : ramfsExec s op = some (res, s')) :
    motive op res s' h := by
  cases op with
  | «open» path flags =>
    obtain ⟨r, hr, ⟨⟩⟩ := Option.map_eq_some_iff.mp h
    exact «open» path flags r h hr
  | open2 path oflags =>
    obtain ⟨r, hr, ⟨⟩⟩ := Option.map_eq_some_iff.mp h
    exact open2 path oflags r h hr
  | close fd =>
    obtain ⟨rfl, rfl⟩ := Prod.mk.inj (Option.some_injective _ h)
    exact close fd h
  | read fd bufNull count =>
    obtain ⟨r, hr, ⟨⟩⟩ := Option.map_eq_some_iff.mp h
    exact read fd bufNull count r h hr
  | write fd buf count =>
    obtain ⟨r, hr, ⟨⟩⟩ := Option.map_eq_some_iff.mp h
    exact write fd buf count r h hr
  | lseek fd offset whence =>
    obtain ⟨rfl, rfl⟩ := Prod.mk.inj (Option.some_injective _ h)
    exact lseek fd offset whence h
  | mkdir path =>
    obtain ⟨r, hr, ⟨⟩⟩ := Option.map_eq_some_iff.mp h
    exact mkdir path r h hr
  | rmdir path =>
    obtain ⟨rfl, rfl⟩ := Prod.mk.inj (Option.some_injective _ h)
    exact rmdir path h
  | unlink path =>
    obtain ⟨rfl, rfl⟩ := Prod.mk.inj (Option.some_injective _ h)
    exact unlink path h

/-- **Every operation is a sequence of elementary changes**, which touch the contents of no
file but those it is applied to. -/
theorem ramfsExec_changes (hs : PoolInv s) {op : RamfsOp} {res : RamfsResult}
    (h : ramfsExec s op = some (res, s')) : RamfsChanges (op.touches s) s.nextInode s s' := by
  cases h using ramfsExec_elim with
  | «open» path flags r _ hr => exact ramfsOpen_changes hr
  | open2 path oflags r _ hr => exact ramfsOpen2_changes hr
  | close fd => exact ramfsClose_changes s fd
  | read fd bufNull count r _ hr => exact ramfsRead_changes hs hr
  | write fd buf count r _ hr => exact ramfsWrite_changes hs hr
  | lseek fd offset whence => exact ramfsLseek_changes s fd offset whence
  | mkdir path r _ hr => exact ramfsMkdir_changes hr
  | rmdir path => exact ramfsRmdir_changes s path
  | unlink path => exact ramfsUnlink_changes s path

/-! ### Operations in range have an outcome -/

theorem ramfsCreate_isSome {type : NodeType} {parentIno : ℕ} {name : CString}
    (h : name.length ≤ 255) : (ramfsCreate s i type parentIno name).isSome := by
  rw [ramfsCreate, if_pos (by rw [ramfsMaxFilename]; omega)]
  rfl

theorem ramfsOpen_isSome (s : Ramfs) (path : Option CString) (flags : ℕ)
    (h : ∀ p, path = some p → (ramfsSplitPath p).2.length ≤ 255) :
    (ramfsOpen s path flags).isSome := by
  rw [ramfsOpen]
  cases hfind : ramfsFindInode s path with
  | some i => rfl
  | none =>
    have hname : (ramfsSplitPath (path.getD [])).2.length ≤ 255 := by
      cases path with
      | none => simp [ramfsFindInode] at hfind
      | some p => exact h p rfl
    dsimp only
    split_ifs
    · cases ramfsFindFreeInode s with
      | none => rfl
      | some i =>
        dsimp only
        cases ramfsResolveDir s (ramfsSplitPath (path.getD [])).1 with
        | none => rfl
        | some parentIno =>
          rw [Option.isSome_map]
          exact ramfsCreate_isSome hname
    · rfl

theorem ramfsOpen2_isSome (s : Ramfs) (path : Option CString) (oflags : ℕ)
    (h : ∀ p, path = some p → (ramfsSplitPath p).2.length ≤ 255) :
    (ramfsOpen2 s path oflags).isSome := by
  rw [ramfsOpen2]
  by_cases hpath : path = none
  · rw [if_pos hpath]
    rfl
  rw [if_neg hpath]
  cases ramfsFindInode s path with
  | some i =>
    dsimp only
    split_ifs <;> rfl
  | none =>
    dsimp only
    split_ifs
    · rfl
    · rw [Option.isSome_map]
      exact ramfsOpen_isSome _ _ _ h

/-- **Progress.** An operation in range has an outcome. -/
theorem ramfsExec_isSome (hs : PoolInv s) {op : RamfsOp} (h : op.InRange s) :
    (ramfsExec s op).isSome := by
  cases op with
  | «open» path flags =>
    rw [ramfsExec, Option.isSome_map]
    exact ramfsOpen_isSome _ _ _ h
  | open2 path oflags =>
    rw [ramfsExec, Option.isSome_map]
    exact ramfsOpen2_isSome _ _ _ h
  | close | lseek | rmdir | unlink => rfl
  | read fd bufNull count =>
    rw [ramfsExec, Option.isSome_map]
    by_cases hread : bufNull = true ∨ ∀ k i, ¬s.Readable fd k i
    · rw [ramfsRead_of_not_readable hread]
      rfl
    simp only [not_or, not_forall, not_not, Bool.not_eq_true] at hread
    obtain ⟨rfl, k, i, hread⟩ := hread
    rw [ramfsRead_of_readable hread]
    split_ifs with hpos
    · -- a file with something to read has a block
      rw [Option.isSome_map, Option.isSome_iff_ne_none]
      intro hnone
      have hcap := (hs.placed i).noBlock hnone
      have hsize := (hs.placed i).size_le
      rw [Ramfs.readCount] at hpos
      omega
    · rfl
  | write fd buf count =>
    rw [ramfsExec, Option.isSome_map, ramfsWrite]
    cases hprep : ramfsWritePrepare s fd buf.isNone count with
    | inl r => rfl
    | inr job =>
      obtain ⟨k, i, hw, -, -, -, hpos, hchanges, -, -, -, hin⟩ := ramfsWritePrepare_inr hs hprep
      have hin := (hin (h k i hw)).2
      obtain ⟨d, hd⟩ := hin.exists_data (hs.changes (hchanges ∅ 0)) hpos
      simp [hin, hd]
  | mkdir path =>
    rw [ramfsExec, Option.isSome_map]
    cases path with
    | none => rfl
    | some path =>
      rw [ramfsMkdir]
      split_ifs
      · rfl
      · rfl
      cases ramfsFindFreeInode s with
      | none => rfl
      | some i =>
        dsimp only
        cases ramfsResolveDir s (ramfsSplitPath path).1 with
        | none => rfl
        | some parentIno =>
          rw [Option.isSome_map]
          exact ramfsCreate_isSome (h path rfl)

/-! ### The start -/

/-- The operations `ramfs_init` makes. -/
inductive Programs.InitOp (progs : Programs) : RamfsOp → Prop
  | mkdir : InitOp progs (.mkdir (some (cstr "/bin")))
  | «open» {bin : CString × List UInt8} : bin ∈ progs.binaries →
      InitOp progs (.open (some bin.1) 1)
  | write (fd : ℤ) (buf : Option (ℕ → UInt8)) (count : ℕ) : InitOp progs (.write fd buf count)
  | close (fd : ℤ) : InitOp progs (.close fd)

/-- **`ramfs_init` is a sequence of operations**: a property of the number of operations so far
and of the state, which every one of these operations keeps, holds behind it. -/
theorem ramfsInit_invariant {p : ℕ → Ramfs → Prop} {pool : ℕ → UInt8} {progs : Programs}
    (hroot : p 0 (ramfsRoot pool))
    (hstep : ∀ n s op res s', p n s → progs.InitOp op → ramfsExec s op = some (res, s') →
      p (n + 1) s')
    (hskip : ∀ n s, p n s → p (n + 1) s) (h : ramfsInit pool progs = some s) : p 19 s := by
  rw [ramfsInit, ramfsPopulate, Option.bind_eq_bind, Option.bind_eq_some_iff] at h
  obtain ⟨⟨ret, s₁⟩, hmkdir, h⟩ := h
  have h₁ : p 1 s₁ := hstep 0 _ (.mkdir (some (cstr "/bin"))) ⟨ret, []⟩ s₁ hroot .mkdir <| by
    rw [ramfsExec, hmkdir]
    rfl
  -- a binary is three operations: open, write, close
  have hadd : ∀ n s s', ∀ bin ∈ progs.binaries, p n s → ramfsAddBinary s bin = some s' →
      p (n + 3) s' := by
    intro n s s' bin hbin hp h
    rw [ramfsAddBinary, Option.bind_eq_bind, Option.bind_eq_some_iff] at h
    obtain ⟨⟨fd, s₂⟩, hopen, h⟩ := h
    have h₂ : p (n + 1) s₂ := hstep n s (.open (some bin.1) 1) ⟨fd, []⟩ s₂ hp (.open hbin) <| by
      rw [ramfsExec, hopen]
      rfl
    dsimp only at h
    split_ifs at h with hfd
    · rw [Option.bind_eq_some_iff] at h
      obtain ⟨⟨n', s₃⟩, hwrite, h⟩ := h
      obtain rfl := Option.some_injective _ h
      have h₃ : p (n + 2) s₃ := hstep (n + 1) s₂
          (.write fd (some fun i => bin.2.getD i 0) bin.2.length) ⟨n', []⟩ s₃ h₂ (.write ..) <| by
        rw [ramfsExec, hwrite]
        rfl
      exact hstep (n + 2) s₃ (.close fd) _ _ h₃ (.close fd) rfl
    · obtain rfl := Option.some_injective _ h
      exact hskip _ _ (hskip _ _ h₂)
  -- and the binaries are added one after the other
  have hall : ∀ bins ⊆ progs.binaries, ∀ n s s', p n s →
      bins.foldlM ramfsAddBinary s = some s' → p (n + 3 * bins.length) s' := by
    intro bins
    induction bins with
    | nil =>
      intro _ n s s' hp h
      obtain rfl := Option.some_injective _ h
      exact hp
    | cons bin bins ih =>
      intro hsub n s s' hp h
      obtain ⟨hbin, hsub⟩ := List.cons_subset.mp hsub
      rw [List.foldlM_cons, Option.bind_eq_bind, Option.bind_eq_some_iff] at h
      obtain ⟨s₂, hadded, h⟩ := h
      have := ih hsub (n + 3) s₂ s' (hadd n s s₂ bin hbin hp hadded) h
      rwa [List.length_cons, show n + 3 * (bins.length + 1) = n + 3 + 3 * bins.length by omega]
  exact hall progs.binaries (List.Subset.refl _) 1 s₁ s h₁ h

/-- The layout invariant holds in every state of every run. -/
theorem poolInv_of_reachable {progs : Programs} {ok : RamfsRun → RamfsOp → Prop} {r : RamfsRun}
    (h : (ramfsSystem progs).ReachableBy ok r) : PoolInv r.fs := by
  refine h.invariant (p := fun r => PoolInv r.fs) (fun r hr => ?_) (fun r op r' hr _ hstep => ?_)
  · obtain ⟨pool, hinit, -⟩ := hr
    exact ramfsInit_invariant (p := fun _ => PoolInv) (poolInv_ramfsRoot pool)
      (fun _ _ _ _ _ hs _ hexec => hs.changes (ramfsExec_changes hs hexec)) (fun _ _ hs => hs)
      hinit
  · obtain ⟨⟨res, s'⟩, hexec, rfl⟩ := Option.map_eq_some_iff.mp hstep
    exact hr.changes (ramfsExec_changes hr hexec)

/-- What the layout invariant says about single bytes: an inode has no block and capacity 0, or
an aligned block among the bytes handed out so far, which holds its file; blocks of different
inodes are disjoint; the pool and every descriptor offset stay within their bounds. -/
structure PoolLayout (s : Ramfs) : Prop where
  block : ∀ i, (s.inodes i).data = none ∧ (s.inodes i).capacity = 0 ∨
    ∃ d, (s.inodes i).data = some d ∧ d + (s.inodes i).capacity ≤ s.poolUsed ∧
      d % 16 = 0 ∧ (s.inodes i).capacity % 16 = 0
  size_le : ∀ i, (s.inodes i).size ≤ (s.inodes i).capacity
  capacity_le : ∀ i, (s.inodes i).capacity ≤ ramfsMaxFilesize
  disjoint : ∀ i j d e, i ≠ j → (s.inodes i).data = some d → (s.inodes j).data = some e →
    Disjoint (Set.Ico d (d + (s.inodes i).capacity)) (Set.Ico e (e + (s.inodes j).capacity))
  used_le : s.poolUsed ≤ ramfsPoolSize
  offset_le : ∀ k, (s.fds k).offset ≤ ramfsMaxFilesize

theorem PoolInv.layout (h : PoolInv s) : PoolLayout s where
  block i := by
    cases hd : (s.inodes i).data with
    | none => exact Or.inl ⟨rfl, (h.placed i).noBlock hd⟩
    | some d =>
      obtain ⟨hmod, hcap, -, hle⟩ := (h.placed i).block d hd
      exact Or.inr ⟨d, rfl, hle, hmod, hcap⟩
  size_le i := (h.placed i).size_le
  capacity_le i := (h.placed i).capacity_le
  disjoint i j d e hij hd he := by
    rw [Set.disjoint_left]
    rintro x ⟨hdx, hxd⟩ ⟨hex, hxe⟩
    rcases h.disjoint i j hij with hb | hb
    · have := hb d e hd he
      omega
    · have := hb e d he hd
      omega
  used_le := h.used_le
  offset_le := h.offset_le

/-- **Layout of the pool.** Every run of operations in range keeps the layout of the pool. -/
theorem poolLayout_of_reachable {progs : Programs} {r : RamfsRun}
    (h : (ramfsSystem progs).ReachableBy (fun r op => op.InRange r.fs) r) : PoolLayout r.fs :=
  (poolInv_of_reachable h).layout

/-- No program images. -/
def noPrograms : Programs := ⟨[], [], [], [], [], [], by simp⟩

theorem noPrograms_isSome : (ramfsInit (fun _ => 0) noPrograms).isSome = true := by
  decide +kernel

/-- The run that has only initialised an empty pool. -/
def freshRun : RamfsRun := ⟨(ramfsInit (fun _ => 0) noPrograms).get noPrograms_isSome, 7⟩

theorem freshRun_start : (ramfsSystem noPrograms).start freshRun :=
  ⟨fun _ => 0, (Option.some_get noPrograms_isSome).symm, by decide +kernel⟩

/-- A short write is in range. -/
theorem PoolInv.inRange_write (h : PoolInv s) (fd : ℤ) (buf : Option (ℕ → UInt8)) {count : ℕ}
    (hcount : count < 0x10000000) : (RamfsOp.write fd buf count).InRange s := fun k i _ => by
  have := h.writeOffset_le k i
  simp only [ramfsMaxFilesize] at this
  omega

/-- `freshRun` continued by the creation of a file and a write of 300 bytes to it. -/
def sampleOps : List RamfsOp :=
  [.open2 (some (cstr "/a")) (oRdwr ||| oCreat), .write 0 (some fun _ => 7) 300]

/-- `poolLayout_of_reachable` behind a run that has handed out a block. -/
theorem poolLayout_sample :
    ∃ r, (ramfsSystem noPrograms).runInputs freshRun sampleOps = some r ∧
      r.fs.poolUsed = 304 ∧ PoolLayout r.fs := by
  have hrun : ((ramfsSystem noPrograms).runInputs freshRun sampleOps).map (·.fs.poolUsed) =
      some 304 := by decide +kernel
  obtain ⟨r, hr, hused⟩ := Option.map_eq_some_iff.mp hrun
  refine ⟨r, hr, hused, poolLayout_of_reachable (StepSystem.ReachableBy.runInputs
    (.start freshRun_start) (fun s hs op hop => ?_) hr)⟩
  simp only [sampleOps, List.mem_cons, List.not_mem_nil, or_false] at hop
  rcases hop with rfl | rfl
  · rintro p ⟨rfl⟩
    decide
  · exact (poolInv_of_reachable hs).inRange_write _ _ (by decide)

end ChalesOs
