import ChalesOs.Ramfs.TableRefinement

/-!
# Runs on the bytes

The operations on blocks, and with them all operations. In the bytes a block pointer is an address
and every sum is taken modulo `2 ^ 32`; the layout invariant of the records says that the sums of
the pool do not wrap and that the pointers stay in it. `RamfsMem.Holds.exec` puts the operations
together.

So the runs on the bytes in which the names fit are the runs on the records, one way
(`ramfsMem_refines`) and the other (`exists_ramfsMem`).
-/

namespace ChalesOs

open ByteMemory

variable {P : PoolPlace} {b b' b₁ : RamfsMem} {s s' : Ramfs} {i : Fin 64} {k : Fin 32}
  {d n offset count needed capacity : ℕ} {op : RamfsOp} {res : RamfsResult} {progs : Programs}

/-! ### The pool -/

/-- The bytes of the pool have 32-bit addresses. -/
theorem PoolPlace.index_u32 (hpos : 0 < n) (hle : d + n ≤ ramfsPoolSize) :
    P.index (u32 (P.addr + d)) n = some d := by
  have hend := P.addr_le
  rw [u32_of_lt (by omega), PoolPlace.index, if_pos ⟨Nat.le_add_right _ _, by omega⟩,
    Nat.add_sub_cancel_left]

/-- More bytes than the pool has are not in it. -/
theorem PoolPlace.index_of_lt {p : ℕ} (h : ramfsPoolSize < n) : P.index p n = none :=
  if_neg (by omega)

theorem RamfsMem.newcap_eq (h : capacity ≤ ramfsMaxFilesize) :
    RamfsMem.newcap capacity needed = newCapacity capacity needed := by
  have hdouble : u32 (capacity * 2) = capacity * 2 := by
    rw [ramfsMaxFilesize] at h
    exact u32_of_lt (by omega)
  rw [newcap, newCapacity, hdouble]

/-- The second of two updates of one inode. -/
private theorem Ramfs.setInode_setInode (inode inode' : Inode) :
    (s.setInode i inode).setInode i inode' = s.setInode i inode' := by
  simp only [Ramfs.setInode, Function.update_idem]

namespace RamfsMem.Holds

theorem data_of_none (h : b.Holds P s) (hd : (s.inodes i).data = none) : b.data i = 0 :=
  (h.stored i).data.trans (by rw [hd]; rfl)

theorem data_of_some (h : b.Holds P s) (hd : (s.inodes i).data = some d) :
    b.data i = P.addr + d :=
  (h.stored i).data.trans (by rw [hd]; rfl)

theorem data_ne_zero (h : b.Holds P s) (hd : (s.inodes i).data = some d) : b.data i ≠ 0 := by
  have hpos := P.addr_pos
  rw [h.data_of_some hd]
  omega

theorem withPool (h : b.Holds P s) (pool : ℕ → UInt8) :
    ({ b with pool := pool } : RamfsMem).Holds P { s with pool := pool } :=
  ⟨h.stored, rfl, h.poolUsed, h.fds, h.nextInode, h.nextInode_lt⟩

theorem withUsed (h : b.Holds P s) (used : ℕ) :
    ({ b with poolUsed := used } : RamfsMem).Holds P { s with poolUsed := used } :=
  ⟨h.stored, h.pool, rfl, h.fds, h.nextInode, h.nextInode_lt⟩

/-- The ends of a block and of the bytes handed out are the same address if and only if they are
the same place in the pool. -/
theorem isNewest_iff (h : b.Holds P s) (hs : PoolInv s) (i : Fin 64) :
    b.IsNewest P i ↔ s.IsNewest (s.inodes i) := by
  have haddr := P.addr_pos
  have hle := P.addr_le
  have hused := hs.used_le
  rw [RamfsMem.IsNewest, Ramfs.IsNewest, h.capacity_eq, h.poolUsed]
  cases hd : (s.inodes i).data with
  | none => simp [h.data_of_none hd]
  | some d =>
    have hend := ((hs.placed i).block d hd).2.2.2
    rw [h.data_of_some hd, u32, u32]
    constructor
    · rintro ⟨-, heq⟩
      exact ⟨d, rfl, by omega⟩
    · rintro ⟨e, he, heq⟩
      obtain rfl := Option.some.inj he
      exact ⟨by omega, by rw [Nat.add_assoc, heq]⟩

/-- The copy of a block to the end of the bytes handed out. -/
theorem movedPool_eq (h : b.Holds P s) (hs : PoolInv s) (i : Fin 64)
    (hroom : s.poolUsed + (s.inodes i).size ≤ ramfsPoolSize) :
    b.movedPool P i (u32 (P.addr + s.poolUsed)) = some
      (match (s.inodes i).data with
        | some d => if (s.inodes i).size ≠ 0 then
            copy s.pool s.poolUsed s.pool d (s.inodes i).size else s.pool
        | none => s.pool) := by
  have hplaced := hs.placed i
  rw [movedPool, h.size_eq, h.pool]
  cases hd : (s.inodes i).data with
  | none => rw [if_neg fun hne => hne.1 (h.data_of_none hd)]
  | some d =>
    have hend := (hplaced.block d hd).2.2.2
    have hsize := hplaced.size_le
    dsimp only
    by_cases hzero : (s.inodes i).size = 0
    · rw [if_neg fun hne => hne.2 hzero, if_neg (not_not.mpr hzero)]
    · have haddr : u32 (b.data i) = b.data i := u32_of_lt (loadWord_lt _ _)
      rw [if_pos ⟨h.data_ne_zero hd, hzero⟩, if_pos hzero,
        PoolPlace.index_u32 (Nat.pos_of_ne_zero hzero) hroom, Option.bind_some, ← haddr,
        h.data_of_some hd, PoolPlace.index_u32 (Nat.pos_of_ne_zero hzero)
          (by have := hs.used_le; omega), Option.bind_some, if_pos (Or.inr (by omega))]

/-- **A reservation**, for at most `RAMFS_MAX_FILESIZE` bytes. -/
theorem reserve (h : b.Holds P s) (hs : PoolInv s) (i : Fin 64)
    (hneed : needed ≤ ramfsMaxFilesize) :
    ∃ b', b.ramfsReserve P i needed = some ((ramfsReserve s i needed).1, b') ∧
      b'.Holds P (ramfsReserve s i needed).2 := by
  obtain ⟨hle, -, hmax⟩ := newCapacity_spec (s.inodes i).capacity hneed
  have hcap := (hs.placed i).capacity_le
  have hsize := (hs.placed i).size_le
  have hused := hs.used_le
  have haddr := P.addr_le
  have hnewest := h.isNewest_iff hs i
  rw [RamfsMem.ramfsReserve, ramfsReserve, h.capacity_eq, newcap_eq hcap, h.poolUsed]
  by_cases hfit : needed ≤ (s.inodes i).capacity
  · rw [if_pos hfit, if_pos hfit]
    exact ⟨b, rfl, h⟩
  rw [if_neg hfit, if_neg hfit]
  dsimp only
  generalize newCapacity (s.inodes i).capacity needed = newcap at *
  rw [ramfsMaxFilesize] at hmax
  rw [ramfsPoolSize] at hused haddr
  by_cases hnew : s.IsNewest (s.inodes i)
  · have hend : (s.inodes i).capacity ≤ s.poolUsed := by
      obtain ⟨d, -, hend⟩ := hnew
      omega
    have hsum : u32 (s.poolUsed + (0x100000000 - (s.inodes i).capacity) + newcap) =
        s.poolUsed - (s.inodes i).capacity + newcap := by
      rw [u32]
      omega
    rw [if_pos (hnewest.mpr hnew), if_pos hnew, hsum]
    by_cases hfull : s.poolUsed - (s.inodes i).capacity + newcap > ramfsPoolSize
    · rw [if_pos hfull, if_pos hfull]
      exact ⟨b, rfl, h⟩
    · rw [if_neg hfull, if_neg hfull,
        show s.poolUsed - (s.inodes i).capacity + newcap =
          s.poolUsed + (newcap - (s.inodes i).capacity) by omega]
      exact ⟨_, rfl, (h.storeCapacity i (by omega)).withUsed _⟩
  · have hsum : u32 (s.poolUsed + newcap) = s.poolUsed + newcap := u32_of_lt (by omega)
    rw [if_neg (mt hnewest.mp hnew), if_neg hnew, hsum]
    by_cases hfull : s.poolUsed + newcap > ramfsPoolSize
    · rw [if_pos hfull, if_pos hfull]
      exact ⟨b, rfl, h⟩
    · rw [if_neg hfull, if_neg hfull, h.movedPool_eq hs i (by omega), Option.map_some]
      refine ⟨_, rfl, ?_⟩
      rw [ramfsPoolSize] at hfull
      have hstored := (h.storeData i (v := s.poolUsed) (by omega)).storeCapacity i (v := newcap)
        (by omega)
      rw [Ramfs.setInode_self, Ramfs.setInode_setInode] at hstored
      rw [u32_of_lt (by omega)]
      exact ⟨hstored.stored, rfl, rfl, hstored.fds, hstored.nextInode, hstored.nextInode_lt⟩

theorem release (h : b.Holds P s) (hs : PoolInv s) (i : Fin 64) :
    (b.ramfsRelease P i).Holds P (ramfsRelease s i) := by
  have hused := hs.used_le
  rw [RamfsMem.ramfsRelease, ramfsRelease]
  by_cases hnew : s.IsNewest (s.inodes i)
  · rw [if_pos ((h.isNewest_iff hs i).mpr hnew), if_pos hnew, h.poolUsed, h.capacity_eq]
    obtain ⟨d, -, hend⟩ := hnew
    have hsum : u32 (s.poolUsed + (0x100000000 - (s.inodes i).capacity)) =
        s.poolUsed - (s.inodes i).capacity := by
      rw [ramfsPoolSize] at hused
      rw [u32]
      omega
    rw [hsum]
    exact h.withUsed _
  · rw [if_neg (mt (h.isNewest_iff hs i).mp hnew), if_neg hnew]
    exact h

/-! ### Reading, writing and seeking -/

theorem read (h : b.Holds P s) (hs : PoolInv s) (fd : ℤ) (bufNull : Bool) (count : ℕ) :
    Follows P ((b.ramfsRead P fd bufNull count).map fun r => (RamfsResult.mk r.1 r.2.1, r.2.2))
      ((ramfsRead s fd bufNull count).map fun r => (RamfsResult.mk r.1 r.2.1, r.2.2)) := by
  rw [RamfsMem.ramfsRead, ramfsRead, h.fds]
  cases validFd fd with
  | none => exact .some ⟨rfl, h⟩
  | some k =>
    dsimp only
    rw [h.reads.slotOfIno_eq]
    by_cases hbuf : bufNull = true ∨ (s.fds k).ino = 0
    · rw [if_pos hbuf, if_pos hbuf]
      exact .some ⟨rfl, h⟩
    rw [if_neg hbuf, if_neg hbuf]
    cases s.slotOfIno (s.fds k).ino with
    | none => exact .some ⟨rfl, h⟩
    | some i =>
      dsimp only
      rw [h.size_eq, h.pool]
      have htype := not_congr (h.reads.type_eq_iff i .file)
      by_cases hfile : (s.inodes i).type ≠ .file
      · rw [if_pos (htype.mpr hfile), if_pos hfile]
        exact .some ⟨rfl, h⟩
      rw [if_neg (mt htype.mp hfile), if_neg hfile]
      by_cases hmode : (s.fds k).flags &&& oAccmode = oWronly
      · rw [if_pos hmode, if_pos hmode]
        exact .some ⟨rfl, h⟩
      rw [if_neg hmode, if_neg hmode]
      by_cases hend : (s.fds k).offset ≥ (s.inodes i).size
      · rw [if_pos hend, if_pos hend]
        exact .some ⟨rfl, h⟩
      rw [if_neg hend, if_neg hend]
      generalize hn : (if count < (s.inodes i).size - (s.fds k).offset then count
        else (s.inodes i).size - (s.fds k).offset) = n
      have hle : n ≤ (s.inodes i).size - (s.fds k).offset := by
        rw [← hn]
        split_ifs <;> omega
      by_cases hpos : n > 0
      · rw [if_pos hpos, if_pos hpos]
        have hplaced := hs.placed i
        have hsize := hplaced.size_le
        cases hd : (s.inodes i).data with
        | none =>
          have := hplaced.noBlock hd
          omega
        | some d =>
          have hbound := (hplaced.block d hd).2.2.2
          have hused := hs.used_le
          rw [h.data_of_some hd, Nat.add_assoc, PoolPlace.index_u32 hpos (by omega)]
          exact .some ⟨rfl, h.setFd k _⟩
      · rw [if_neg hpos, if_neg hpos]
        exact .some ⟨rfl, h⟩

theorem lseek (h : b.Holds P s) (fd offset whence : ℤ) :
    SameOutcome P (b.ramfsLseek fd offset whence) (ramfsLseek s fd offset whence) := by
  rw [RamfsMem.ramfsLseek, ramfsLseek, h.fds]
  cases validFd fd with
  | none => exact ⟨rfl, h⟩
  | some k =>
    dsimp only
    rw [h.reads.slotOfIno_eq]
    by_cases hino : (s.fds k).ino = 0
    · rw [if_pos hino, if_pos hino]
      exact ⟨rfl, h⟩
    rw [if_neg hino, if_neg hino]
    cases s.slotOfIno (s.fds k).ino with
    | none => exact ⟨rfl, h⟩
    | some i =>
      dsimp only
      rw [h.size_eq]
      cases (if whence = 0 then some 0 else if whence = 1 then some ((s.fds k).offset : ℤ)
          else if whence = 2 then some ((s.inodes i).size : ℤ) else none) with
      | none => exact ⟨rfl, h⟩
      | some base =>
        dsimp only
        split_ifs
        · exact ⟨rfl, h⟩
        · exact ⟨rfl, h.setFd k _⟩

/-- The hole in front of an offset in the block. -/
theorem clearedPool_eq (h : b.Holds P s) (hs : PoolInv s) (hd : (s.inodes i).data = some d)
    (hoff : offset ≤ (s.inodes i).capacity) :
    b.clearedPool P i offset = some (if offset > (s.inodes i).size then
      fill s.pool (d + (s.inodes i).size) (offset - (s.inodes i).size) 0 else s.pool) := by
  have hbound := ((hs.placed i).block d hd).2.2.2
  have hused := hs.used_le
  rw [clearedPool, h.size_eq, h.pool]
  by_cases hgt : offset > (s.inodes i).size
  · rw [if_pos hgt, if_pos hgt, h.data_of_some hd, Nat.add_assoc,
      PoolPlace.index_u32 (Nat.sub_pos_of_lt hgt) (by omega), Option.map_some]
  · rw [if_neg hgt, if_neg hgt]

/-- **The memory operations of a write**: inside the block of the file, or with more bytes than
the pool has. -/
theorem writeBlock (h : b.Holds P s) (hs : PoolInv s) (job : WriteJob) (hfs : job.fs = s)
    (hpos : 0 < job.count) (hin : job.InBlock ∨ ramfsPoolSize < job.count) (buf : ℕ → UInt8) :
    Follows P (b.writeBlock P job.slot job.fd job.offset job.count buf)
      (if job.InBlock then job.inode.data.map fun d => ((job.count : ℤ), job.run buf d)
        else none) := by
  subst hfs
  rw [RamfsMem.writeBlock]
  by_cases hblock : job.InBlock
  · obtain ⟨d, hd⟩ := hblock.exists_data hs hpos
    have hbound := ((hs.placed job.slot).block d hd).2.2.2
    have hcap := (hs.placed job.slot).capacity_le
    have hused := hs.used_le
    have hle : job.offset + job.count ≤ (job.fs.inodes job.slot).capacity := hblock
    rw [ramfsMaxFilesize] at hcap
    rw [if_pos hblock, hd, Option.map_some, h.clearedPool_eq hs hd (by omega), Option.bind_some,
      h.data_of_some hd, Nat.add_assoc, PoolPlace.index_u32 hpos (by omega), Option.map_some,
      u32_of_lt (by omega), show b.fds job.fd = job.fs.fds job.fd from congrFun h.fds _, h.size_eq]
    refine .some ⟨rfl, ?_⟩
    have hcopied := (h.withPool (copy (if job.offset > job.inode.size then
      fill job.fs.pool (d + job.inode.size) (job.offset - job.inode.size) 0 else job.fs.pool)
      (d + job.offset) buf 0 job.count)).setFd job.fd
        { job.fs.fds job.fd with offset := job.offset + job.count }
    change Holds P (if job.offset + job.count > job.inode.size then _ else _)
      (if job.offset + job.count > job.inode.size then _ else _)
    by_cases hgt : job.offset + job.count > job.inode.size
    · rw [if_pos hgt, if_pos hgt]
      exact hcopied.storeSize job.slot (by omega)
    · rw [if_neg hgt, if_neg hgt]
      exact hcopied
  · -- the copy is longer than the pool
    rw [if_neg hblock, PoolPlace.index_of_lt (hin.resolve_left hblock)]
    simp only [Option.map_none, Option.bind_fun_none]
    exact .none

/-- **A write.** -/
theorem write (h : b.Holds P s) (hs : PoolInv s) (fd : ℤ) (buf : Option (ℕ → UInt8)) (count : ℕ) :
    Follows P (b.ramfsWrite P fd buf count) (ramfsWrite s fd buf count) := by
  rw [RamfsMem.ramfsWrite, ramfsWrite, ramfsWritePrepare, h.fds]
  cases validFd fd with
  | none => exact .some ⟨rfl, h⟩
  | some k =>
    dsimp only
    rw [h.reads.slotOfIno_eq]
    by_cases hbuf : buf.isNone = true ∨ (s.fds k).ino = 0
    · rw [if_pos hbuf, if_pos hbuf]
      exact .some ⟨rfl, h⟩
    rw [if_neg hbuf, if_neg hbuf]
    cases hslot : s.slotOfIno (s.fds k).ino with
    | none => exact .some ⟨rfl, h⟩
    | some i =>
      dsimp only
      have htype := not_congr (h.reads.type_eq_iff i .file)
      by_cases hfile : (s.inodes i).type ≠ .file
      · rw [if_pos (htype.mpr hfile), if_pos hfile]
        exact .some ⟨rfl, h⟩
      rw [if_neg (mt htype.mp hfile), if_neg hfile]
      by_cases hmode : (s.fds k).flags &&& oAccmode = oRdonly
      · rw [if_pos hmode, if_pos hmode]
        exact .some ⟨rfl, h⟩
      rw [if_neg hmode, if_neg hmode, h.size_eq]
      have hle : s.writeOffset k i ≤ ramfsMaxFilesize := hs.writeOffset_le k i
      rw [Ramfs.writeOffset] at hle
      generalize (if (s.fds k).flags &&& oAppend ≠ 0 then (s.inodes i).size
        else (s.fds k).offset) = offset at *
      have hseek := h.setFd k { s.fds k with offset := offset }
      by_cases hend : offset ≥ ramfsMaxFilesize
      · rw [if_pos hend, if_pos hend]
        exact .some ⟨rfl, hseek⟩
      rw [if_neg hend, if_neg hend]
      have hneed : u32 (offset + clampCount offset count) ≤ ramfsMaxFilesize :=
        u32_add_clampCount_le (not_le.mp hend)
      rw [clampCount] at hneed
      generalize (if u32 (offset + count) > ramfsMaxFilesize then ramfsMaxFilesize - offset
        else count) = cnt at *
      by_cases hzero : cnt = 0
      · rw [if_pos hzero, if_pos hzero]
        exact .some ⟨rfl, hseek⟩
      rw [if_neg hzero, if_neg hzero]
      have hs₁ : PoolInv (s.setFd k { s.fds k with offset := offset }) :=
        hs.changes (T := ∅) (N := 0) (.single (.setFd k _ hle
          (Or.inr ⟨i, Ramfs.slotOfIno_some hslot⟩)))
      have hs₂ := hs₁.reserve i hneed
      have hroom := needed_le_capacity (s := s.setFd k { s.fds k with offset := offset }) (i := i)
        hneed
      obtain ⟨b₂, hb₂, h₂⟩ := hseek.reserve hs₁ i hneed
      rw [hb₂, Option.bind_some]
      generalize ramfsReserve (s.setFd k { s.fds k with offset := offset }) i
        (u32 (offset + cnt)) = reserved at *
      obtain ⟨ok, s₂⟩ := reserved
      rw [ramfsMaxFilesize] at hend
      cases ok with
      | true =>
        -- the whole count fits, or the sum has wrapped
        have hin : offset + cnt ≤ (s₂.inodes i).capacity ∨ ramfsPoolSize < cnt := by
          have hfit := hroom rfl
          rw [u32] at hfit
          rw [ramfsPoolSize]
          dsimp only at hfit
          omega
        exact h₂.writeBlock hs₂ ⟨s₂, k, i, offset, cnt⟩ rfl (Nat.pos_of_ne_zero hzero) hin _
      | false =>
        dsimp only
        rw [if_neg Bool.false_ne_true, if_neg Bool.false_ne_true, h₂.capacity_eq]
        by_cases hcap : offset ≥ (s₂.inodes i).capacity
        · rw [if_pos hcap, if_pos hcap]
          exact .some ⟨rfl, h₂⟩
        · rw [if_neg hcap, if_neg hcap]
          have hlt := not_le.mp hcap
          exact h₂.writeBlock hs₂ ⟨s₂, k, i, offset, (s₂.inodes i).capacity - offset⟩ rfl
            (Nat.sub_pos_of_lt hlt) (Or.inl (Nat.add_sub_cancel' hlt.le).le) _

/-! ### All operations -/

theorem unlink (h : b.Holds P s) (hs : PoolInv s) {path : Option CString}
    (hpath : ∀ t, path = some t → (0 : UInt8) ∉ t) :
    SameOutcome P (b.ramfsUnlink P path) (ramfsUnlink s path) := by
  rw [RamfsMem.ramfsUnlink, ramfsUnlink, h.reads.ramfsFindInode_eq hpath]
  cases ramfsFindInode s path with
  | none => exact ⟨rfl, h⟩
  | some i =>
    have htype := not_congr (h.reads.type_eq_iff i .file)
    dsimp only
    by_cases hfile : (s.inodes i).type ≠ .file
    · rw [if_pos (htype.mpr hfile), if_pos hfile]
      exact ⟨rfl, h⟩
    · rw [if_neg (mt htype.mp hfile), if_neg hfile]
      exact ⟨rfl, (h.release hs i).clearSlot i⟩

/-- **Every operation on the bytes does what it does on the records**, if it creates no name of
more than 255 bytes. -/
theorem exec (h : b.Holds P s) (hs : PoolInv s) (hop : op.IsCString)
    (hname : ∀ path, op.CreatesInode s → op.path = some (some path) →
      (pathName path).length ≤ 255) :
    Follows P (b.ramfsExec P op) (ramfsExec s op) := by
  have hpath : ∀ {p}, op.path = some p → ∀ t, p = some t → (0 : UInt8) ∉ t := by
    rintro p hp t rfl
    exact hop t hp
  cases op with
  | «open» p flags =>
    have hopen := h.open flags (hpath rfl) fun t ht hflags hc =>
      hname t ⟨hflags, hc⟩ (congrArg some ht)
    exact hopen.map fun r r' hsame => hsame.map (RamfsResult.mk · [])
  | open2 p oflags =>
    have hopen := h.open2 oflags (hpath rfl) fun t ht hcreat hc =>
      hname t ⟨hcreat, hc⟩ (congrArg some ht)
    exact hopen.map fun r r' hsame => hsame.map (RamfsResult.mk · [])
  | close fd => exact .some ((h.close fd).map (RamfsResult.mk · []))
  | read fd bufNull count => exact h.read hs fd bufNull count
  | write fd buf count =>
    exact (h.write hs fd buf count).map fun r r' hsame => hsame.map (RamfsResult.mk · [])
  | lseek fd offset whence => exact .some ((h.lseek fd offset whence).map (RamfsResult.mk · []))
  | mkdir p =>
    have hmkdir := h.mkdir (hpath rfl) fun t ht hc => hname t hc (congrArg some ht)
    exact hmkdir.map fun r r' hsame => hsame.map (RamfsResult.mk · [])
  | rmdir p => exact .some ((h.rmdir (hpath rfl)).map (RamfsResult.mk · []))
  | unlink p => exact .some ((h.unlink hs (hpath rfl)).map (RamfsResult.mk · []))

end RamfsMem.Holds

/-! ### Files -/

/-- Where a write through descriptor `k` to the file in slot `i` starts. -/
def RamfsMem.writeOffset (b : RamfsMem) (k : Fin 32) (i : Fin 64) : ℕ :=
  if (b.fds k).flags &&& oAppend ≠ 0 then b.size i else (b.fds k).offset

/-- The bytes of the file in slot `i`. -/
def RamfsMem.fileBytes (P : PoolPlace) (b : RamfsMem) (i : Fin 64) : List UInt8 :=
  (P.index (b.data i) (b.size i)).elim [] fun d => slice b.pool d (b.size i)

/-! ### Which names are created -/

/-- The path names nothing, a slot is free, and the directory is there. -/
def RamfsMem.Creates (b : RamfsMem) (path : Option CString) : Prop :=
  b.ramfsFindInode path = none ∧ b.ramfsFindFreeInode.isSome = true ∧
    (b.ramfsResolveDir (ramfsSplitPath (path.getD [])).1).isSome = true

instance (b : RamfsMem) (path : Option CString) : Decidable (b.Creates path) :=
  inferInstanceAs (Decidable (_ ∧ _ ∧ _))

/-- The operation creates an inode. -/
def RamfsOp.CreatesIn (b : RamfsMem) : RamfsOp → Prop
  | .open path flags => flags &&& 1 ≠ 0 ∧ b.Creates path
  | .open2 path oflags => oflags &&& oCreat ≠ 0 ∧ b.Creates path
  | .mkdir path => b.Creates path
  | _ => False

/-- The path is a C string, and when the operation creates an inode, its name has at most 255
bytes. -/
structure RamfsMemRun.NamesFit (run : RamfsMemRun) (op : RamfsOp) : Prop where
  isCString : op.IsCString
  length_le : ∀ path, op.CreatesIn run.fs → op.path = some (some path) →
    (pathName path).length ≤ 255

theorem RamfsMem.Holds.creates_iff (h : b.Holds P s) {path : Option CString}
    (hpath : ∀ t, path = some t → (0 : UInt8) ∉ t) : b.Creates path ↔ s.Creates path := by
  have hdir : (0 : UInt8) ∉ (ramfsSplitPath (path.getD [])).1 := by
    cases path with
    | none => exact (Reads.zero_notMem_split List.not_mem_nil).1
    | some t => exact (Reads.zero_notMem_split (hpath t rfl)).1
  rw [Creates, Ramfs.Creates, h.reads.ramfsFindInode_eq hpath, h.reads.ramfsFindFreeInode_eq,
    h.reads.ramfsResolveDir_eq hdir]

theorem RamfsMem.Holds.createsInode_iff (h : b.Holds P s) (hop : op.IsCString) :
    op.CreatesIn b ↔ op.CreatesInode s := by
  cases op with
  | «open» path flags => exact and_congr_right' (h.creates_iff fun t ht => hop t (congrArg some ht))
  | open2 path oflags => exact and_congr_right' (h.creates_iff fun t ht => hop t (congrArg some ht))
  | mkdir path => exact h.creates_iff fun t ht => hop t (congrArg some ht)
  | close | read | write | lseek | rmdir | unlink => exact Iff.rfl

/-! ### The start -/

namespace RamfsMem.Holds

/-- The cleared tables with the root directory. -/
theorem root (b : RamfsMem) : b.ramfsRoot.Holds P (ramfsRoot b.pool) := by
  have hzero : Ramfs.StoredIn { ramfsRoot b.pool with inodes := fun _ => Inode.zero } 0 P.addr
      (fill b.table 0 (inodeBytes * 64) 0) := by
    intro j
    refine Inode.storedAt_zero fun c hc => fill_of_mem ⟨Nat.zero_le _, ?_⟩
    have hj := j.isLt
    rw [inodeBytes] at hc
    rw [slotAddr, inodeBytes]
    omega
  have hname : [slash].length < ramfsMaxFilename := by decide
  have hsub : (Set.Ico (slotAddr 0 0) (slotAddr 0 0 + inodeBytes))ᶜ ⊆
      (Set.Ico (slotAddr 0 0) (slotAddr 0 0 + 272))ᶜ :=
    Set.compl_subset_compl.mpr (Set.Ico_subset_Ico le_rfl (Nat.add_le_add_left (by decide) _))
  have hpos : 0 < 0x100000000 := by decide
  have hnul : (0 : UInt8) ∉ [slash] := by decide
  have hroot : Inode.StoredAt P.addr
      (fillInode (fill b.table 0 (inodeBytes * 64) 0) (slotAddr 0 0) 0 .dir [slash] 0)
      (slotAddr 0 0) { Inode.zero with type := .dir, name := [slash] } :=
    Inode.StoredAt.fill (hzero 0) hname hnul hpos hpos
  have hstored := hzero.setInode hroot ((eqOn_fillInode hname).mono hsub)
  rw [RamfsMem.ramfsRoot]
  constructor
  · dsimp only
    exact hstored
  · rfl
  · rfl
  · rfl
  · rfl
  · exact Nat.one_lt_two_pow (n := 32) (by decide)

theorem addBinary (h : b.Holds P s) (hs : PoolInv s) {bin : CString × List UInt8}
    (hnul : (0 : UInt8) ∉ bin.1) (hname : (pathName bin.1).length ≤ 255) :
    Option.Rel (fun b s => b.Holds P s ∧ PoolInv s) (b.ramfsAddBinary P bin)
      (ramfsAddBinary s bin) := by
  have hopen := (h.open 1 (fun t (ht : some bin.1 = some t) => Option.some.inj ht ▸ hnul)
    fun t ht _ _ => Option.some.inj ht ▸ hname).and_right
      fun r hr => hs.changes (ramfsOpen_changes (T := ∅) hr)
  refine hopen.bind fun r r' hsame => ?_
  obtain ⟨fd, b₁⟩ := r
  obtain ⟨fd', s₁⟩ := r'
  obtain ⟨⟨hret, h₁⟩, hs₁⟩ := hsame
  obtain rfl : fd = fd' := hret
  dsimp only at h₁ hs₁ ⊢
  split_ifs with hfd
  · have hwrite := (h₁.write hs₁ fd (some fun i => bin.2.getD i 0) bin.2.length).and_right
      fun r hr => hs₁.changes (ramfsWrite_changes (N := 0) hs₁ hr)
    exact hwrite.bind fun r r' hsame => .some ⟨(hsame.1.fs.close fd).fs,
      hsame.2.changes (ramfsClose_changes (T := ∅) (N := 0) r'.2 fd)⟩
  · exact .some ⟨h₁, hs₁⟩

/-- **The file system behind `ramfs_init`.** -/
theorem init (b : RamfsMem) :
    Option.Rel (Holds P) (b.ramfsInit P progs) (ramfsInit b.pool progs) := by
  have hroot : b.ramfsRoot.Holds P (ramfsRoot b.pool) := root b
  have hbins : ∀ bin ∈ progs.binaries, (0 : UInt8) ∉ bin.1 ∧ (pathName bin.1).length ≤ 255 := by
    intro bin hbin
    simp only [Programs.binaries, List.mem_cons, List.not_mem_nil, or_false] at hbin
    rcases hbin with rfl | rfl | rfl | rfl | rfl | rfl <;> dsimp only <;> decide
  have hmkdir := (hroot.mkdir (fun t (ht : some (cstr "/bin") = some t) =>
    Option.some.inj ht ▸ by decide) fun t ht _ => Option.some.inj ht ▸ by decide).and_right
      fun r hr => (poolInv_ramfsRoot b.pool).changes (ramfsMkdir_changes (T := ∅) hr)
  rw [RamfsMem.ramfsInit, RamfsMem.ramfsPopulate, ramfsInit, ramfsPopulate]
  refine hmkdir.bind fun r r' hsame => ?_
  have hadded := Option.Rel.foldlM (f := fun b bin => b.ramfsAddBinary P bin)
    (g := ramfsAddBinary) (r := fun b s => Holds P b s ∧ PoolInv s) ⟨hsame.1.fs, hsame.2⟩
    fun bin hbin b s h => h.1.addBinary h.2 (hbins bin hbin).1 (hbins bin hbin).2
  exact hadded.imp fun _ _ h => h.1

end RamfsMem.Holds

/-- **Runs on the bytes are runs on the records**, if no name of more than 255 bytes is created. -/
theorem ramfsMem_refines {run : RamfsMemRun}
    (h : (ramfsMemSystem P progs).ReachableBy RamfsMemRun.NamesFit run) :
    ∃ run', (ramfsSystem progs).ReachableBy (fun _ op => op.IsCString) run' ∧
      run.fs.Holds P run'.fs ∧ run'.created = run.created := by
  refine h.follows (fun (run : RamfsMemRun) (run' : RamfsRun) =>
    run.fs.Holds P run'.fs ∧ run'.created = run.created) ?_ ?_
  · rintro ⟨b', created⟩ ⟨b, hinit, hcreated⟩
    obtain ⟨s', hs', h'⟩ := (RamfsMem.Holds.init b).exists_right hinit
    exact ⟨⟨s', created⟩, ⟨b.pool, hs', hcreated.trans h'.nextInode⟩, h', rfl⟩
  · rintro ⟨b, created⟩ op run' ⟨s, created'⟩ hreach ⟨hb, hcreated⟩ hop hstep
    dsimp only at hb hcreated
    obtain rfl := hcreated
    obtain ⟨⟨res, b'⟩, hexec, rfl⟩ := Option.map_eq_some_iff.mp hstep
    have hname := fun path hc => hop.length_le path ((hb.createsInode_iff hop.isCString).mpr hc)
    obtain ⟨⟨res', s'⟩, hs', -, h'⟩ :=
      (hb.exec (poolInv_of_reachable hreach) hop.isCString hname).exists_right hexec
    refine ⟨op, ⟨s', created' + newInodes s s'⟩, hop.isCString, ?_, h', ?_⟩
    · exact Option.map_eq_some_iff.mpr ⟨(res', s'), hs', rfl⟩
    · dsimp only at h' ⊢
      rw [newInodes, h'.nextInode, hb.nextInode]

/-- A creation that has an outcome on the records has a name that fits. -/
theorem length_le_of_exec {r : RamfsResult × Ramfs} {path : CString} (hc : op.CreatesInode s)
    (hexec : ramfsExec s op = some r) (hpath : op.path = some (some path)) :
    (pathName path).length ≤ 255 := by
  have hlen : ∀ {i : Fin 64} {type : NodeType} {n : ℕ} {s₁ : Ramfs},
      ramfsCreate s i type n (ramfsSplitPath path).2 = some s₁ → (pathName path).length ≤ 255 := by
    intro i type n s₁ hcreate
    rw [ramfsSplitPath_eq] at hcreate
    exact Nat.lt_succ_iff.mp (ramfsCreate_eq_some hcreate).1
  cases op with
  | «open» p flags =>
    obtain rfl := Option.some.inj hpath
    obtain ⟨r', hr', -⟩ := Option.map_eq_some_iff.mp hexec
    obtain ⟨p, i, n, s₁, hp, -, -, -, hcreate, -⟩ := ramfsOpen_of_creates hc.2 hc.1 hr'
    obtain rfl := Option.some.inj hp
    exact hlen hcreate
  | open2 p oflags =>
    obtain rfl := Option.some.inj hpath
    obtain ⟨r', hr', -⟩ := Option.map_eq_some_iff.mp hexec
    rcases ramfsOpen2_split hr' with ⟨-, -, hnot⟩ | ⟨j, hj, -⟩ | ⟨tmp, s₂, -, -, hopen, -⟩
    · rcases hnot with hsome | hzero
      · exact absurd hc.2.1 hsome
      · exact absurd hzero hc.1
    · rw [hc.2.1] at hj
      exact absurd hj (Option.some_ne_none j).symm
    · obtain ⟨p, i, n, s₁, hp, -, -, -, hcreate, -⟩ := ramfsOpen_of_creates hc.2 (by decide) hopen
      obtain rfl := Option.some.inj hp
      exact hlen hcreate
  | mkdir p =>
    obtain rfl := Option.some.inj hpath
    obtain ⟨r', hr', -⟩ := Option.map_eq_some_iff.mp hexec
    obtain ⟨hnone, hfree, hdir⟩ := hc
    obtain ⟨i, hi⟩ := Option.isSome_iff_exists.mp hfree
    obtain ⟨n, hn⟩ := Option.isSome_iff_exists.mp hdir
    rw [Option.getD_some] at hn
    have hempty : path ≠ [] := by
      rintro rfl
      exact absurd hnone (by simp [ramfsFindInode])
    simp only [ramfsMkdir, hempty, if_false, hnone, Option.isSome_none, Bool.false_eq_true, hi,
      hn] at hr'
    obtain ⟨s₁, hcreate, -⟩ := Option.map_eq_some_iff.mp hr'
    exact hlen hcreate
  | close | read | write | lseek | rmdir | unlink => exact hc.elim

/-- **Runs on the records are runs on the bytes**, in which the names fit. -/
theorem exists_ramfsMem {run : RamfsRun}
    (h : (ramfsSystem progs).ReachableBy (fun _ op => op.IsCString) run) :
    ∃ run', (ramfsMemSystem P progs).ReachableBy RamfsMemRun.NamesFit run' ∧
      run'.fs.Holds P run.fs ∧ run'.created = run.created := by
  suffices hfollows : ∃ run', (ramfsMemSystem P progs).ReachableBy RamfsMemRun.NamesFit run' ∧
      PoolInv run.fs ∧ run'.fs.Holds P run.fs ∧ run'.created = run.created by
    obtain ⟨run', hreach, -, hholds⟩ := hfollows
    exact ⟨run', hreach, hholds⟩
  refine h.follows (fun (run : RamfsRun) (run' : RamfsMemRun) =>
    PoolInv run.fs ∧ run'.fs.Holds P run.fs ∧ run'.created = run.created) ?_ ?_
  · rintro ⟨s, created⟩ hstart
    have hs := poolInv_of_reachable (.start hstart : (ramfsSystem progs).Reachable ⟨s, created⟩)
    obtain ⟨pool, hinit, hcreated⟩ := hstart
    obtain ⟨b, hb, h'⟩ := (RamfsMem.Holds.init (P := P)
      ⟨fun _ => 0, pool, 0, fun _ => Fd.zero, 0⟩).exists_left hinit
    exact ⟨⟨b, created⟩, ⟨_, hb, hcreated.trans h'.nextInode.symm⟩, hs, h', rfl⟩
  · rintro ⟨s, created⟩ op run' ⟨b, created'⟩ - ⟨hs, hb, hcreated⟩ hop hstep
    dsimp only at hb hcreated
    obtain rfl := hcreated
    obtain ⟨⟨res, s'⟩, hexec, rfl⟩ := Option.map_eq_some_iff.mp hstep
    have hname : ∀ path, op.CreatesInode s → op.path = some (some path) →
        (pathName path).length ≤ 255 := fun path hc => length_le_of_exec hc hexec
    obtain ⟨⟨res', b'⟩, hb', -, h'⟩ := (hb.exec hs hop hname).exists_left hexec
    refine ⟨op, ⟨b', created' + newInodes s s'⟩, ⟨hop, fun path hc =>
      hname path ((hb.createsInode_iff hop).mp hc)⟩, ?_, hs.changes (ramfsExec_changes hs hexec),
      h', rfl⟩
    refine Option.map_eq_some_iff.mpr ⟨(res', b'), hb', ?_⟩
    dsimp only at h' ⊢
    rw [newInodes, h'.nextInode, hb.nextInode]

/-! ### Examples of runs -/

/-- A place for the pool. -/
def samplePlace : PoolPlace := ⟨0x200000, by decide, by decide⟩

/-- Cleared memory. -/
def blankMem : RamfsMem := ⟨fun _ => 0, fun _ => 0, 0, fun _ => Fd.zero, 0⟩

/-- The first file system, by its bytes. -/
theorem exists_freshMem : ∃ b, (ramfsMemSystem samplePlace noPrograms).start ⟨b, 7⟩ ∧
    b.Holds samplePlace freshRun.fs := by
  obtain ⟨b, hinit, hholds⟩ := (RamfsMem.Holds.init (P := samplePlace) blankMem).exists_left
    (Option.some_get noPrograms_isSome).symm
  have hnext : freshRun.fs.nextInode = 8 := by decide +kernel
  exact ⟨b, ⟨blankMem, hinit, (hholds.nextInode.trans hnext).symm⟩, hholds⟩

end ChalesOs
