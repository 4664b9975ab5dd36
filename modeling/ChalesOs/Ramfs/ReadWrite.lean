import ChalesOs.Ramfs.Pool

/-!
# What reads and writes do

Both start by looking up the open file a descriptor stands for (`Ramfs.OpenFile`), and fail
without a trace when there is none. `ramfsRead_of_readable` gives the outcome of a read in
closed form.

`ramfsWritePrepare_cases` says what the first half of `ramfs_write` decides: it refuses or
writes nothing and moves at most the offset of an append descriptor, or it hands over a job,
whose offset is the write offset, and whose count is the requested one, cut at
`RAMFS_MAX_FILESIZE`, if the reservation succeeded, and what is left of the block if it did not.
`WriteJob.run_eq` puts the second half in normal form: new bytes in the file's block, a size,
and an offset. When the job is `InBlock`, the new bytes are inside the block.
-/

namespace ChalesOs

open ByteMemory

variable {s : Ramfs} {fd : ℤ} {k : Fin 32} {i : Fin 64} {count : ℕ}

/-- The descriptor `fd` is number `k`, and open on the live file in slot `i`. -/
structure Ramfs.OpenFile (s : Ramfs) (fd : ℤ) (k : Fin 32) (i : Fin 64) : Prop where
  valid : validFd fd = some k
  live : (s.fds k).ino ≠ 0
  slot : s.slotOfIno (s.fds k).ino = some i
  file : (s.inodes i).type = .file

/-- An open file, open for reading. -/
structure Ramfs.Readable (s : Ramfs) (fd : ℤ) (k : Fin 32) (i : Fin 64) : Prop
    extends s.OpenFile fd k i where
  mode : (s.fds k).flags &&& oAccmode ≠ oWronly

/-- An open file, open for writing. -/
structure Ramfs.Writable (s : Ramfs) (fd : ℤ) (k : Fin 32) (i : Fin 64) : Prop
    extends s.OpenFile fd k i where
  mode : (s.fds k).flags &&& oAccmode ≠ oRdonly

/-- A descriptor stands for one file. -/
theorem Ramfs.OpenFile.unique {k' : Fin 32} {i' : Fin 64} (h : s.OpenFile fd k i)
    (h' : s.OpenFile fd k' i') : k = k' ∧ i = i' := by
  obtain rfl := Option.some_injective _ (h.valid.symm.trans h'.valid)
  exact ⟨rfl, Option.some_injective _ (h.slot.symm.trans h'.slot)⟩

/-! ### Reading -/

/-- How many bytes a read of `count` bytes through descriptor `k` gets from slot `i`. -/
def Ramfs.readCount (s : Ramfs) (k : Fin 32) (i : Fin 64) (count : ℕ) : ℕ :=
  min count ((s.inodes i).size - (s.fds k).offset)

/-- A read through anything that is not open for reading fails and changes nothing. -/
theorem ramfsRead_of_not_readable {bufNull : Bool}
    (h : bufNull = true ∨ ∀ k i, ¬s.Readable fd k i) :
    ramfsRead s fd bufNull count = some (-1, [], s) := by
  rw [ramfsRead]
  cases hvalid : validFd fd with
  | none => rfl
  | some k =>
    dsimp only
    by_cases hbuf : bufNull = true ∨ (s.fds k).ino = 0
    · rw [if_pos hbuf]
    rw [if_neg hbuf]
    cases hslot : s.slotOfIno (s.fds k).ino with
    | none => rfl
    | some i =>
      dsimp only
      by_cases hfile : (s.inodes i).type ≠ .file
      · rw [if_pos hfile]
      rw [if_neg hfile]
      by_cases hmode : (s.fds k).flags &&& oAccmode = oWronly
      · rw [if_pos hmode]
      rcases h with h | h
      · exact absurd (Or.inl h) hbuf
      · exact absurd ⟨⟨hvalid, fun h0 => hbuf (Or.inr h0), hslot, not_not.mp hfile⟩, hmode⟩
          (h k i)

/-- A read returns what the block holds at the offset, and moves the offset behind it. -/
theorem ramfsRead_of_readable (h : s.Readable fd k i) :
    ramfsRead s fd false count =
      if 0 < s.readCount k i count then
        (s.inodes i).data.map fun d =>
          ((s.readCount k i count : ℤ),
            slice s.pool (d + (s.fds k).offset) (s.readCount k i count),
            s.setFd k { s.fds k with
              offset := u32 ((s.fds k).offset + s.readCount k i count) })
      else some (0, [], s) := by
  obtain ⟨⟨hvalid, hlive, hslot, hfile⟩, hmode⟩ := h
  rw [ramfsRead, hvalid]
  dsimp only
  rw [if_neg (by simp [hlive]), hslot]
  dsimp only
  rw [if_neg (not_not.mpr hfile), if_neg hmode]
  by_cases hend : (s.fds k).offset ≥ (s.inodes i).size
  · rw [if_pos hend, if_neg (by rw [Ramfs.readCount]; omega)]
  · have hcount : (if count < (s.inodes i).size - (s.fds k).offset then count
        else (s.inodes i).size - (s.fds k).offset) = s.readCount k i count := by
      rw [Ramfs.readCount]
      split_ifs <;> omega
    rw [if_neg hend, hcount]
    by_cases hpos : 0 < s.readCount k i count
    · rw [if_pos hpos, if_pos hpos]
    · rw [if_neg hpos, if_neg hpos, Nat.eq_zero_of_not_pos hpos]
      rfl

/-- A read changes nothing, or moves the offset of a descriptor behind the bytes it returns. -/
theorem ramfsRead_cases {bufNull : Bool} {r : ℤ × List UInt8 × Ramfs}
    (h : ramfsRead s fd bufNull count = some r) :
    r.2.2 = s ∨ ∃ k i, s.Readable fd k i ∧ 0 < s.readCount k i count ∧
      r.1 = s.readCount k i count ∧ r.2.2 = s.setFd k { s.fds k with
        offset := u32 ((s.fds k).offset + s.readCount k i count) } := by
  by_cases hread : bufNull = true ∨ ∀ k i, ¬s.Readable fd k i
  · rw [ramfsRead_of_not_readable hread] at h
    obtain rfl := Option.some_injective _ h
    exact Or.inl rfl
  simp only [not_or, not_forall, not_not, Bool.not_eq_true] at hread
  obtain ⟨rfl, k, i, hread⟩ := hread
  rw [ramfsRead_of_readable hread] at h
  split_ifs at h with hpos
  · obtain ⟨d, -, rfl⟩ := Option.map_eq_some_iff.mp h
    exact Or.inr ⟨k, i, hread, hpos, rfl, rfl⟩
  · obtain rfl := Option.some_injective _ h
    exact Or.inl rfl

/-! ### The first half of a write -/

/-- Where a write through descriptor `k` to the file in slot `i` starts. -/
def Ramfs.writeOffset (s : Ramfs) (k : Fin 32) (i : Fin 64) : ℕ :=
  if (s.fds k).flags &&& oAppend ≠ 0 then (s.inodes i).size else (s.fds k).offset

/-- The state behind the append branch of `ramfs_write`. -/
def Ramfs.seekWrite (s : Ramfs) (k : Fin 32) (i : Fin 64) : Ramfs :=
  s.setFd k { s.fds k with offset := s.writeOffset k i }

/-- The count behind the size clamp of `ramfs_write`. -/
def clampCount (offset count : ℕ) : ℕ :=
  if u32 (offset + count) > ramfsMaxFilesize then ramfsMaxFilesize - offset else count

/-- The sum handed to `ramfs_reserve` is at most `RAMFS_MAX_FILESIZE`. -/
theorem u32_add_clampCount_le {offset : ℕ} (h : offset < ramfsMaxFilesize) :
    u32 (offset + clampCount offset count) ≤ ramfsMaxFilesize := by
  rw [clampCount]
  split_ifs with hgt
  · rw [Nat.add_sub_cancel' h.le, u32]
    exact Nat.mod_le _ _
  · exact not_lt.mp hgt

/-- When the sum of offset and count does not wrap, neither does the clamped one, and the
clamped count is at most the requested one. -/
theorem clampCount_spec {offset : ℕ} (h : offset < ramfsMaxFilesize)
    (hsum : offset + count < 0x100000000) :
    u32 (offset + clampCount offset count) = offset + clampCount offset count ∧
      clampCount offset count ≤ count ∧ offset + clampCount offset count ≤ ramfsMaxFilesize := by
  have hle : clampCount offset count ≤ count ∧ offset + clampCount offset count ≤
      ramfsMaxFilesize := by
    rw [clampCount, u32, Nat.mod_eq_of_lt hsum]
    split_ifs <;> omega
  exact ⟨Nat.mod_eq_of_lt (hle.2.trans_lt (by decide)), hle⟩

/-- The first half of a write behind the size clamp: `cnt` bytes go to the file in slot `i`. -/
def Ramfs.writeReserve (s : Ramfs) (k : Fin 32) (i : Fin 64) (offset cnt : ℕ) :
    (ℤ × Ramfs) ⊕ WriteJob :=
  let reserved := ramfsReserve s i (u32 (offset + cnt))
  if reserved.1 then .inr ⟨reserved.2, k, i, offset, cnt⟩
  else if offset ≥ (reserved.2.inodes i).capacity then .inl (-eNospc, reserved.2)
  else .inr ⟨reserved.2, k, i, offset, (reserved.2.inodes i).capacity - offset⟩

/-- The first half of a write behind the checks of the descriptor. -/
theorem ramfsWritePrepare_of_writable (h : s.Writable fd k i) (count : ℕ) :
    ramfsWritePrepare s fd false count =
      if s.writeOffset k i ≥ ramfsMaxFilesize then
        .inl (if count = 0 then 0 else -eNospc, s.seekWrite k i)
      else if clampCount (s.writeOffset k i) count = 0 then .inl (0, s.seekWrite k i)
      else (s.seekWrite k i).writeReserve k i (s.writeOffset k i)
        (clampCount (s.writeOffset k i) count) := by
  obtain ⟨⟨hvalid, hlive, hslot, hfile⟩, hmode⟩ := h
  rw [ramfsWritePrepare, hvalid]
  dsimp only
  rw [if_neg (by simp [hlive]), hslot]
  dsimp only
  rw [if_neg (not_not.mpr hfile), if_neg hmode]
  rfl

/-- A write through anything else fails and changes nothing. -/
theorem ramfsWritePrepare_of_not_writable {bufNull : Bool}
    (h : bufNull = true ∨ ∀ k i, ¬s.Writable fd k i) :
    ramfsWritePrepare s fd bufNull count = .inl (-1, s) := by
  rw [ramfsWritePrepare]
  cases hvalid : validFd fd with
  | none => rfl
  | some k =>
    dsimp only
    by_cases hbuf : bufNull = true ∨ (s.fds k).ino = 0
    · rw [if_pos hbuf]
    rw [if_neg hbuf]
    cases hslot : s.slotOfIno (s.fds k).ino with
    | none => rfl
    | some i =>
      dsimp only
      by_cases hfile : (s.inodes i).type ≠ .file
      · rw [if_pos hfile]
      rw [if_neg hfile]
      by_cases hmode : (s.fds k).flags &&& oAccmode = oRdonly
      · rw [if_pos hmode]
      rcases h with h | h
      · exact absurd (Or.inl h) hbuf
      · exact absurd ⟨⟨hvalid, fun h0 => hbuf (Or.inr h0), hslot, not_not.mp hfile⟩, hmode⟩
          (h k i)

/-- The three ends of `writeReserve`: nothing fits, all bytes fit, or as many as the old block
still has room for. -/
theorem Ramfs.writeReserve_cases (s : Ramfs) (k : Fin 32) (i : Fin 64) (offset cnt : ℕ) :
    s.writeReserve k i offset cnt = .inl (-eNospc, s) ∧ s.PoolFull i (u32 (offset + cnt)) ∧
      (s.inodes i).capacity ≤ offset ∨
    ∃ n, s.writeReserve k i offset cnt =
        .inr ⟨(ramfsReserve s i (u32 (offset + cnt))).2, k, i, offset, n⟩ ∧
      ((ramfsReserve s i (u32 (offset + cnt))).1 = true ∧ n = cnt ∨
        s.PoolFull i (u32 (offset + cnt)) ∧ offset < (s.inodes i).capacity ∧
          n = (s.inodes i).capacity - offset) := by
  rw [writeReserve]
  cases hok : (ramfsReserve s i (u32 (offset + cnt))).1 with
  | true => exact Or.inr ⟨cnt, by simp, Or.inl ⟨rfl, rfl⟩⟩
  | false =>
    have hfull := ramfsReserve_eq_false hok
    simp only [ramfsReserve_of_full hfull]
    by_cases hcap : offset ≥ (s.inodes i).capacity
    · exact Or.inl ⟨by simp [hcap], hfull, hcap⟩
    · exact Or.inr ⟨(s.inodes i).capacity - offset, by simp [hcap],
        Or.inr ⟨hfull, not_le.mp hcap, rfl⟩⟩

/-- **What the first half of a write decides.** -/
theorem ramfsWritePrepare_cases (s : Ramfs) (fd : ℤ) (bufNull : Bool) (count : ℕ) :
    (∃ ret s', ramfsWritePrepare s fd bufNull count = .inl (ret, s') ∧ ret ≤ 0 ∧
      (s' = s ∨ ∃ k i, s.Writable fd k i ∧ s' = s.seekWrite k i)) ∨
    ∃ k i cnt n, s.Writable fd k i ∧ s.writeOffset k i < ramfsMaxFilesize ∧
      cnt = clampCount (s.writeOffset k i) count ∧ 0 < n ∧
      ramfsWritePrepare s fd bufNull count =
        .inr ⟨(ramfsReserve (s.seekWrite k i) i (u32 (s.writeOffset k i + cnt))).2, k, i,
          s.writeOffset k i, n⟩ ∧
      ((ramfsReserve (s.seekWrite k i) i (u32 (s.writeOffset k i + cnt))).1 = true ∧ n = cnt ∨
        (s.seekWrite k i).PoolFull i (u32 (s.writeOffset k i + cnt)) ∧
          s.writeOffset k i < (s.inodes i).capacity ∧
          n = (s.inodes i).capacity - s.writeOffset k i) := by
  by_cases hw : bufNull = true ∨ ∀ k i, ¬s.Writable fd k i
  · exact Or.inl ⟨_, _, ramfsWritePrepare_of_not_writable hw, by decide, Or.inl rfl⟩
  · simp only [not_or, not_forall, not_not, Bool.not_eq_true] at hw
    obtain ⟨rfl, k, i, hw⟩ := hw
    rw [ramfsWritePrepare_of_writable hw]
    by_cases hoff : s.writeOffset k i ≥ ramfsMaxFilesize
    · rw [if_pos hoff]
      refine Or.inl ⟨_, _, rfl, ?_, Or.inr ⟨k, i, hw, rfl⟩⟩
      split_ifs <;> simp [eNospc]
    rw [if_neg hoff]
    by_cases hcount : clampCount (s.writeOffset k i) count = 0
    · rw [if_pos hcount]
      exact Or.inl ⟨_, _, rfl, le_rfl, Or.inr ⟨k, i, hw, rfl⟩⟩
    rw [if_neg hcount]
    rcases (s.seekWrite k i).writeReserve_cases k i (s.writeOffset k i)
      (clampCount (s.writeOffset k i) count) with ⟨heq, -⟩ | ⟨n, heq, hn⟩
    · exact Or.inl ⟨_, _, heq, by simp [eNospc], Or.inr ⟨k, i, hw, rfl⟩⟩
    · refine Or.inr ⟨k, i, _, n, hw, not_le.mp hoff, rfl, ?_, heq, hn⟩
      rcases hn with ⟨-, rfl⟩ | ⟨-, hlt, rfl⟩
      · exact Nat.pos_of_ne_zero hcount
      · exact Nat.sub_pos_of_lt hlt

/-- A write changes nothing but the offset of an append descriptor, or runs a job inside its
block, in the state behind the reservation. -/
theorem ramfsWrite_cases {buf : Option (ℕ → UInt8)} {r : ℤ × Ramfs}
    (h : ramfsWrite s fd buf count = some r) :
    (r.2 = s ∨ ∃ k i, s.Writable fd k i ∧ r.2 = s.seekWrite k i) ∨
    ∃ k i, ∃ (job : WriteJob) (d : ℕ), s.Writable fd k i ∧
      s.writeOffset k i < ramfsMaxFilesize ∧ job.fs = (ramfsReserve (s.seekWrite k i) i
        (u32 (s.writeOffset k i + clampCount (s.writeOffset k i) count))).2 ∧
      job.fd = k ∧ job.slot = i ∧ job.InBlock ∧ job.inode.data = some d ∧
      r.2 = job.run (buf.getD fun _ => 0) d := by
  rw [ramfsWrite] at h
  rcases ramfsWritePrepare_cases s fd buf.isNone count with
    ⟨ret, s', heq, -, hs'⟩ | ⟨k, i, cnt, n, hw, hoff, rfl, -, heq, -⟩
  · rw [heq] at h
    obtain rfl := Option.some_injective _ h
    exact Or.inl hs'
  · simp only [heq] at h
    split_ifs at h with hin
    obtain ⟨d, hd, rfl⟩ := Option.map_eq_some_iff.mp h
    exact Or.inr ⟨k, i, _, d, hw, hoff, rfl, rfl, rfl, hin, hd, rfl⟩

/-! ### The memory operations of a job -/

variable {job : WriteJob} {buf : ℕ → UInt8} {d : ℕ}

/-- The pool after the memory operations of a job. -/
def WriteJob.newPool (job : WriteJob) (buf : ℕ → UInt8) (d : ℕ) : ℕ → UInt8 :=
  copy
    (if job.offset > job.inode.size then
      fill job.fs.pool (d + job.inode.size) (job.offset - job.inode.size) 0
    else job.fs.pool)
    (d + job.offset) buf 0 job.count

/-- The size of the file after a job. -/
def WriteJob.newSize (job : WriteJob) : ℕ := max job.inode.size (job.offset + job.count)

/-- A job puts new bytes into the pool, a new size into the inode, and a new offset into the
descriptor. -/
theorem WriteJob.run_eq (job : WriteJob) (buf : ℕ → UInt8) (d : ℕ) :
    job.run buf d =
      ({ job.fs with pool := job.newPool buf d }.setInode job.slot
        { job.inode with size := job.newSize }).setFd job.fd
          { job.fs.fds job.fd with offset := job.offset + job.count } := by
  simp only [WriteJob.run, WriteJob.newSize, WriteJob.newPool]
  by_cases h : job.offset + job.count > job.inode.size
  · rw [if_pos h, max_eq_right h.le]
    rfl
  · rw [if_neg h, max_eq_left (not_lt.mp h)]
    simp only [Ramfs.setFd, Ramfs.setInode, WriteJob.inode, Function.update_eq_self]

/-- A job inside its block leaves the other bytes of the pool alone. -/
theorem WriteJob.InBlock.eqOn_newPool (h : job.InBlock) :
    Set.EqOn (job.newPool buf d) job.fs.pool (Set.Ico d (d + job.inode.capacity))ᶜ := by
  have hsub : ∀ a n, a + n ≤ job.inode.capacity →
      (Set.Ico d (d + job.inode.capacity))ᶜ ⊆ (Set.Ico (d + a) (d + a + n))ᶜ := fun a n hle =>
    Set.compl_subset_compl.mpr (Set.Ico_subset_Ico (Nat.le_add_right _ _) (by omega))
  rw [WriteJob.InBlock] at h
  refine (eqOn_copy.mono (hsub _ _ h)).trans ?_
  split_ifs with hgt
  · exact eqOn_fill.mono (hsub _ _ (by omega))
  · exact Set.eqOn_refl _ _

end ChalesOs
