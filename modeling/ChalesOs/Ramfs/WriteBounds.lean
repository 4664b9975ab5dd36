import ChalesOs.Ramfs.Runs

/-!
# When a write stays inside its block

The clamp of `ramfs_write` compares `offset + count` with the file size limit, and the sum is a
32-bit one: a count close to `2 ^ 32` makes it small again. The clamp then lets the whole count
pass, `ramfs_reserve` is asked for a few bytes, and the copy runs far behind the block.

`writeInBounds_iff_of_reachable` is exact about it. The write stays inside the block when it
copies nothing because it starts at the size limit, when the sum does not wrap, and when the
wrapped sum does not even fit the pool: then the count is cut to what is left of the block.
-/

namespace ChalesOs

variable {s : Ramfs} {fd : ℤ} {k : Fin 32} {i : Fin 64} {count : ℕ}

/-- A write of `count` bytes clears and copies to bytes of the file's own block only, and copies
no more than fits behind the write offset in a file of maximal size. -/
def Ramfs.WriteInBounds (s : Ramfs) (fd : ℤ) (count : ℕ) : Prop :=
  ∀ job, ramfsWritePrepare s fd false count = .inr job →
    (∀ n, job.Clears n → n < job.inode.capacity) ∧ (∀ n, job.Copies n → n < job.inode.capacity) ∧
      job.count ≤ ramfsMaxFilesize - job.offset

/-- A job inside its block is within bounds. -/
theorem WriteJob.InBlock.inBounds {job : WriteJob} (hin : job.InBlock)
    (hcap : job.inode.capacity ≤ ramfsMaxFilesize) :
    (∀ n, job.Clears n → n < job.inode.capacity) ∧ (∀ n, job.Copies n → n < job.inode.capacity) ∧
      job.count ≤ ramfsMaxFilesize - job.offset := by
  rw [WriteJob.InBlock] at hin
  refine ⟨fun n hn => ?_, fun n hn => ?_, by omega⟩
  · exact hn.2.trans_le ((Nat.le_add_right _ _).trans hin)
  · exact hn.2.trans_le hin

/-- The clamp lets a wrapping count pass. -/
theorem clampCount_of_wrap {offset : ℕ} (hoff : offset < ramfsMaxFilesize)
    (hcount : count < 0x100000000) (hwrap : 0x100000000 ≤ offset + count) :
    clampCount offset count = count ∧ u32 (offset + count) = offset + count - 0x100000000 := by
  have hmax : ramfsMaxFilesize = 0x40000 := rfl
  have hu : u32 (offset + count) = offset + count - 0x100000000 := by
    rw [u32]
    omega
  refine ⟨?_, hu⟩
  rw [clampCount, hu, if_neg (by omega)]

/-- The exact condition, from the layout invariant. -/
theorem PoolInv.writeInBounds_iff (hs : PoolInv s) (hw : s.Writable fd k i)
    (hcount : count < 0x100000000) :
    s.WriteInBounds fd count ↔
      s.writeOffset k i ≥ ramfsMaxFilesize ∨ s.writeOffset k i + count < 0x100000000 ∨
        s.PoolFull i (s.writeOffset k i + count - 0x100000000) := by
  by_cases hoff : s.writeOffset k i ≥ ramfsMaxFilesize
  · refine iff_of_true (fun job hjob => ?_) (Or.inl hoff)
    rw [ramfsWritePrepare_of_writable hw, if_pos hoff] at hjob
    simp at hjob
  by_cases hsum : s.writeOffset k i + count < 0x100000000
  · refine iff_of_true (fun job hjob => ?_) (Or.inr (Or.inl hsum))
    obtain ⟨k', i', hw', -, -, -, -, hchanges, -, -, -, hin⟩ := ramfsWritePrepare_inr hs hjob
    obtain ⟨rfl, rfl⟩ := hw.unique hw'.toOpenFile
    exact (hin hsum).2.inBounds ((hs.changes (hchanges ∅ 0)).placed job.slot).capacity_le
  -- the sum wraps, so the count is not cut, and the reservation is for what is left of it
  rw [not_le] at hoff
  obtain ⟨hclamp, hneed⟩ := clampCount_of_wrap hoff hcount (not_lt.mp hsum)
  have hprep : ramfsWritePrepare s fd false count =
      (s.seekWrite k i).writeReserve k i (s.writeOffset k i) count := by
    rw [ramfsWritePrepare_of_writable hw, if_neg (not_le.mpr hoff), hclamp,
      if_neg (by rw [ramfsMaxFilesize] at hoff; omega)]
  have hfull_iff : (s.seekWrite k i).PoolFull i (s.writeOffset k i + count - 0x100000000) ↔
      s.PoolFull i (s.writeOffset k i + count - 0x100000000) := Iff.rfl
  by_cases hfull : s.PoolFull i (s.writeOffset k i + count - 0x100000000)
  · refine iff_of_true (fun job hjob => ?_) (Or.inr (Or.inr hfull))
    rw [hprep, Ramfs.writeReserve, hneed, ramfsReserve_of_full (hfull_iff.mpr hfull),
      if_neg (by simp)] at hjob
    dsimp only at hjob
    split_ifs at hjob with hcap
    obtain rfl := Sum.inr_injective hjob
    refine WriteJob.InBlock.inBounds ?_ (hs.placed i).capacity_le
    show s.writeOffset k i + ((s.inodes i).capacity - s.writeOffset k i) ≤ (s.inodes i).capacity
    change ¬s.writeOffset k i ≥ (s.inodes i).capacity at hcap
    omega
  · refine iff_of_false (fun hin => ?_) ?_
    · -- the reservation succeeds, and the job is for the whole count
      have hok : (ramfsReserve (s.seekWrite k i) i (u32 (s.writeOffset k i + count))).1 = true := by
        by_contra hno
        rw [hneed] at hno
        exact hfull (hfull_iff.mp (ramfsReserve_eq_false (Bool.eq_false_of_not_eq_true hno)))
      have hle := (hin _ (by rw [hprep, Ramfs.writeReserve, hok, if_pos rfl])).2.2
      dsimp only at hle
      rw [ramfsMaxFilesize] at hle hoff
      omega
    · rintro (h | h | h)
      · exact absurd h (not_le.mpr hoff)
      · exact hsum h
      · exact hfull h

/-- **When a write stays inside its block.** In every reachable state a write through a
descriptor open for writing on a live file stays within bounds if and only if it starts at the
size limit, or offset and count have a 32-bit sum, or the pool has no room for the wrapped sum. -/
theorem writeInBounds_iff_of_reachable {progs : Programs} {r : RamfsRun}
    (h : (ramfsSystem progs).Reachable r) (hw : r.fs.Writable fd k i)
    (hcount : count < 0x100000000) :
    r.fs.WriteInBounds fd count ↔
      r.fs.writeOffset k i ≥ ramfsMaxFilesize ∨ r.fs.writeOffset k i + count < 0x100000000 ∨
        r.fs.PoolFull i (r.fs.writeOffset k i + count - 0x100000000) :=
  (poolInv_of_reachable h).writeInBounds_iff hw hcount

/-- `freshRun` continued by the creation of a file, whose descriptor is moved to offset 1. -/
def parkedOps : List RamfsOp :=
  [.open2 (some (cstr "/a")) (oRdwr ||| oCreat), .lseek 0 1 0]

/-- What the two theorems below read off the state behind `parkedOps`. -/
private theorem parked_state :
    ((ramfsSystem noPrograms).runInputs freshRun parkedOps).map (fun r =>
      ((r.fs.fds 0).ino, r.fs.slotOfIno (r.fs.fds 0).ino, (r.fs.inodes 8).type,
        (r.fs.fds 0).flags, r.fs.writeOffset 0 8)) = some (8, some 8, .file, oRdwr, 1) := by
  decide +kernel

private theorem exists_parked :
    ∃ r, (ramfsSystem noPrograms).runInputs freshRun parkedOps = some r ∧
      (ramfsSystem noPrograms).Reachable r ∧ r.fs.Writable 0 0 8 ∧ r.fs.writeOffset 0 8 = 1 := by
  obtain ⟨r, hr, hstate⟩ := Option.map_eq_some_iff.mp parked_state
  simp only [Prod.mk.injEq] at hstate
  obtain ⟨hino, hslot, hfile, hflags, hoff⟩ := hstate
  refine ⟨r, hr, .runInputs (.start freshRun_start) (fun _ _ _ _ => trivial) hr, ?_, hoff⟩
  exact ⟨⟨rfl, by rw [hino]; decide, hslot, hfile⟩, by rw [hflags]; decide⟩

/-- `writeInBounds_iff_of_reachable` for a short write. -/
theorem writeInBounds_parked :
    ∃ r, (ramfsSystem noPrograms).runInputs freshRun parkedOps = some r ∧
      r.fs.WriteInBounds 0 300 := by
  obtain ⟨r, hr, hreach, hw, hoff⟩ := exists_parked
  refine ⟨r, hr, (writeInBounds_iff_of_reachable hreach hw (by decide)).mpr
    (Or.inr (Or.inl ?_))⟩
  rw [hoff]
  decide

/-- **A write far behind its block.** At offset 1 of an empty file, a write of `2 ^ 32 - 1` bytes
reserves nothing and copies all of them. -/
theorem not_writeInBounds_parked :
    ∃ r, (ramfsSystem noPrograms).runInputs freshRun parkedOps = some r ∧
      (ramfsSystem noPrograms).Reachable r ∧ r.fs.Writable 0 0 8 ∧
      ¬r.fs.WriteInBounds 0 0xFFFFFFFF := by
  obtain ⟨r, hr, hreach, hw, hoff⟩ := exists_parked
  refine ⟨r, hr, hreach, hw, fun hin => ?_⟩
  rcases ((poolInv_of_reachable hreach).writeInBounds_iff hw (by decide)).mp hin with h | h | h
  · rw [hoff] at h
    exact absurd h (by decide)
  · rw [hoff] at h
    exact absurd h (by decide)
  · rw [hoff] at h
    exact absurd h.1 (Nat.not_lt_zero _)

end ChalesOs
