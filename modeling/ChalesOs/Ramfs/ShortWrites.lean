import Mathlib.Data.Nat.Find
import ChalesOs.Ramfs.Runs

/-!
# How much a short write writes

`ramfs_write` says of itself that it writes what fits, and fails only when nothing does. What
fits is `Ramfs.Fits`: the end of the write is within the file size limit, and it is within the
block the file has, or a block for it, rounded up to 16 bytes, has room in the pool.

The code does not look for the largest such count. `ramfs_reserve` asks for twice the old block,
or for 256 bytes, and when that is refused the write falls back to the old block: counts between
the two are never tried. `longestWrite_iff_of_reachable` is exact about it: a write is as long as
possible unless its reservation is refused although there is room for one byte more than the old
block and the hole in front of the offset.
-/

namespace ChalesOs

variable {s : Ramfs} {fd : ℤ} {k : Fin 32} {i : Fin 64} {count : ℕ} {buf : ℕ → UInt8}

/-! ### What fits -/

/-- Where a new block of the file in slot `i` starts: the newest block grows in place. -/
def Ramfs.poolBase (s : Ramfs) (i : Fin 64) : ℕ :=
  if s.IsNewest (s.inodes i) then s.poolUsed - (s.inodes i).capacity else s.poolUsed

/-- A block of `size` bytes, rounded up to 16, fits the pool. -/
def Ramfs.BlockFits (s : Ramfs) (i : Fin 64) (size : ℕ) : Prop :=
  s.poolBase i + align16 size ≤ ramfsPoolSize

instance (size : ℕ) : Decidable (s.BlockFits i size) := inferInstanceAs (Decidable (_ ≤ _))

/-- `n` bytes can be written to the file in slot `i` through descriptor `k`. -/
def Ramfs.Fits (s : Ramfs) (k : Fin 32) (i : Fin 64) (n : ℕ) : Prop :=
  s.writeOffset k i + n ≤ ramfsMaxFilesize ∧
    (s.writeOffset k i + n ≤ (s.inodes i).capacity ∨ s.BlockFits i (s.writeOffset k i + n))

instance : DecidablePred (s.Fits k i) := fun _ => inferInstanceAs (Decidable (_ ∧ _))

/-- The largest count up to `count` that fits; 0 when none does. -/
def Ramfs.bestWrite (s : Ramfs) (k : Fin 32) (i : Fin 64) (count : ℕ) : ℕ :=
  Nat.findGreatest (s.Fits k i) count

/-- What `ramfs_write` returns for `n` bytes written. -/
def writeResult (n : ℕ) : ℤ := if n = 0 then -eNospc else n

/-- The write of `count` bytes is as long as possible. -/
def Ramfs.LongestWrite (s : Ramfs) (fd : ℤ) (k : Fin 32) (i : Fin 64) (buf : ℕ → UInt8)
    (count : ℕ) : Prop :=
  ∃ s', ramfsWrite s fd (some buf) count = some (writeResult (s.bestWrite k i count), s')

/-- The reservation for a write of `count` bytes is refused, although there is room for one byte
behind the old block and the offset. -/
def Ramfs.FallsShort (s : Ramfs) (k : Fin 32) (i : Fin 64) (count : ℕ) : Prop :=
  s.PoolFull i (s.writeOffset k i + min count (ramfsMaxFilesize - s.writeOffset k i)) ∧
    s.BlockFits i (max (s.inodes i).capacity (s.writeOffset k i) + 1)

theorem align16_mono {m n : ℕ} (h : m ≤ n) : align16 m ≤ align16 n := by
  rw [align16, align16]
  omega

/-- Smaller blocks fit where larger ones do. -/
theorem Ramfs.BlockFits.mono {m n : ℕ} (h : s.BlockFits i n) (hmn : m ≤ n) : s.BlockFits i m :=
  (Nat.add_le_add_left (align16_mono hmn) _).trans h

/-- A block for `needed` bytes is never larger than what `ramfs_reserve` asks for. -/
theorem align16_le_newCapacity (capacity : ℕ) {needed : ℕ} (h : needed ≤ ramfsMaxFilesize) :
    align16 needed ≤ newCapacity capacity needed := by
  simp only [newCapacity, align16, ramfsMaxFilesize] at *
  split_ifs <;> omega

/-- The pool is full when the block is too small and the larger one has no room. -/
theorem Ramfs.poolFull_iff {needed : ℕ} : s.PoolFull i needed ↔
    (s.inodes i).capacity < needed ∧
      ramfsPoolSize < s.poolBase i + newCapacity (s.inodes i).capacity needed := by
  rw [PoolFull, poolBase]
  by_cases hnew : s.IsNewest (s.inodes i)
  · rw [if_pos hnew, if_pos hnew]
  · rw [if_neg hnew, if_neg hnew]

instance (needed : ℕ) : Decidable (s.PoolFull i needed) :=
  decidable_of_iff _ Ramfs.poolFull_iff.symm

/-! ### What is written -/

/-- The bytes `ramfs_write` writes: all within the size limit, or what the old block has room
for. -/
def Ramfs.written (s : Ramfs) (k : Fin 32) (i : Fin 64) (count : ℕ) : ℕ :=
  if s.PoolFull i (s.writeOffset k i + min count (ramfsMaxFilesize - s.writeOffset k i)) then
    (s.inodes i).capacity - s.writeOffset k i
  else min count (ramfsMaxFilesize - s.writeOffset k i)

theorem clampCount_eq_min {offset : ℕ} (h : offset < ramfsMaxFilesize)
    (hsum : offset + count < 0x100000000) :
    clampCount offset count = min count (ramfsMaxFilesize - offset) := by
  rw [clampCount, u32, Nat.mod_eq_of_lt hsum]
  split_ifs <;> omega

/-- The first half of a write decides how much is written: it refuses when that is nothing, and
else leaves a job of that many bytes. -/
theorem ramfsWritePrepare_written (hs : PoolInv s) (hw : s.Writable fd k i) (hcount : 0 < count)
    (hsum : s.writeOffset k i + count < 0x100000000) :
    (∃ s', s.written k i count = 0 ∧ ramfsWritePrepare s fd false count = .inl (-eNospc, s')) ∨
      ∃ job, s.written k i count ≠ 0 ∧ ramfsWritePrepare s fd false count = .inr job ∧
        job.count = s.written k i count := by
  have hprep := ramfsWritePrepare_of_writable hw count
  have hcap := (hs.placed i).capacity_le
  by_cases hoff : ramfsMaxFilesize ≤ s.writeOffset k i
  · -- at the size limit nothing is left, and the block ends there at the latest
    have hnone : s.written k i count = 0 := by
      rw [Ramfs.written]
      split_ifs <;> omega
    rw [if_pos hoff, if_neg hcount.ne'] at hprep
    exact Or.inl ⟨_, hnone, hprep⟩
  have hlt := not_le.mp hoff
  have hclamp := clampCount_eq_min hlt hsum
  have hneed := (clampCount_spec hlt hsum).1
  have hpos : clampCount (s.writeOffset k i) count ≠ 0 := by omega
  rw [if_neg hoff, if_neg hpos] at hprep
  -- moving the offset first does not matter to the pool
  have hfull_iff : (s.seekWrite k i).PoolFull i
      (u32 (s.writeOffset k i + clampCount (s.writeOffset k i) count)) ↔
      s.PoolFull i (s.writeOffset k i + min count (ramfsMaxFilesize - s.writeOffset k i)) := by
    rw [hneed, hclamp]
    exact Iff.rfl
  rcases (s.seekWrite k i).writeReserve_cases k i (s.writeOffset k i)
    (clampCount (s.writeOffset k i) count) with ⟨heq, hfull, hle⟩ | ⟨n, heq, hn⟩
  · have hle' : (s.inodes i).capacity ≤ s.writeOffset k i := hle
    have hnone : s.written k i count = 0 := by
      rw [Ramfs.written, if_pos (hfull_iff.mp hfull)]
      omega
    exact Or.inl ⟨_, hnone, hprep.trans heq⟩
  · have hwritten : s.written k i count = n ∧ n ≠ 0 := by
      rw [Ramfs.written]
      rcases hn with ⟨hok, rfl⟩ | ⟨hfull, hgt, rfl⟩
      · have hroom := mt hfull_iff.mpr fun hfull => by
          rw [ramfsReserve_of_full hfull] at hok
          exact Bool.false_ne_true hok
        rw [if_neg hroom]
        exact ⟨hclamp.symm, hpos⟩
      · have hgt' : s.writeOffset k i < (s.inodes i).capacity := hgt
        rw [if_pos (hfull_iff.mp hfull)]
        exact ⟨rfl, Nat.sub_ne_zero_of_lt hgt'⟩
    exact Or.inr ⟨_, hwritten.1.trans_ne hwritten.2, hprep.trans heq, hwritten.1.symm⟩

/-- `ramfs_write` writes `Ramfs.written` bytes, and fails when these are none. -/
theorem ramfsWrite_eq_written (hs : PoolInv s) (hw : s.Writable fd k i) (hcount : 0 < count)
    (hsum : s.writeOffset k i + count < 0x100000000) (buf : ℕ → UInt8) :
    ∃ s', ramfsWrite s fd (some buf) count = some (writeResult (s.written k i count), s') := by
  have hrange : (RamfsOp.write fd (some buf) count).InRange s := by
    intro k' i' hw'
    obtain ⟨rfl, rfl⟩ := hw.unique hw'.toOpenFile
    exact hsum
  have hsome := ramfsExec_isSome hs hrange
  rw [ramfsExec, Option.isSome_map] at hsome
  obtain ⟨⟨ret, s'⟩, hr⟩ := Option.isSome_iff_exists.mp hsome
  refine ⟨s', hr.trans ?_⟩
  suffices hret : ret = writeResult (s.written k i count) by rw [hret]
  rw [writeResult]
  rcases ramfsWritePrepare_written hs hw hcount hsum with ⟨s₁, hnone, hprep⟩ |
    ⟨job, hne, hprep, hjob⟩
  · rw [if_pos hnone]
    rw [ramfsWrite, Option.isNone_some, hprep] at hr
    exact (Prod.mk.inj (Option.some.inj hr)).1.symm
  · rw [if_neg hne, ← hjob]
    simp only [ramfsWrite, Option.isNone_some, hprep] at hr
    split_ifs at hr
    obtain ⟨d, -, heq⟩ := Option.map_eq_some_iff.mp hr
    exact (Prod.mk.inj heq).1.symm

/-! ### Written against what fits -/

/-- The count written is the largest that fits if and only if the write does not fall short. -/
theorem written_eq_bestWrite_iff (hs : PoolInv s) (hcount : 0 < count) :
    s.written k i count = s.bestWrite k i count ↔ ¬s.FallsShort k i count := by
  have hoff := hs.writeOffset_le k i
  have hcap := (hs.placed i).capacity_le
  have hneed : s.writeOffset k i + min count (ramfsMaxFilesize - s.writeOffset k i) ≤
      ramfsMaxFilesize := by omega
  rw [Ramfs.bestWrite, eq_comm, Nat.findGreatest_eq_iff, Ramfs.written]
  by_cases hfull : s.PoolFull i
      (s.writeOffset k i + min count (ramfsMaxFilesize - s.writeOffset k i))
  · obtain ⟨hsmall, hno⟩ := Ramfs.poolFull_iff.mp hfull
    rw [if_pos hfull]
    constructor
    · -- one byte more than the old block holds would have fitted
      rintro ⟨-, -, hmax⟩ ⟨-, hfits⟩
      have hpos : 0 < min count (ramfsMaxFilesize - s.writeOffset k i) := by
        by_contra hzero
        have hask := (newCapacity_spec (s.inodes i).capacity hneed).2.2
        have hround := le_align16 (max (s.inodes i).capacity (s.writeOffset k i) + 1)
        rw [Ramfs.BlockFits] at hfits
        omega
      have hsum : s.writeOffset k i + ((s.inodes i).capacity - s.writeOffset k i + 1) =
          max (s.inodes i).capacity (s.writeOffset k i) + 1 := by omega
      refine hmax (Nat.lt_succ_self _) (by omega) ⟨by omega, Or.inr ?_⟩
      rw [hsum]
      exact hfits
    · intro hshort
      have hone : ¬s.BlockFits i (max (s.inodes i).capacity (s.writeOffset k i) + 1) := by
        intro hfits
        exact hshort ⟨hfull, hfits⟩
      refine ⟨by omega, fun hne => ⟨by omega, Or.inl (by omega)⟩, ?_⟩
      rintro n hn - ⟨-, hblock | hfits⟩
      · omega
      · exact hone (hfits.mono (by omega))
  · rw [if_neg hfull]
    refine iff_of_true ⟨min_le_left _ _, fun _ => ⟨by omega, ?_⟩, ?_⟩ fun hshort => hfull hshort.1
    · -- the block asked for fits, and it is no smaller than the one needed
      by_cases hle : s.writeOffset k i + min count (ramfsMaxFilesize - s.writeOffset k i) ≤
          (s.inodes i).capacity
      · exact Or.inl hle
      · have hroom := mt Ramfs.poolFull_iff.mpr hfull
        have hask := align16_le_newCapacity (s.inodes i).capacity hneed
        refine Or.inr ?_
        rw [Ramfs.BlockFits]
        omega
    · rintro n hn hle ⟨hmax, -⟩
      omega

/-- Different counts give different results. -/
theorem writeResult_injective : Function.Injective writeResult := by
  intro m n h
  simp only [writeResult, eNospc] at h
  split_ifs at h <;> omega

/-- The exact condition, from the layout invariant. -/
theorem PoolInv.longestWrite_iff (hs : PoolInv s) (hw : s.Writable fd k i) (hcount : 0 < count)
    (hsum : s.writeOffset k i + count < 0x100000000) (buf : ℕ → UInt8) :
    s.LongestWrite fd k i buf count ↔ ¬s.FallsShort k i count := by
  obtain ⟨s', hwrite⟩ := ramfsWrite_eq_written hs hw hcount hsum buf
  rw [← written_eq_bestWrite_iff hs hcount, Ramfs.LongestWrite, hwrite]
  constructor
  · rintro ⟨s'', h⟩
    exact writeResult_injective (Prod.mk.inj (Option.some.inj h)).1
  · intro h
    rw [h]
    exact ⟨s', rfl⟩

/-- **When a short write is as long as possible.** In every reachable state, a write of at least
one byte through a descriptor open for writing on a live file, with a 32-bit end, writes the
largest count that fits, and fails with `ENOSPC` only if that is 0, if and only if it does not
fall short. -/
theorem longestWrite_iff_of_reachable {progs : Programs} {r : RamfsRun}
    (h : (ramfsSystem progs).Reachable r) (hw : r.fs.Writable fd k i) (hcount : 0 < count)
    (hsum : r.fs.writeOffset k i + count < 0x100000000) (buf : ℕ → UInt8) :
    r.fs.LongestWrite fd k i buf count ↔ ¬r.fs.FallsShort k i count :=
  (poolInv_of_reachable h).longestWrite_iff hw hcount hsum buf

/-! ### A full pool with room in it -/

instance : Decidable (s.FallsShort k i count) := inferInstanceAs (Decidable (_ ∧ _))

/-- `freshRun` continued by three files that leave 16 bytes of the pool, and an empty one. -/
def nearlyFullOps : List RamfsOp :=
  [.open2 (some (cstr "/a")) (oRdwr ||| oCreat), .write 0 (some fun _ => 7) 0x40000,
    .open2 (some (cstr "/b")) (oRdwr ||| oCreat), .write 1 (some fun _ => 7) 0x40000,
    .open2 (some (cstr "/c")) (oRdwr ||| oCreat), .write 2 (some fun _ => 7) 0x3FFF0,
    .open2 (some (cstr "/d")) (oRdwr ||| oCreat)]

instance : Decidable (s.Writable fd k i) :=
  decidable_of_iff (validFd fd = some k ∧ (s.fds k).ino ≠ 0 ∧
      s.slotOfIno (s.fds k).ino = some i ∧ (s.inodes i).type = .file ∧
      (s.fds k).flags &&& oAccmode ≠ oRdonly)
    ⟨fun ⟨hvalid, hlive, hslot, hfile, hmode⟩ => ⟨⟨hvalid, hlive, hslot, hfile⟩, hmode⟩,
      fun hw => ⟨hw.valid, hw.live, hw.slot, hw.file, hw.mode⟩⟩

/-- What the theorems below read off the state behind `nearlyFullOps`: the offsets of the last
two files, and whether writes to them fall short. -/
private theorem nearlyFull_state :
    ((ramfsSystem noPrograms).runInputs freshRun nearlyFullOps).map (fun r =>
      (decide (r.fs.Writable 2 2 10 ∧ ¬r.fs.FallsShort 2 10 16), r.fs.writeOffset 2 10,
        decide (r.fs.Writable 3 3 11 ∧ r.fs.FallsShort 3 11 1), r.fs.writeOffset 3 11)) =
      some (true, 0x3FFF0, true, 0) := by
  decide +kernel

private theorem exists_nearlyFull :
    ∃ r, (ramfsSystem noPrograms).Reachable r ∧
      (r.fs.Writable 2 2 10 ∧ ¬r.fs.FallsShort 2 10 16) ∧ r.fs.writeOffset 2 10 = 0x3FFF0 ∧
      (r.fs.Writable 3 3 11 ∧ r.fs.FallsShort 3 11 1) ∧ r.fs.writeOffset 3 11 = 0 := by
  obtain ⟨r, hr, hstate⟩ := Option.map_eq_some_iff.mp nearlyFull_state
  simp only [Prod.mk.injEq, decide_eq_true_eq] at hstate
  exact ⟨r, .runInputs (.start freshRun_start) (fun _ _ _ _ => trivial) hr, hstate⟩

/-- `longestWrite_iff_of_reachable` for the newest block, which grows to the end of the pool. -/
theorem longestWrite_sample :
    ∃ r, (ramfsSystem noPrograms).Reachable r ∧ r.fs.LongestWrite 2 2 10 (fun _ => 7) 16 := by
  obtain ⟨r, hreach, ⟨hw, hlong⟩, hoff, -⟩ := exists_nearlyFull
  exact ⟨r, hreach, (longestWrite_iff_of_reachable hreach hw (by decide)
    (by rw [hoff]; decide) _).mpr hlong⟩

/-- **A refused byte.** A write of one byte to a new file fails although the pool has 16 bytes
left, because 256 are asked for. -/
theorem not_longestWrite :
    ¬∀ (progs : Programs) (r : RamfsRun), (ramfsSystem progs).Reachable r →
      ∀ fd k i, r.fs.Writable fd k i → ∀ count, 0 < count →
        r.fs.writeOffset k i + count < 0x100000000 → ∀ buf,
          r.fs.LongestWrite fd k i buf count := by
  intro h
  obtain ⟨r, hreach, -, -, ⟨hw, hshort⟩, hoff⟩ := exists_nearlyFull
  have hsum : r.fs.writeOffset 3 11 + 1 < 0x100000000 := by
    rw [hoff]
    decide
  have hlong := h noPrograms r hreach 3 3 11 hw 1 Nat.one_pos hsum fun _ => 7
  exact ((poolInv_of_reachable hreach).longestWrite_iff hw Nat.one_pos hsum _).mp hlong hshort

end ChalesOs
