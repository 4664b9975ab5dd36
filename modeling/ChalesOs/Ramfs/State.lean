import Mathlib.Algebra.GroupWithZero.Nat
import Mathlib.Data.List.FinRange
import Mathlib.Logic.Function.Basic
import ChalesOs.Lib.ByteMemory
import ChalesOs.Memory.Words

/-!
# The RAM file system: inodes, descriptors and the block pool

The state of `ramfs.c`: `RAMFS_MAX_FILES` = 64 inode slots, 32 descriptors, and one pool of bytes
from which every file has at most one block. A block pointer is the block's offset in the pool,
`none` for `NULL`; the pool grows at `poolUsed` and gives a block back only when it is the newest
one, the one that ends at `poolUsed`.

`ramfsReserve` makes room for `needed` bytes in a file's block: it is enough as it is, grows in
place when it is the newest, and otherwise moves to the end of the pool and abandons the old
place. `ramfsReserve_cases` lists the four outcomes; everything later about the pool goes
through it.

Names and paths are C strings, written as the bytes in front of their `NUL`.
-/

namespace ChalesOs

open ByteMemory

/-- `RAMFS_MAX_FILENAME`. -/
def ramfsMaxFilename : ℕ := 256

/-- `RAMFS_MAX_FILESIZE`. -/
def ramfsMaxFilesize : ℕ := 256 * 1024

/-- `RAMFS_POOL_SIZE`. -/
def ramfsPoolSize : ℕ := 768 * 1024

/-- There is a slot 0, the root's. -/
instance neZero_ramfsMaxFiles : NeZero 64 := ⟨by decide⟩

/-- `ramfs_node_type_t`. -/
inductive NodeType
  | file
  | dir
  deriving DecidableEq

/-- `ramfs_inode_t`; the slot is free when `ino` is 0. -/
structure Inode where
  ino : ℕ
  type : NodeType
  name : CString
  size : ℕ
  parentIno : ℕ
  /-- The offset of the block in the pool, `none` for `NULL`. -/
  data : Option ℕ
  capacity : ℕ

/-- `ramfs_fd_t`; the descriptor is free when `ino` is 0. -/
structure Fd where
  ino : ℕ
  offset : ℕ
  flags : ℕ

/-- A cleared inode slot. -/
def Inode.zero : Inode := ⟨0, .file, [], 0, 0, none, 0⟩

/-- A cleared descriptor. -/
def Fd.zero : Fd := ⟨0, 0, 0⟩

/-- The variables of `ramfs.c`. -/
structure Ramfs where
  inodes : Fin 64 → Inode
  pool : ℕ → UInt8
  poolUsed : ℕ
  fds : Fin 32 → Fd
  nextInode : ℕ

/-- The file system with inode slot `i` replaced. -/
def Ramfs.setInode (s : Ramfs) (i : Fin 64) (inode : Inode) : Ramfs :=
  { s with inodes := Function.update s.inodes i inode }

/-- The file system with descriptor `fd` replaced. -/
def Ramfs.setFd (s : Ramfs) (fd : Fin 32) (f : Fd) : Ramfs :=
  { s with fds := Function.update s.fds fd f }

/-! ### Small rules of the two updates -/

section Updates

variable (s : Ramfs) (i j : Fin 64) (inode : Inode) (fd : Fin 32) (f : Fd)

@[simp] theorem Ramfs.setInode_self : (s.setInode i inode).inodes i = inode :=
  Function.update_self ..

theorem Ramfs.setInode_of_ne {i j : Fin 64} (h : j ≠ i) :
    (s.setInode i inode).inodes j = s.inodes j :=
  Function.update_of_ne h ..

@[simp] theorem Ramfs.setInode_pool : (s.setInode i inode).pool = s.pool := rfl

@[simp] theorem Ramfs.setInode_poolUsed : (s.setInode i inode).poolUsed = s.poolUsed := rfl

@[simp] theorem Ramfs.setInode_fds : (s.setInode i inode).fds = s.fds := rfl

@[simp] theorem Ramfs.setInode_nextInode : (s.setInode i inode).nextInode = s.nextInode := rfl

@[simp] theorem Ramfs.setFd_self : (s.setFd fd f).fds fd = f := Function.update_self ..

theorem Ramfs.setFd_of_ne {fd fd' : Fin 32} (h : fd' ≠ fd) :
    (s.setFd fd f).fds fd' = s.fds fd' :=
  Function.update_of_ne h ..

@[simp] theorem Ramfs.setFd_inodes : (s.setFd fd f).inodes = s.inodes := rfl

@[simp] theorem Ramfs.setFd_pool : (s.setFd fd f).pool = s.pool := rfl

@[simp] theorem Ramfs.setFd_poolUsed : (s.setFd fd f).poolUsed = s.poolUsed := rfl

@[simp] theorem Ramfs.setFd_nextInode : (s.setFd fd f).nextInode = s.nextInode := rfl

end Updates

/-! ### The block pool -/

/-- The capacity `ramfs_reserve` asks the pool for. -/
def newCapacity (capacity needed : ℕ) : ℕ :=
  let newcap := if capacity ≠ 0 then capacity * 2 else 256
  let newcap := if newcap < needed then needed else newcap
  let newcap := if newcap > ramfsMaxFilesize then ramfsMaxFilesize else newcap
  align16 newcap

/-- `inode->data && inode->data + inode->capacity == ramfs_pool + ramfs_pool_used`. -/
def Ramfs.IsNewest (s : Ramfs) (inode : Inode) : Prop :=
  ∃ d, inode.data = some d ∧ d + inode.capacity = s.poolUsed

instance (s : Ramfs) (inode : Inode) : Decidable (s.IsNewest inode) :=
  match h : inode.data with
  | none => isFalse fun ⟨d, hd, _⟩ => by simp [h] at hd
  | some d => decidable_of_iff (d + inode.capacity = s.poolUsed)
      ⟨fun hd => ⟨d, h, hd⟩, fun ⟨d', hd', h'⟩ => by
        obtain rfl : d = d' := Option.some_injective _ (h.symm.trans hd')
        exact h'⟩

/-- `ramfs_reserve`, `true` for 0 and `false` for -1. -/
def ramfsReserve (s : Ramfs) (i : Fin 64) (needed : ℕ) : Bool × Ramfs :=
  let inode := s.inodes i
  if needed ≤ inode.capacity then (true, s)
  else
    let newcap := newCapacity inode.capacity needed
    if s.IsNewest inode then
      if s.poolUsed - inode.capacity + newcap > ramfsPoolSize then (false, s)
      else
        (true, { s.setInode i { inode with capacity := newcap } with
          poolUsed := s.poolUsed + (newcap - inode.capacity) })
    else if s.poolUsed + newcap > ramfsPoolSize then (false, s)
    else
      let block := s.poolUsed
      let pool := match inode.data with
        | some d => if inode.size ≠ 0 then copy s.pool block s.pool d inode.size else s.pool
        | none => s.pool
      (true, { s.setInode i { inode with data := some block, capacity := newcap } with
        pool := pool
        poolUsed := s.poolUsed + newcap })

/-- `ramfs_release`: give the newest block back. -/
def ramfsRelease (s : Ramfs) (i : Fin 64) : Ramfs :=
  if s.IsNewest (s.inodes i) then { s with poolUsed := s.poolUsed - (s.inodes i).capacity } else s

/-- The pool cannot give the file in slot `i` a block for `needed` bytes. -/
def Ramfs.PoolFull (s : Ramfs) (i : Fin 64) (needed : ℕ) : Prop :=
  (s.inodes i).capacity < needed ∧
    if s.IsNewest (s.inodes i) then
      s.poolUsed - (s.inodes i).capacity + newCapacity (s.inodes i).capacity needed > ramfsPoolSize
    else s.poolUsed + newCapacity (s.inodes i).capacity needed > ramfsPoolSize

/-- A new capacity for at most `RAMFS_MAX_FILESIZE` bytes holds them, is a multiple of 16, and
is at most `RAMFS_MAX_FILESIZE` itself. -/
theorem newCapacity_spec (capacity : ℕ) {needed : ℕ} (h : needed ≤ ramfsMaxFilesize) :
    needed ≤ newCapacity capacity needed ∧ newCapacity capacity needed % 16 = 0 ∧
      newCapacity capacity needed ≤ ramfsMaxFilesize := by
  simp only [newCapacity, align16, ramfsMaxFilesize] at *
  split_ifs <;> omega

/-- The outcomes of `ramfs_reserve`: the block is large enough, grows in place, moves to the
end of the pool, or there is no room. -/
theorem ramfsReserve_cases (s : Ramfs) (i : Fin 64) (needed : ℕ) :
    (needed ≤ (s.inodes i).capacity ∧ ramfsReserve s i needed = (true, s)) ∨
    ((s.inodes i).capacity < needed ∧ s.IsNewest (s.inodes i) ∧
      s.poolUsed - (s.inodes i).capacity + newCapacity (s.inodes i).capacity needed ≤
        ramfsPoolSize ∧
      ramfsReserve s i needed = (true,
        { s.setInode i { s.inodes i with
            capacity := newCapacity (s.inodes i).capacity needed } with
          poolUsed := s.poolUsed +
            (newCapacity (s.inodes i).capacity needed - (s.inodes i).capacity) })) ∨
    ((s.inodes i).capacity < needed ∧ ¬s.IsNewest (s.inodes i) ∧
      s.poolUsed + newCapacity (s.inodes i).capacity needed ≤ ramfsPoolSize ∧
      ∃ pool, (pool = s.pool ∧ ((s.inodes i).data = none ∨ (s.inodes i).size = 0) ∨
          ∃ d, (s.inodes i).data = some d ∧
            pool = copy s.pool s.poolUsed s.pool d (s.inodes i).size) ∧
        ramfsReserve s i needed = (true,
          { s.setInode i { s.inodes i with
              data := some s.poolUsed
              capacity := newCapacity (s.inodes i).capacity needed } with
            pool := pool
            poolUsed := s.poolUsed + newCapacity (s.inodes i).capacity needed })) ∨
    (s.PoolFull i needed ∧ ramfsReserve s i needed = (false, s)) := by
  rw [ramfsReserve]
  by_cases hcap : needed ≤ (s.inodes i).capacity
  · exact Or.inl ⟨hcap, if_pos hcap⟩
  · rw [if_neg hcap]
    by_cases hnew : s.IsNewest (s.inodes i)
    · rw [if_pos hnew]
      by_cases hfit : s.poolUsed - (s.inodes i).capacity +
          newCapacity (s.inodes i).capacity needed > ramfsPoolSize
      · refine Or.inr (Or.inr (Or.inr ⟨⟨by omega, ?_⟩, if_pos hfit⟩))
        rw [if_pos hnew]
        exact hfit
      · exact Or.inr (Or.inl ⟨by omega, hnew, by omega, if_neg hfit⟩)
    · rw [if_neg hnew]
      by_cases hfit : s.poolUsed + newCapacity (s.inodes i).capacity needed > ramfsPoolSize
      · refine Or.inr (Or.inr (Or.inr ⟨⟨by omega, ?_⟩, if_pos hfit⟩))
        rw [if_neg hnew]
        exact hfit
      · refine Or.inr (Or.inr (Or.inl ⟨by omega, hnew, by omega, _, ?_, if_neg hfit⟩))
        -- a block without contents is not copied
        cases hd : (s.inodes i).data with
        | none => exact Or.inl ⟨rfl, Or.inl rfl⟩
        | some d =>
          by_cases hsz : (s.inodes i).size = 0
          · exact Or.inl ⟨by simp [hsz], Or.inr hsz⟩
          · exact Or.inr ⟨d, rfl, by simp [hsz]⟩

/-- Giving a block back changes nothing but the mark of the pool. -/
theorem ramfsRelease_frame (s : Ramfs) (i : Fin 64) :
    (ramfsRelease s i).inodes = s.inodes ∧ (ramfsRelease s i).nextInode = s.nextInode ∧
      (ramfsRelease s i).fds = s.fds ∧ (ramfsRelease s i).pool = s.pool := by
  rw [ramfsRelease]
  split_ifs <;> exact ⟨rfl, rfl, rfl, rfl⟩

/-- A reservation changes nothing but the pool and the block of one inode. -/
theorem ramfsReserve_frame (s : Ramfs) (i : Fin 64) (needed : ℕ) :
    (ramfsReserve s i needed).2.fds = s.fds ∧
    (ramfsReserve s i needed).2.nextInode = s.nextInode ∧
    ∃ data capacity, (ramfsReserve s i needed).2.inodes =
      Function.update s.inodes i { s.inodes i with data := data, capacity := capacity } := by
  rcases ramfsReserve_cases s i needed with ⟨-, heq⟩ | ⟨-, -, -, heq⟩ | ⟨-, -, -, _, -, heq⟩ |
    ⟨-, heq⟩
  · rw [heq]
    exact ⟨rfl, rfl, _, _, (Function.update_eq_self i s.inodes).symm⟩
  · rw [heq]
    exact ⟨rfl, rfl, _, _, rfl⟩
  · rw [heq]
    exact ⟨rfl, rfl, _, _, rfl⟩
  · rw [heq]
    exact ⟨rfl, rfl, _, _, (Function.update_eq_self i s.inodes).symm⟩

/-- A successful reservation makes room for what was asked. -/
theorem needed_le_capacity {s : Ramfs} {i : Fin 64} {needed : ℕ} (h : needed ≤ ramfsMaxFilesize)
    (hok : (ramfsReserve s i needed).1 = true) :
    needed ≤ ((ramfsReserve s i needed).2.inodes i).capacity := by
  have hcap := (newCapacity_spec (s.inodes i).capacity h).1
  rcases ramfsReserve_cases s i needed with ⟨hle, heq⟩ | ⟨-, -, -, heq⟩ | ⟨-, -, -, _, -, heq⟩ |
    ⟨-, heq⟩
  · rwa [heq]
  · rw [heq]
    simpa using hcap
  · rw [heq]
    simpa using hcap
  · simp [heq] at hok

/-- A reservation fails exactly when the pool is full, and then changes nothing. -/
theorem ramfsReserve_of_full {s : Ramfs} {i : Fin 64} {needed : ℕ} (h : s.PoolFull i needed) :
    ramfsReserve s i needed = (false, s) := by
  obtain ⟨hcap, hfull⟩ := h
  rw [ramfsReserve, if_neg (not_le.mpr hcap)]
  by_cases hnew : s.IsNewest (s.inodes i)
  · rw [if_pos hnew] at hfull ⊢
    exact if_pos hfull
  · rw [if_neg hnew] at hfull ⊢
    exact if_pos hfull

theorem ramfsReserve_eq_false {s : Ramfs} {i : Fin 64} {needed : ℕ}
    (h : (ramfsReserve s i needed).1 = false) : s.PoolFull i needed := by
  rcases ramfsReserve_cases s i needed with ⟨-, heq⟩ | ⟨-, -, -, heq⟩ | ⟨-, -, -, _, -, heq⟩ | hfull
  · simp [heq] at h
  · simp [heq] at h
  · simp [heq] at h
  · exact hfull.1

end ChalesOs
