import ChalesOs.Ramfs.Ops

/-!
# The layout of the block pool

Every operation is a sequence of a few elementary changes of the state: a descriptor is filled,
an inode is created, truncated or cleared, a block is reserved, written or given back.
`RamfsChange` lists them with the conditions under which the operations make them, and
`ramfsExec_changes` says once that an operation is such a sequence. Invariants are then proved
for the elementary changes only.

The invariant of the pool is `PoolInv`: blocks are 16-aligned, lie below `poolUsed`, and are
pairwise disjoint. It is what makes the comparison "does the block end at `poolUsed`" mean
"is it the newest block": by disjointness no other block reaches beyond the start of such a
block, so it can grow or be given back without touching them.
-/

namespace ChalesOs

open ByteMemory

variable {s s' : Ramfs}

/-- The elementary changes the operations make. The contents of the files whose numbers are in
`T` may change, and a new inode gets the number `N`. -/
inductive RamfsChange (T : Set ℕ) (N : ℕ) (s : Ramfs) : Ramfs → Prop
  /-- A descriptor is filled, cleared or moved. -/
  | setFd (fd : Fin 32) (f : Fd) : f.offset ≤ ramfsMaxFilesize →
      (f.ino = 0 ∨ ∃ i, (s.inodes i).ino = f.ino) → RamfsChange T N s (s.setFd fd f)
  /-- A free slot becomes a new inode. -/
  | create (i : Fin 64) (type : NodeType) (parentIno : ℕ) (name : CString) {s' : Ramfs} : i ≠ 0 →
      (s.inodes i).ino = 0 → s.nextInode = N →
      ramfsCreate s i type parentIno name = some s' → RamfsChange T N s s'
  /-- A file becomes empty. -/
  | truncate (i : Fin 64) : (s.inodes i).ino ∈ T →
      RamfsChange T N s (s.setInode i { s.inodes i with size := 0 })
  /-- Room is made in a block, or not. -/
  | reserve (i : Fin 64) {needed : ℕ} : needed ≤ ramfsMaxFilesize →
      RamfsChange T N s (ramfsReserve s i needed).2
  /-- Bytes of one block and the size of its file change. -/
  | write (i : Fin 64) {d size : ℕ} {pool : ℕ → UInt8} : (s.inodes i).ino ∈ T →
      (s.inodes i).data = some d →
      Set.EqOn pool s.pool (Set.Ico d (d + (s.inodes i).capacity))ᶜ →
      size ≤ (s.inodes i).capacity →
      RamfsChange T N s ({ s with pool := pool }.setInode i { s.inodes i with size := size })
  /-- A directory is removed. -/
  | clear (i : Fin 64) : (s.inodes i).type = .dir → RamfsChange T N s (s.setInode i Inode.zero)
  /-- A file is removed, its block given back if it is the newest. -/
  | unlink (i : Fin 64) : (s.inodes i).ino ∈ T →
      RamfsChange T N s ((ramfsRelease s i).setInode i Inode.zero)

/-- A finite sequence of elementary changes. -/
abbrev RamfsChanges (T : Set ℕ) (N : ℕ) : Ramfs → Ramfs → Prop :=
  Relation.ReflTransGen (RamfsChange T N)

variable {T : Set ℕ} {N : ℕ}

theorem RamfsChange.mono_touches {T' : Set ℕ} (hT : T ⊆ T') (h : RamfsChange T N s s') :
    RamfsChange T' N s s' := by
  cases h with
  | setFd fd f ho hi => exact .setFd fd f ho hi
  | create i type parentIno name hi hino hN hc => exact .create i type parentIno name hi hino hN hc
  | truncate i hi => exact .truncate i (hT hi)
  | reserve i hneed => exact .reserve i hneed
  | write i hi hd hpool hsize => exact .write i (hT hi) hd hpool hsize
  | clear i hdir => exact .clear i hdir
  | unlink i hi => exact .unlink i (hT hi)

theorem RamfsChanges.mono_touches {T' : Set ℕ} (h : RamfsChanges T N s s') (hT : T ⊆ T') :
    RamfsChanges T' N s s' :=
  Relation.ReflTransGen.mono (fun _ _ => RamfsChange.mono_touches hT) _ _ h

/-- What a creation does: the slot becomes an empty inode with a new number. -/
theorem ramfsCreate_eq_some {i : Fin 64} {type : NodeType} {parentIno : ℕ} {name : CString}
    (h : ramfsCreate s i type parentIno name = some s') :
    name.length < ramfsMaxFilename ∧
      s' = { s.setInode i { s.inodes i with
          ino := s.nextInode
          type := type
          name := name
          size := 0
          parentIno := parentIno } with
        nextInode := u32 (s.nextInode + 1) } := by
  rw [ramfsCreate] at h
  split_ifs at h with hlen
  exact ⟨hlen, (Option.some_injective _ h).symm⟩

/-- What a creation does, slot by slot. -/
theorem ramfsCreate_frame {i : Fin 64} {type : NodeType} {parentIno : ℕ} {name : CString}
    (h : ramfsCreate s i type parentIno name = some s') :
    s'.inodes i = { s.inodes i with
        ino := s.nextInode
        type := type
        name := name
        size := 0
        parentIno := parentIno } ∧
      (∀ j, j ≠ i → s'.inodes j = s.inodes j) ∧ s'.fds = s.fds ∧
      s'.nextInode = u32 (s.nextInode + 1) := by
  obtain ⟨-, rfl⟩ := ramfsCreate_eq_some h
  exact ⟨s.setInode_self i _, fun j hj => s.setInode_of_ne _ hj, rfl, rfl⟩

/-! ### The layout invariant -/

/-- The bytes of an inode's block lie in front of those of another. -/
def Inode.Before (a b : Inode) : Prop :=
  ∀ d e, a.data = some d → b.data = some e → d + a.capacity ≤ e

/-- One inode: no block, or an aligned block below `used`; the size within the capacity. -/
structure Inode.Placed (used : ℕ) (inode : Inode) : Prop where
  noBlock : inode.data = none → inode.capacity = 0
  block : ∀ d, inode.data = some d →
    d % 16 = 0 ∧ inode.capacity % 16 = 0 ∧ 0 < inode.capacity ∧ d + inode.capacity ≤ used
  size_le : inode.size ≤ inode.capacity
  capacity_le : inode.capacity ≤ ramfsMaxFilesize

/-- The layout invariant of the pool. -/
structure PoolInv (s : Ramfs) : Prop where
  placed : ∀ i, (s.inodes i).Placed s.poolUsed
  disjoint : ∀ i j, i ≠ j → (s.inodes i).Before (s.inodes j) ∨ (s.inodes j).Before (s.inodes i)
  used_le : s.poolUsed ≤ ramfsPoolSize
  used_mod : s.poolUsed % 16 = 0
  offset_le : ∀ fd, (s.fds fd).offset ≤ ramfsMaxFilesize

theorem Inode.placed_zero (used : ℕ) : Inode.zero.Placed used :=
  ⟨fun _ => rfl, fun d h => by simp [Inode.zero] at h, le_rfl, Nat.zero_le _⟩

theorem Inode.Placed.mono {used used' : ℕ} {inode : Inode} (h : inode.Placed used)
    (hle : used ≤ used') : inode.Placed used' where
  noBlock := h.noBlock
  block d hd :=
    have ⟨h₁, h₂, h₃, h₄⟩ := h.block d hd
    ⟨h₁, h₂, h₃, h₄.trans hle⟩
  size_le := h.size_le
  capacity_le := h.capacity_le

theorem Inode.Before.of_data_eq_none_left {a b : Inode} (h : a.data = none) : a.Before b :=
  fun d _ hd => by simp [h] at hd

/-- The invariant after one inode and the pool mark have changed: the new inode is placed, the
others still are, and the new block is disjoint from theirs. -/
private theorem PoolInv.update (h : PoolInv s) {i : Fin 64} {inode : Inode} (pool : ℕ → UInt8)
    {used : ℕ} (hplaced : inode.Placed used)
    (hothers : ∀ j, j ≠ i → (s.inodes j).Placed used)
    (hdisj : ∀ j, j ≠ i → inode.Before (s.inodes j) ∨ (s.inodes j).Before inode)
    (hused : used ≤ ramfsPoolSize) (hmod : used % 16 = 0) :
    PoolInv { s.setInode i inode with pool := pool, poolUsed := used } where
  placed j := by
    by_cases hj : j = i
    · subst hj
      simpa only [Ramfs.setInode_self] using hplaced
    · simpa only [s.setInode_of_ne _ hj] using hothers j hj
  disjoint j k hjk := by
    by_cases hj : j = i
    · subst hj
      simpa only [Ramfs.setInode_self, s.setInode_of_ne _ (Ne.symm hjk)] using
        hdisj k (Ne.symm hjk)
    · by_cases hk : k = i
      · subst hk
        simpa only [Ramfs.setInode_self, s.setInode_of_ne _ hj] using (hdisj j hj).symm
      · simpa only [s.setInode_of_ne _ hj, s.setInode_of_ne _ hk] using h.disjoint j k hjk
  used_le := hused
  used_mod := hmod
  offset_le := h.offset_le

/-- Replacing an inode by one with the same block, and a size that still fits, keeps the
invariant, whatever happens to the bytes of the pool. -/
private theorem PoolInv.updateSameBlock (h : PoolInv s) {i : Fin 64} {inode : Inode}
    (pool : ℕ → UInt8) (hdata : inode.data = (s.inodes i).data)
    (hcap : inode.capacity = (s.inodes i).capacity) (hsize : inode.size ≤ inode.capacity) :
    PoolInv { s.setInode i inode with pool := pool } := by
  have hp := h.placed i
  refine h.update _ ⟨?_, ?_, hsize, ?_⟩ (fun j _ => h.placed j) (fun j hj => ?_) h.used_le
    h.used_mod
  · rw [hdata, hcap]
    exact hp.noBlock
  · rw [hdata, hcap]
    exact hp.block
  · rw [hcap]
    exact hp.capacity_le
  · simpa only [Inode.Before, hdata, hcap] using h.disjoint i j (Ne.symm hj)

/-- Blocks in front of the newest one end where it starts. -/
private theorem PoolInv.le_of_newest (h : PoolInv s) {i j : Fin 64} (hj : j ≠ i)
    (hnew : s.IsNewest (s.inodes i)) :
    (s.inodes j).Placed (s.poolUsed - (s.inodes i).capacity) := by
  obtain ⟨d, hd, hend⟩ := hnew
  refine ⟨(h.placed j).noBlock, fun e he => ?_, (h.placed j).size_le, (h.placed j).capacity_le⟩
  obtain ⟨h₁, h₂, h₃, h₄⟩ := (h.placed j).block e he
  have hpos := ((h.placed i).block d hd).2.2.1
  refine ⟨h₁, h₂, h₃, ?_⟩
  rcases h.disjoint i j (Ne.symm hj) with hb | hb
  · have := hb d e hd he
    omega
  · have := hb e d he hd
    omega

/-- `ramfs_reserve` keeps the layout invariant. -/
theorem PoolInv.reserve (h : PoolInv s) (i : Fin 64) {needed : ℕ}
    (hneed : needed ≤ ramfsMaxFilesize) : PoolInv (ramfsReserve s i needed).2 := by
  obtain ⟨hle, hmod, hmax⟩ := newCapacity_spec (s.inodes i).capacity hneed
  have hp := h.placed i
  rcases ramfsReserve_cases s i needed with ⟨-, heq⟩ | ⟨hlt, hnew, hfit, heq⟩ |
    ⟨hlt, -, hfit, pool, -, heq⟩ | ⟨-, heq⟩
  · rw [heq]
    exact h
  · rw [heq]
    -- the newest block grows in place, and the others end where it starts
    have hnew' := hnew
    obtain ⟨d, hd, hend⟩ := hnew'
    obtain ⟨h₁, h₂, h₃, h₄⟩ := hp.block d hd
    refine h.update _ ⟨fun hn => by simp [hd] at hn, fun e he => ?_, hp.size_le.trans ?_, hmax⟩
      (fun j hj => (h.placed j).mono (Nat.le_add_right _ _)) (fun j hj => ?_) ?_ ?_
    · obtain rfl : d = e := Option.some_injective _ (hd.symm.trans he)
      exact ⟨h₁, hmod, by show 0 < newCapacity _ _; omega, by show d + newCapacity _ _ ≤ _; omega⟩
    · show _ ≤ newCapacity _ _
      omega
    · refine Or.inr fun e d' he hd' => ?_
      obtain rfl : d = d' := Option.some_injective _ (hd.symm.trans hd')
      have := ((h.le_of_newest hj hnew).block e he).2.2.2
      omega
    · omega
    · have := h.used_mod
      omega
  · rw [heq]
    -- a new block starts where the pool ended
    refine h.update _ ⟨fun hn => by simp at hn, fun e he => ?_, hp.size_le.trans ?_, hmax⟩
      (fun j hj => (h.placed j).mono (Nat.le_add_right _ _)) (fun j hj => ?_) hfit ?_
    · obtain rfl : s.poolUsed = e := Option.some_injective _ he
      exact ⟨h.used_mod, hmod, by show 0 < newCapacity _ _; omega, le_rfl⟩
    · show _ ≤ newCapacity _ _
      omega
    · refine Or.inr fun e d' he hd' => ?_
      obtain rfl : s.poolUsed = d' := Option.some_injective _ hd'
      exact ((h.placed j).block e he).2.2.2
    · have := h.used_mod
      omega
  · rw [heq]
    exact h

/-- Removing an inode and giving its block back, if it is the newest, keeps the layout
invariant. -/
private theorem PoolInv.unlink (h : PoolInv s) (i : Fin 64) :
    PoolInv ((ramfsRelease s i).setInode i Inode.zero) := by
  have hzero : ∀ j, j ≠ i → Inode.zero.Before (s.inodes j) ∨ (s.inodes j).Before Inode.zero :=
    fun _ _ => Or.inl (.of_data_eq_none_left rfl)
  rw [ramfsRelease]
  split_ifs with hnew
  · refine h.update _ (Inode.placed_zero _) (fun j hj => h.le_of_newest hj hnew) hzero
      ((Nat.sub_le _ _).trans h.used_le) ?_
    obtain ⟨d, hd, hend⟩ := hnew
    have := ((h.placed i).block d hd).2.1
    have := h.used_mod
    show (s.poolUsed - (s.inodes i).capacity) % 16 = 0
    omega
  · exact h.update _ (Inode.placed_zero _) (fun j _ => h.placed j) hzero h.used_le h.used_mod

/-- Every elementary change keeps the layout invariant. -/
theorem PoolInv.change (h : PoolInv s) (hc : RamfsChange T N s s') : PoolInv s' := by
  cases hc with
  | setFd fd f ho _ =>
    refine ⟨h.placed, h.disjoint, h.used_le, h.used_mod, fun fd' => ?_⟩
    by_cases hfd : fd' = fd
    · subst hfd
      simpa only [Ramfs.setFd_self] using ho
    · simpa only [s.setFd_of_ne f hfd] using h.offset_le fd'
  | create i type parentIno name _ _ _ hcreate =>
    obtain ⟨-, rfl⟩ := ramfsCreate_eq_some hcreate
    have hinv : PoolInv (s.setInode i { s.inodes i with
        ino := s.nextInode, type := type, name := name, size := 0, parentIno := parentIno }) :=
      h.updateSameBlock s.pool rfl rfl (Nat.zero_le _)
    exact ⟨hinv.placed, hinv.disjoint, hinv.used_le, hinv.used_mod, hinv.offset_le⟩
  | truncate i _ => exact h.updateSameBlock s.pool rfl rfl (Nat.zero_le _)
  | reserve i hneed => exact h.reserve i hneed
  | write i _ _ _ hsize => exact h.updateSameBlock _ rfl rfl hsize
  | clear i _ =>
    exact h.update s.pool (Inode.placed_zero _) (fun j _ => h.placed j)
      (fun _ _ => Or.inl (.of_data_eq_none_left rfl)) h.used_le h.used_mod
  | unlink i _ => exact h.unlink i

/-- The layout invariant holds behind every sequence of elementary changes. -/
theorem PoolInv.changes (h : PoolInv s) (hc : RamfsChanges T N s s') : PoolInv s' := by
  induction hc with
  | refl => exact h
  | tail _ hc ih => exact ih.change hc

/-- The invariant holds before the first operation. -/
theorem poolInv_ramfsRoot (pool : ℕ → UInt8) : PoolInv (ramfsRoot pool) where
  placed i := by
    rw [ramfsRoot]
    dsimp only
    rw [Function.update_apply]
    split_ifs
    · exact ⟨fun _ => rfl, fun d h => by simp [Inode.zero] at h, le_rfl, Nat.zero_le _⟩
    · exact Inode.placed_zero _
  disjoint i j _ := by
    refine Or.inl (.of_data_eq_none_left ?_)
    rw [ramfsRoot]
    dsimp only
    rw [Function.update_apply]
    split_ifs <;> rfl
  used_le := Nat.zero_le _
  used_mod := rfl
  offset_le _ := Nat.zero_le _

end ChalesOs
