import ChalesOs.Ramfs.Runs

/-!
# Files as byte strings

`Ramfs.content` reads the inode table and the pool as a map from inode numbers to byte strings.
The blocks behind it grow, move, are abandoned and handed out again; `FileStep` says that none of
it shows: a write overwrites the string at the write offset, with zeros between the old end and
the offset, a read returns a part of the string, truncation leaves the empty string, and no other
file changes.

The map is well defined because live inode numbers are pairwise different (`IdInv`), as long as
the counter they come from has not wrapped. `RamfsChange.content` shows for every elementary
change that files outside its scope keep their content; disjointness of blocks, from `PoolInv`,
is what carries it.
-/

namespace ChalesOs

open ByteMemory

variable {s s' : Ramfs} {T : Set ℕ} {N f : ℕ} {i : Fin 64} {b : List UInt8}

/-- The first `size` bytes of the block of slot `i`. -/
def Ramfs.fileBytes (s : Ramfs) (i : Fin 64) : List UInt8 :=
  match (s.inodes i).data with
  | some d => slice s.pool d (s.inodes i).size
  | none => []

/-- The content of file number `f`, `none` if no file has this number. -/
def Ramfs.content (s : Ramfs) (f : ℕ) : Option (List UInt8) :=
  match s.slotOfIno f with
  | some i => if (s.inodes i).type = .file then some (s.fileBytes i) else none
  | none => none

/-! ### Inode numbers -/

/-- Slot 0 is the root's, and live inode numbers are pairwise different and below the counter,
which is a 32-bit number. -/
structure IdInv (s : Ramfs) : Prop where
  next_lt : s.nextInode < 0x100000000
  root : (s.inodes 0).ino = 0
  ino_lt : ∀ i, (s.inodes i).ino < s.nextInode
  inj : ∀ i j, (s.inodes i).ino ≠ 0 → (s.inodes i).ino = (s.inodes j).ino → i = j

/-- Slot `i` is the one a search for the number `f` is meant to find: it has the number, and is
the root's if the number is 0. -/
def Ramfs.HoldsIno (s : Ramfs) (i : Fin 64) (f : ℕ) : Prop :=
  (s.inodes i).ino = f ∧ (f = 0 → i = 0)

/-- A search by number finds the slot it is meant to find. -/
theorem IdInv.slotOfIno_iff (h : IdInv s) : s.slotOfIno f = some i ↔ s.HoldsIno i f := by
  by_cases hf : f = 0
  · have hzero : s.slotOfIno 0 = some 0 := by
      rw [Ramfs.slotOfIno, Ramfs.findSlot, List.finRange_succ, List.find?_cons_of_pos]
      simpa using h.root
    subst hf
    rw [hzero, Ramfs.HoldsIno]
    constructor
    · rintro ⟨rfl⟩
      exact ⟨h.root, fun _ => rfl⟩
    · rintro ⟨-, hi⟩
      rw [hi rfl]
  · constructor
    · exact fun hi => ⟨Ramfs.slotOfIno_some hi, fun h0 => absurd h0 hf⟩
    · rintro ⟨hi, -⟩
      exact Ramfs.slotOfIno_eq_some hi fun j hj => h.inj j i (by rwa [hj]) (hj.trans hi.symm)

/-- The content of a file, through its slot. -/
theorem IdInv.content_eq_some (h : IdInv s) :
    s.content f = some b ↔
      ∃ i, s.HoldsIno i f ∧ (s.inodes i).type = .file ∧ s.fileBytes i = b := by
  rw [Ramfs.content]
  constructor
  · intro hb
    cases hi : s.slotOfIno f with
    | none => simp [hi] at hb
    | some i =>
      simp only [hi] at hb
      split_ifs at hb with htype
      exact ⟨i, h.slotOfIno_iff.mp hi, htype, Option.some.inj hb⟩
  · rintro ⟨i, hi, htype, rfl⟩
    simp only [h.slotOfIno_iff.mpr hi, if_pos htype]

/-- Inode numbers after one slot has changed to a number that is 0, the old one, or the one the
counter was at. -/
private theorem IdInv.update (h : IdInv s) {s' : Ramfs} {inode : Inode}
    (hinodes : s'.inodes = Function.update s.inodes i inode)
    (hnext : s.nextInode ≤ s'.nextInode) (hlt' : s'.nextInode < 0x100000000)
    (hino : inode.ino = 0 ∨ inode.ino = (s.inodes i).ino ∨
      inode.ino = s.nextInode ∧ s.nextInode < s'.nextInode ∧ i ≠ 0) : IdInv s' := by
  have hlt := h.ino_lt
  have hother : ∀ j, j ≠ i → (s'.inodes j).ino = (s.inodes j).ino := fun j hj => by
    rw [hinodes, Function.update_of_ne hj]
  have hself : (s'.inodes i).ino = inode.ino := by rw [hinodes, Function.update_self]
  -- the number of the slot is 0, the old one, or a new one that no other slot has
  refine ⟨hlt', ?_, fun j => ?_, fun j k hj hjk => ?_⟩
  · by_cases hi : 0 = i
    · subst hi
      rw [hself]
      rcases hino with h0 | h0 | ⟨-, -, hne⟩
      · exact h0
      · exact h0.trans h.root
      · exact absurd rfl hne
    · rw [hother 0 hi]
      exact h.root
  · by_cases hj : j = i
    · subst hj
      rw [hself]
      have := hlt j
      omega
    · rw [hother j hj]
      exact (hlt j).trans_le hnext
  · by_cases hji : j = i
    · by_cases hki : k = i
      · exact hji.trans hki.symm
      · subst hji
        rw [hself] at hj
        rw [hself, hother k hki] at hjk
        rcases hino with h0 | h0 | ⟨h0, -⟩
        · exact absurd h0 hj
        · exact h.inj j k (h0 ▸ hj) (h0.symm.trans hjk)
        · exact absurd (hlt k) (by omega)
    · rw [hother j hji] at hj hjk
      by_cases hki : k = i
      · subst hki
        rw [hself] at hjk
        rcases hino with h0 | h0 | ⟨h0, -⟩
        · exact absurd (hjk.trans h0) hj
        · exact h.inj j k hj (hjk.trans h0)
        · exact absurd (hlt j) (by omega)
      · rw [hother k hki] at hjk
        exact h.inj j k hj hjk

/-- The counter after a change. -/
theorem RamfsChange.nextInode_eq (hc : RamfsChange T N s s') :
    s'.nextInode = s.nextInode ∨ s.nextInode = N ∧ s'.nextInode = u32 (N + 1) := by
  cases hc with
  | setFd | truncate | write | clear => exact Or.inl rfl
  | reserve i _ => exact Or.inl (ramfsReserve_frame s i _).2.1
  | create i type parentIno name _ _ hN hcreate =>
    obtain ⟨-, rfl⟩ := ramfsCreate_eq_some hcreate
    exact Or.inr ⟨hN, by rw [hN]⟩
  | unlink i _ => exact Or.inl (ramfsRelease_frame s i).2.1

/-- Every elementary change keeps the numbering, unless the counter wraps. -/
theorem IdInv.change (h : IdInv s) (hc : RamfsChange T N s s') (hne : s'.nextInode ≠ 0) :
    IdInv s' := by
  have hnext := h.next_lt
  cases hc with
  | setFd => exact ⟨h.next_lt, h.root, h.ino_lt, h.inj⟩
  | create i type parentIno name hi _ _ hcreate =>
    obtain ⟨-, rfl⟩ := ramfsCreate_eq_some hcreate
    change u32 (s.nextInode + 1) ≠ 0 at hne
    have hlt : u32 (s.nextInode + 1) = s.nextInode + 1 := by
      rw [u32] at hne ⊢
      omega
    refine h.update rfl ?_ (Nat.mod_lt _ (by decide)) (Or.inr (Or.inr ⟨rfl, ?_, hi⟩))
    · exact (Nat.le_succ _).trans_eq hlt.symm
    · exact (Nat.lt_succ_self _).trans_eq hlt.symm
  | truncate i _ => exact h.update rfl le_rfl hnext (Or.inr (Or.inl rfl))
  | reserve i _ =>
    obtain ⟨-, heq, data, capacity, hinodes⟩ := ramfsReserve_frame s i _
    exact h.update hinodes heq.ge (heq.trans_lt hnext) (Or.inr (Or.inl rfl))
  | write i _ _ _ _ => exact h.update rfl le_rfl hnext (Or.inr (Or.inl rfl))
  | clear i _ => exact h.update rfl le_rfl hnext (Or.inl rfl)
  | unlink i _ =>
    obtain ⟨hinodes, heq, -, -⟩ := ramfsRelease_frame s i
    exact h.update (congrArg (Function.update · i _) hinodes) heq.ge (heq.trans_lt hnext)
      (Or.inl rfl)

/-- The counter after a sequence of changes. -/
theorem RamfsChanges.nextInode_eq (hc : RamfsChanges T N s s') :
    s'.nextInode = s.nextInode ∨ s'.nextInode = u32 (N + 1) := by
  induction hc with
  | refl => exact Or.inl rfl
  | tail _ hc ih =>
    rcases hc.nextInode_eq with heq | ⟨-, heq⟩
    · rwa [heq]
    · exact Or.inr heq

/-- A counter that is not 0 at the end has never been. -/
theorem RamfsChanges.nextInode_ne_zero (hc : RamfsChanges T N s s') (hN : N ≠ 0)
    (hne : s'.nextInode ≠ 0) : s.nextInode ≠ 0 := by
  induction hc with
  | refl => exact hne
  | tail _ hc ih =>
    rcases hc.nextInode_eq with heq | ⟨heq, -⟩
    · exact ih (heq ▸ hne)
    · exact ih (heq ▸ hN)

/-- A sequence of changes within one operation keeps the numbering, unless the counter wraps. -/
theorem IdInv.changes (h : IdInv s) (hc : RamfsChanges T N s s') (hN : N ≠ 0)
    (hne : s'.nextInode ≠ 0) : IdInv s' := by
  induction hc with
  | refl => exact h
  | tail _ hc ih =>
    exact (ih (RamfsChanges.nextInode_ne_zero (.single hc) hN hne)).change hc hne

/-! ### Files outside the scope of a change -/

/-- The bytes of a file depend on its inode and the bytes of its block. -/
theorem Ramfs.fileBytes_congr (hdata : (s'.inodes i).data = (s.inodes i).data)
    (hsize : (s'.inodes i).size = (s.inodes i).size)
    (hpool : ∀ d k, (s.inodes i).data = some d → k < (s.inodes i).size →
      s'.pool (d + k) = s.pool (d + k)) : s'.fileBytes i = s.fileBytes i := by
  rw [fileBytes, fileBytes, hdata, hsize]
  cases hd : (s.inodes i).data with
  | none => rfl
  | some d => exact slice_congr fun k hk => hpool d k hd hk

/-- `ramfs_reserve` changes the bytes of no file: a block that moves takes its bytes along. -/
theorem PoolInv.fileBytes_reserve (h : PoolInv s) (i j : Fin 64) (needed : ℕ) :
    (ramfsReserve s i needed).2.fileBytes j = s.fileBytes j := by
  have hplaced := h.placed
  rcases ramfsReserve_cases s i needed with ⟨-, heq⟩ | ⟨-, -, -, heq⟩ |
    ⟨-, -, -, pool, hpool, heq⟩ | ⟨-, heq⟩
  · rw [heq]
  · rw [heq]
    -- the block has grown in place
    by_cases hj : j = i
    · subst hj
      exact Ramfs.fileBytes_congr (by simp) (by simp) fun _ _ _ _ => rfl
    · exact Ramfs.fileBytes_congr (by simp [s.setInode_of_ne _ hj])
        (by simp [s.setInode_of_ne _ hj]) fun _ _ _ _ => rfl
  · rw [heq]
    -- the contents have moved with the block, or there were none
    by_cases hj : j = i
    · subst hj
      simp only [Ramfs.fileBytes, Ramfs.setInode_self]
      rcases hpool with ⟨rfl, hnone | hzero⟩ | ⟨d, hd, rfl⟩
      · have hsize := (hplaced j).size_le
        rw [(hplaced j).noBlock hnone, Nat.le_zero] at hsize
        rw [hnone, hsize, slice_zero]
      · rw [hzero, slice_zero]
        cases (s.inodes j).data <;> rfl
      · rw [hd, slice_copy]
    · refine Ramfs.fileBytes_congr (by simp [s.setInode_of_ne _ hj])
        (by simp [s.setInode_of_ne _ hj]) fun d k hd hk => ?_
      -- the new block is behind all the others
      have hend := ((hplaced j).block d hd).2.2.2
      have hsize := (hplaced j).size_le
      rcases hpool with ⟨rfl, -⟩ | ⟨e, -, rfl⟩
      · rfl
      · exact copy_of_not_mem (by omega)
  · rw [heq]

/-- A write to one block changes the bytes of no other file. -/
theorem PoolInv.fileBytes_write (h : PoolInv s) {i j : Fin 64} (hj : j ≠ i) {d : ℕ}
    {pool : ℕ → UInt8} {inode : Inode} (hd : (s.inodes i).data = some d)
    (hpool : Set.EqOn pool s.pool (Set.Ico d (d + (s.inodes i).capacity))ᶜ) :
    ({ s with pool := pool }.setInode i inode).fileBytes j = s.fileBytes j := by
  refine Ramfs.fileBytes_congr (by rw [Ramfs.setInode_of_ne _ _ hj])
    (by rw [Ramfs.setInode_of_ne _ _ hj]) fun e k he hk => hpool ?_
  have hsize := (h.placed j).size_le
  simp only [Set.mem_compl_iff, Set.mem_Ico, not_and, not_lt]
  intro hle
  rcases h.disjoint i j hj.symm with hb | hb
  · exact le_trans (hb d e hd he) (Nat.le_add_right _ _)
  · have := hb e d he hd
    omega

/-- **Frame.** A change leaves the content of every file outside its scope alone. -/
theorem RamfsChange.content_eq (hc : RamfsChange T N s s') (hpool : PoolInv s) (hid : IdInv s)
    (hid' : IdInv s') (hf : f ∉ T) (hb : s.content f = some b) : s'.content f = some b := by
  obtain ⟨i, ⟨hi, hroot⟩, htype, hbytes⟩ := hid.content_eq_some.mp hb
  suffices hsame : (s'.inodes i).ino = (s.inodes i).ino ∧ (s'.inodes i).type = (s.inodes i).type ∧
      s'.fileBytes i = s.fileBytes i from
    hid'.content_eq_some.mpr ⟨i, ⟨hsame.1.trans hi, hroot⟩, hsame.2.1.trans htype,
      hsame.2.2.trans hbytes⟩
  -- outside the slot that changes, the inode is the same
  have hother : ∀ j inode, i ≠ j → ((s.setInode j inode).inodes i) = s.inodes i :=
    fun j inode hij => s.setInode_of_ne inode hij
  have hkeep : ∀ {t : Ramfs}, t.inodes i = s.inodes i → t.pool = s.pool →
      (t.inodes i).ino = (s.inodes i).ino ∧ (t.inodes i).type = (s.inodes i).type ∧
        t.fileBytes i = s.fileBytes i := by
    intro t heq hpool
    exact ⟨congrArg _ heq, congrArg _ heq, Ramfs.fileBytes_congr (congrArg _ heq)
      (congrArg _ heq) fun _ _ _ _ => congrFun hpool _⟩
  have hin : ∀ {j}, (s.inodes j).ino ∈ T → i ≠ j := by
    rintro j hj rfl
    exact hf (hi ▸ hj)
  cases hc with
  | setFd => exact ⟨rfl, rfl, rfl⟩
  | create j type parentIno name hj hfree _ hcreate =>
    obtain ⟨-, rfl⟩ := ramfsCreate_eq_some hcreate
    -- a free slot has the number 0, with which a search finds the root's slot only
    have hij : i ≠ j := by
      rintro rfl
      exact hj (hroot (hi.symm.trans hfree))
    exact hkeep (hother j _ hij) rfl
  | truncate j hj => exact hkeep (hother j _ (hin hj)) rfl
  | @reserve j needed _ =>
    obtain ⟨-, -, data, capacity, hinodes⟩ := ramfsReserve_frame s j needed
    have heq : ∀ {α : Type} (g : Inode → α), (∀ inode data capacity,
        g { inode with data := data, capacity := capacity } = g inode) →
        g ((ramfsReserve s j needed).2.inodes i) = g (s.inodes i) := by
      intro α g hg
      rw [hinodes]
      by_cases hij : i = j
      · rw [hij, Function.update_self, hg]
      · rw [Function.update_of_ne hij]
    exact ⟨heq Inode.ino fun _ _ _ => rfl, heq Inode.type fun _ _ _ => rfl,
      hpool.fileBytes_reserve j i needed⟩
  | @write j d size pool hj hd hpool' _ =>
    have heq : ({ s with pool := pool }.setInode j { s.inodes j with size := size }).inodes i =
        s.inodes i := hother j _ (hin hj)
    exact ⟨congrArg _ heq, congrArg _ heq, hpool.fileBytes_write (hin hj) hd hpool'⟩
  | clear j hdir =>
    have hij : i ≠ j := by
      rintro rfl
      simp [htype] at hdir
    exact hkeep (hother j Inode.zero hij) rfl
  | unlink j hj =>
    obtain ⟨hinodes, -, -, hpool⟩ := ramfsRelease_frame s j
    refine hkeep ?_ hpool
    rw [Ramfs.setInode_of_ne _ _ (hin hj), hinodes]

/-- The frame over a whole operation. -/
theorem RamfsChanges.content_eq (hc : RamfsChanges T N s s') (hpool : PoolInv s) (hid : IdInv s)
    (hN : N ≠ 0) (hne : s'.nextInode ≠ 0) (hf : f ∉ T) (hb : s.content f = some b) :
    s'.content f = some b := by
  induction hc with
  | refl => exact hb
  | tail hcs hc ih =>
    have hne₁ := RamfsChanges.nextInode_ne_zero (.single hc) hN hne
    have hid₁ := hid.changes hcs hN hne₁
    exact hc.content_eq (hpool.changes hcs) hid₁ (hid₁.change hc hne) hf (ih hne₁)

/-! ### Operations on byte strings -/

/-- What an operation is on the map from inode numbers to byte strings. -/
structure FileStep (s : Ramfs) (op : RamfsOp) (res : RamfsResult) (s' : Ramfs) : Prop where
  /-- A write of `n > 0` bytes overwrites the string at the write offset, and moves the
  descriptor behind it. -/
  write : ∀ fd buf count, op = .write fd buf count → 0 < res.ret →
    ∃ (k : Fin 32) (old : List UInt8) (off n : ℕ), validFd fd = some k ∧
      s.content (s.fds k).ino = some old ∧
      off = (if (s.fds k).flags &&& oAppend ≠ 0 then old.length else (s.fds k).offset) ∧
      res.ret = n ∧ n ≤ count ∧
      s'.content (s.fds k).ino =
        some (overwrite 0 old off (slice (buf.getD fun _ => 0) 0 n)) ∧
      s'.fds = Function.update s.fds k { s.fds k with offset := off + n }
  /-- A read returns a part of the string, and moves the descriptor behind it. -/
  read : ∀ fd bufNull count, op = .read fd bufNull count →
    res.ret = -1 ∧ s' = s ∨
    ∃ (k : Fin 32) (b : List UInt8), validFd fd = some k ∧ s.content (s.fds k).ino = some b ∧
      res.bytes = (b.drop (s.fds k).offset).take count ∧ res.ret = res.bytes.length ∧
      s' = s.setFd k { s.fds k with offset := (s.fds k).offset + res.bytes.length }
  /-- Reads fail only through descriptors that are not open for reading on a live file. -/
  read_ok : ∀ fd count k i, op = .read fd false count → s.Readable fd k i → 0 ≤ res.ret
  /-- Opening for writing with truncation leaves the empty string. -/
  truncate : ∀ path oflags, op = .open2 path oflags → oflags &&& oTrunc ≠ 0 →
    oflags &&& oAccmode ≠ oRdonly → 0 ≤ res.ret →
    ∃ k : Fin 32, res.ret = (k : ℕ) ∧ s'.content (s'.fds k).ino = some [] ∧
      ∀ i, ramfsFindInode s path = some i → (s'.fds k).ino = (s.inodes i).ino
  /-- Nothing else changes the content of a file. -/
  frame : ∀ f b, f ∉ op.touches s → s.content f = some b → s'.content f = some b

/-- The bytes of an open file are its content. -/
theorem IdInv.content_of_openFile (h : IdInv s) {fd : ℤ} {k : Fin 32} (hw : s.OpenFile fd k i) :
    s.content (s.fds k).ino = some (s.fileBytes i) :=
  h.content_eq_some.mpr ⟨i, h.slotOfIno_iff.mp hw.slot, hw.file, rfl⟩

/-- As many bytes as the size says. -/
theorem PoolInv.length_fileBytes (h : PoolInv s) (i : Fin 64) :
    (s.fileBytes i).length = (s.inodes i).size := by
  rw [Ramfs.fileBytes]
  cases hd : (s.inodes i).data with
  | some d => exact length_slice
  | none =>
    have hsize := (h.placed i).size_le
    rw [(h.placed i).noBlock hd] at hsize
    exact (Nat.le_zero.mp hsize).symm

/-- The memory operations of a job overwrite the string. -/
theorem WriteJob.fileBytes_run (job : WriteJob) {buf : ℕ → UInt8} {d : ℕ}
    (hd : job.inode.data = some d) :
    (job.run buf d).fileBytes job.slot =
      overwrite 0 (job.fs.fileBytes job.slot) job.offset (slice buf 0 job.count) := by
  have hfill : job.newPool buf d = copy
      (fill job.fs.pool (d + job.inode.size) (job.offset - job.inode.size) 0)
      (d + job.offset) buf 0 job.count := by
    rw [WriteJob.newPool]
    split_ifs with hgt
    · rfl
    · rw [Nat.sub_eq_zero_of_le (not_lt.mp hgt), fill_zero]
  rw [WriteJob.inode] at hd
  rw [job.run_eq]
  simp only [Ramfs.fileBytes, Ramfs.setFd_inodes, Ramfs.setInode_self, Ramfs.setFd_pool,
    Ramfs.setInode_pool, WriteJob.inode, hd]
  rw [hfill, WriteJob.newSize, WriteJob.inode, slice_copy_fill]

/-- **A write overwrites the string.** -/
theorem IdInv.write (hid : IdInv s) (hpool : PoolInv s) {fd : ℤ} {buf : Option (ℕ → UInt8)}
    {count : ℕ} {r : ℤ × Ramfs} (hrange : (RamfsOp.write fd buf count).InRange s)
    (h : ramfsWrite s fd buf count = some r) (hne : r.2.nextInode ≠ 0) (hret : 0 < r.1) :
    ∃ (k : Fin 32) (old : List UInt8) (off n : ℕ), validFd fd = some k ∧
      s.content (s.fds k).ino = some old ∧
      off = (if (s.fds k).flags &&& oAppend ≠ 0 then old.length else (s.fds k).offset) ∧
      r.1 = n ∧ n ≤ count ∧
      r.2.content (s.fds k).ino =
        some (overwrite 0 old off (slice (buf.getD fun _ => 0) 0 n)) ∧
      r.2.fds = Function.update s.fds k { s.fds k with offset := off + n } := by
  rw [ramfsWrite] at h
  cases hprep : ramfsWritePrepare s fd buf.isNone count with
  | inl r' =>
    rw [hprep] at h
    obtain rfl := Option.some.inj h
    rcases ramfsWritePrepare_cases s fd buf.isNone count with ⟨ret, s', heq, hle, -⟩ |
      ⟨k, i, cnt, n, -, -, -, -, heq, -⟩
    · obtain rfl := Sum.inl_injective (heq.symm.trans hprep)
      exact absurd hret (not_lt.mpr hle)
    · exact absurd (heq.symm.trans hprep) (by simp)
  | inr job =>
    obtain ⟨k, i, hw, rfl, rfl, hoff, -, hchanges, hino, -, hfds, hin⟩ :=
      ramfsWritePrepare_inr hpool hprep
    obtain ⟨hle, hin⟩ := hin (hrange _ _ hw)
    simp only [hprep, if_pos hin] at h
    obtain ⟨d, hd, rfl⟩ := Option.map_eq_some_iff.mp h
    have hN : s.nextInode ≠ 0 := Nat.ne_zero_of_lt (hid.ino_lt 0)
    have hchanges := hchanges ∅ s.nextInode
    have hfd : (job.fs.fds job.fd).ino = job.inode.ino := by
      rw [hino, hfds]
      simp [Ramfs.seekWrite]
    have hrun : RamfsChanges Set.univ s.nextInode job.fs (job.run (buf.getD fun _ => 0) d) :=
      hin.run_changes (hpool.changes hchanges) hd (Set.mem_univ _) hfd
    -- the state behind the reservation holds the string still, and the job writes to it
    have hne₁ := hrun.nextInode_ne_zero hN hne
    have hid₁ := hid.changes hchanges hN hne₁
    have hid₂ := hid₁.changes hrun hN hne
    have hold := hid.content_of_openFile hw.toOpenFile
    have hcontent : job.fs.content (s.fds job.fd).ino = some (s.fileBytes job.slot) :=
      hchanges.content_eq hpool hid hN hne₁ (Set.notMem_empty _) hold
    obtain ⟨htype, hbytes⟩ : (job.fs.inodes job.slot).type = .file ∧
        job.fs.fileBytes job.slot = s.fileBytes job.slot := by
      obtain ⟨j, hj, htype, hbytes⟩ := hid₁.content_eq_some.mp hcontent
      obtain rfl : j = job.slot := hid₁.inj j job.slot (hj.1 ▸ hw.live) (hj.1.trans hino.symm)
      exact ⟨htype, hbytes⟩
    refine ⟨job.fd, s.fileBytes job.slot, job.offset, job.count, hw.valid, hold, ?_, rfl, hle,
      hid₂.content_eq_some.mpr ⟨job.slot, ⟨?_, fun h0 => absurd h0 hw.live⟩, ?_, ?_⟩, ?_⟩
    · rw [hoff, Ramfs.writeOffset, hpool.length_fileBytes]
    · rw [job.run_eq, Ramfs.setFd_inodes, Ramfs.setInode_self]
      exact hino
    · rw [job.run_eq, Ramfs.setFd_inodes, Ramfs.setInode_self]
      exact htype
    · rw [job.fileBytes_run hd, hbytes]
    · rw [job.run_eq, Ramfs.setFd, Ramfs.setInode_fds]
      dsimp only
      rw [hfds]
      simp [Ramfs.seekWrite, Ramfs.setFd, Function.update_idem]

/-- **A read returns a part of the string.** -/
theorem IdInv.read (hid : IdInv s) (hpool : PoolInv s) {fd : ℤ} {bufNull : Bool} {count : ℕ}
    {r : ℤ × List UInt8 × Ramfs} (h : ramfsRead s fd bufNull count = some r) :
    r.1 = -1 ∧ r.2.2 = s ∨
    ∃ (k : Fin 32) (b : List UInt8), validFd fd = some k ∧ s.content (s.fds k).ino = some b ∧
      r.2.1 = (b.drop (s.fds k).offset).take count ∧ r.1 = r.2.1.length ∧
      r.2.2 = s.setFd k { s.fds k with offset := (s.fds k).offset + r.2.1.length } := by
  by_cases hread : bufNull = true ∨ ∀ k i, ¬s.Readable fd k i
  · rw [ramfsRead_of_not_readable hread] at h
    obtain rfl := Option.some.inj h
    exact Or.inl ⟨rfl, rfl⟩
  simp only [not_or, not_forall, not_not, Bool.not_eq_true] at hread
  obtain ⟨rfl, k, i, hread⟩ := hread
  rw [ramfsRead_of_readable hread] at h
  refine Or.inr ⟨k, s.fileBytes i, hread.valid, hid.content_of_openFile hread.toOpenFile, ?_⟩
  have hlen := hpool.length_fileBytes i
  by_cases hpos : 0 < s.readCount k i count
  · rw [if_pos hpos] at h
    obtain ⟨d, hd, rfl⟩ := Option.map_eq_some_iff.mp h
    have hbytes : slice s.pool (d + (s.fds k).offset) (s.readCount k i count) =
        ((s.fileBytes i).drop (s.fds k).offset).take count := by
      simp only [Ramfs.fileBytes, hd]
      exact take_drop_slice.symm
    have hend : (s.fds k).offset + s.readCount k i count < 0x100000000 := by
      have hsize := (hpool.placed i).size_le.trans (hpool.placed i).capacity_le
      rw [Ramfs.readCount, ramfsMaxFilesize] at *
      omega
    exact ⟨hbytes, by simp, by simp [u32, Nat.mod_eq_of_lt hend]⟩
  · rw [if_neg hpos] at h
    obtain rfl := Option.some.inj h
    have hnil : ((s.fileBytes i).drop (s.fds k).offset).take count = [] := by
      rw [List.take_eq_nil_iff, List.drop_eq_nil_iff, hlen]
      rw [Ramfs.readCount] at hpos
      omega
    exact ⟨hnil.symm, rfl, by simp [Ramfs.setFd]⟩

/-- **Truncation leaves the empty string.** -/
theorem IdInv.truncate (hid : IdInv s) {path : Option CString} {oflags : ℕ} {r : ℤ × Ramfs}
    (h : ramfsOpen2 s path oflags = some r) (htrunc : oflags &&& oTrunc ≠ 0)
    (hmode : oflags &&& oAccmode ≠ oRdonly) (hne : r.2.nextInode ≠ 0) (hret : 0 ≤ r.1) :
    ∃ k : Fin 32, r.1 = (k : ℕ) ∧ r.2.content (r.2.fds k).ino = some [] ∧
      ∀ i, ramfsFindInode s path = some i → (r.2.fds k).ino = (s.inodes i).ino := by
  rcases ramfsOpen2_cases h with ⟨hlt, -⟩ | ⟨s₁, i, hchanges, rfl, hi⟩
  · omega
  have hN : s.nextInode ≠ 0 := Nat.ne_zero_of_lt (hid.ino_lt 0)
  rcases ramfsOpen2Fd_cases s₁ i oflags with ⟨ret, hlt, heq⟩ | ⟨k, htype, -, heq⟩
  · rw [heq] at hret
    exact absurd hret (not_le.mpr hlt)
  rw [heq, if_pos ⟨htrunc, hmode⟩] at hne ⊢
  refine ⟨k, rfl, ?_, fun j hj => ?_⟩
  · rw [Ramfs.setFd_self]
    have hid₂ := (hid.changes hchanges hN hne).change (N := 0) (.truncate i (Set.mem_univ _)) hne
    have hid₃ : IdInv ((s₁.setInode i { s₁.inodes i with size := 0 }).setFd k
        ⟨(s₁.inodes i).ino, 0, oflags &&& (oAccmode ||| oAppend)⟩) :=
      ⟨hid₂.next_lt, hid₂.root, hid₂.ino_lt, hid₂.inj⟩
    refine hid₃.content_eq_some.mpr ⟨i, ⟨by simp, fun h0 => ?_⟩, by simpa using htype, ?_⟩
    · -- the slot is the one that a search for its number finds
      rcases hi with ⟨rfl, hi⟩ | ⟨-, hi⟩
      · exact (ramfsFindInode_ino_ne_zero hi).resolve_right (not_not.mpr h0)
      · have := hid.ino_lt 0
        exact absurd (hi.symm.trans h0) (by omega)
    · simp only [Ramfs.fileBytes, Ramfs.setFd_inodes, Ramfs.setInode_self]
      cases (s₁.inodes i).data <;> rfl
  · rw [Ramfs.setFd_self]
    rcases hi with ⟨rfl, hi⟩ | ⟨hnone, -⟩
    · obtain rfl := Option.some.inj (hi.symm.trans hj)
      rfl
    · simp [hnone] at hj

/-- Every operation in range is what `FileStep` says. -/
theorem IdInv.fileStep (hid : IdInv s) (hpool : PoolInv s) {op : RamfsOp}
    (hrange : op.InRange s) {res : RamfsResult} (h : ramfsExec s op = some (res, s'))
    (hne : s'.nextInode ≠ 0) : FileStep s op res s' where
  write := by
    rintro fd buf count rfl hret
    obtain ⟨r, hr, heq⟩ := Option.map_eq_some_iff.mp h
    obtain ⟨rfl, rfl⟩ := Prod.mk.inj heq
    exact hid.write hpool hrange hr hne hret
  read := by
    rintro fd bufNull count rfl
    obtain ⟨r, hr, heq⟩ := Option.map_eq_some_iff.mp h
    obtain ⟨rfl, rfl⟩ := Prod.mk.inj heq
    exact hid.read hpool hr
  read_ok := by
    rintro fd count k i rfl hread
    obtain ⟨r, hr, heq⟩ := Option.map_eq_some_iff.mp h
    obtain ⟨rfl, rfl⟩ := Prod.mk.inj heq
    rw [ramfsRead_of_readable hread] at hr
    split_ifs at hr
    · obtain ⟨d, -, rfl⟩ := Option.map_eq_some_iff.mp hr
      exact Int.natCast_nonneg _
    · obtain rfl := Option.some.inj hr
      exact le_rfl
  truncate := by
    rintro path oflags rfl htrunc hmode hret
    obtain ⟨r, hr, heq⟩ := Option.map_eq_some_iff.mp h
    obtain ⟨rfl, rfl⟩ := Prod.mk.inj heq
    exact hid.truncate hr htrunc hmode hne hret
  frame _ _ hf hb := (ramfsExec_changes hpool h).content_eq hpool hid
    (Nat.ne_zero_of_lt (hid.ino_lt 0)) hne hf hb

/-! ### Runs -/

/-- Nothing is live in front of the first operation. -/
theorem ramfsRoot_ino (pool : ℕ → UInt8) (i : Fin 64) : ((ramfsRoot pool).inodes i).ino = 0 := by
  rw [ramfsRoot]
  dsimp only
  rw [Function.update_apply]
  split_ifs <;> rfl

theorem idInv_ramfsRoot (pool : ℕ → UInt8) : IdInv (ramfsRoot pool) := by
  have hino := ramfsRoot_ino pool
  refine ⟨Nat.one_lt_two_pow (n := 32) (by decide), hino 0, fun i => ?_,
    fun i _ hi => absurd (hino i) hi⟩
  rw [hino i]
  exact Nat.one_pos

/-- One operation keeps the numbering as long as the counter does not wrap. -/
theorem IdInv.exec (hid : IdInv s) (hpool : PoolInv s) {op : RamfsOp} {res : RamfsResult}
    (h : ramfsExec s op = some (res, s')) (hne : s'.nextInode ≠ 0) : IdInv s' :=
  hid.changes (ramfsExec_changes hpool h) (Nat.ne_zero_of_lt (hid.ino_lt 0)) hne

/-- What the counter says in a run: how many inodes have been created. -/
def RamfsRun.Counted (r : RamfsRun) : Prop :=
  r.created < 0xFFFFFFFF → IdInv r.fs ∧ r.fs.nextInode = r.created + 1

theorem counted_of_start {progs : Programs} {r : RamfsRun} (h : (ramfsSystem progs).start r) :
    r.Counted := by
  obtain ⟨pool, hinit, hcreated⟩ := h
  have hinv : PoolInv r.fs ∧ (19 ≤ 19 → IdInv r.fs ∧ r.fs.nextInode ≤ 20) := by
    refine ramfsInit_invariant
      (p := fun n s => PoolInv s ∧ (n ≤ 19 → IdInv s ∧ s.nextInode ≤ n + 1))
      ⟨poolInv_ramfsRoot pool, fun _ => ⟨idInv_ramfsRoot pool, le_rfl⟩⟩
      (fun n s op res s' hs _ hexec => ?_) (fun n s hs => ?_) hinit
    · refine ⟨hs.1.changes (ramfsExec_changes hs.1 hexec), fun hn => ?_⟩
      obtain ⟨hid, hle⟩ := hs.2 (by omega)
      have hpos := hid.ino_lt 0
      have hnext := (ramfsExec_changes hs.1 hexec).nextInode_eq
      have hwrap : u32 (s.nextInode + 1) = s.nextInode + 1 := Nat.mod_eq_of_lt (by omega)
      exact ⟨hid.exec hs.1 hexec (by omega), by omega⟩
    · exact ⟨hs.1, fun hn => ⟨(hs.2 (by omega)).1, by have := (hs.2 (by omega)).2; omega⟩⟩
  exact fun _ => ⟨(hinv.2 le_rfl).1, hcreated.symm⟩

theorem RamfsRun.Counted.step {progs : Programs} {r r' : RamfsRun} {op : RamfsOp}
    (h : r.Counted) (hpool : PoolInv r.fs) (hstep : (ramfsSystem progs).step r op = some r') :
    r'.Counted := by
  obtain ⟨⟨res, s'⟩, hexec, rfl⟩ := Option.map_eq_some_iff.mp hstep
  intro hlt
  dsimp only at hlt ⊢
  obtain ⟨hid, hnext⟩ := h (by omega)
  have hpos := hid.next_lt
  rcases (ramfsExec_changes hpool hexec).nextInode_eq with heq | heq
  · rw [newInodes, if_pos heq] at *
    exact ⟨hid.exec hpool hexec (by omega), by omega⟩
  · have hwrap : s'.nextInode ≠ r.fs.nextInode := by
      rw [heq, u32]
      omega
    rw [newInodes, if_neg hwrap] at *
    have hlt' : u32 (r.fs.nextInode + 1) = r.fs.nextInode + 1 := Nat.mod_eq_of_lt (by omega)
    exact ⟨hid.exec hpool hexec (by omega), by omega⟩

theorem counted_of_reachable {progs : Programs} {ok : RamfsRun → RamfsOp → Prop} {r : RamfsRun}
    (h : (ramfsSystem progs).ReachableBy ok r) : r.Counted := by
  have hinv : PoolInv r.fs ∧ r.Counted := by
    refine h.invariant (p := fun r => PoolInv r.fs ∧ r.Counted) (fun r hr => ?_)
      (fun r op r' hr _ hstep => ?_)
    · exact ⟨poolInv_of_reachable (.start hr : (ramfsSystem progs).Reachable r),
        counted_of_start hr⟩
    · refine ⟨?_, hr.2.step hr.1 hstep⟩
      obtain ⟨⟨res, s'⟩, hexec, rfl⟩ := Option.map_eq_some_iff.mp hstep
      exact hr.1.changes (ramfsExec_changes hr.1 hexec)
  exact hinv.2

/-- **Files refine byte strings.** In every run of operations in range that creates fewer than
`2 ^ 32 - 1` inodes, every operation in range has an outcome, and is on the map from inode
numbers to byte strings what `FileStep` says. -/
theorem fileStep_of_reachable {progs : Programs} {r : RamfsRun} {op : RamfsOp}
    (h : (ramfsSystem progs).ReachableBy (fun r op => op.InRange r.fs) r)
    (hrange : op.InRange r.fs) :
    ∃ res s', ramfsExec r.fs op = some (res, s') ∧
      (r.created + newInodes r.fs s' < 0xFFFFFFFF → FileStep r.fs op res s') := by
  have hpool := poolInv_of_reachable h
  obtain ⟨⟨res, s'⟩, hexec⟩ := Option.isSome_iff_exists.mp (ramfsExec_isSome hpool hrange)
  refine ⟨res, s', hexec, fun hlt => ?_⟩
  have hcounted := counted_of_reachable h
  have hstep : (ramfsSystem progs).step r op = some ⟨s', r.created + newInodes r.fs s'⟩ := by
    simp [ramfsSystem, hexec]
  have hid := (hcounted (by omega)).1
  have hid' := (hcounted.step hpool hstep hlt).1
  exact hid.fileStep hpool hrange hexec (Nat.ne_zero_of_lt (hid'.ino_lt 0))

/-- `fileStep_of_reachable` for a write of 300 bytes to a new file. -/
theorem fileStep_sample :
    ∃ r res s', (ramfsSystem noPrograms).runInputs freshRun (sampleOps.take 1) = some r ∧
      ramfsExec r.fs (.write 0 (some fun _ => 7) 300) = some (res, s') ∧ res.ret = 300 ∧
      FileStep r.fs (.write 0 (some fun _ => 7) 300) res s' := by
  have hrun : ((ramfsSystem noPrograms).runInputs freshRun (sampleOps.take 1)).map (fun r =>
      (r.created, (ramfsExec r.fs (.write 0 (some fun _ => 7) 300)).map fun p => p.1.ret)) =
      some (8, some 300) := by decide +kernel
  obtain ⟨r, hr, hres⟩ := Option.map_eq_some_iff.mp hrun
  obtain ⟨hcreated, hret⟩ := Prod.mk.inj hres
  obtain ⟨⟨res, s'⟩, hexec, hret⟩ := Option.map_eq_some_iff.mp hret
  have hreach : (ramfsSystem noPrograms).ReachableBy (fun r op => op.InRange r.fs) r := by
    refine .runInputs (.start freshRun_start) (fun s _ op hop => ?_) hr
    obtain rfl : op = .open2 (some (cstr "/a")) (oRdwr ||| oCreat) := by
      simpa [sampleOps] using hop
    rintro p ⟨rfl⟩
    decide
  obtain ⟨res', s'', hexec', hstep⟩ := fileStep_of_reachable hreach
    ((poolInv_of_reachable hreach).inRange_write 0 (some fun _ => 7)
      (by decide : 300 < 0x10000000))
  obtain ⟨rfl, rfl⟩ := Prod.mk.inj (Option.some.inj (hexec.symm.trans hexec'))
  refine ⟨r, res, s', hr, hexec, hret, hstep ?_⟩
  rw [hcreated, newInodes]
  split_ifs <;> decide

end ChalesOs
