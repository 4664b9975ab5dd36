import ChalesOs.Ramfs.InodeTable

/-!
# The operations on the bytes of the inode table

`Ramfs` has records for inodes, with names of any length. This is `ramfs.c` once more, one level
below: the inode table is memory, 64 structures of 280 bytes, a name goes up to its first `NUL`
wherever that is, a block pointer is an address, and all sums are taken modulo `2 ^ 32`. So a name
that is too long for its field has its effect here. `strcpy` goes on in the next structure, and the
operations go on with what they find there then.

`none` is left for what leaves the two arrays: the copy of a name that goes on behind the table,
and an access through a block pointer that points out of the pool. A `memcpy` of a block to a
place that overlaps it has no outcome either.
-/

namespace ChalesOs

open ByteMemory

/-- Where `ramfs_pool` is in memory. -/
structure PoolPlace where
  addr : ℕ
  addr_pos : 0 < addr
  addr_le : addr + ramfsPoolSize ≤ 0x100000000

/-- The variables of `ramfs.c`, the inode table by its bytes. -/
@[ext]
structure RamfsMem where
  table : Mem
  pool : ℕ → UInt8
  poolUsed : ℕ
  fds : Fin 32 → Fd
  nextInode : ℕ

namespace RamfsMem

variable (P : PoolPlace) (b : RamfsMem) (i : Fin 64)

/-! ### The fields of a structure -/

/-- `ramfs_inodes[i].ino`. -/
def ino : ℕ := loadWord b.table (slotAddr 0 i)

/-- `ramfs_inodes[i].type`. -/
def type : ℕ := loadWord b.table (slotAddr 0 i + 4)

/-- The address of `ramfs_inodes[i].name`. -/
def name : ℕ := nameAddr (slotAddr 0 i)

/-- `ramfs_inodes[i].size`. -/
def size : ℕ := loadWord b.table (slotAddr 0 i + 264)

/-- `ramfs_inodes[i].parent_ino`. -/
def parentIno : ℕ := loadWord b.table (slotAddr 0 i + 268)

/-- `ramfs_inodes[i].data`. -/
def data : ℕ := loadWord b.table (slotAddr 0 i + 272)

/-- `ramfs_inodes[i].capacity`. -/
def capacity : ℕ := loadWord b.table (slotAddr 0 i + 276)

/-- A store to the field at the offset `off`. -/
def storeField (off v : ℕ) : RamfsMem :=
  { b with table := storeWord b.table (slotAddr 0 i + off) v }

/-- `memset(&ramfs_inodes[i], 0, sizeof(ramfs_inode_t))`. -/
def clearSlot : RamfsMem :=
  { b with table := fill b.table (slotAddr 0 i) inodeBytes 0 }

/-- The file system with descriptor `k` replaced. -/
def setFd (k : Fin 32) (f : Fd) : RamfsMem := { b with fds := Function.update b.fds k f }

end RamfsMem

/-! ### Strings in memory -/

/-- `strcmp` of the string at `a` and a string. -/
def strcmpAt (m : Mem) : (a : ℕ) → CString → ℤ
  | a, [] => (m a).toNat
  | a, c :: s =>
    if m a ≠ 0 ∧ m a = c then strcmpAt m (a + 1) s else ((m a).toNat : ℤ) - c.toNat

/-- `strncmp` of the string at `a` and a string. -/
def strncmpAt (m : Mem) : (a : ℕ) → CString → ℕ → ℤ
  | _, _, 0 => 0
  | a, [], _ + 1 => (m a).toNat
  | a, c :: s, n + 1 =>
    if m a ≠ 0 ∧ m a = c then strncmpAt m (a + 1) s n else ((m a).toNat : ℤ) - c.toNat

/-! ### Lookup -/

/-- The first inode slot with a property, `for (i = 0; i < RAMFS_MAX_FILES; i++)`. -/
def firstSlot (p : Fin 64 → Bool) : Option (Fin 64) := (List.finRange 64).find? p

namespace RamfsMem

variable (P : PoolPlace) (b : RamfsMem)

/-- The slot with a given inode number. -/
def slotOfIno (ino : ℕ) : Option (Fin 64) := firstSlot fun i => b.ino i = ino

/-- The directory walk of `ramfs_resolve_dir` over the text between the slashes; empty pieces
are skipped. -/
protected def resolveSegments : (currentIno : ℕ) → List CString → Option ℕ
  | currentIno, [] => some currentIno
  | currentIno, seg :: segs =>
    if seg = [] then RamfsMem.resolveSegments currentIno segs
    else
      match firstSlot fun i => b.ino i ≠ 0 ∧ b.parentIno i = currentIno ∧
          b.type i = NodeType.dir.code ∧ strncmpAt b.table (name i) seg seg.length = 0 ∧
          b.table (name i + seg.length) = 0 with
      | none => none
      | some found => RamfsMem.resolveSegments (b.ino found) segs

/-- `ramfs_resolve_dir`; an inode number that reads as -1 in an `int32_t` is -1. -/
protected def ramfsResolveDir (dirpath : CString) : Option ℕ :=
  (b.resolveSegments 0 (dirpath.splitOn slash)).filter fun ino => ino ≠ 0xFFFFFFFF

/-- `ramfs_find_inode`: the slot of a path, `none` for -1. -/
protected def ramfsFindInode (path : Option CString) : Option (Fin 64) :=
  match path with
  | none => some 0
  | some path =>
    if path = [] ∨ path = [slash] then some 0
    else
      let (dirbuf, name) := ramfsSplitPath path
      match b.ramfsResolveDir dirbuf with
      | none => none
      | some parentIno => firstSlot fun i =>
          b.ino i ≠ 0 ∧ b.parentIno i = parentIno ∧ strcmpAt b.table (RamfsMem.name i) name = 0

/-- `ramfs_find_free_inode`: the search starts behind the root's slot. -/
protected def ramfsFindFreeInode : Option (Fin 64) := firstSlot fun i => i ≠ 0 ∧ b.ino i = 0

/-- `ramfs_find_free_fd`. -/
protected def ramfsFindFreeFd : Option (Fin 32) :=
  (List.finRange 32).find? fun fd => (b.fds fd).ino = 0

end RamfsMem

/-! ### The block pool -/

/-- The index in the pool of the `n` bytes at the address `p`, if they are in the pool. -/
def PoolPlace.index (P : PoolPlace) (p n : ℕ) : Option ℕ :=
  if P.addr ≤ p ∧ p + n ≤ P.addr + ramfsPoolSize then some (p - P.addr) else none

namespace RamfsMem

variable (P : PoolPlace) (b : RamfsMem) (i : Fin 64)

/-- The capacity `ramfs_reserve` asks the pool for. -/
def newcap (capacity needed : ℕ) : ℕ :=
  let newcap := if capacity ≠ 0 then u32 (capacity * 2) else 256
  let newcap := if newcap < needed then needed else newcap
  let newcap := if newcap > ramfsMaxFilesize then ramfsMaxFilesize else newcap
  align16 newcap

/-- `inode->data && inode->data + inode->capacity == ramfs_pool + ramfs_pool_used`. -/
def IsNewest : Prop := b.data i ≠ 0 ∧ u32 (b.data i + b.capacity i) = u32 (P.addr + b.poolUsed)

instance : Decidable (b.IsNewest P i) := inferInstanceAs (Decidable (_ ∧ _))

/-- The pool behind the `memcpy` of `ramfs_reserve` to the new block. -/
def movedPool (block : ℕ) : Option (ℕ → UInt8) :=
  if b.data i ≠ 0 ∧ b.size i ≠ 0 then
    (P.index block (b.size i)).bind fun d => (P.index (b.data i) (b.size i)).bind fun s =>
      if d + b.size i ≤ s ∨ s + b.size i ≤ d then some (copy b.pool d b.pool s (b.size i)) else none
  else some b.pool

/-- `ramfs_reserve`, `true` for 0 and `false` for -1. -/
protected def ramfsReserve (needed : ℕ) : Option (Bool × RamfsMem) :=
  if needed ≤ b.capacity i then some (true, b)
  else
    let newcap := newcap (b.capacity i) needed
    if b.IsNewest P i then
      if u32 (b.poolUsed + (0x100000000 - b.capacity i) + newcap) > ramfsPoolSize then
        some (false, b)
      else
        some (true, { b.storeField i 276 newcap with
          poolUsed := u32 (b.poolUsed + (0x100000000 - b.capacity i) + newcap) })
    else if u32 (b.poolUsed + newcap) > ramfsPoolSize then some (false, b)
    else
      let block := u32 (P.addr + b.poolUsed)
      (b.movedPool P i block).map fun pool =>
        (true, { (b.storeField i 272 block).storeField i 276 newcap with
          pool := pool
          poolUsed := u32 (b.poolUsed + newcap) })

/-- `ramfs_release`: give the newest block back. -/
protected def ramfsRelease : RamfsMem :=
  if b.IsNewest P i then { b with poolUsed := u32 (b.poolUsed + (0x100000000 - b.capacity i)) }
  else b

/-! ### Opening and closing -/

/-- The lines `ramfs_open` and `ramfs_mkdir` share: fill slot `i` with a new inode. The copy of the
name stays in the table. -/
protected def ramfsCreate (type : NodeType) (parentIno : ℕ) (name : CString) : Option RamfsMem :=
  if RamfsMem.name i + name.length < inodeBytes * 64 then
    some { b with
      table := fillInode b.table (slotAddr 0 i) b.nextInode type name parentIno
      nextInode := u32 (b.nextInode + 1) }
  else none

/-- The end of `ramfs_open`: a descriptor for the file in slot `i`. -/
protected def ramfsOpenFd : ℤ × RamfsMem :=
  if b.type i ≠ NodeType.file.code then (-1, b)
  else
    match b.ramfsFindFreeFd with
    | none => (-1, b)
    | some fd => (fd, b.setFd fd ⟨b.ino i, 0, oRdwr⟩)

/-- `ramfs_open`; bit 0 of the flags asks for creation. -/
protected def ramfsOpen (path : Option CString) (flags : ℕ) : Option (ℤ × RamfsMem) :=
  match b.ramfsFindInode path with
  | some i => some (b.ramfsOpenFd i)
  | none =>
    if flags &&& 1 ≠ 0 then
      match b.ramfsFindFreeInode with
      | none => some (-1, b)
      | some i =>
        let (dirbuf, name) := ramfsSplitPath (path.getD [])
        match b.ramfsResolveDir dirbuf with
        | none => some (-1, b)
        | some parentIno => (b.ramfsCreate i .file parentIno name).map fun b => b.ramfsOpenFd i
    else some (-1, b)

/-- `ramfs_close`. -/
protected def ramfsClose (fd : ℤ) : ℤ × RamfsMem :=
  match validFd fd with
  | none => (-1, b)
  | some fd => if (b.fds fd).ino = 0 then (-1, b) else (0, b.setFd fd Fd.zero)

/-- The end of `ramfs_open2`: refuse a directory, truncate, and fill a descriptor. -/
protected def ramfsOpen2Fd (oflags : ℕ) : ℤ × RamfsMem :=
  if b.type i = NodeType.dir.code then (-eIsdir, b)
  else
    match b.ramfsFindFreeFd with
    | none => (-eMfile, b)
    | some fd =>
      let b := if oflags &&& oTrunc ≠ 0 ∧ oflags &&& oAccmode ≠ oRdonly then b.storeField i 264 0
        else b
      (fd, b.setFd fd ⟨b.ino i, 0, oflags &&& (oAccmode ||| oAppend)⟩)

/-- `ramfs_open2`. -/
protected def ramfsOpen2 (path : Option CString) (oflags : ℕ) : Option (ℤ × RamfsMem) :=
  if path = none then some (-eFault, b)
  else
    match b.ramfsFindInode path with
    | some i =>
      if oflags &&& oCreat ≠ 0 ∧ oflags &&& oExcl ≠ 0 then some (-eExist, b)
      else some (b.ramfsOpen2Fd i oflags)
    | none =>
      if oflags &&& oCreat = 0 then some (-eNoent, b)
      else
        (b.ramfsOpen path 1).map fun (tmp, b) =>
          if tmp < 0 then (-eNoent, b)
          else
            let b := (b.ramfsClose tmp).2
            match b.ramfsFindInode path with
            | none => (-eNoent, b)
            | some i => b.ramfsOpen2Fd i oflags

/-! ### Reading and writing -/

/-- `ramfs_read`, with the bytes it puts into the buffer. -/
protected def ramfsRead (fd : ℤ) (bufNull : Bool) (count : ℕ) :
    Option (ℤ × List UInt8 × RamfsMem) :=
  match validFd fd with
  | none => some (-1, [], b)
  | some fd =>
    let f := b.fds fd
    if bufNull ∨ f.ino = 0 then some (-1, [], b)
    else
      match b.slotOfIno f.ino with
      | none => some (-1, [], b)
      | some i =>
        if b.type i ≠ NodeType.file.code then some (-1, [], b)
        else if f.flags &&& oAccmode = oWronly then some (-1, [], b)
        else if f.offset ≥ b.size i then some (0, [], b)
        else
          let available := b.size i - f.offset
          let toRead := if count < available then count else available
          if toRead > 0 then
            (P.index (u32 (b.data i + f.offset)) toRead).map fun d =>
              (toRead, slice b.pool d toRead,
                b.setFd fd { f with offset := u32 (f.offset + toRead) })
          else some (toRead, [], b)

/-- The pool behind the `memset` of `ramfs_write`, which clears the hole up to the offset. -/
def clearedPool (offset : ℕ) : Option (ℕ → UInt8) :=
  if offset > b.size i then
    (P.index (u32 (b.data i + b.size i)) (offset - b.size i)).map fun d =>
      fill b.pool d (offset - b.size i) 0
  else some b.pool

/-- The rest of `ramfs_write` behind `ramfs_reserve`: clear the hole, copy, advance the offset and
the size. -/
def writeBlock (fd : Fin 32) (offset count : ℕ) (buf : ℕ → UInt8) : Option (ℤ × RamfsMem) :=
  (b.clearedPool P i offset).bind fun pool =>
    (P.index (u32 (b.data i + offset)) count).map fun d =>
    let pool := copy pool d buf 0 count
    let offset := u32 (offset + count)
    let b' := { b with pool := pool }.setFd fd { b.fds fd with offset := offset }
    (count, if offset > b.size i then b'.storeField i 264 offset else b')

/-- `ramfs_write`; the buffer is a function from indices to bytes, `none` for `NULL`. -/
protected def ramfsWrite (fd : ℤ) (buf : Option (ℕ → UInt8)) (count : ℕ) : Option (ℤ × RamfsMem) :=
  match validFd fd with
  | none => some (-1, b)
  | some fd =>
    let f := b.fds fd
    if buf.isNone ∨ f.ino = 0 then some (-1, b)
    else
      match b.slotOfIno f.ino with
      | none => some (-1, b)
      | some i =>
        if b.type i ≠ NodeType.file.code then some (-1, b)
        else if f.flags &&& oAccmode = oRdonly then some (-1, b)
        else
          let offset := if f.flags &&& oAppend ≠ 0 then b.size i else f.offset
          let b := b.setFd fd { f with offset := offset }
          if offset ≥ ramfsMaxFilesize then some (if count = 0 then 0 else -eNospc, b)
          else
            let count :=
              if u32 (offset + count) > ramfsMaxFilesize then ramfsMaxFilesize - offset else count
            if count = 0 then some (0, b)
            else
              (b.ramfsReserve P i (u32 (offset + count))).bind fun (ok, b) =>
                if ok then b.writeBlock P i fd offset count (buf.getD fun _ => 0)
                else if offset ≥ b.capacity i then some (-eNospc, b)
                else b.writeBlock P i fd offset (b.capacity i - offset) (buf.getD fun _ => 0)

/-- `ramfs_lseek`; the position is a 64-bit sum. -/
protected def ramfsLseek (fd : ℤ) (offset whence : ℤ) : ℤ × RamfsMem :=
  match validFd fd with
  | none => (-eBadf, b)
  | some fd =>
    let f := b.fds fd
    if f.ino = 0 then (-eBadf, b)
    else
      match b.slotOfIno f.ino with
      | none => (-eBadf, b)
      | some i =>
        let base : Option ℤ :=
          if whence = 0 then some 0
          else if whence = 1 then some f.offset
          else if whence = 2 then some (b.size i)
          else none
        match base with
        | none => (-eInval, b)
        | some base =>
          let pos := base + offset
          if pos < 0 ∨ pos > ramfsMaxFilesize then (-eInval, b)
          else (pos, b.setFd fd { f with offset := pos.toNat })

/-! ### The tree -/

/-- `ramfs_mkdir`. -/
protected def ramfsMkdir (path : Option CString) : Option (ℤ × RamfsMem) :=
  match path with
  | none => some (-1, b)
  | some path =>
    if path = [] then some (-1, b)
    else if (b.ramfsFindInode (some path)).isSome then some (-1, b)
    else
      match b.ramfsFindFreeInode with
      | none => some (-1, b)
      | some i =>
        let (dirbuf, name) := ramfsSplitPath path
        match b.ramfsResolveDir dirbuf with
        | none => some (-1, b)
        | some parentIno => (b.ramfsCreate i .dir parentIno name).map fun b => (0, b)

/-- `ramfs_rmdir`. -/
protected def ramfsRmdir (path : Option CString) : ℤ × RamfsMem :=
  match b.ramfsFindInode path with
  | none => (-1, b)
  | some i => if b.type i ≠ NodeType.dir.code then (-1, b) else (0, b.clearSlot i)

/-- `ramfs_unlink`. -/
protected def ramfsUnlink (path : Option CString) : ℤ × RamfsMem :=
  match b.ramfsFindInode path with
  | none => (-1, b)
  | some i =>
    if b.type i ≠ NodeType.file.code then (-1, b) else (0, (b.ramfsRelease P i).clearSlot i)

/-! ### Start and runs -/

/-- `ramfs_add_binary`. -/
protected def ramfsAddBinary (bin : CString × List UInt8) : Option RamfsMem := do
  let (fd, b) ← b.ramfsOpen (some bin.1) 1
  if fd ≥ 0 then
    let (_, b) ← b.ramfsWrite P fd (some fun i => bin.2.getD i 0) bin.2.length
    some (b.ramfsClose fd).2
  else some b

/-- `ramfs_populate`. -/
protected def ramfsPopulate (progs : Programs) : Option RamfsMem := do
  let (_, b) ← b.ramfsMkdir (some (cstr "/bin"))
  progs.binaries.foldlM (fun b bin => b.ramfsAddBinary P bin) b

/-- What `ramfs_init` populates, from whatever was in memory: cleared tables and the root
directory. -/
protected def ramfsRoot : RamfsMem where
  table := fillInode (fill b.table 0 (inodeBytes * 64) 0) (slotAddr 0 0) 0 .dir [slash] 0
  pool := b.pool
  poolUsed := 0
  fds _ := Fd.zero
  nextInode := 1

/-- `ramfs_init`. -/
protected def ramfsInit (progs : Programs) : Option RamfsMem := b.ramfsRoot.ramfsPopulate P progs

/-- One operation. -/
protected def ramfsExec : RamfsOp → Option (RamfsResult × RamfsMem)
  | .open path flags => (b.ramfsOpen path flags).map fun r => (⟨r.1, []⟩, r.2)
  | .open2 path oflags => (b.ramfsOpen2 path oflags).map fun r => (⟨r.1, []⟩, r.2)
  | .close fd => some (⟨(b.ramfsClose fd).1, []⟩, (b.ramfsClose fd).2)
  | .read fd bufNull count =>
    (b.ramfsRead P fd bufNull count).map fun r => (⟨r.1, r.2.1⟩, r.2.2)
  | .write fd buf count => (b.ramfsWrite P fd buf count).map fun r => (⟨r.1, []⟩, r.2)
  | .lseek fd offset whence =>
    some (⟨(b.ramfsLseek fd offset whence).1, []⟩, (b.ramfsLseek fd offset whence).2)
  | .mkdir path => (b.ramfsMkdir path).map fun r => (⟨r.1, []⟩, r.2)
  | .rmdir path => some (⟨(b.ramfsRmdir path).1, []⟩, (b.ramfsRmdir path).2)
  | .unlink path => some (⟨(b.ramfsUnlink P path).1, []⟩, (b.ramfsUnlink P path).2)

end RamfsMem

/-- A state of a run: the file system, and how many inodes have been created so far. -/
structure RamfsMemRun where
  fs : RamfsMem
  created : ℕ

/-- Any sequence of operations from `ramfs_init`. -/
def ramfsMemSystem (P : PoolPlace) (progs : Programs) : StepSystem RamfsMemRun RamfsOp where
  start r := ∃ b : RamfsMem, b.ramfsInit P progs = some r.fs ∧ r.created + 1 = r.fs.nextInode
  step r op := (r.fs.ramfsExec P op).map fun p =>
    ⟨p.2, r.created + if p.2.nextInode = r.fs.nextInode then 0 else 1⟩

end ChalesOs
