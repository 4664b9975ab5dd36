import ChalesOs.Abi
import ChalesOs.Lib.StepSystem
import ChalesOs.Ramfs.Path

/-!
# The RAMFS operations

Every operation of `ramfs.c` that opens, reads, writes or changes the tree, as a function from
the state to its result and the new state. `none` stands for an access the C code makes outside
the object it means: a name longer than the `name` field it is copied to, or a block access
outside the block. Error returns are ordinary results. What a name that is too long does to the
next inode is in `Ramfs.TableOps`, which has the same operations on the bytes of the table.

`ramfsWrite` is in two halves, because what the first decides is what the second relies on:
`ramfsWritePrepare` does everything up to and including `ramfs_reserve`, and hands a `WriteJob` to
`WriteJob.run`, which clears the hole and copies the bytes. All its sums are taken modulo
`2 ^ 32`.

`ramfsSystem` runs any sequence of operations from `ramfsInit`, and counts the inodes created.
The six program images `ramfs_init` puts into `/bin` are generated by the build, so they are a
parameter.
-/

namespace ChalesOs

open ByteMemory

/-! ### Opening and closing -/

/-- The descriptor an `int` names, if it names one. -/
def validFd (fd : ℤ) : Option (Fin 32) :=
  if h : 0 ≤ fd ∧ fd < 32 then some ⟨fd.toNat, by omega⟩ else none

/-- The lines `ramfs_open` and `ramfs_mkdir` share: fill slot `i` with a new inode. The name is
copied by `strcpy`, so it has to fit its field together with its `NUL`; a record has no place for
the rest of a longer one. -/
def ramfsCreate (s : Ramfs) (i : Fin 64) (type : NodeType) (parentIno : ℕ) (name : CString) :
    Option Ramfs :=
  if name.length < ramfsMaxFilename then
    some { s.setInode i { s.inodes i with
        ino := s.nextInode
        type := type
        name := name
        size := 0
        parentIno := parentIno } with
      nextInode := u32 (s.nextInode + 1) }
  else none

/-- The end of `ramfs_open`: a descriptor for the file in slot `i`. -/
def ramfsOpenFd (s : Ramfs) (i : Fin 64) : ℤ × Ramfs :=
  if (s.inodes i).type ≠ .file then (-1, s)
  else
    match ramfsFindFreeFd s with
    | none => (-1, s)
    | some fd => (fd, s.setFd fd ⟨(s.inodes i).ino, 0, oRdwr⟩)

/-- `ramfs_open`; bit 0 of the flags asks for creation. -/
def ramfsOpen (s : Ramfs) (path : Option CString) (flags : ℕ) : Option (ℤ × Ramfs) :=
  match ramfsFindInode s path with
  | some i => some (ramfsOpenFd s i)
  | none =>
    if flags &&& 1 ≠ 0 then
      match ramfsFindFreeInode s with
      | none => some (-1, s)
      | some i =>
        let (dirbuf, name) := ramfsSplitPath (path.getD [])
        match ramfsResolveDir s dirbuf with
        | none => some (-1, s)
        | some parentIno => (ramfsCreate s i .file parentIno name).map fun s => ramfsOpenFd s i
    else some (-1, s)

/-- `ramfs_close`. -/
def ramfsClose (s : Ramfs) (fd : ℤ) : ℤ × Ramfs :=
  match validFd fd with
  | none => (-1, s)
  | some fd => if (s.fds fd).ino = 0 then (-1, s) else (0, s.setFd fd Fd.zero)

/-- The end of `ramfs_open2`: refuse a directory, truncate, and fill a descriptor. -/
def ramfsOpen2Fd (s : Ramfs) (i : Fin 64) (oflags : ℕ) : ℤ × Ramfs :=
  if (s.inodes i).type = .dir then (-eIsdir, s)
  else
    match ramfsFindFreeFd s with
    | none => (-eMfile, s)
    | some fd =>
      let s := if oflags &&& oTrunc ≠ 0 ∧ oflags &&& oAccmode ≠ oRdonly then
          s.setInode i { s.inodes i with size := 0 }
        else s
      (fd, s.setFd fd ⟨(s.inodes i).ino, 0, oflags &&& (oAccmode ||| oAppend)⟩)

/-- `ramfs_open2`. -/
def ramfsOpen2 (s : Ramfs) (path : Option CString) (oflags : ℕ) : Option (ℤ × Ramfs) :=
  if path = none then some (-eFault, s)
  else
    match ramfsFindInode s path with
    | some i =>
      if oflags &&& oCreat ≠ 0 ∧ oflags &&& oExcl ≠ 0 then some (-eExist, s)
      else some (ramfsOpen2Fd s i oflags)
    | none =>
      if oflags &&& oCreat = 0 then some (-eNoent, s)
      else
        (ramfsOpen s path 1).map fun (tmp, s) =>
          if tmp < 0 then (-eNoent, s)
          else
            let s := (ramfsClose s tmp).2
            match ramfsFindInode s path with
            | none => (-eNoent, s)
            | some i => ramfsOpen2Fd s i oflags

/-! ### Reading -/

/-- `ramfs_read`, with the bytes it puts into the buffer. -/
def ramfsRead (s : Ramfs) (fd : ℤ) (bufNull : Bool) (count : ℕ) :
    Option (ℤ × List UInt8 × Ramfs) :=
  match validFd fd with
  | none => some (-1, [], s)
  | some fd =>
    let f := s.fds fd
    if bufNull ∨ f.ino = 0 then some (-1, [], s)
    else
      match s.slotOfIno f.ino with
      | none => some (-1, [], s)
      | some i =>
        let inode := s.inodes i
        if inode.type ≠ .file then some (-1, [], s)
        else if f.flags &&& oAccmode = oWronly then some (-1, [], s)
        else if f.offset ≥ inode.size then some (0, [], s)
        else
          let available := inode.size - f.offset
          let toRead := if count < available then count else available
          if toRead > 0 then
            inode.data.map fun d =>
              (toRead, slice s.pool (d + f.offset) toRead,
                s.setFd fd { f with offset := u32 (f.offset + toRead) })
          else some (toRead, [], s)

/-! ### Writing -/

/-- What is left of a `ramfs_write` behind `ramfs_reserve`: the state, the slot of the file, and
how many bytes to copy to which offset. -/
structure WriteJob where
  fs : Ramfs
  fd : Fin 32
  slot : Fin 64
  offset : ℕ
  count : ℕ

/-- `ramfs_write` up to `ramfs_reserve` and the pool-full fallback: a result that needs no
memory operation, or the operations left to do. -/
def ramfsWritePrepare (s : Ramfs) (fd : ℤ) (bufNull : Bool) (count : ℕ) :
    (ℤ × Ramfs) ⊕ WriteJob :=
  match validFd fd with
  | none => .inl (-1, s)
  | some fd =>
    let f := s.fds fd
    if bufNull ∨ f.ino = 0 then .inl (-1, s)
    else
      match s.slotOfIno f.ino with
      | none => .inl (-1, s)
      | some i =>
        if (s.inodes i).type ≠ .file then .inl (-1, s)
        else if f.flags &&& oAccmode = oRdonly then .inl (-1, s)
        else
          let offset := if f.flags &&& oAppend ≠ 0 then (s.inodes i).size else f.offset
          let s := s.setFd fd { f with offset := offset }
          if offset ≥ ramfsMaxFilesize then .inl (if count = 0 then 0 else -eNospc, s)
          else
            let count :=
              if u32 (offset + count) > ramfsMaxFilesize then ramfsMaxFilesize - offset else count
            if count = 0 then .inl (0, s)
            else
              let (ok, s) := ramfsReserve s i (u32 (offset + count))
              if ok then .inr ⟨s, fd, i, offset, count⟩
              else if offset ≥ (s.inodes i).capacity then .inl (-eNospc, s)
              else .inr ⟨s, fd, i, offset, (s.inodes i).capacity - offset⟩

/-- The inode of the file being written. -/
def WriteJob.inode (job : WriteJob) : Inode := job.fs.inodes job.slot

/-- The indices of the file's block that `memset` clears, the hole between the end of the file
and the offset. -/
def WriteJob.Clears (job : WriteJob) (k : ℕ) : Prop := job.inode.size ≤ k ∧ k < job.offset

/-- The indices of the file's block that `memcpy` writes. -/
def WriteJob.Copies (job : WriteJob) (k : ℕ) : Prop :=
  job.offset ≤ k ∧ k < job.offset + job.count

/-- Both memory operations stay inside the block. -/
def WriteJob.InBlock (job : WriteJob) : Prop :=
  job.offset + job.count ≤ job.inode.capacity

instance (job : WriteJob) : Decidable job.InBlock := inferInstanceAs (Decidable (_ ≤ _))

/-- The rest of `ramfs_write` on a block at `d`: clear the hole, copy, advance the offset and
the size. -/
def WriteJob.run (job : WriteJob) (buf : ℕ → UInt8) (d : ℕ) : Ramfs :=
  let inode := job.inode
  let pool := if job.offset > inode.size then
      fill job.fs.pool (d + inode.size) (job.offset - inode.size) 0
    else job.fs.pool
  let pool := copy pool (d + job.offset) buf 0 job.count
  let offset := job.offset + job.count
  let s := { job.fs with pool := pool }.setFd job.fd { job.fs.fds job.fd with offset := offset }
  if offset > inode.size then s.setInode job.slot { inode with size := offset } else s

/-- `ramfs_write`; the buffer is a function from indices to bytes, `none` for `NULL`. -/
def ramfsWrite (s : Ramfs) (fd : ℤ) (buf : Option (ℕ → UInt8)) (count : ℕ) : Option (ℤ × Ramfs) :=
  match ramfsWritePrepare s fd buf.isNone count with
  | .inl r => some r
  | .inr job =>
    if job.InBlock then
      job.inode.data.map fun d => (job.count, job.run (buf.getD fun _ => 0) d)
    else none

/-! ### Offsets -/

/-- `ramfs_lseek`; the position is a 64-bit sum. -/
def ramfsLseek (s : Ramfs) (fd : ℤ) (offset whence : ℤ) : ℤ × Ramfs :=
  match validFd fd with
  | none => (-eBadf, s)
  | some fd =>
    let f := s.fds fd
    if f.ino = 0 then (-eBadf, s)
    else
      match s.slotOfIno f.ino with
      | none => (-eBadf, s)
      | some i =>
        let base : Option ℤ :=
          if whence = 0 then some 0
          else if whence = 1 then some f.offset
          else if whence = 2 then some (s.inodes i).size
          else none
        match base with
        | none => (-eInval, s)
        | some base =>
          let pos := base + offset
          if pos < 0 ∨ pos > ramfsMaxFilesize then (-eInval, s)
          else (pos, s.setFd fd { f with offset := pos.toNat })

/-! ### Status -/

/-- `struct chales_stat`. -/
structure ChalesStat where
  stMode : ℕ
  stSize : ℕ
  stIno : ℕ
  stNlink : ℕ

/-- `ramfs_inode_by_ino`; 0 is the root's number. -/
def ramfsInodeByIno (s : Ramfs) (ino : ℕ) : Option (Fin 64) :=
  if ino = 0 then some 0 else s.slotOfIno ino

/-- `ramfs_fill_stat`; the permissions are `0755` and `0644`. -/
def ramfsFillStat (inode : Inode) : ChalesStat where
  stMode := if inode.type = .dir then sIfdir ||| 0x1ed else sIfreg ||| 0x1a4
  stSize := if inode.type = .dir then 0 else inode.size
  stIno := inode.ino
  stNlink := 1

/-- `ramfs_fstat`: the result, and what it stores through `st`. The file system stays as it is. -/
def ramfsFstat (s : Ramfs) (fd : ℤ) : ℤ × Option ChalesStat :=
  match validFd fd with
  | none => (-eBadf, none)
  | some fd =>
    if (s.fds fd).ino = 0 then (-eBadf, none)
    else
      match ramfsInodeByIno s (s.fds fd).ino with
      | none => (-eBadf, none)
      | some i => (0, some (ramfsFillStat (s.inodes i)))

/-! ### The tree -/

/-- `ramfs_mkdir`. -/
def ramfsMkdir (s : Ramfs) (path : Option CString) : Option (ℤ × Ramfs) :=
  match path with
  | none => some (-1, s)
  | some path =>
    if path = [] then some (-1, s)
    else if (ramfsFindInode s (some path)).isSome then some (-1, s)
    else
      match ramfsFindFreeInode s with
      | none => some (-1, s)
      | some i =>
        let (dirbuf, name) := ramfsSplitPath path
        match ramfsResolveDir s dirbuf with
        | none => some (-1, s)
        | some parentIno => (ramfsCreate s i .dir parentIno name).map fun s => (0, s)

/-- `ramfs_rmdir`. -/
def ramfsRmdir (s : Ramfs) (path : Option CString) : ℤ × Ramfs :=
  match ramfsFindInode s path with
  | none => (-1, s)
  | some i => if (s.inodes i).type ≠ .dir then (-1, s) else (0, s.setInode i Inode.zero)

/-- `ramfs_unlink`. -/
def ramfsUnlink (s : Ramfs) (path : Option CString) : ℤ × Ramfs :=
  match ramfsFindInode s path with
  | none => (-1, s)
  | some i =>
    if (s.inodes i).type ≠ .file then (-1, s)
    else (0, (ramfsRelease s i).setInode i Inode.zero)

/-! ### Start and runs -/

/-- An ASCII string of the source as a C string. -/
def cstr (text : String) : CString := text.toList.map fun c => UInt8.ofNat c.toNat

/-- The program images of `programs.h`, with lengths that fit their `uint32_t`. -/
structure Programs where
  hello : List UInt8
  uptime : List UInt8
  beep : List UInt8
  shell : List UInt8
  cowsay : List UInt8
  nltest : List UInt8
  length_lt : ∀ bytes ∈ [hello, uptime, beep, shell, cowsay, nltest], bytes.length < 0x100000000

/-- The calls of `ramfs_add_binary` that `ramfs_populate` makes. -/
def Programs.binaries (progs : Programs) : List (CString × List UInt8) :=
  [(cstr "/bin/hello", progs.hello), (cstr "/bin/uptime", progs.uptime),
    (cstr "/bin/beep", progs.beep), (cstr "/bin/shell", progs.shell),
    (cstr "/bin/cowsay", progs.cowsay), (cstr "/bin/nltest", progs.nltest)]

/-- `ramfs_add_binary`. -/
def ramfsAddBinary (s : Ramfs) (bin : CString × List UInt8) : Option Ramfs := do
  let (fd, s) ← ramfsOpen s (some bin.1) 1
  if fd ≥ 0 then
    let (_, s) ← ramfsWrite s fd (some fun i => bin.2.getD i 0) bin.2.length
    some (ramfsClose s fd).2
  else some s

/-- `ramfs_populate`. -/
def ramfsPopulate (s : Ramfs) (progs : Programs) : Option Ramfs := do
  let (_, s) ← ramfsMkdir s (some (cstr "/bin"))
  progs.binaries.foldlM ramfsAddBinary s

/-- The file system `ramfs_init` populates: cleared tables and the root directory. The pool
keeps its bytes. -/
def ramfsRoot (pool : ℕ → UInt8) : Ramfs where
  inodes := Function.update (fun _ => Inode.zero) 0
    { Inode.zero with type := .dir, name := [slash] }
  pool := pool
  poolUsed := 0
  fds _ := Fd.zero
  nextInode := 1

/-- `ramfs_init`, when the pool holds `pool`. -/
def ramfsInit (pool : ℕ → UInt8) (progs : Programs) : Option Ramfs :=
  ramfsPopulate (ramfsRoot pool) progs

/-- The operations, with their arguments. -/
inductive RamfsOp
  | open (path : Option CString) (flags : ℕ)
  | open2 (path : Option CString) (oflags : ℕ)
  | close (fd : ℤ)
  | read (fd : ℤ) (bufNull : Bool) (count : ℕ)
  | write (fd : ℤ) (buf : Option (ℕ → UInt8)) (count : ℕ)
  | lseek (fd : ℤ) (offset whence : ℤ)
  | mkdir (path : Option CString)
  | rmdir (path : Option CString)
  | unlink (path : Option CString)

/-- What an operation returns: its value, and the bytes of a read. -/
structure RamfsResult where
  ret : ℤ
  bytes : List UInt8 := []

/-- One operation. -/
def ramfsExec (s : Ramfs) : RamfsOp → Option (RamfsResult × Ramfs)
  | .open path flags => (ramfsOpen s path flags).map fun r => (⟨r.1, []⟩, r.2)
  | .open2 path oflags => (ramfsOpen2 s path oflags).map fun r => (⟨r.1, []⟩, r.2)
  | .close fd => some (⟨(ramfsClose s fd).1, []⟩, (ramfsClose s fd).2)
  | .read fd bufNull count =>
    (ramfsRead s fd bufNull count).map fun r => (⟨r.1, r.2.1⟩, r.2.2)
  | .write fd buf count => (ramfsWrite s fd buf count).map fun r => (⟨r.1, []⟩, r.2)
  | .lseek fd offset whence =>
    some (⟨(ramfsLseek s fd offset whence).1, []⟩, (ramfsLseek s fd offset whence).2)
  | .mkdir path => (ramfsMkdir s path).map fun r => (⟨r.1, []⟩, r.2)
  | .rmdir path => some (⟨(ramfsRmdir s path).1, []⟩, (ramfsRmdir s path).2)
  | .unlink path => some (⟨(ramfsUnlink s path).1, []⟩, (ramfsUnlink s path).2)

/-- A state of a run: the file system, and how many inodes have been created so far. -/
structure RamfsRun where
  fs : Ramfs
  created : ℕ

/-- How many inodes an operation that leads from `s` to `s'` has created. -/
def newInodes (s s' : Ramfs) : ℕ := if s'.nextInode = s.nextInode then 0 else 1

/-- Any sequence of operations from `ramfs_init`. -/
def ramfsSystem (progs : Programs) : StepSystem RamfsRun RamfsOp where
  start r := ∃ pool, ramfsInit pool progs = some r.fs ∧ r.created + 1 = r.fs.nextInode
  step r op := (ramfsExec r.fs op).map fun p => ⟨p.2, r.created + newInodes r.fs p.2⟩

end ChalesOs
