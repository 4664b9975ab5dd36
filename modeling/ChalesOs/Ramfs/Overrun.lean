import ChalesOs.Ramfs.Atomic
import ChalesOs.Ramfs.Lifetime
import ChalesOs.Ramfs.Opens

/-!
# What an over-long name breaks

Two laws of the file system that rest on its names fitting their fields, on the bytes of the inode
table. In every run in which the names fit they follow from the laws of the records
(`open2_agrees_open`, `file_neutral`). One longer name is enough to break them:

* `ramfs_mkdir` of a name of 300 letters fills the next inode with letters. Its type is then neither
  that of a file nor that of a directory, and `ramfs_open` refuses what `ramfs_open2` opens
  (`not_ramfsMem_opens_agree`).
* A name of 272 bytes puts its `NUL` where the next inode has its number. The slot counts as free
  and still has its block, and the file created there gives this block back
  (`not_ramfsMem_file_neutral`).
-/

namespace ChalesOs

open ByteMemory

variable {P : PoolPlace} {progs : Programs} {b b' b₁ b₂ : RamfsMem} {s s' : Ramfs} {i j : Fin 64}
  {n oflags : ℕ} {op : RamfsOp} {res : RamfsResult} {run : RamfsMemRun} {p path : CString}
  {r r₂ : ℤ × RamfsMem}

/-! ### The two opens -/

namespace RamfsMem

theorem ramfsOpenFd_table (b : RamfsMem) (i : Fin 64) : (b.ramfsOpenFd i).2.table = b.table := by
  rcases ramfsOpenFd_cases b i with heq | ⟨k, -, heq⟩
  · rw [heq]
  · rw [heq]
    rfl

/-- Without `CHALES_O_TRUNC`, `ramfs_open2` leaves the inode as it is. -/
theorem ramfsOpen2Fd_table (b : RamfsMem) (i : Fin 64) (h : oflags &&& oTrunc = 0) :
    (b.ramfsOpen2Fd i oflags).2.table = b.table := by
  have hkeep : ¬(oflags &&& oTrunc ≠ 0 ∧ oflags &&& oAccmode ≠ oRdonly) :=
    fun htrunc => htrunc.1 h
  rw [RamfsMem.ramfsOpen2Fd]
  simp only [if_neg hkeep]
  split_ifs
  · rfl
  · cases b.ramfsFindFreeFd <;> rfl

/-- Both opens leave the same inode table, whatever is in it. -/
theorem table_of_opens (h : b.ramfsOpen (some p) 1 = some r)
    (h₂ : b.ramfsOpen2 (some p) oRdwrCreat = some r₂) : r₂.2.table = r.2.table := by
  have htrunc : oRdwrCreat &&& oTrunc = 0 := by decide
  rw [RamfsMem.ramfsOpen2, if_neg (Option.some_ne_none p)] at h₂
  cases hfind : b.ramfsFindInode (some p) with
  | some i =>
    simp only [hfind] at h₂
    rw [RamfsMem.ramfsOpen, hfind] at h
    rw [if_neg (by decide)] at h₂
    obtain rfl := Option.some.inj h
    obtain rfl := Option.some.inj h₂
    rw [ramfsOpenFd_table, ramfsOpen2Fd_table b i htrunc]
  | none =>
    simp only [hfind, if_neg (by decide : ¬oRdwrCreat &&& oCreat = 0), h, Option.map_some,
      Option.some.injEq] at h₂
    subst h₂
    -- the nested open has failed, or it is closed, and the path is looked up again
    split_ifs
    · rfl
    · cases (r.2.ramfsClose r.1).2.ramfsFindInode (some p) with
      | none => exact (ramfsClose_frame r.2 r.1).1
      | some i => exact (ramfsOpen2Fd_table _ i htrunc).trans (ramfsClose_frame r.2 r.1).1

end RamfsMem

/-- **The two opens agree.** In every state of a run in which the names fit, with fewer than
`2 ^ 32 - 1` inodes created, and for every path whose last component has at most 255 bytes,
`ramfs_open2` with `CHALES_O_RDWR | CHALES_O_CREAT` and `ramfs_open` with bit 0 both return, and
leave the same inode table, pool, inode counter and descriptors; both return the same descriptor,
or both fail. -/
theorem ramfsMem_opens_agree
    (h : (ramfsMemSystem P progs).ReachableBy RamfsMemRun.NamesFit run)
    (hcreated : run.created < 0xFFFFFFFF) (hp : (0 : UInt8) ∉ p)
    (hname : (pathName p).length ≤ 255) :
    ∃ r r₂, run.fs.ramfsOpen (some p) 1 = some r ∧
      run.fs.ramfsOpen2 (some p) (oRdwr ||| oCreat) = some r₂ ∧ OpensAlike r r₂ := by
  obtain ⟨run', hreach, hholds, hcount⟩ := ramfsMem_refines h
  obtain ⟨r', r₂', hr', hr₂', halike⟩ :=
    open2_agrees_open (hreach.mono fun _ _ _ => trivial) (hcount ▸ hcreated) hname
  have hpath : ∀ t, some p = some t → (0 : UInt8) ∉ t := fun t ht => Option.some.inj ht ▸ hp
  obtain ⟨r, hr, hsame⟩ :=
    (hholds.open 1 hpath fun t ht _ _ => Option.some.inj ht ▸ hname).exists_left hr'
  obtain ⟨r₂, hr₂, hsame₂⟩ :=
    (hholds.open2 _ hpath fun t ht _ _ => Option.some.inj ht ▸ hname).exists_left hr₂'
  refine ⟨r, r₂, hr, hr₂, ?_, ?_⟩
  · -- the records are the same, and so is the table
    have hfs := halike.fs
    refine RamfsMem.ext (RamfsMem.table_of_opens hr hr₂) ?_ ?_ ?_ ?_
    · rw [hsame.fs.pool, hsame₂.fs.pool, hfs]
    · rw [hsame.fs.poolUsed, hsame₂.fs.poolUsed, hfs]
    · rw [hsame.fs.fds, hsame₂.fs.fds, hfs]
    · rw [hsame.fs.nextInode, hsame₂.fs.nextInode, hfs]
  · rw [hsame.ret, hsame₂.ret]
    exact halike.ret

/-- `ramfsMem_opens_agree` for a new file in the first file system. -/
theorem ramfsMem_opens_agree_sample :
    ∃ b r r₂, (ramfsMemSystem samplePlace noPrograms).start ⟨b, 7⟩ ∧
      b.ramfsOpen (some (cstr "/bin/new")) 1 = some r ∧
      b.ramfsOpen2 (some (cstr "/bin/new")) (oRdwr ||| oCreat) = some r₂ ∧ OpensAlike r r₂ := by
  obtain ⟨b, hstart, -⟩ := exists_freshMem
  have hcreated : 7 < 0xFFFFFFFF := by decide
  obtain ⟨r, r₂, h⟩ := ramfsMem_opens_agree (.start hstart) hcreated
    (by decide : (0 : UInt8) ∉ cstr "/bin/new") (by decide)
  exact ⟨b, r, r₂, hstart, h⟩

/-- A path of one letter, over and over. -/
private theorem zero_notMem_letters (n : ℕ) {c : UInt8} (hc : c ≠ 0) :
    (0 : UInt8) ∉ slash :: List.replicate n c := by
  intro hmem
  rcases List.mem_cons.mp hmem with heq | hmem
  · exact absurd heq (by decide)
  · exact hc (List.eq_of_mem_replicate hmem).symm

/-- The two opens do not agree in all runs: behind `ramfs_mkdir` of a name of 300 letters, which
overwrites slot 9, they do not agree on the path of 20 letters. -/
theorem not_ramfsMem_opens_agree :
    ¬∀ (P : PoolPlace) (progs : Programs) (run : RamfsMemRun) (p : CString),
      (ramfsMemSystem P progs).ReachableBy (fun _ op => op.IsCString) run →
      run.created < 0xFFFFFFFF → (0 : UInt8) ∉ p → (pathName p).length ≤ 255 →
      ∃ r r₂, run.fs.ramfsOpen (some p) 1 = some r ∧
        run.fs.ramfsOpen2 (some p) (oRdwr ||| oCreat) = some r₂ ∧ OpensAlike r r₂ := by
  intro h
  have hrun : (blankMem.ramfsInit samplePlace noPrograms).bind (fun b =>
      ((ramfsMemSystem samplePlace noPrograms).step ⟨b, 7⟩
        (.mkdir (some (slash :: List.replicate 300 0x61)))).bind fun run =>
      (run.fs.ramfsOpen (some (slash :: List.replicate 20 0x61)) 1).bind fun r =>
      (run.fs.ramfsOpen2 (some (slash :: List.replicate 20 0x61)) (oRdwr ||| oCreat)).map fun r₂ =>
        (b.nextInode, run.created, r.1, r₂.1)) = some (8, 8, -1, 0) := by decide +kernel
  obtain ⟨b, hinit, hrun⟩ := Option.bind_eq_some_iff.mp hrun
  obtain ⟨run, hmkdir, hrun⟩ := Option.bind_eq_some_iff.mp hrun
  obtain ⟨r, hr, hrun⟩ := Option.bind_eq_some_iff.mp hrun
  obtain ⟨r₂, hr₂, hvalues⟩ := Option.map_eq_some_iff.mp hrun
  simp only [Prod.mk.injEq] at hvalues
  obtain ⟨hnext, hcreated, hret, hret₂⟩ := hvalues
  have hletters : ∀ n, (0 : UInt8) ∉ slash :: List.replicate n 0x61 := fun n =>
    zero_notMem_letters n (by decide)
  have hstart : (ramfsMemSystem samplePlace noPrograms).start ⟨b, 7⟩ :=
    ⟨blankMem, hinit, hnext.symm⟩
  have hop : (RamfsOp.mkdir (some (slash :: List.replicate 300 0x61))).IsCString := by
    rintro p ⟨⟩
    exact hletters 300
  obtain ⟨r', r₂', hr', hr₂', halike⟩ := h samplePlace noPrograms run
    (slash :: List.replicate 20 0x61) (.step (.start hstart) hop hmkdir) (by omega) (hletters 20)
    (by decide)
  obtain rfl := Option.some.inj (hr.symm.trans hr')
  obtain rfl := Option.some.inj (hr₂.symm.trans hr₂')
  rcases halike.ret with ⟨hnonneg, -⟩ | ⟨-, hneg⟩ <;> omega

/-! ### The life of one file -/

/-- The operation is applied to the file with the given number only: it opens a path of the file,
or goes through a descriptor of it. The end of a write is a 32-bit number. -/
def RamfsOp.OnFileIn (b : RamfsMem) (n : ℕ) : RamfsOp → Prop
  | .open p _ | .open2 p _ => ∃ i, b.ramfsFindInode p = some i ∧ b.ino i = n
  | .close fd | .read fd _ _ | .lseek fd _ _ => ∃ k, validFd fd = some k ∧ (b.fds k).ino = n
  | .write fd _ count => (∃ k, validFd fd = some k ∧ (b.fds k).ino = n) ∧
      ∀ k i, validFd fd = some k → b.slotOfIno (b.fds k).ino = some i →
        b.writeOffset k i + count < 0x100000000
  | _ => False

/-- Any sequence of operations on the file. -/
def FileRunIn (P : PoolPlace) (n : ℕ) : RamfsMem → RamfsMem → Prop :=
  Relation.ReflTransGen fun b b' =>
    ∃ op res, op.IsCString ∧ op.OnFileIn b n ∧ b.ramfsExec P op = some (res, b')

/-- Slot `i` holds the same inode. -/
structure RamfsMem.SameInode (b b' : RamfsMem) (i : Fin 64) : Prop where
  ino : b'.ino i = b.ino i
  type : b'.type i = b.type i
  name : ∀ t, StringAt b.table (RamfsMem.name i) t → StringAt b'.table (RamfsMem.name i) t
  size : b'.size i = b.size i
  parentIno : b'.parentIno i = b.parentIno i
  data : b'.data i = b.data i
  capacity : b'.capacity i = b.capacity i

/-- What is as it was in `b`: the mark of the pool, and every inode with its bytes, but the one in
slot `i`, which is free again. -/
structure RamfsMem.RestoredBut (P : PoolPlace) (b : RamfsMem) (i : Fin 64) (b' : RamfsMem) :
    Prop where
  poolUsed : b'.poolUsed = b.poolUsed
  slot : b'.ino i = 0
  inodes : ∀ j, j ≠ i → b.SameInode b' j
  bytes : ∀ j, j ≠ i → b'.fileBytes P j = b.fileBytes P j

namespace RamfsMem.Holds

theorem fileBytes_eq (h : b.Holds P s) (hs : PoolInv s) (i : Fin 64) :
    b.fileBytes P i = s.fileBytes i := by
  have haddr := P.addr_pos
  have hplaced := hs.placed i
  rw [fileBytes, Ramfs.fileBytes, h.size_eq, h.pool, PoolPlace.index]
  cases hd : (s.inodes i).data with
  | none =>
    rw [h.data_of_none hd, if_neg (by omega)]
    rfl
  | some d =>
    have hend := (hplaced.block d hd).2.2.2
    have hsize := hplaced.size_le
    have hused := hs.used_le
    rw [h.data_of_some hd, if_pos (by omega), Nat.add_sub_cancel_left]
    rfl

/-- Equal records are the same inode. -/
theorem sameInode (h : b.Holds P s) (h' : b'.Holds P s') (heq : s'.inodes i = s.inodes i) :
    b.SameInode b' i where
  ino := by rw [h'.ino_eq, h.ino_eq, heq]
  type := by rw [h'.reads.type, h.reads.type, heq]
  name t ht := by
    have hname : StringAt b.table (RamfsMem.name i) (s.inodes i).name := (h.stored i).name
    rw [ht.unique hname, ← heq]
    exact (h'.stored i).name
  size := by rw [h'.size_eq, h.size_eq, heq]
  parentIno := by rw [h'.reads.parentIno, h.reads.parentIno, heq]
  data := (h'.stored i).data.trans (heq ▸ (h.stored i).data.symm)
  capacity := by rw [h'.capacity_eq, h.capacity_eq, heq]

/-- What is restored in the records is restored in the bytes. -/
theorem restoredBut (h : b.Holds P s) (hs : PoolInv s) (h' : b'.Holds P s') (hs' : PoolInv s')
    (hrestored : s.RestoredBut i s') : b.RestoredBut P i b' where
  poolUsed := by rw [h'.poolUsed, h.poolUsed, hrestored.poolUsed]
  slot := by rw [h'.ino_eq, hrestored.slot]; rfl
  inodes j hj := h.sameInode h' (hrestored.inodes j hj)
  bytes j hj := by rw [h'.fileBytes_eq hs', h.fileBytes_eq hs, hrestored.bytes j hj]

theorem onFile (h : b.Holds P s) (hop : op.IsCString) (hon : op.OnFileIn b n) : op.OnFile s n := by
  have hopens : ∀ p, op.path = some p → (∃ i, b.ramfsFindInode p = some i ∧ b.ino i = n) →
      ∃ i, ramfsFindInode s p = some i ∧ (s.inodes i).ino = n := by
    rintro p hp ⟨i, hfind, hino⟩
    have hpath : ∀ t, p = some t → (0 : UInt8) ∉ t := fun t ht => hop t (ht ▸ hp)
    exact ⟨i, h.reads.ramfsFindInode_eq hpath ▸ hfind, h.ino_eq i ▸ hino⟩
  cases op with
  | «open» p flags => exact hopens p rfl hon
  | open2 p oflags => exact hopens p rfl hon
  | close | read | lseek =>
    obtain ⟨k, hk, hino⟩ := hon
    exact ⟨k, hk, h.fds ▸ hino⟩
  | write fd buf count =>
    obtain ⟨hfd, hoff⟩ := hon
    refine ⟨h.fds ▸ hfd, fun k i hw => ?_⟩
    have := hoff k i hw.valid (by rw [h.reads.slotOfIno_eq, h.fds]; exact hw.slot)
    rwa [writeOffset, h.fds, h.size_eq] at this
  | mkdir | rmdir | unlink => exact hon.elim

/-- A sequence of operations on the file is one on the records. -/
theorem fileRun (h : b.Holds P s) (hs : PoolInv s) (hrun : FileRunIn P n b b') :
    ∃ s', FileRun n s s' ∧ b'.Holds P s' ∧ PoolInv s' := by
  induction hrun with
  | refl => exact ⟨s, .refl, h, hs⟩
  | tail _ hstep ih =>
    obtain ⟨s₁, hrun₁, h₁, hs₁⟩ := ih
    obtain ⟨op, res, hop, hon, hexec⟩ := hstep
    have hon₁ := h₁.onFile hop hon
    obtain ⟨⟨res', s'⟩, hs', -, h'⟩ :=
      (h₁.exec hs₁ hop fun _ hc => absurd hc hon₁.not_createsInode).exists_right hexec
    exact ⟨s', hrun₁.tail ⟨op, res', hon₁, hs'⟩, h', hs₁.changes (ramfsExec_changes hs₁ hs')⟩

end RamfsMem.Holds

/-- **Creating, filling and removing a file is neutral.** From every state of a run in which the
names fit, with fewer than `2 ^ 32 - 1` inodes created: when an open creates a file, any sequence
of operations is applied to that file only, and the path is unlinked, then the unlink succeeds, and
the mark of the pool and every other inode with its bytes are as they were. -/
theorem ramfsMem_file_neutral
    (h : (ramfsMemSystem P progs).ReachableBy RamfsMemRun.NamesFit run)
    (hcreated : run.created < 0xFFFFFFFF) (hpath : (0 : UInt8) ∉ path)
    (hname : (pathName path).length ≤ 255) (hop : op.Opens (some path)) (hc : op.CreatesIn run.fs)
    (hexec : run.fs.ramfsExec P op = some (res, b₁))
    (hrun : FileRunIn P run.fs.nextInode b₁ b₂) :
    ∃ i b', run.fs.ino i = 0 ∧ b₂.ramfsUnlink P (some path) = (0, b') ∧
      run.fs.RestoredBut P i b' := by
  obtain ⟨run', hreach, hholds, hcount⟩ := ramfsMem_refines h
  have hs := poolInv_of_reachable hreach
  have hstring : op.IsCString := by
    cases hop <;> exact fun t ht => Option.some.inj (Option.some.inj ht) ▸ hpath
  have hfits : ∀ t, op.CreatesInode run'.fs → op.path = some (some t) →
      (pathName t).length ≤ 255 := by
    cases hop <;> exact fun t _ ht => Option.some.inj (Option.some.inj ht) ▸ hname
  obtain ⟨⟨res', s₁⟩, hexec', -, h₁⟩ := (hholds.exec hs hstring hfits).exists_right hexec
  have hs₁ := hs.changes (ramfsExec_changes hs hexec')
  obtain ⟨s₂, hrun', h₂, hs₂⟩ := h₁.fileRun hs₁ hrun
  rw [hholds.nextInode] at hrun'
  obtain ⟨i, s', hfree, hunlink, hrestored⟩ := file_neutral (hreach.mono fun _ _ _ => trivial)
    (hcount ▸ hcreated) hop ((hholds.createsInode_iff hstring).mp hc) hexec' hrun'
  have hsame := h₂.unlink hs₂ fun t (ht : some path = some t) => Option.some.inj ht ▸ hpath
  have hs' : PoolInv s' := by
    have := hs₂.changes (ramfsUnlink_changes (N := 0) s₂ (some path))
    rwa [hunlink] at this
  rw [hunlink] at hsame
  exact ⟨i, _, (hholds.ino_eq i).trans hfree, Prod.ext hsame.ret rfl,
    hholds.restoredBut hs hsame.fs hs' hrestored⟩

/-- A run that clears the number of a file: it removes the file in the slot in front of it, and
makes a directory there whose name is as long as the rest of the slot. -/
def overrunOps : List RamfsOp :=
  [.open (some (cstr "/x")) 1, .open (some (cstr "/y")) 1, .write 1 (some fun _ => 7) 1,
    .unlink (some (cstr "/x")), .mkdir (some (slash :: List.replicate 272 0x62))]

theorem overrunOps_isCString : ∀ op ∈ overrunOps, op.IsCString := by
  intro op hop p hp
  simp only [overrunOps, List.mem_cons, List.not_mem_nil, or_false] at hop
  rcases hop with rfl | rfl | rfl | rfl | rfl
  · obtain rfl := Option.some.inj (Option.some.inj hp)
    decide
  · obtain rfl := Option.some.inj (Option.some.inj hp)
    decide
  · cases hp
  · obtain rfl := Option.some.inj (Option.some.inj hp)
    decide
  · obtain rfl := Option.some.inj (Option.some.inj hp)
    exact zero_notMem_letters _ (by decide)

/-- `ramfsMem_file_neutral` for a file of 300 bytes. -/
theorem ramfsMem_file_neutral_sample :
    ∃ b b₁ b₂ i b', (ramfsMemSystem samplePlace noPrograms).start ⟨b, 7⟩ ∧
      FileRunIn samplePlace b.nextInode b₁ b₂ ∧ b₂.poolUsed = 304 ∧
      b₂.ramfsUnlink samplePlace (some (cstr "/a")) = (0, b') ∧
      b.RestoredBut samplePlace i b' := by
  obtain ⟨b, hstart, hholds⟩ := exists_freshMem
  have hcreated : 7 < 0xFFFFFFFF := by decide
  have hnul : (0 : UInt8) ∉ cstr "/a" := by decide
  have hname : (pathName (cstr "/a")).length ≤ 255 := by decide
  -- the run on the records
  have hrun : (ramfsExec freshRun.fs (.open2 (some (cstr "/a")) (oRdwr ||| oCreat))).bind
      (fun p => (ramfsExec p.2 (.write 0 (some fun _ => 7) 300)).map fun q =>
        (freshRun.fs.nextInode, (p.2.fds 0).ino, q.2.poolUsed)) = some (8, 8, 304) := by
    decide +kernel
  obtain ⟨⟨res, s₁⟩, hopen, hrun⟩ := Option.bind_eq_some_iff.mp hrun
  obtain ⟨⟨res', s₂⟩, hwrite, hrun⟩ := Option.map_eq_some_iff.mp hrun
  simp only [Prod.mk.injEq] at hrun
  obtain ⟨hnext, hnum, hused⟩ := hrun
  have hpool : PoolInv freshRun.fs :=
    poolInv_of_reachable (.start freshRun_start : (ramfsSystem _).Reachable freshRun)
  have hpool₁ : PoolInv s₁ := hpool.changes (ramfsExec_changes hpool hopen)
  -- and on the bytes
  have hstring : (RamfsOp.open2 (some (cstr "/a")) (oRdwr ||| oCreat)).IsCString :=
    fun t ht => Option.some.inj (Option.some.inj ht) ▸ hnul
  obtain ⟨⟨_, b₁⟩, hopen', -, h₁⟩ := (hholds.exec hpool hstring
    fun t _ ht => Option.some.inj (Option.some.inj ht) ▸ hname).exists_left hopen
  have hstring₁ : (RamfsOp.write 0 (some fun _ => 7) 300).IsCString := by rintro t ⟨⟩
  obtain ⟨⟨_, b₂⟩, hwrite', -, h₂⟩ :=
    (h₁.exec hpool₁ hstring₁ fun t hc => False.elim hc).exists_left hwrite
  have hon : (RamfsOp.write 0 (some fun _ => 7) 300).OnFileIn b₁ b.nextInode := by
    refine ⟨⟨0, rfl, ?_⟩, fun k i _ _ => ?_⟩
    · rw [h₁.fds, hnum, hholds.nextInode, hnext]
    · have hoff := hpool₁.writeOffset_le k i
      rw [Ramfs.writeOffset, ramfsMaxFilesize] at hoff
      rw [RamfsMem.writeOffset, h₁.fds, h₁.size_eq]
      dsimp only
      omega
  have hfile : FileRunIn samplePlace b.nextInode b₁ b₂ :=
    .single ⟨_, _, hstring₁, hon, hwrite'⟩
  have hcreates : b.Creates (some (cstr "/a")) := (hholds.creates_iff
    fun t ht => Option.some.inj ht ▸ hnul).mpr (by decide +kernel)
  obtain ⟨i, b', -, hunlink, hrestored⟩ := ramfsMem_file_neutral (.start hstart) hcreated hnul
    hname (.open2 _) ⟨by decide, hcreates⟩ hopen' hfile
  exact ⟨b, b₁, b₂, i, b', hstart, hfile, h₂.poolUsed.trans hused, hunlink, hrestored⟩

/-- Not every file is neutral: behind `ramfs_mkdir` of a name of 272 bytes, whose `NUL` clears the
number of `/y`, the file created in the slot of `/y` gives the block of `/y` back. -/
theorem not_ramfsMem_file_neutral :
    ¬∀ (P : PoolPlace) (progs : Programs) (run : RamfsMemRun) (path : CString) (op : RamfsOp)
      (res : RamfsResult) (b₁ b₂ : RamfsMem),
      (ramfsMemSystem P progs).ReachableBy (fun _ op => op.IsCString) run →
      run.created < 0xFFFFFFFF → (0 : UInt8) ∉ path → (pathName path).length ≤ 255 →
      op.Opens (some path) → op.CreatesIn run.fs → run.fs.ramfsExec P op = some (res, b₁) →
      FileRunIn P run.fs.nextInode b₁ b₂ →
      ∃ i b', run.fs.ino i = 0 ∧ b₂.ramfsUnlink P (some path) = (0, b') ∧
        run.fs.RestoredBut P i b' := by
  intro h
  have hrun : (blankMem.ramfsInit samplePlace noPrograms).bind (fun b =>
      ((ramfsMemSystem samplePlace noPrograms).runInputs ⟨b, 7⟩ overrunOps).bind fun run =>
      (run.fs.ramfsExec samplePlace (.open (some (cstr "/z")) 1)).map fun q =>
        (b.nextInode, run.created, decide (run.fs.Creates (some (cstr "/z"))), run.fs.poolUsed,
          (q.2.ramfsUnlink samplePlace (some (cstr "/z"))).2.poolUsed)) =
      some (8, 10, true, 256, 0) := by decide +kernel
  obtain ⟨b, hinit, hrun⟩ := Option.bind_eq_some_iff.mp hrun
  obtain ⟨run, hops, hrun⟩ := Option.bind_eq_some_iff.mp hrun
  obtain ⟨⟨res, b₁⟩, hexec, hvalues⟩ := Option.map_eq_some_iff.mp hrun
  simp only [Prod.mk.injEq, decide_eq_true_eq] at hvalues
  obtain ⟨hnext, hcreated, hcreates, hused, hused'⟩ := hvalues
  have hstart : (ramfsMemSystem samplePlace noPrograms).ReachableBy (fun _ op => op.IsCString)
      ⟨b, 7⟩ := .start ⟨blankMem, hinit, hnext.symm⟩
  have hreach := hstart.runInputs (fun _ _ op hop => overrunOps_isCString op hop) hops
  obtain ⟨i, b', -, hunlink, hrestored⟩ := h samplePlace noPrograms run (cstr "/z") _ res b₁ b₁
    hreach (by omega) (by decide) (by decide) (.open 1) ⟨by decide, hcreates⟩ hexec .refl
  rw [hunlink] at hused'
  exact absurd (hused.symm.trans (hrestored.poolUsed.symm.trans hused')) (by decide)

end ChalesOs
