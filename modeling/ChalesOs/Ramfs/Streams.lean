import ChalesOs.Lib.SharedLog
import ChalesOs.Ramfs.Descriptors

/-!
# Files as logs

A file that is only ever written through descriptors opened with `O_APPEND` is a log, whatever
else happens in the file system meanwhile: its blocks move, other files come and go, and any number
of descriptors write to it. `RamfsOp.AppendsTo` is the condition on the operations, and
`RamfsOp.events` says what each of them is on the log of `SharedLog`, with one descriptor as the
reader.

The two laws of such a log then hold of the file. It is what it was, followed by every byte a
write has reported as written (`content_of_appends`), and a descriptor used for nothing but reading
gets one piece of it, without gaps or repetitions (`delivered_of_appends`).
-/

namespace ChalesOs

open ByteMemory SharedLog

variable {s s' : Ramfs} {r r' : RamfsRun} {op : RamfsOp} {ops : List RamfsOp} {res : RamfsResult}
  {f : ℕ} {k : Fin 32} {b : List UInt8} {progs : Programs}

/-- The operation takes nothing away from file `f` and overwrites nothing in it: it does not
truncate or unlink it, and if it writes to it, then through a descriptor opened with `O_APPEND`. -/
def RamfsOp.AppendsTo (f : ℕ) (s : Ramfs) : RamfsOp → Prop
  | .open2 path oflags => oflags &&& oTrunc ≠ 0 → oflags &&& oAccmode ≠ oRdonly →
      ∀ i, ramfsFindInode s path = some i → (s.inodes i).ino ≠ f
  | .write fd _ _ => ∀ k, validFd fd = some k → (s.fds k).ino = f →
      (s.fds k).flags &&& oAppend ≠ 0
  | .unlink path => ∀ i, ramfsFindInode s path = some i → (s.inodes i).ino ≠ f
  | _ => True

/-- The bytes a write to file `f` reports as written. -/
def RamfsOp.written (f : ℕ) (s : Ramfs) (ret : ℤ) : RamfsOp → List UInt8
  | .write fd buf _ =>
    match validFd fd with
    | some k => if (s.fds k).ino = f then slice (buf.getD fun _ => 0) 0 ret.toNat else []
    | none => []
  | _ => []

/-- What an operation is on the log of file `f` with descriptor `k` as its reader. -/
def RamfsOp.events (f : ℕ) (k : Fin 32) (s : Ramfs) (res : RamfsResult) :
    RamfsOp → List (Event UInt8)
  | .write fd buf count => [.append ((RamfsOp.write fd buf count).written f s res.ret)]
  | .read fd _ count =>
    if validFd fd = some k ∧ 0 ≤ res.ret then [.deliver count res.bytes] else []
  | _ => []

/-- The descriptor number an operation is called with. -/
def RamfsOp.fd : RamfsOp → Option ℤ
  | .close fd | .read fd _ _ | .write fd _ _ | .lseek fd _ _ => some fd
  | _ => none

/-- Descriptor `k` is used for reading only. -/
def RamfsOp.OnlyReads (k : Fin 32) : RamfsOp → Prop
  | .read _ _ _ => True
  | op => op.fd ≠ some ((k : ℕ) : ℤ)

/-- The operation is in range, and the counter of inode numbers is not about to wrap. -/
def RamfsRun.Allows (r : RamfsRun) (op : RamfsOp) : Prop :=
  op.InRange r.fs ∧ r.created < 0xFFFFFFFE

/-- The bytes written to file `f` in a run. -/
def RamfsRun.writtenBy (f : ℕ) (r : RamfsRun) (op : RamfsOp) : List UInt8 :=
  (ramfsExec r.fs op).elim [] fun p => op.written f r.fs p.1.ret

/-- The events on the log of file `f` in a run. -/
def RamfsRun.eventsBy (f : ℕ) (k : Fin 32) (r : RamfsRun) (op : RamfsOp) : List (Event UInt8) :=
  (ramfsExec r.fs op).elim [] fun p => op.events f k r.fs p.1

/-! ### A read of an open file -/

/-- A read through a readable descriptor gets the bytes of the file at its offset. -/
theorem IdInv.read_readable (hid : IdInv s) (hpool : PoolInv s) {fd : ℤ} {i : Fin 64}
    (h : s.Readable fd k i) (count : ℕ)
    (hb : b = ((s.fileBytes i).drop (s.fds k).offset).take count) :
    ramfsRead s fd false count = some ((b.length : ℤ), b,
      s.setFd k { s.fds k with offset := (s.fds k).offset + b.length }) := by
  obtain ⟨r, hr⟩ : ∃ r, ramfsRead s fd false count = some r := by
    have hsome : (ramfsExec s (.read fd false count)).isSome := ramfsExec_isSome hpool trivial
    rw [ramfsExec, Option.isSome_map] at hsome
    exact Option.isSome_iff_exists.mp hsome
  rw [hr]
  rcases hid.read hpool hr with ⟨hret, -⟩ | ⟨k', b', hk', hb', hread, hret, hfs⟩
  · -- a readable descriptor does not fail
    rw [ramfsRead_of_readable h] at hr
    split_ifs at hr
    · obtain ⟨d, -, rfl⟩ := Option.map_eq_some_iff.mp hr
      dsimp only at hret
      omega
    · obtain rfl := Option.some_injective _ hr
      exact absurd hret (by simp)
  · obtain rfl := Option.some_injective _ (h.valid.symm.trans hk')
    obtain rfl := Option.some_injective _ ((hid.content_of_openFile h.toOpenFile).symm.trans hb')
    rw [← hb] at hread
    rw [hread] at hret hfs
    exact congrArg some (Prod.ext hret (Prod.ext hread hfs))

/-! ### A descriptor that is not used -/

theorem ramfsLseek_fds (s : Ramfs) {fd : ℤ} (offset whence : ℤ) (hk : fd ≠ ((k : ℕ) : ℤ)) :
    (ramfsLseek s fd offset whence).2.fds k = s.fds k := by
  rw [ramfsLseek]
  cases hfd : validFd fd with
  | none => rfl
  | some k' =>
    have hne : k ≠ k' := by
      rintro rfl
      exact hk (eq_of_validFd hfd)
    dsimp only
    by_cases hlive : (s.fds k').ino = 0
    · rw [if_pos hlive]
    rw [if_neg hlive]
    cases s.slotOfIno (s.fds k').ino with
    | none => rfl
    | some i =>
      dsimp only
      generalize (if whence = 0 then some 0 else if whence = 1 then some ((s.fds k').offset : ℤ)
        else if whence = 2 then some ((s.inodes i).size : ℤ) else none) = base
      cases base with
      | none => rfl
      | some base =>
        dsimp only
        split_ifs
        · rfl
        · exact s.setFd_of_ne _ hne

/-- The end of `ramfs_open2` fills a free descriptor. -/
theorem ramfsOpen2Fd_fds (s : Ramfs) (i : Fin 64) (oflags : ℕ) (hk : (s.fds k).ino ≠ 0) :
    (ramfsOpen2Fd s i oflags).2.fds k = s.fds k := by
  rcases ramfsOpen2Fd_cases s i oflags with ⟨ret, -, heq⟩ | ⟨k', -, hk', heq⟩
  · rw [heq]
  · have hne : k ≠ k' := by
      rintro rfl
      exact hk hk'
    rw [heq, Ramfs.setFd_of_ne _ _ hne]
    split_ifs <;> rfl

theorem ramfsOpen_fds_eq {path : Option CString} {flags : ℕ} {p : ℤ × Ramfs}
    (h : ramfsOpen s path flags = some p) (hk : (s.fds k).ino ≠ 0) : p.2.fds k = s.fds k := by
  rcases ramfsOpen_fds h with ⟨-, hfds⟩ | ⟨k', i, -, hk', hfds, -⟩
  · rw [hfds]
  · rw [hfds, Function.update_of_ne]
    rintro rfl
    exact hk (ramfsFindFreeFd_some hk')

theorem ramfsOpen2_fds_eq {path : Option CString} {oflags : ℕ} {p : ℤ × Ramfs}
    (h : ramfsOpen2 s path oflags = some p) (hk : (s.fds k).ino ≠ 0) : p.2.fds k = s.fds k := by
  rcases ramfsOpen2_split h with ⟨-, heq, -⟩ | ⟨i, -, rfl⟩ | ⟨tmp, s₁, -, -, hopen, hp⟩
  · rw [heq]
  · exact ramfsOpen2Fd_fds s i oflags hk
  have hopened : s₁.fds k = s.fds k := ramfsOpen_fds_eq hopen hk
  -- the descriptor closed again is the one just filled
  have hclosed : (ramfsClose s₁ tmp).2.fds k = s.fds k := by
    rw [ramfsClose_fds s₁ tmp, hopened]
    rcases ramfsOpen_fds hopen with ⟨hret, -⟩ | ⟨k', i, hret, hk', -⟩
    · dsimp only at hret
      omega
    · intro htmp
      obtain rfl : k = k' := Fin.val_injective (by dsimp only at hret; omega)
      exact hk (ramfsFindFreeFd_some hk')
  rcases hp with ⟨-, rfl⟩ | ⟨-, ⟨-, rfl⟩ | ⟨i, -, rfl⟩⟩
  · exact hopened
  · exact hclosed
  · rw [ramfsOpen2Fd_fds _ i oflags (by rwa [hclosed]), hclosed]

theorem ramfsRead_fds_eq {fd : ℤ} {bufNull : Bool} {count : ℕ} {p : ℤ × List UInt8 × Ramfs}
    (h : ramfsRead s fd bufNull count = some p) (hk : fd ≠ ((k : ℕ) : ℤ)) :
    p.2.2.fds k = s.fds k := by
  rcases ramfsRead_cases h with heq | ⟨k', i, hread, -, -, heq⟩
  · rw [heq]
  · rw [heq, Ramfs.setFd_of_ne]
    rintro rfl
    exact hk (eq_of_validFd hread.valid)

theorem ramfsWrite_fds_eq {fd : ℤ} {buf : Option (ℕ → UInt8)} {count : ℕ} {p : ℤ × Ramfs}
    (h : ramfsWrite s fd buf count = some p) (hk : fd ≠ ((k : ℕ) : ℤ)) : p.2.fds k = s.fds k := by
  have hne : ∀ {k' i}, s.Writable fd k' i → k ≠ k' := by
    rintro k' i hw rfl
    exact hk (eq_of_validFd hw.valid)
  rcases ramfsWrite_cases h with (heq | ⟨k', i, hw, heq⟩) |
    ⟨k', i, job, d, hw, -, hfs, rfl, -, -, -, heq⟩
  · rw [heq]
  · rw [heq, Ramfs.seekWrite, Ramfs.setFd_of_ne _ _ (hne hw)]
  · rw [heq, WriteJob.run_eq, Ramfs.setFd_of_ne _ _ (hne hw), Ramfs.setInode_fds]
    dsimp only
    rw [hfs, (ramfsReserve_frame _ i _).1, Ramfs.seekWrite, Ramfs.setFd_of_ne _ _ (hne hw)]

/-- **A descriptor in use changes only through calls with its own number.** -/
theorem ramfsExec_fds_eq (h : ramfsExec s op = some (res, s')) (hk : (s.fds k).ino ≠ 0)
    (hop : op.fd ≠ some ((k : ℕ) : ℤ)) : s'.fds k = s.fds k := by
  have hfd : ∀ {fd : ℤ}, some fd ≠ some ((k : ℕ) : ℤ) → fd ≠ ((k : ℕ) : ℤ) :=
    fun hne heq => hne (congrArg some heq)
  cases h using ramfsExec_elim with
  | «open» path flags p _ hp => exact ramfsOpen_fds_eq hp hk
  | open2 path oflags p _ hp => exact ramfsOpen2_fds_eq hp hk
  | close fd => exact ramfsClose_fds s fd (hfd hop)
  | read fd bufNull count p _ hp => exact ramfsRead_fds_eq hp (hfd hop)
  | write fd buf count p _ hp => exact ramfsWrite_fds_eq hp (hfd hop)
  | lseek fd offset whence => exact ramfsLseek_fds s offset whence (hfd hop)
  | mkdir path p _ hp =>
    rcases ramfsMkdir_cases hp with rfl | ⟨q, i, parentIno, s₁, -, -, -, -, hcreate, rfl⟩
    · rfl
    · rw [(ramfsCreate_frame hcreate).2.2.1]
  | rmdir path =>
    rcases ramfsRmdir_cases s path with heq | ⟨i, -, -, heq⟩
    · rw [heq]
    · rw [heq, Ramfs.setInode_fds]
  | unlink path =>
    rcases ramfsUnlink_cases s path with heq | ⟨i, -, -, heq⟩
    · rw [heq]
    · rw [heq, Ramfs.setInode_fds, (ramfsRelease_frame s i).2.2.1]

/-! ### One operation -/

theorem FdsOnly.content_eq (h : FdsOnly s s') (f : ℕ) : s'.content f = s.content f := by
  have hslot : s'.slotOfIno f = s.slotOfIno f := by
    rw [Ramfs.slotOfIno, Ramfs.slotOfIno, Ramfs.findSlot, Ramfs.findSlot, h.inodes]
  rw [Ramfs.content, Ramfs.content, hslot]
  cases s.slotOfIno f with
  | none => rfl
  | some i =>
    have hbytes : s'.fileBytes i = s.fileBytes i :=
      Ramfs.fileBytes_congr (by rw [h.inodes]) (by rw [h.inodes]) fun _ _ _ _ => by rw [h.pool]
    dsimp only
    rw [h.inodes, hbytes]

/-- A write that reports nothing has moved at most an offset. -/
theorem ramfsWrite_fdsOnly_of_nonpos {fd : ℤ} {buf : Option (ℕ → UInt8)} {count : ℕ}
    {p : ℤ × Ramfs} (h : ramfsWrite s fd buf count = some p) (hret : p.1 ≤ 0) :
    FdsOnly s p.2 := by
  rw [ramfsWrite] at h
  rcases ramfsWritePrepare_cases s fd buf.isNone count with
    ⟨ret, s', heq, -, hs'⟩ | ⟨k, i, cnt, n, -, -, -, hn, heq, -⟩
  · rw [heq] at h
    obtain rfl := Option.some_injective _ h
    rcases hs' with rfl | ⟨k, i, -, rfl⟩
    · exact .of_eq rfl
    · exact .setFd s k _
  · simp only [heq] at h
    split_ifs at h
    obtain ⟨d, -, rfl⟩ := Option.map_eq_some_iff.mp h
    exact absurd hret (by dsimp only; omega)

/-- The number of a file is not the next one to be given out. -/
theorem IdInv.ne_nextInode (hid : IdInv s) (hb : s.content f = some b) : f ≠ s.nextInode := by
  obtain ⟨i, hi, -⟩ := hid.content_eq_some.mp hb
  rw [← hi.1]
  exact (hid.ino_lt i).ne

/-- An open that does not truncate the file leaves its content alone. -/
theorem content_of_open2 (hid : IdInv s) (hpool : PoolInv s) {path : Option CString} {oflags : ℕ}
    {p : ℤ × Ramfs} (h : ramfsOpen2 s path oflags = some p) (hne : p.2.nextInode ≠ 0)
    (hop : (RamfsOp.open2 path oflags).AppendsTo f s) (hb : s.content f = some b) :
    p.2.content f = some b := by
  have hN : s.nextInode ≠ 0 := Nat.ne_zero_of_lt (hid.ino_lt 0)
  rcases ramfsOpen2_cases h with ⟨-, hchanges⟩ | ⟨s₁, i, hchanges, rfl, hi⟩
  · exact hchanges.content_eq hpool hid hN hne (Set.notMem_empty f) hb
  by_cases hino : (s₁.inodes i).ino = f
  · -- the file is opened, so it was there before, and it is not truncated
    obtain ⟨rfl, hfind⟩ : s₁ = s ∧ ramfsFindInode s path = some i :=
      hi.resolve_right fun ⟨_, hnew⟩ => hid.ne_nextInode hb (hino.symm.trans hnew)
    rcases ramfsOpen2Fd_cases s₁ i oflags with ⟨ret, -, heq⟩ | ⟨k, -, -, heq⟩
    · rwa [heq]
    · rw [heq, if_neg fun htrunc => hop htrunc.1 htrunc.2 i hfind hino]
      rwa [(FdsOnly.setFd s₁ k _).content_eq]
  · have hopen : RamfsChanges {(s₁.inodes i).ino} s.nextInode s₁ (ramfsOpen2Fd s₁ i oflags).2 :=
      ramfsOpen2Fd_changes (Set.mem_singleton _)
    have hall : RamfsChanges {(s₁.inodes i).ino} s.nextInode s (ramfsOpen2Fd s₁ i oflags).2 :=
      (hchanges.mono_touches (Set.empty_subset _)).trans hopen
    exact hall.content_eq hpool hid hN hne (fun hf => hino hf.symm) hb

/-- **One operation on a log** appends what it reports as written. -/
theorem content_of_appendsTo (hid : IdInv s) (hpool : PoolInv s) (hrange : op.InRange s)
    (h : ramfsExec s op = some (res, s')) (hne : s'.nextInode ≠ 0) (hop : op.AppendsTo f s)
    (hb : s.content f = some b) : s'.content f = some (b ++ op.written f s res.ret) := by
  have hstep := hid.fileStep hpool hrange h hne
  have hframe : f ∉ op.touches s → s'.content f = some (b ++ []) := fun hf => by
    rw [List.append_nil]
    exact hstep.frame f b hf hb
  cases op with
  | open2 path oflags =>
    obtain ⟨p, hp, ⟨⟩⟩ := Option.map_eq_some_iff.mp h
    change p.2.content f = some (b ++ [])
    rw [List.append_nil]
    exact content_of_open2 hid hpool hp hne hop hb
  | unlink path =>
    refine hframe ?_
    rintro ⟨i, hi, hino⟩
    exact hop i hi hino
  | write fd buf count =>
    obtain ⟨p, hp, ⟨⟩⟩ := Option.map_eq_some_iff.mp h
    rw [RamfsOp.written]
    cases hfd : validFd fd with
    | none =>
      refine hframe ?_
      rintro ⟨k, hk, -⟩
      simp [hfd] at hk
    | some k =>
      dsimp only
      by_cases hino : (s.fds k).ino = f
      · rw [if_pos hino]
        by_cases hret : 0 < p.1
        · obtain ⟨k', old, off, n, hk', hold, hoff, hn, -, hnew, -⟩ :=
            hstep.write fd buf count rfl hret
          obtain rfl : k = k' := Option.some_injective _ (hfd.symm.trans hk')
          obtain rfl : b = old := by
            rw [hino] at hold
            exact Option.some_injective _ (hb.symm.trans hold)
          rw [if_pos (hop k hfd hino)] at hoff
          dsimp only at hn hnew
          rw [hn, Int.toNat_natCast, ← hino, hnew, hoff]
          have happend := overwrite_append (z := 0) (l := b) (r := ([] : List UInt8))
            (w := slice (buf.getD fun _ => 0) 0 n)
          rw [List.append_nil, List.drop_nil, List.append_nil] at happend
          rw [happend]
        · rw [Int.toNat_of_nonpos (not_lt.mp hret), slice_zero, List.append_nil,
            (ramfsWrite_fdsOnly_of_nonpos hp (not_lt.mp hret)).content_eq, hb]
      · rw [if_neg hino]
        refine hframe ?_
        rintro ⟨k', hk', hino'⟩
        obtain rfl : k = k' := Option.some_injective _ (hfd.symm.trans hk')
        exact hino hino'
  | «open» | close | read | lseek | mkdir | rmdir => exact hframe (Set.notMem_empty f)

/-- **One operation on a log with a reader.** -/
theorem run_events (hid : IdInv s) (hpool : PoolInv s) (hrange : op.InRange s)
    (h : ramfsExec s op = some (res, s')) (hne : s'.nextInode ≠ 0) (hf : f ≠ 0)
    (hop : op.AppendsTo f s) (hreads : op.OnlyReads k) (hk : (s.fds k).ino = f)
    (hb : s.content f = some b) :
    ∃ b', s'.content f = some b' ∧ (s'.fds k).ino = f ∧
      Run ⟨b, (s.fds k).offset⟩ (op.events f k s res) ⟨b', (s'.fds k).offset⟩ := by
  have hcontent := content_of_appendsTo hid hpool hrange h hne hop hb
  have hlive : (s.fds k).ino ≠ 0 := by rwa [hk]
  refine ⟨_, hcontent, ?_⟩
  by_cases hfd : op.fd = some ((k : ℕ) : ℤ)
  · -- a read by the reader
    cases op with
    | read fd bufNull count =>
      obtain rfl := Option.some_injective _ hfd
      change (s'.fds k).ino = f ∧ Run ⟨b, _⟩ (if _ then _ else _) ⟨b ++ [], _⟩
      rw [validFd_coe, List.append_nil]
      rcases (hid.fileStep hpool hrange h hne).read _ bufNull count rfl with
        ⟨hret, rfl⟩ | ⟨k', b', hk', hb', hbytes, hret, rfl⟩
      · rw [if_neg (by simp [hret])]
        exact ⟨hk, .nil _⟩
      · obtain rfl : k = k' := Option.some_injective _ ((validFd_coe k).symm.trans hk')
        obtain rfl : b = b' := by
          rw [hk] at hb'
          exact Option.some_injective _ (hb.symm.trans hb')
        rw [if_pos ⟨rfl, by omega⟩, Ramfs.setFd_self, hbytes]
        exact ⟨hk, .single (.deliver b _ count)⟩
    | close | write | lseek => exact absurd hfd hreads
    | «open» | open2 | mkdir | rmdir | unlink => simp [RamfsOp.fd] at hfd
  · have hsame := ramfsExec_fds_eq h hlive hfd
    rw [hsame]
    refine ⟨hk, ?_⟩
    cases op with
    | write fd buf count => exact .single (.append b _ _)
    | read fd bufNull count =>
      have hother : ¬(validFd fd = some k ∧ 0 ≤ res.ret) := fun hk' =>
        hfd (congrArg some (eq_of_validFd hk'.1))
      change Run ⟨b, _⟩ (if _ then _ else _) ⟨b ++ [], _⟩
      rw [if_neg hother, List.append_nil]
      exact .nil _
    | «open» | open2 | close | lseek | mkdir | rmdir | unlink =>
      change Run ⟨b, _⟩ [] ⟨b ++ [], _⟩
      rw [List.append_nil]
      exact .nil _

/-! ### Runs -/

/-- Allowed operations have an outcome. -/
theorem RamfsRun.Allows.exists_run (h : (ramfsSystem progs).ReachableBy RamfsRun.Allows r)
    (hops : (ramfsSystem progs).Meets RamfsRun.Allows r ops) :
    ∃ r', (ramfsSystem progs).runInputs r ops = some r' := by
  refine StepSystem.exists_runInputs h hops fun r op hr hop => ?_
  rw [ramfsSystem, Option.isSome_map]
  exact ramfsExec_isSome (poolInv_of_reachable hr) hop.1

/-- What one allowed step of a run does. -/
theorem RamfsRun.Allows.step (h : (ramfsSystem progs).ReachableBy RamfsRun.Allows r)
    (hop : r.Allows op) (hstep : (ramfsSystem progs).step r op = some r') :
    ∃ res, ramfsExec r.fs op = some (res, r'.fs) ∧ PoolInv r.fs ∧ IdInv r.fs ∧
      r'.fs.nextInode ≠ 0 := by
  have hpool := poolInv_of_reachable h
  have hcounted := counted_of_reachable h
  obtain ⟨⟨res, s'⟩, hexec, rfl⟩ := Option.map_eq_some_iff.mp hstep
  have hlt := hop.2
  have hnew : newInodes r.fs s' ≤ 1 := by
    rw [newInodes]
    split_ifs <;> omega
  have hid' := (hcounted.step hpool hstep (by dsimp only; omega)).1
  exact ⟨res, hexec, hpool, (hcounted (by omega)).1, Nat.ne_zero_of_lt (hid'.ino_lt 0)⟩

/-- **Appends are never lost or doubled.** In every run that goes on from a reachable state, with
names that fit, writes that do not wrap and numbers left, and that only appends to a file, whoever
opens, reads, writes, creates or removes whatever meanwhile, the file in the end holds what it held
before, followed by all bytes that writes to it have reported as written, in the order of the
writes. -/
theorem content_of_appends (h : (ramfsSystem progs).ReachableBy RamfsRun.Allows r)
    (hops : (ramfsSystem progs).Meets (fun r op => r.Allows op ∧ op.AppendsTo f r.fs) r ops)
    (hb : r.fs.content f = some b) :
    ∃ r', (ramfsSystem progs).runInputs r ops = some r' ∧ r'.fs.content f =
      some (b ++ (ramfsSystem progs).records (RamfsRun.writtenBy f) r ops) := by
  obtain ⟨r', hrun⟩ := RamfsRun.Allows.exists_run h (hops.mono fun _ _ hop => hop.1)
  let R : RamfsRun → List UInt8 → Prop := fun r b =>
    (ramfsSystem progs).ReachableBy RamfsRun.Allows r ∧ r.fs.content f = some b
  have hstep : ∀ r op r' b, R r b → r.Allows op ∧ op.AppendsTo f r.fs →
      (ramfsSystem progs).step r op = some r' → ∃ b', b' = b ++ r.writtenBy f op ∧ R r' b' := by
    rintro r op r' b ⟨hr, hb⟩ ⟨hallows, hop⟩ hstep
    obtain ⟨res, hexec, hpool, hid, hne⟩ := RamfsRun.Allows.step hr hallows hstep
    refine ⟨_, rfl, hr.step hallows hstep, ?_⟩
    rw [RamfsRun.writtenBy, hexec]
    exact content_of_appendsTo hid hpool hallows.1 hexec hne hop hb
  obtain ⟨b', rfl, -, hb'⟩ := StepSystem.simulates (RamfsRun.writtenBy f) R
    (fun b bytes b' => b' = b ++ bytes) (fun b => (List.append_nil b).symm)
    (fun a b c es es' hb hc => by rw [hc, hb, List.append_assoc]) hstep ⟨h, hb⟩ hops hrun
  exact ⟨r', hrun, hb'⟩

/-- **Readers of a log see all of it, once and in order.** In every such run, a descriptor of the
file that is used for nothing but reading gets, with all its reads together, the piece of the
final content between its first and its last offset. -/
theorem delivered_of_appends (h : (ramfsSystem progs).ReachableBy RamfsRun.Allows r)
    (hops : (ramfsSystem progs).Meets
      (fun r op => r.Allows op ∧ op.AppendsTo f r.fs ∧ op.OnlyReads k) r ops)
    (hf : f ≠ 0) (hk : (r.fs.fds k).ino = f) (hb : r.fs.content f = some b) :
    ∃ r' b', (ramfsSystem progs).runInputs r ops = some r' ∧ r'.fs.content f = some b' ∧
      delivered ((ramfsSystem progs).records (RamfsRun.eventsBy f k) r ops) =
        (b'.drop (r.fs.fds k).offset).take ((r'.fs.fds k).offset - (r.fs.fds k).offset) := by
  obtain ⟨r', hrun⟩ := RamfsRun.Allows.exists_run h (hops.mono fun _ _ hop => hop.1)
  let R : RamfsRun → State UInt8 → Prop := fun r log =>
    (ramfsSystem progs).ReachableBy RamfsRun.Allows r ∧ r.fs.content f = some log.log ∧
      (r.fs.fds k).ino = f ∧ (r.fs.fds k).offset = log.pos
  have hstep : ∀ r op r' log, R r log → r.Allows op ∧ op.AppendsTo f r.fs ∧ op.OnlyReads k →
      (ramfsSystem progs).step r op = some r' →
      ∃ log', Run log (r.eventsBy f k op) log' ∧ R r' log' := by
    rintro r op r' log ⟨hr, hb, hk, hpos⟩ ⟨hallows, hop, hreads⟩ hstep
    obtain ⟨res, hexec, hpool, hid, hne⟩ := RamfsRun.Allows.step hr hallows hstep
    obtain ⟨b', hb', hk', hevents⟩ :=
      run_events hid hpool hallows.1 hexec hne hf hop hreads hk hb
    refine ⟨⟨b', _⟩, ?_, hr.step hallows hstep, hb', hk', rfl⟩
    rw [RamfsRun.eventsBy, hexec]
    rwa [hpos] at hevents
  have hstart : R r ⟨b, (r.fs.fds k).offset⟩ := ⟨h, hb, hk, rfl⟩
  obtain ⟨⟨b', pos⟩, hlog, -, hb', -, hpos'⟩ := StepSystem.simulates (RamfsRun.eventsBy f k) R Run
    Run.nil (fun _ _ _ _ _ => Run.append) hstep hstart hops hrun
  obtain ⟨hdelivered, hpos⟩ := hlog.delivered_eq
  dsimp only at hdelivered hpos hpos'
  refine ⟨r', b', hrun, hb', ?_⟩
  rw [hpos', hpos, Nat.add_sub_cancel_left]
  exact hdelivered

/-! ### A log with two writers and a reader -/

instance (f : ℕ) (s : Ramfs) : ∀ op : RamfsOp, Decidable (op.AppendsTo f s)
  | .open2 path oflags => inferInstanceAs (Decidable (oflags &&& oTrunc ≠ 0 →
      oflags &&& oAccmode ≠ oRdonly → ∀ i, ramfsFindInode s path = some i → (s.inodes i).ino ≠ f))
  | .write fd _ _ => inferInstanceAs (Decidable (∀ k, validFd fd = some k → (s.fds k).ino = f →
      (s.fds k).flags &&& oAppend ≠ 0))
  | .unlink path => inferInstanceAs
      (Decidable (∀ i, ramfsFindInode s path = some i → (s.inodes i).ino ≠ f))
  | .open .. | .close _ | .read .. | .lseek .. | .mkdir _ | .rmdir _ =>
    inferInstanceAs (Decidable True)

/-- Two descriptors for appending to a new file, and one for reading it. -/
def logOpens : List RamfsOp :=
  [.open2 (some (cstr "/log")) (oWronly ||| oCreat ||| oAppend),
    .open2 (some (cstr "/log")) (oWronly ||| oAppend), .open2 (some (cstr "/log")) oRdonly]

/-- Both writers and the reader take turns. -/
def logOps : List RamfsOp :=
  [.write 0 (some fun i => UInt8.ofNat i) 2, .read 2 false 1, .write 1 (some fun _ => 7) 3,
    .read 2 false 9]

theorem logOpens_isSome : ((ramfsSystem noPrograms).runInputs freshRun logOpens).isSome = true := by
  decide +kernel

/-- The state in which the log is open. -/
def logRun : RamfsRun := ((ramfsSystem noPrograms).runInputs freshRun logOpens).get logOpens_isSome

theorem logRun_reachable : (ramfsSystem noPrograms).ReachableBy RamfsRun.Allows logRun := by
  have hcreated : (ramfsSystem noPrograms).Meets (fun r _ => r.created < 0xFFFFFFFE)
      freshRun logOpens := by decide +kernel
  have hrange : (ramfsSystem noPrograms).Meets (fun r op => op.InRange r.fs) freshRun logOpens := by
    refine .of_reachable (.start freshRun_start) fun r _ op hop => ?_
    simp only [logOpens, List.mem_cons, List.not_mem_nil, or_false] at hop
    rcases hop with rfl | rfl | rfl <;> rintro p ⟨rfl⟩ <;> decide
  exact (StepSystem.ReachableBy.start freshRun_start).runInputs_of_meets (hrange.and hcreated)
    (Option.some_get logOpens_isSome).symm

theorem logOps_inRange :
    (ramfsSystem noPrograms).Meets (fun r op => op.InRange r.fs) logRun logOps := by
  refine .of_reachable (logRun_reachable.mono fun _ _ _ => trivial) fun r hr op hop => ?_
  have hpool := poolInv_of_reachable hr
  simp only [logOps, List.mem_cons, List.not_mem_nil, or_false] at hop
  rcases hop with rfl | rfl | rfl | rfl
  · exact hpool.inRange_write _ _ (by decide)
  · trivial
  · exact hpool.inRange_write _ _ (by decide)
  · trivial

/-- `content_of_appends` for the log. -/
theorem content_of_appends_sample :
    ∃ r', (ramfsSystem noPrograms).runInputs logRun logOps = some r' ∧
      r'.fs.content 8 = some [0, 1, 7, 7, 7] := by
  have hlog : (ramfsSystem noPrograms).Meets
      (fun r op => r.created < 0xFFFFFFFE ∧ op.AppendsTo 8 r.fs) logRun logOps := by decide +kernel
  have hempty : logRun.fs.content 8 = some [] := by decide +kernel
  obtain ⟨r', hrun, hcontent⟩ := content_of_appends logRun_reachable
    ((logOps_inRange.and hlog).mono fun _ _ h => ⟨⟨h.1, h.2.1⟩, h.2.2⟩) hempty
  have hwritten : (ramfsSystem noPrograms).records (RamfsRun.writtenBy 8) logRun logOps =
      [0, 1, 7, 7, 7] := by decide +kernel
  exact ⟨r', hrun, by rw [hcontent, hwritten, List.nil_append]⟩

/-- `delivered_of_appends` for the log. -/
theorem delivered_of_appends_sample :
    ∃ r' b', (ramfsSystem noPrograms).runInputs logRun logOps = some r' ∧
      r'.fs.content 8 = some b' ∧
      delivered ((ramfsSystem noPrograms).records (RamfsRun.eventsBy 8 2) logRun logOps) =
        (b'.drop (logRun.fs.fds 2).offset).take
          ((r'.fs.fds 2).offset - (logRun.fs.fds 2).offset) ∧
      delivered ((ramfsSystem noPrograms).records (RamfsRun.eventsBy 8 2) logRun logOps) =
        [0, 1, 7, 7, 7] := by
  have hlog : (ramfsSystem noPrograms).Meets
      (fun r op => r.created < 0xFFFFFFFE ∧ op.AppendsTo 8 r.fs) logRun logOps := by decide +kernel
  have hreads : (ramfsSystem noPrograms).Meets (fun _ op => op.OnlyReads 2) logRun logOps := by
    refine .of_reachable (logRun_reachable.mono fun _ _ _ => trivial) fun r _ op hop => ?_
    simp only [logOps, List.mem_cons, List.not_mem_nil, or_false] at hop
    rcases hop with rfl | rfl | rfl | rfl <;> simp [RamfsOp.OnlyReads, RamfsOp.fd]
  obtain ⟨r', b', hrun, hb', hdelivered⟩ := delivered_of_appends logRun_reachable
    ((logOps_inRange.and (hlog.and hreads)).mono fun _ _ h => ⟨⟨h.1, h.2.1.1⟩, h.2.1.2, h.2.2⟩)
    (by decide) (by decide +kernel) (by decide +kernel : logRun.fs.content 8 = some [])
  exact ⟨r', b', hrun, hb', hdelivered, by decide +kernel⟩

end ChalesOs
