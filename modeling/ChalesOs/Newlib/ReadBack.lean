import ChalesOs.Newlib.Files
import ChalesOs.Ramfs.Streams

/-!
# Reading back what was written

A program writes a buffer to a file through newlib, and later on it seeks back and reads into
another buffer. Meanwhile interrupts come, other files are written, programs are started and end.
`newlib_read_back` follows the bytes through all layers: from the memory of the program into the
pool of the file system and back to memory.
-/

namespace ChalesOs

open ByteMemory

variable {L : Layout} {progs : Programs} {u u' : Newlib} {k k' : Kernel} {fd buf len : UInt32}
  {slot : Fin 32} {n : ℤ}

/-- A buffer that programs can use is shorter than the largest file. -/
theorem Layout.HoldsProgram.le {a n : ℕ} (h : L.HoldsProgram a n) : n ≤ elfLoadLimit := by
  rcases h with rfl | ⟨hle, -⟩
  · exact Nat.zero_le _
  · omega

/-- A descriptor of the RAMFS is none of the console's. -/
theorem fdFileBase_le_of_validFd (h : validFd (cInt fd - fdFileBase) = some slot) :
    fdFileBase ≤ cInt fd := by
  have := eq_of_validFd h
  omega

/-- What a successful write of newlib does to the file system. -/
theorem Newlib.write_eq_some (hpool : PoolInv u.kernel.fs)
    (hslot : validFd (cInt fd - fdFileBase) = some slot) (hn : 0 < n)
    (h : u.write L fd buf len = some (n, u')) :
    ramfsWrite u.kernel.fs (cInt fd - fdFileBase) (some fun i => u.kernel.mem (buf.toNat + i))
      len.toNat = some (n, u'.kernel.fs) := by
  have hbase := fdFileBase_le_of_validFd hslot
  have hexec : (FileCall.write fd buf len).exec L u = some (n, u') := h
  obtain ⟨res, hrun, ⟨-, hvalue, -⟩ | ⟨e, -, -, hfail, -⟩⟩ :=
    FileCall.exec_cases hpool (by simp) hexec
  swap
  · omega
  obtain rfl : n = res := hvalue
  obtain ⟨r, hr, hrun⟩ := Option.bind_eq_some_iff.mp hrun
  obtain ⟨-, hrun⟩ := Option.ite_none_right_eq_some.mp hrun
  obtain ⟨hret, hkernel⟩ := Prod.mk.inj (Option.some_injective _ hrun)
  rw [bufferArg] at hr
  by_cases hbuf : buf = 0
  · rw [if_pos hbuf] at hr
    obtain rfl := Option.some_injective _ hr
    dsimp only at hret
    rw [eFault] at hret
    omega
  rw [if_neg hbuf] at hr
  simp only [sysWrite] at hr
  rw [fdFileBase] at hbase
  rw [if_neg (by omega), if_neg (by rw [fdFileBase]; omega)] at hr
  obtain ⟨⟨ret, s'⟩, hwrite, rfl⟩ := Option.map_eq_some_iff.mp hr
  dsimp only at hret
  have hnonneg : ¬ret < 0 := by
    intro hlt
    rw [if_pos hlt] at hret
    rw [eBadf] at hret
    split_ifs at hret <;> omega
  rw [if_neg hnonneg] at hret
  rw [← hkernel, hwrite, hret]

/-- What is written is there. -/
theorem take_drop_overwrite {old bytes : List UInt8} {off : ℕ} :
    ((overwrite 0 old off bytes).drop off).take bytes.length = bytes := by
  have hfront : ((old ++ List.replicate (off - old.length) 0).take off).length = off := by
    rw [List.length_take, List.length_append, List.length_replicate]
    omega
  rw [overwrite, List.append_assoc, List.drop_left' hfront, List.take_left]

/-- `lseek` of newlib to a place in an open file. -/
theorem Newlib.lseek_eq {i : Fin 64} {off : ℕ} (hopen : u.kernel.fs.OpenFile
    (cInt fd - fdFileBase) slot i) (hoff : off ≤ ramfsMaxFilesize) :
    u.lseek L fd (UInt32.ofNat off) 0 = some ((off : ℤ), ⟨u.kernel.withFs
      (u.kernel.fs.setFd slot { u.kernel.fs.fds slot with offset := off }), u.errno⟩) := by
  have hbase := fdFileBase_le_of_validFd hopen.valid
  have hlimit : ramfsMaxFilesize < 0x80000000 := by decide
  have hnat : (UInt32.ofNat off).toNat = off := by
    rw [UInt32.toNat_ofNat', Nat.mod_eq_of_lt (by omega)]
  have hcoff : cInt (UInt32.ofNat off) = off := by
    rw [cInt_of_lt (by omega), hnat]
  have hrun : (Syscall.lseek fd (UInt32.ofNat off) 0).run L u.kernel = some ((off : ℤ),
      u.kernel.withFs (u.kernel.fs.setFd slot { u.kernel.fs.fds slot with offset := off })) := by
    rw [Syscall.run, sysLseek, if_neg (by omega), ramfsLseek, hopen.valid]
    dsimp only
    rw [if_neg hopen.live, hopen.slot]
    dsimp only
    rw [hcoff, if_pos (by decide)]
    dsimp only
    rw [Int.zero_add, if_neg (by omega), Int.toNat_natCast]
  have hlt : (off : ℤ) < 0x80000000 := by omega
  exact FileCall.exec_of_run (c := .lseek fd (UInt32.ofNat off) 0) hrun (Int.natCast_nonneg off) hlt

/-- `read` of newlib through an open descriptor, when the file has the bytes. -/
theorem Newlib.readFile_eq {i : Fin 64} {bytes : List UInt8} (hid : IdInv u.kernel.fs)
    (hpool : PoolInv u.kernel.fs) (hopen : u.kernel.fs.Readable (cInt fd - fdFileBase) slot i)
    (hbuf : buf ≠ 0) (hholds : L.HoldsProgram buf.toNat bytes.length)
    (hbytes : ((u.kernel.fs.fileBytes i).drop (u.kernel.fs.fds slot).offset).take bytes.length =
      bytes) :
    ∃ fs', u.readFile L fd buf (UInt32.ofNat bytes.length) = some ((bytes.length : ℤ),
      ⟨(u.kernel.withMem (ByteMemory.write u.kernel.mem buf.toNat bytes)).withFs fs',
        u.errno⟩) := by
  have hbase := fdFileBase_le_of_validFd hopen.valid
  have hlimit : elfLoadLimit < 0x80000000 := by decide
  have hlen := hholds.le
  have hnat : (UInt32.ofNat bytes.length).toNat = bytes.length := by
    rw [UInt32.toNat_ofNat', Nat.mod_eq_of_lt (by omega)]
  have hread := hid.read_readable hpool hopen bytes.length hbytes.symm
  have hrun : (Syscall.read fd buf (UInt32.ofNat bytes.length)).run L u.kernel =
      some ((bytes.length : ℤ),
        (u.kernel.withMem (ByteMemory.write u.kernel.mem buf.toNat bytes)).withFs
          (u.kernel.fs.setFd slot { u.kernel.fs.fds slot with
            offset := (u.kernel.fs.fds slot).offset + bytes.length })) := by
    rw [Syscall.run, sysReadAt, if_neg hbuf, if_neg (by rw [fdFileBase] at hbase; omega),
      if_neg (not_lt.mpr hbase), hnat, hread, Option.bind_some]
    dsimp only
    rw [Kernel.storeBytes, if_pos hholds, Option.map_some, if_neg (by omega)]
  have hlt : (bytes.length : ℤ) < 0x80000000 := by omega
  exact ⟨_, FileCall.exec_of_run (c := .readFile fd buf (UInt32.ofNat bytes.length)) hrun
    (Int.natCast_nonneg _) hlt⟩

/-- Bytes are written to live files only. -/
theorem ino_ne_zero_of_write {s : Ramfs} {fd : ℤ} {bytes : Option (ℕ → UInt8)} {count : ℕ}
    {r : ℤ × Ramfs} (hslot : validFd fd = some slot) (h : ramfsWrite s fd bytes count = some r)
    (hret : 0 < r.1) : (s.fds slot).ino ≠ 0 := by
  by_cases hw : bytes.isNone = true ∨ ∀ k i, ¬s.Writable fd k i
  · rw [ramfsWrite, ramfsWritePrepare_of_not_writable hw] at h
    obtain rfl := Option.some_injective _ h
    exact absurd hret (by simp)
  · simp only [not_or, not_forall, not_not] at hw
    obtain ⟨-, k, i, hw⟩ := hw
    obtain rfl := Option.some_injective _ (hslot.symm.trans hw.valid)
    exact hw.live

/-- **What newlib has written it reads back.** A program writes a buffer through a descriptor that
is open for both, without `O_APPEND`, and `n` bytes are accepted, maybe fewer than it asked for.
Later in the run, when the file has the same content and the descriptor is still open on it, it
seeks back to where the write began and reads `n` bytes into a buffer of its own. It gets the bytes
the first buffer held at the time of the write, and no other byte of its memory is changed. -/
theorem newlib_read_back {r₀ r₂ : KernelRun} {u₀ u₁ u₂ : Newlib} {buf' : UInt32}
    (h₀ : (kernelSystem L progs).ReachableBy (fun _ op => op.LeavesPorts) r₀)
    (hcreated₀ : r₀.created < 0xFFFFFFFF) (hu₀ : u₀.kernel = r₀.kernel)
    (hslot : validFd (cInt fd - fdFileBase) = some slot)
    (hflags₀ : (u₀.kernel.fs.fds slot).flags = oRdwr) (hholds : L.HoldsProgram buf.toNat len.toNat)
    (hwrite : u₀.write L fd buf len = some (n, u₁)) (hn : 0 < n)
    (h₂ : (kernelSystem L progs).ReachableBy (fun _ op => op.LeavesPorts) r₂)
    (hcreated₂ : r₂.created < 0xFFFFFFFF) (hu₂ : u₂.kernel = r₂.kernel)
    (hcontent : u₂.kernel.fs.content (u₀.kernel.fs.fds slot).ino =
      u₁.kernel.fs.content (u₀.kernel.fs.fds slot).ino)
    (hino : (u₂.kernel.fs.fds slot).ino = (u₀.kernel.fs.fds slot).ino)
    (hflags₂ : (u₂.kernel.fs.fds slot).flags = oRdwr)
    (hbuf' : buf' ≠ 0) (hholds' : L.HoldsProgram buf'.toNat n.toNat) :
    ∃ u₃ u₄, u₂.lseek L fd (UInt32.ofNat (u₀.kernel.fs.fds slot).offset) 0 =
        some (((u₀.kernel.fs.fds slot).offset : ℤ), u₃) ∧
      u₃.readFile L fd buf' (UInt32.ofNat n.toNat) = some (n, u₄) ∧
      slice u₄.kernel.mem buf'.toNat n.toNat = slice u₀.kernel.mem buf.toNat n.toNat ∧
      Set.EqOn u₄.kernel.mem u₂.kernel.mem (Set.Ico buf'.toNat (buf'.toNat + n.toNat))ᶜ := by
  have hpool₀ : PoolInv u₀.kernel.fs := hu₀ ▸ poolInv_of_reachable (kernel_parts h₀).1
  have hpool₂ : PoolInv u₂.kernel.fs := hu₂ ▸ poolInv_of_reachable (kernel_parts h₂).1
  have hid₀ : IdInv u₀.kernel.fs := hu₀ ▸ (counted_of_reachable (kernel_parts h₀).1 hcreated₀).1
  have hid₂ : IdInv u₂.kernel.fs := hu₂ ▸ (counted_of_reachable (kernel_parts h₂).1 hcreated₂).1
  -- what the write does to the content of the file
  have hram := Newlib.write_eq_some hpool₀ hslot hn hwrite
  have hlive := ino_ne_zero_of_write hslot hram hn
  have hnext : u₁.kernel.fs.nextInode ≠ 0 := by
    rw [(ramfsWrite_sameTree hram).2]
    exact Nat.ne_zero_of_lt (hid₀.ino_lt 0)
  obtain ⟨k', old, off, m, hk', hold, hoff, hret, -, hnew, -⟩ := hid₀.write hpool₀
    (hpool₀.inRange_write _ _ (hholds.le.trans_lt (by decide))) hram hnext hn
  obtain rfl := Option.some_injective _ (hslot.symm.trans hk')
  rw [hflags₀, if_neg (by decide)] at hoff
  subst hoff
  dsimp only at hret hnew
  obtain rfl : n.toNat = m := by omega
  -- the descriptor stands for the file still
  rw [hnew] at hcontent
  obtain ⟨i, hholdsIno, hfile, hbytes⟩ := hid₂.content_eq_some.mp hcontent
  have hopen : u₂.kernel.fs.OpenFile (cInt fd - fdFileBase) slot i :=
    ⟨hslot, hino ▸ hlive, hid₂.slotOfIno_iff.mpr (hino ▸ hholdsIno), hfile⟩
  have hlseek := Newlib.lseek_eq (L := L) hopen (hpool₀.offset_le slot)
  -- and so it does behind the seek
  have hchanges : RamfsChanges ∅ u₂.kernel.fs.nextInode u₂.kernel.fs (u₂.kernel.fs.setFd slot
      { u₂.kernel.fs.fds slot with offset := (u₀.kernel.fs.fds slot).offset }) :=
    .single (.setFd slot _ (hpool₀.offset_le slot) (Or.inr ⟨i, Ramfs.slotOfIno_some hopen.slot⟩))
  have hnext₂ : u₂.kernel.fs.nextInode ≠ 0 := Nat.ne_zero_of_lt (hid₂.ino_lt 0)
  have hread : (u₂.kernel.fs.setFd slot { u₂.kernel.fs.fds slot with
      offset := (u₀.kernel.fs.fds slot).offset }).Readable (cInt fd - fdFileBase) slot i := by
    refine ⟨⟨hslot, ?_, ?_, hfile⟩, ?_⟩
    · rw [Ramfs.setFd_self]
      exact hopen.live
    · rw [Ramfs.setFd_self]
      exact hopen.slot
    · rw [Ramfs.setFd_self]
      dsimp only
      rw [hflags₂]
      decide
  have hlen : (slice u₀.kernel.mem buf.toNat n.toNat).length = n.toNat := length_slice
  have hpart : (((u₂.kernel.fs.setFd slot { u₂.kernel.fs.fds slot with
      offset := (u₀.kernel.fs.fds slot).offset }).fileBytes i).drop
      ((u₂.kernel.fs.setFd slot { u₂.kernel.fs.fds slot with
        offset := (u₀.kernel.fs.fds slot).offset }).fds slot).offset).take
      (slice u₀.kernel.mem buf.toNat n.toNat).length = slice u₀.kernel.mem buf.toNat n.toNat := by
    have hsource : slice (fun i => u₀.kernel.mem (buf.toNat + i)) 0 n.toNat =
        slice u₀.kernel.mem buf.toNat n.toNat := by simp [slice]
    rw [Ramfs.setFd_self]
    change ((u₂.kernel.fs.fileBytes i).drop _).take _ = _
    rw [hbytes, ← hsource]
    exact take_drop_overwrite
  obtain ⟨fs', hreadFile⟩ := Newlib.readFile_eq (L := L) (u := ⟨u₂.kernel.withFs _, u₂.errno⟩)
    (hid₂.changes hchanges hnext₂ hnext₂) (hpool₂.changes hchanges) hread hbuf'
    (by rwa [hlen]) hpart
  rw [hlen, Int.toNat_of_nonneg hn.le] at hreadFile
  refine ⟨_, _, hlseek, hreadFile, (congrArg (slice _ _) hlen.symm).trans slice_write, ?_⟩
  have hframe := eqOn_write (m := u₂.kernel.mem) (d := buf'.toNat)
    (l := slice u₀.kernel.mem buf.toNat n.toNat)
  rwa [hlen] at hframe

/-! ### A sample run -/

/-- A program puts a path and three bytes into its memory, and creates a file. -/
def openOps : List KernelOp :=
  [.store (ByteMemory.write (fun _ => 0) 0x300000 (cstr "/d\x00\x01\x02\x03")),
    .syscall ⟨22, 0x300000, 0x202, 0⟩]

/-- It writes the bytes, clears its memory, and the timer ticks. -/
def writeOps : List KernelOp :=
  [.syscall ⟨9, 3, 0x300003, 3⟩, .store fun _ => 0, .lines 0x01 0x00, .interrupt]

theorem leavesPorts_openOps {op : KernelOp} (h : op ∈ openOps ++ writeOps) : op.LeavesPorts := by
  simp only [openOps, writeOps, List.mem_append, List.mem_cons, List.not_mem_nil, or_false] at h
  rintro r port value rfl hport
  simp only [KernelOp.syscall.injEq, reduceCtorEq, false_or, or_false] at h
  rcases h with rfl | rfl
  · exact absurd (Option.some_injective _ hport) (by simp)
  · exact absurd (Option.some_injective _ hport) (by simp)

/-- `newlib_read_back` on the sample run. -/
theorem newlib_read_back_sample :
    ∃ r₀ u₁ r₂ u₃ u₄,
      (kernelSystem Layout.sample noPrograms).runInputs bootKernel openOps = some r₀ ∧
      Newlib.write Layout.sample ⟨r₀.kernel, 0⟩ 3 0x300003 3 = some (3, u₁) ∧
      (kernelSystem Layout.sample noPrograms).runInputs r₀ writeOps = some r₂ ∧
      Newlib.lseek Layout.sample ⟨r₂.kernel, 0⟩ 3 (UInt32.ofNat (r₀.kernel.fs.fds 0).offset) 0 =
        some (((r₀.kernel.fs.fds 0).offset : ℤ), u₃) ∧
      u₃.readFile Layout.sample 3 0x300020 3 = some (3, u₄) ∧
      slice u₄.kernel.mem 0x300020 3 = [1, 2, 3] := by
  obtain ⟨r₀, hr₀, hcreated₀, hflags₀, hbytes, hrest⟩ : ∃ r₀,
      (kernelSystem Layout.sample noPrograms).runInputs bootKernel openOps = some r₀ ∧
      r₀.created < 0xFFFFFFFF ∧ (r₀.kernel.fs.fds 0).flags = oRdwr ∧
      slice r₀.kernel.mem 0x300003 3 = [1, 2, 3] ∧
      ((Newlib.write Layout.sample ⟨r₀.kernel, 0⟩ 3 0x300003 3).any fun p =>
        ((kernelSystem Layout.sample noPrograms).runInputs r₀ writeOps).any fun r₂ =>
          decide (p.1 = 3 ∧ r₂.created < 0xFFFFFFFF ∧
            r₂.kernel.fs.content (r₀.kernel.fs.fds 0).ino =
              p.2.kernel.fs.content (r₀.kernel.fs.fds 0).ino ∧
            (r₂.kernel.fs.fds 0).ino = (r₀.kernel.fs.fds 0).ino ∧
            (r₂.kernel.fs.fds 0).flags = oRdwr)) = true :=
    exists_of_any (by decide +kernel)
  obtain ⟨⟨ret, u₁⟩, hwrite, hrest⟩ := (Option.any_eq_true _ _).mp hrest
  obtain ⟨r₂, hr₂, hrest⟩ := (Option.any_eq_true _ _).mp hrest
  obtain ⟨rfl, hcreated₂, hcontent, hino, hflags₂⟩ := of_decide_eq_true hrest
  have h₀ : (kernelSystem Layout.sample noPrograms).ReachableBy (fun _ op => op.LeavesPorts) r₀ :=
    .runInputs (.start bootKernel_start)
      (fun _ _ _ hop => leavesPorts_openOps (List.mem_append_left _ hop)) hr₀
  have hslot : validFd (cInt 3 - fdFileBase) = some 0 := rfl
  have hu₂ : (⟨r₂.kernel, 0⟩ : Newlib).kernel = r₂.kernel := rfl
  have hbuf' : (0x300020 : UInt32) ≠ 0 := by decide
  obtain ⟨u₃, u₄, hseek, hread, hslice, -⟩ := newlib_read_back h₀ hcreated₀ rfl hslot hflags₀
    (by decide) hwrite (by decide)
    (h₀.runInputs (fun _ _ _ hop => leavesPorts_openOps (List.mem_append_right _ hop)) hr₂)
    hcreated₂ hu₂ hcontent hino hflags₂ hbuf' (by decide)
  exact ⟨r₀, u₁, r₂, u₃, u₄, hr₀, hwrite, hr₂, hseek, hread, hslice.trans hbytes⟩

end ChalesOs
