import Mathlib.Algebra.Group.Nat.Defs
import Mathlib.Order.Interval.Set.Basic
import ChalesOs.Memory.Words

/-!
# How the boot loader reads sectors

`read_sectors` of `stage2.S` asks the BIOS for some sectors at once, and tries up to three times.
When this fails it goes one sector at a time into consecutive parts of the bounce buffer, with up
to three tries for each. The BIOS is not part of the repository: `Bios` holds the sectors of the
medium, and a reply to every try. A try that fails may leave anything in the part of the buffer it
was for.

As soon as each single sector is read within its three tries, the buffer ends up the same,
whatever the replies were (`exists_readSectors`), and no request reaches behind it.
-/

namespace ChalesOs

open ByteMemory

/-! ### The layout -/

/-- `KERNEL_LBA`. -/
def kernelLba : ℕ := 16

/-- `BOUNCE_ADDR`. -/
def bounceAddr : ℕ := 0x10000

/-- `BOUNCE_SECTORS`. -/
def bounceSectors : ℕ := 64

/-- `BOUNCE_CD_SECTORS`. -/
def bounceCdSectors : ℕ := (bounceSectors * 512) >>> 11

/-- `KERNEL_CD_OFFSET`. -/
def kernelCdOffset : ℕ := (kernelLba * 512) >>> 11

/-- The variables of stage 2 that depend on the medium. A full buffer is 32 KiB, whatever the size
of a sector. -/
structure Medium where
  /-- The first sector of the kernel image. -/
  kernelBase : ℕ
  sectShift : ℕ
  unitMask : ℕ
  bounceUnits : ℕ
  /-- The number of sectors that hold the first 4 KiB. -/
  hdrUnits : ℕ
  unitMask_succ : unitMask + 1 = 2 ^ sectShift
  bounceUnits_mul : bounceUnits * 2 ^ sectShift = 0x8000
  hdrUnits_mul : hdrUnits * 2 ^ sectShift = 0x1000

/-- The start of stage 2, up to `sector_size_known`: the word at `BOOT_INFO_FILE_LBA` is 0 on a
disk, and the sector of the boot file on a CD. -/
def Medium.ofBootInfo (fileLba : ℕ) : Medium :=
  if fileLba = 0 then ⟨kernelLba, 9, 511, bounceSectors, 8, rfl, rfl, rfl⟩
  else ⟨u32 (fileLba + kernelCdOffset), 11, 2047, bounceCdSectors, 2, rfl, rfl, rfl⟩

/-! ### The BIOS -/

/-- What varies in the disk address packet: how many sectors, to which offset of the bounce
buffer, and from which sector on. -/
structure Packet where
  count : ℕ
  off : ℕ
  lba : ℕ
  deriving DecidableEq

/-- How `int 0x13` ends: with the carry flag set, it returns an error number, and leaves some bytes
in the part of the buffer that has been asked for. -/
inductive Reply
  | ok
  | failed (ah : ℕ) (left : ℕ → UInt8)

/-- The sectors of the medium, under 32-bit numbers, and the replies: to try `t` of the `n`-th call
of `read_sectors`, and to try `t` for the `n`-th sector that is read on its own. -/
structure Bios where
  sector : (lba : ℕ) → (k : ℕ) → UInt8
  many : (n t : ℕ) → Reply
  one : (n t : ℕ) → Reply

/-- The bytes of the medium, from the first byte of a sector on. -/
def Bios.bytesFrom (bios : Bios) (m : Medium) (lba : ℕ) (i : ℕ) : UInt8 :=
  bios.sector (u32 (lba + i / 2 ^ m.sectShift)) (i % 2 ^ m.sectShift)

/-- Single-sector reads succeed within their three tries. -/
def Bios.OneSucceeds (bios : Bios) : Prop := ∀ n, ∃ t < 3, bios.one n t = .ok

/-- The memory, `err_ah`, the requests made so far, and how many calls and how many single sectors
there have been. -/
structure LoaderState where
  mem : Mem
  errAh : ℕ
  requests : List Packet
  calls : ℕ
  ones : ℕ

/-- `int 0x13` with `ah = 0x42`. -/
def int13Read (m : Medium) (bios : Bios) (reply : Reply) (dap : Packet) (s : LoaderState) :
    Bool × LoaderState :=
  let n := dap.count * 2 ^ m.sectShift
  let requests := s.requests ++ [dap]
  match reply with
  | .ok => (true, { s with
      mem := copy s.mem (bounceAddr + dap.off) (bios.bytesFrom m dap.lba) 0 n
      requests := requests })
  | .failed ah left => (false, { s with
      mem := copy s.mem (bounceAddr + dap.off) left 0 n
      errAh := ah
      requests := requests })

/-! ### The code -/

/-- Where the loader gives up. A disk error comes with `err_ah` and `dap_lba`. -/
inductive LoadError
  | badKernel
  | diskError (ah lba : ℕ)
  deriving DecidableEq

/-- The loops `read_try` and `one_try`, with the numbers of the tries that are left. The controller
is reset behind every failure. -/
def readTries (m : Medium) (bios : Bios) (reply : ℕ → Reply) (dap : Packet) :
    (tries : List ℕ) → LoaderState → Bool × LoaderState
  | [], s => (false, s)
  | t :: tries, s =>
    let r := int13Read m bios (reply t) dap s
    if r.1 then r else readTries m bios reply dap tries r.2

/-- One round of `one_loop`, up to `one_ok`. -/
def oneSector (m : Medium) (bios : Bios) (lba off : ℕ) (s : LoaderState) :
    Except LoadError LoaderState :=
  let r := readTries m bios (bios.one s.ones) ⟨1, off, lba⟩ [0, 1, 2] s
  if r.1 then .ok { r.2 with ones := r.2.ones + 1 } else .error (.diskError r.2.errAh lba)

/-- `one_loop`, when `want_count` is `more + 1`. -/
def oneLoop (m : Medium) (bios : Bios) :
    (more lba off : ℕ) → LoaderState → Except LoadError LoaderState
  | 0, lba, off, s => oneSector m bios lba off s
  | more + 1, lba, off, s =>
    (oneSector m bios lba off s).bind fun s =>
      oneLoop m bios more (u32 (lba + 1)) ((off + 1 <<< m.sectShift) % 0x10000) s

/-- `read_sectors`, with `EAX = lba` and `ECX = count`. A count of 0 is one of `0x10000` to
`one_loop`. -/
def readSectors (m : Medium) (bios : Bios) (lba count : ℕ) (s : LoaderState) :
    Except LoadError LoaderState :=
  let r := readTries m bios (bios.many s.calls) ⟨count % 0x10000, 0, lba⟩ [0, 1, 2] s
  let s := { r.2 with calls := r.2.calls + 1 }
  if r.1 then .ok s else oneLoop m bios ((count + 0xFFFF) % 0x10000) lba 0 s

/-! ### What a request changes -/

variable {m : Medium} {bios : Bios} {s s' s₁ s₂ : LoaderState} {a n lba off count : ℕ}
  {dap : Packet}

/-- The request stays inside the bounce buffer of 32 KiB. -/
def Packet.Fits (m : Medium) (dap : Packet) : Prop :=
  dap.off + dap.count * 2 ^ m.sectShift ≤ 0x8000

/-- Requests that stay inside the buffer have changed some of its `n` bytes from offset `a` on,
and nothing else in memory. -/
structure Reads (m : Medium) (a n : ℕ) (s s' : LoaderState) : Prop where
  mem : ∀ b, ¬(bounceAddr + a ≤ b ∧ b < bounceAddr + a + n) → s'.mem b = s.mem b
  requests : ∃ new, s'.requests = s.requests ++ new ∧ ∀ dap ∈ new, dap.Fits m

theorem Reads.refl (s : LoaderState) : Reads m a n s s :=
  ⟨fun _ _ => rfl, [], by simp⟩

theorem Reads.trans (h : Reads m a n s s₁) (h' : Reads m a n s₁ s₂) : Reads m a n s s₂ := by
  obtain ⟨new, hnew, hfits⟩ := h.requests
  obtain ⟨new', hnew', hfits'⟩ := h'.requests
  refine ⟨fun b hb => (h'.mem b hb).trans (h.mem b hb), new ++ new', ?_, ?_⟩
  · rw [hnew', hnew, List.append_assoc]
  · intro dap hdap
    exact (List.mem_append.mp hdap).elim (hfits dap) (hfits' dap)

/-- A part of the buffer is in a larger one. -/
theorem Reads.mono {a' n' : ℕ} (h : Reads m a n s s') (ha : a' ≤ a) (hn : a + n ≤ a' + n') :
    Reads m a' n' s s' :=
  ⟨fun b hb => h.mem b (by omega), h.requests⟩

/-- The counters do not matter. -/
theorem Reads.of_eq (h : Reads m a n s s₁) (hmem : s₂.mem = s₁.mem)
    (hrequests : s₂.requests = s₁.requests) : Reads m a n s s₂ :=
  ⟨by rw [hmem]; exact h.mem, by rw [hrequests]; exact h.requests⟩

/-- The buffer holds `n` bytes of the medium, from the sector `lba` on, at offset `a`. -/
def HoldsDisk (m : Medium) (bios : Bios) (a n lba : ℕ) (s : LoaderState) : Prop :=
  ∀ i < n, s.mem (bounceAddr + a + i) = bios.bytesFrom m lba i

/-- One request. -/
theorem int13Read_reads (bios : Bios) (hfits : dap.Fits m) (reply : Reply) (s : LoaderState) :
    Reads m dap.off (dap.count * 2 ^ m.sectShift) s (int13Read m bios reply dap s).2 ∧
      ((int13Read m bios reply dap s).1 = true ↔ reply = .ok) ∧
      (reply = .ok → HoldsDisk m bios dap.off (dap.count * 2 ^ m.sectShift) dap.lba
        (int13Read m bios reply dap s).2) := by
  have hlog : ∀ d ∈ [dap], d.Fits m := by simpa using hfits
  cases reply with
  | ok =>
    refine ⟨⟨fun b hb => copy_of_not_mem hb, [dap], rfl, hlog⟩, by simp [int13Read], ?_⟩
    intro _ i hi
    have hmem : bounceAddr + dap.off ≤ bounceAddr + dap.off + i ∧
        bounceAddr + dap.off + i < bounceAddr + dap.off + dap.count * 2 ^ m.sectShift := by omega
    refine (copy_of_mem hmem).trans ?_
    rw [Nat.zero_add, Nat.add_sub_cancel_left]
  | failed ah left =>
    exact ⟨⟨fun b hb => copy_of_not_mem hb, [dap], rfl, hlog⟩, by simp [int13Read], by simp⟩

/-- **Some tries.** They succeed when one of the replies is a success, and then the buffer holds
the sectors. -/
theorem readTries_reads (bios : Bios) (hfits : dap.Fits m) (reply : ℕ → Reply) (tries : List ℕ)
    (s : LoaderState) :
    Reads m dap.off (dap.count * 2 ^ m.sectShift) s (readTries m bios reply dap tries s).2 ∧
      ((readTries m bios reply dap tries s).1 = true ↔ ∃ t ∈ tries, reply t = .ok) ∧
      ((readTries m bios reply dap tries s).1 = true → HoldsDisk m bios dap.off
        (dap.count * 2 ^ m.sectShift) dap.lba (readTries m bios reply dap tries s).2) := by
  induction tries generalizing s with
  | nil => exact ⟨.refl s, by simp [readTries], by simp [readTries]⟩
  | cons t tries ih =>
    obtain ⟨hreads, hok, hholds⟩ := int13Read_reads bios hfits (reply t) s
    rw [readTries]
    by_cases hreply : reply t = .ok
    · rw [if_pos (hok.mpr hreply)]
      exact ⟨hreads, iff_of_true (hok.mpr hreply) ⟨t, List.mem_cons_self, hreply⟩,
        fun _ => hholds hreply⟩
    · rw [if_neg (mt hok.mp hreply)]
      obtain ⟨hreads', hok', hholds'⟩ := ih (int13Read m bios (reply t) dap s).2
      exact ⟨hreads.trans hreads', by simp [hok', hreply], hholds'⟩

/-! ### One sector at a time -/

/-- The bytes of the sectors behind one. -/
theorem Bios.bytesFrom_succ (bios : Bios) (m : Medium) (lba i : ℕ) :
    bios.bytesFrom m (u32 (lba + 1)) i = bios.bytesFrom m lba (2 ^ m.sectShift + i) := by
  have hpos : 0 < 2 ^ m.sectShift := Nat.two_pow_pos _
  rw [bytesFrom, bytesFrom, Nat.add_div_left _ hpos, Nat.add_mod_left, u32, u32, u32]
  congr 1
  omega

theorem exists_oneSector (hone : bios.OneSucceeds) (hfits : off + 2 ^ m.sectShift ≤ 0x8000)
    (lba : ℕ) (s : LoaderState) :
    ∃ s', oneSector m bios lba off s = .ok s' ∧ Reads m off (2 ^ m.sectShift) s s' ∧
      HoldsDisk m bios off (2 ^ m.sectShift) lba s' := by
  have hfits' : Packet.Fits m ⟨1, off, lba⟩ := by
    rw [Packet.Fits, Nat.one_mul]
    exact hfits
  obtain ⟨hreads, hok, hholds⟩ :=
    readTries_reads bios hfits' (bios.one s.ones) [0, 1, 2] s
  obtain ⟨t, ht, hreply⟩ := hone s.ones
  have hread := hok.mpr ⟨t, by simp; omega, hreply⟩
  rw [Nat.one_mul] at hreads hholds
  rw [oneSector]
  exact ⟨_, if_pos hread, hreads.of_eq rfl rfl, hholds hread⟩

/-- **The slow path** fills the buffer sector by sector. -/
theorem exists_oneLoop (hone : bios.OneSucceeds) (more lba off : ℕ) (s : LoaderState)
    (hfits : off + (more + 1) * 2 ^ m.sectShift ≤ 0x8000) :
    ∃ s', oneLoop m bios more lba off s = .ok s' ∧
      Reads m off ((more + 1) * 2 ^ m.sectShift) s s' ∧
      HoldsDisk m bios off ((more + 1) * 2 ^ m.sectShift) lba s' := by
  induction more generalizing lba off s with
  | zero =>
    rw [Nat.zero_add, Nat.one_mul] at hfits ⊢
    exact exists_oneSector hone hfits lba s
  | succ more ih =>
    have hpos := Nat.two_pow_pos m.sectShift
    rw [Nat.succ_mul (more + 1)] at hfits ⊢
    have hnext : (off + 1 <<< m.sectShift) % 0x10000 = off + 2 ^ m.sectShift := by
      rw [Nat.one_shiftLeft, Nat.mod_eq_of_lt (by omega)]
    obtain ⟨s₁, hfirst, hreads₁, hholds₁⟩ :=
      exists_oneSector hone (by omega : off + 2 ^ m.sectShift ≤ 0x8000) lba s
    obtain ⟨s₂, hrest, hreads₂, hholds₂⟩ :=
      ih (u32 (lba + 1)) (off + 2 ^ m.sectShift) s₁ (by omega)
    refine ⟨s₂, ?_, (hreads₁.mono le_rfl (by omega)).trans (hreads₂.mono (by omega) (by omega)), ?_⟩
    · rw [oneLoop, hfirst, hnext]
      exact hrest
    · intro i hi
      by_cases hlt : i < 2 ^ m.sectShift
      · -- the first sector is left alone by the others
        rw [hreads₂.mem _ (by omega), hholds₁ i hlt]
      · have hi' := hholds₂ (i - 2 ^ m.sectShift) (by omega)
        rw [bios.bytesFrom_succ, Nat.add_sub_cancel' (not_lt.mp hlt)] at hi'
        rw [← hi']
        congr 1
        omega

/-! ### All sectors -/

/-- **Reading sectors.** When single-sector reads succeed within their three tries, the buffer holds
the sectors, and nothing else has changed in memory. -/
theorem exists_readSectors (hone : bios.OneSucceeds) (hcount : 0 < count)
    (hfits : count * 2 ^ m.sectShift ≤ 0x8000) (lba : ℕ) (s : LoaderState) :
    ∃ s', readSectors m bios lba count s = .ok s' ∧ Reads m 0 (count * 2 ^ m.sectShift) s s' ∧
      HoldsDisk m bios 0 (count * 2 ^ m.sectShift) lba s' := by
  have hle : count ≤ count * 2 ^ m.sectShift := Nat.le_mul_of_pos_right _ (Nat.two_pow_pos _)
  have hmod : count % 0x10000 = count := Nat.mod_eq_of_lt (by omega)
  have hfits' : Packet.Fits m ⟨count, 0, lba⟩ := by
    rw [Packet.Fits, Nat.zero_add]
    exact hfits
  obtain ⟨hreads, -, hholds⟩ := readTries_reads bios hfits' (bios.many s.calls) [0, 1, 2] s
  rw [readSectors, hmod]
  generalize readTries m bios (bios.many s.calls) ⟨count, 0, lba⟩ [0, 1, 2] s = r at *
  have hreads' : Reads m 0 (count * 2 ^ m.sectShift) s { r.2 with calls := r.2.calls + 1 } :=
    hreads.of_eq rfl rfl
  dsimp only
  by_cases hread : r.1 = true
  · rw [if_pos hread]
    exact ⟨_, rfl, hreads', hholds hread⟩
  · have hmore : (count + 0xFFFF) % 0x10000 + 1 = count := by omega
    obtain ⟨s', hloop, hslow, hholds'⟩ := exists_oneLoop (m := m) hone
      ((count + 0xFFFF) % 0x10000) lba 0 { r.2 with calls := r.2.calls + 1 }
      (by rw [hmore, Nat.zero_add]; exact hfits)
    rw [hmore] at hslow hholds'
    rw [if_neg hread]
    exact ⟨s', hloop, hreads'.trans hslow, hholds'⟩

end ChalesOs
