import Mathlib.Data.Nat.Bitwise
import ChalesOs.Boot.ReadSectors

/-!
# How the boot loader loads a segment

`load_segment` of `stage2.S` clears the memory of a segment, and then copies its bytes from the
kernel image in rounds. A round reads the sectors that hold the next bytes, at most a buffer full,
and copies the bytes of the segment that are in them. The first byte may lie anywhere in the first
sector; `chunkUnits` and `chunkBytes` are the two numbers the code computes from this.

`chunkBytes_spec` says that a round makes progress and stays inside what has been read, whatever
the residues are, and `exists_chunkLoop` that all rounds together copy the segment.
`loadSegment_copies` is the result about `load_segment` on both media.
-/

namespace ChalesOs

open ByteMemory

/-- What `load_segment` reads of a program header: `p_offset`, `p_paddr`, `p_filesz` and
`p_memsz`. -/
structure LoadRequest where
  off : ℕ
  dest : ℕ
  filesz : ℕ
  memsz : ℕ

/-- `rep movs byte ptr es:[edi], byte ptr ds:[esi]`, with `ECX = n`. -/
def repMovs : (n edi esi : ℕ) → Mem → Mem
  | 0, _, _, mem => mem
  | n + 1, edi, esi, mem =>
    repMovs n (u32 (edi + 1)) (u32 (esi + 1)) (Function.update mem edi (mem esi))

/-- The sectors to read in a round: `EBX` at `count_ok`. -/
def chunkUnits (m : Medium) (segOff segFilesz : ℕ) : ℕ :=
  let units := u32 (u32 (segFilesz + (segOff &&& m.unitMask)) + m.unitMask) >>> m.sectShift
  if units ≤ m.bounceUnits then units else m.bounceUnits

/-- The bytes to copy in a round: `ECX` at `size_ok`. -/
def chunkBytes (m : Medium) (segOff segFilesz : ℕ) : ℕ :=
  let usable := u32 (u32 (chunkUnits m segOff segFilesz <<< m.sectShift) + 0x100000000 -
    (segOff &&& m.unitMask))
  if segFilesz ≤ usable then segFilesz else usable

/-- The loop `chunk`, with a number of rounds after which it has no outcome. -/
def chunkLoop (m : Medium) (bios : Bios) :
    (fuel segOff segFilesz edi : ℕ) → LoaderState → Option (Except LoadError LoaderState)
  | 0, _, _, _, _ => none
  | fuel + 1, segOff, segFilesz, edi, s =>
    if segFilesz = 0 then some (.ok s)
    else
      match readSectors m bios (u32 (segOff >>> m.sectShift + m.kernelBase))
          (chunkUnits m segOff segFilesz) s with
      | .error e => some (.error e)
      | .ok s =>
        let n := chunkBytes m segOff segFilesz
        chunkLoop m bios fuel (u32 (segOff + n)) (segFilesz - n) (u32 (edi + n))
          { s with mem := repMovs n edi (bounceAddr + (segOff &&& m.unitMask)) s.mem }

/-- The `load_segment` of `stage2.S`. -/
def Stage2.loadSegment (m : Medium) (bios : Bios) (fuel : ℕ) (seg : LoadRequest)
    (s : LoaderState) : Option (Except LoadError LoaderState) :=
  if seg.dest < 0x100000 then some (.error .badKernel)
  else if seg.dest + seg.memsz ≥ 0x100000000 then some (.error .badKernel)
  else chunkLoop m bios fuel seg.off seg.filesz seg.dest
    { s with mem := fill s.mem seg.dest seg.memsz 0 }

/-! ### What it is meant to do -/

/-- The kernel image on the medium. -/
def Bios.image (bios : Bios) (m : Medium) : ℕ → UInt8 := bios.bytesFrom m m.kernelBase

/-- The segment is in memory: its bytes of the kernel image, and zeros behind them. Nothing but
the segment and the bounce buffer has changed, and every request has stayed inside the buffer. -/
structure Loads (m : Medium) (bios : Bios) (seg : LoadRequest) (s s' : LoaderState) : Prop where
  segment : slice s'.mem seg.dest seg.memsz =
    slice (bios.image m) seg.off seg.filesz ++ List.replicate (seg.memsz - seg.filesz) 0
  requests : ∃ new, s'.requests = s.requests ++ new ∧ ∀ dap ∈ new, dap.Fits m
  others : Set.EqOn s'.mem s.mem (Set.Ico seg.dest (seg.dest + seg.memsz) ∪
    Set.Ico bounceAddr (bounceAddr + 0x8000))ᶜ

/-! ### The numbers of a round -/

variable {m : Medium} {bios : Bios} {s s' : LoaderState} {off filesz edi esi n : ℕ}

theorem Medium.and_unitMask (m : Medium) (x : ℕ) : x &&& m.unitMask = x % 2 ^ m.sectShift := by
  have hmask : m.unitMask = 2 ^ m.sectShift - 1 := by rw [← m.unitMask_succ, Nat.add_sub_cancel]
  rw [hmask, Nat.and_two_pow_sub_one_eq_mod]

/-- The sectors a round reads, in closed form. -/
theorem chunkUnits_eq (hend : off + filesz + 2 ^ m.sectShift < 0x100000000) :
    chunkUnits m off filesz =
      min ((filesz + off % 2 ^ m.sectShift + m.unitMask) / 2 ^ m.sectShift) m.bounceUnits := by
  have hmask := m.unitMask_succ
  have hskip := Nat.mod_le off (2 ^ m.sectShift)
  have hsum : u32 (u32 (filesz + off % 2 ^ m.sectShift) + m.unitMask) =
      filesz + off % 2 ^ m.sectShift + m.unitMask := by
    rw [u32_of_lt (by omega : filesz + off % 2 ^ m.sectShift < 0x100000000), u32_of_lt (by omega)]
  rw [chunkUnits, m.and_unitMask, hsum, Nat.shiftRight_eq_div_pow]
  rfl

/-- A round reads at least one sector, and no more than the buffer holds. -/
theorem chunkUnits_spec (hpos : 0 < filesz) (hend : off + filesz + 2 ^ m.sectShift < 0x100000000) :
    0 < chunkUnits m off filesz ∧ chunkUnits m off filesz * 2 ^ m.sectShift ≤ 0x8000 := by
  have hunit := Nat.two_pow_pos m.sectShift
  have hmask := m.unitMask_succ
  have hbounce : 0 < m.bounceUnits := by
    rw [Nat.pos_iff_ne_zero]
    intro h0
    have hmul := m.bounceUnits_mul
    rw [h0, Nat.zero_mul] at hmul
    exact absurd hmul (by decide)
  rw [chunkUnits_eq hend]
  constructor
  · exact lt_min (Nat.div_pos (by omega) hunit) hbounce
  · exact (Nat.mul_le_mul_right _ (min_le_right _ _)).trans m.bounceUnits_mul.le

/-- The bytes a round copies, in closed form. -/
theorem chunkBytes_eq (hpos : 0 < filesz) (hend : off + filesz + 2 ^ m.sectShift < 0x100000000) :
    chunkBytes m off filesz =
      min filesz (chunkUnits m off filesz * 2 ^ m.sectShift - off % 2 ^ m.sectShift) := by
  obtain ⟨hunits, hbuffer⟩ := chunkUnits_spec hpos hend
  have hskip := Nat.mod_lt off (Nat.two_pow_pos m.sectShift)
  have hle : 2 ^ m.sectShift ≤ chunkUnits m off filesz * 2 ^ m.sectShift :=
    Nat.le_mul_of_pos_left _ hunits
  have husable : u32 (u32 (chunkUnits m off filesz <<< m.sectShift) + 0x100000000 -
      off % 2 ^ m.sectShift) =
      chunkUnits m off filesz * 2 ^ m.sectShift - off % 2 ^ m.sectShift := by
    rw [Nat.shiftLeft_eq, u32, u32]
    omega
  rw [chunkBytes, m.and_unitMask, husable]
  rfl

/-- **A round makes progress**: it copies at least one byte, not more than there are, and only
bytes that have been read. -/
theorem chunkBytes_spec (hpos : 0 < filesz) (hend : off + filesz + 2 ^ m.sectShift < 0x100000000) :
    0 < chunkBytes m off filesz ∧ chunkBytes m off filesz ≤ filesz ∧
      off % 2 ^ m.sectShift + chunkBytes m off filesz ≤
        chunkUnits m off filesz * 2 ^ m.sectShift := by
  have hskip := Nat.mod_lt off (Nat.two_pow_pos m.sectShift)
  have hle : 2 ^ m.sectShift ≤ chunkUnits m off filesz * 2 ^ m.sectShift :=
    Nat.le_mul_of_pos_left _ (chunkUnits_spec hpos hend).1
  rw [chunkBytes_eq hpos hend]
  omega

/-- The bytes of the image in the sectors of a round. -/
theorem Bios.bytesFrom_image (bios : Bios) (m : Medium) (off i : ℕ) :
    bios.bytesFrom m (u32 (off >>> m.sectShift + m.kernelBase)) (off % 2 ^ m.sectShift + i) =
      bios.image m (off + i) := by
  have hsplit : off + i =
      2 ^ m.sectShift * (off / 2 ^ m.sectShift) + (off % 2 ^ m.sectShift + i) := by
    rw [← Nat.add_assoc, Nat.div_add_mod]
  rw [image, bytesFrom, bytesFrom, hsplit, Nat.mul_add_div (Nat.two_pow_pos _), Nat.mul_add_mod,
    Nat.shiftRight_eq_div_pow, u32, u32, u32]
  congr 1
  omega

/-! ### The rounds -/

/-- Copying to higher addresses that do not overlap. -/
theorem repMovs_eq (hesi : esi + n ≤ edi) (hedi : edi + n < 0x100000000) (mem : Mem) :
    repMovs n edi esi mem = copy mem edi mem esi n := by
  induction n generalizing edi esi mem with
  | zero => exact copy_zero.symm
  | succ n ih =>
    rw [repMovs, u32_of_lt (by omega), u32_of_lt (by omega), ih (by omega) (by omega)]
    funext a
    by_cases ha : a = edi
    · rw [copy_of_not_mem (by omega), copy_of_mem (by omega), ha, Function.update_self,
        Nat.sub_self, Nat.add_zero]
    by_cases hmem : edi + 1 ≤ a ∧ a < edi + 1 + n
    · rw [copy_of_mem hmem, copy_of_mem (by omega), Function.update_of_ne (by omega)]
      congr 1
      omega
    · rw [copy_of_not_mem hmem, copy_of_not_mem (by omega), Function.update_of_ne ha]

/-- **All rounds** together copy the segment. -/
theorem exists_chunkLoop (hone : bios.OneSucceeds) (off filesz edi : ℕ) (s : LoaderState)
    (hend : off + filesz + 2 ^ m.sectShift < 0x100000000) (hlow : 0x100000 ≤ edi)
    (hhigh : edi + filesz < 0x100000000) :
    ∃ s', (∀ fuel, filesz < fuel → chunkLoop m bios fuel off filesz edi s = some (.ok s')) ∧
      (∀ i < filesz, s'.mem (edi + i) = bios.image m (off + i)) ∧
      (∀ a, ¬(edi ≤ a ∧ a < edi + filesz) → ¬(bounceAddr ≤ a ∧ a < bounceAddr + 0x8000) →
        s'.mem a = s.mem a) ∧
      ∃ new, s'.requests = s.requests ++ new ∧ ∀ dap ∈ new, dap.Fits m := by
  have hbounce : bounceAddr = 0x10000 := rfl
  induction hfilesz : filesz using Nat.strong_induction_on generalizing off filesz edi s with
  | _ k ih =>
  subst hfilesz
  obtain rfl | hpos := Nat.eq_zero_or_pos filesz
  · refine ⟨s, fun fuel hfuel => ?_, by omega, fun _ _ _ => rfl, [], by simp⟩
    obtain ⟨fuel, rfl⟩ := Nat.exists_eq_succ_of_ne_zero hfuel.ne'
    rw [chunkLoop, if_pos rfl]
  obtain ⟨hunits, hbuffer⟩ := chunkUnits_spec hpos hend
  obtain ⟨hn, hle, hread⟩ := chunkBytes_spec hpos hend
  obtain ⟨s₁, hsectors, hreads, hholds⟩ := exists_readSectors hone hunits hbuffer
    (u32 (off >>> m.sectShift + m.kernelBase)) s
  -- the state behind the first round
  have hmovs : repMovs (chunkBytes m off filesz) edi
      (bounceAddr + off % 2 ^ m.sectShift) s₁.mem =
      copy s₁.mem edi s₁.mem (bounceAddr + off % 2 ^ m.sectShift) (chunkBytes m off filesz) :=
    repMovs_eq (by omega) (by omega) _
  obtain ⟨s₂, hrest, hcopied, hothers, new₂, hnew₂, hfits₂⟩ :=
    ih (filesz - chunkBytes m off filesz) (by omega) (off + chunkBytes m off filesz)
      (filesz - chunkBytes m off filesz) (edi + chunkBytes m off filesz)
      { s₁ with
        mem := copy s₁.mem edi s₁.mem (bounceAddr + off % 2 ^ m.sectShift)
          (chunkBytes m off filesz) }
      (by omega) (by omega) (by omega) rfl
  obtain ⟨new₁, hnew₁, hfits₁⟩ := hreads.requests
  dsimp only at hothers hnew₂
  refine ⟨s₂, fun fuel hfuel => ?_, fun i hi => ?_, fun a ha hbuf => ?_, new₁ ++ new₂, ?_, ?_⟩
  · obtain ⟨fuel, rfl⟩ := Nat.exists_eq_succ_of_ne_zero (Nat.ne_zero_of_lt hfuel)
    rw [chunkLoop, if_neg hpos.ne', hsectors]
    dsimp only
    rw [m.and_unitMask, hmovs, u32_of_lt (by omega), u32_of_lt (by omega)]
    exact hrest fuel (by omega)
  · by_cases hfirst : i < chunkBytes m off filesz
    · rw [hothers _ (by omega) (by omega)]
      have hhold := hholds (off % 2 ^ m.sectShift + i) (by omega)
      rw [bios.bytesFrom_image] at hhold
      rw [← hhold, copy_of_mem (by omega)]
      congr 1
      omega
    · have hcopy := hcopied (i - chunkBytes m off filesz) (by omega)
      rw [Nat.add_assoc, Nat.add_assoc, Nat.add_sub_cancel' (not_lt.mp hfirst)] at hcopy
      exact hcopy
  · rw [hothers a (by omega) hbuf, copy_of_not_mem (by omega), hreads.mem a (by omega)]
  · rw [hnew₂, hnew₁, List.append_assoc]
  · intro dap hdap
    exact (List.mem_append.mp hdap).elim (hfits₁ dap) (hfits₂ dap)

/-- **Segments are copied exactly.** On a disk and on a CD, for a segment with a destination from
1 MiB on, whose memory and whose bytes of the image do not end at the end of the 32-bit numbers,
`load_segment` returns, whatever the replies of the BIOS are, as long as single-sector reads
succeed within their three tries. -/
theorem loadSegment_loads (hone : bios.OneSucceeds) (fileLba : ℕ) (seg : LoadRequest)
    (hsize : seg.filesz ≤ seg.memsz) (hdest : 0x100000 ≤ seg.dest)
    (hmem : seg.dest + seg.memsz < 0x100000000)
    (hoff : seg.off + seg.filesz + 2 ^ (Medium.ofBootInfo fileLba).sectShift < 0x100000000)
    (s : LoaderState) :
    ∃ s', (∀ fuel, seg.filesz < fuel →
        Stage2.loadSegment (Medium.ofBootInfo fileLba) bios fuel seg s = some (.ok s')) ∧
      Loads (Medium.ofBootInfo fileLba) bios seg s s' := by
  have hbounce : bounceAddr = 0x10000 := rfl
  generalize Medium.ofBootInfo fileLba = m at *
  obtain ⟨s', hrun, hcopied, hothers, hrequests⟩ := exists_chunkLoop hone seg.off seg.filesz
    seg.dest { s with mem := fill s.mem seg.dest seg.memsz 0 } hoff hdest (by omega)
  dsimp only at hothers hrequests
  refine ⟨s', fun fuel hfuel => ?_, ?_, hrequests, fun a ha => ?_⟩
  · rw [Stage2.loadSegment, if_neg (by omega), if_neg (by omega)]
    exact hrun fuel hfuel
  · -- the bytes of the image, and what has been cleared behind them
    have hsplit : seg.memsz = seg.filesz + (seg.memsz - seg.filesz) := by omega
    rw [hsplit, slice_add, ← hsplit]
    congr 1
    · exact List.map_congr_left fun i hi => hcopied i (List.mem_range.mp hi)
    · refine List.eq_replicate_iff.mpr ⟨length_slice, fun c hc => ?_⟩
      obtain ⟨i, hi, rfl⟩ := List.mem_map.mp hc
      have hlt := List.mem_range.mp hi
      rw [hothers _ (by omega) (by omega), fill_of_mem (by omega)]
  · simp only [Set.mem_compl_iff, Set.mem_union, Set.mem_Ico, not_or] at ha
    rw [hothers a (by omega) ha.2, fill_of_not_mem ha.1]

/-- A BIOS that refuses every request for several sectors, and reads a single sector at the third
try. -/
def slowBios : Bios where
  sector lba k := UInt8.ofNat (lba + k)
  many _ _ := .failed 1 fun _ => 0xFF
  one _ t := if t = 2 then .ok else .failed 0x80 fun _ => 0xFF

/-- Cleared memory, and no request yet. -/
def LoaderState.zero : LoaderState := ⟨fun _ => 0, 0, [], 0, 0⟩

/-- `loadSegment_loads` for a segment that begins and ends within a sector of a disk. -/
theorem loadSegment_sample :
    ∃ s', Stage2.loadSegment (Medium.ofBootInfo 0) slowBios 2000 ⟨700, 0x100000, 1000, 1200⟩ .zero =
        some (.ok s') ∧
      Loads (Medium.ofBootInfo 0) slowBios ⟨700, 0x100000, 1000, 1200⟩ .zero s' := by
  have hone : slowBios.OneSucceeds := fun _ => ⟨2, by decide, rfl⟩
  obtain ⟨s', hrun, hloads⟩ := loadSegment_loads hone 0 ⟨700, 0x100000, 1000, 1200⟩ (by decide)
    (by decide) (by decide) (by decide) .zero
  exact ⟨s', hrun 2000 (by decide), hloads⟩

end ChalesOs
