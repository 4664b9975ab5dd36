import Mathlib.Data.List.Basic
import ChalesOs.Memory.Layout
import ChalesOs.Memory.Words

/-!
# ELF32 images: headers, validation, extent

The loader sees an image through a pointer and a size. `Image` keeps exactly that: a size, and
what byte `i` of the image is when the memory is `m`. An image that is a separate byte string
ignores the memory (`Image.ofBytes`); one that lies in the memory it is loaded into reads from
it (`Image.inMemory`).

Reads are checked: `readEhdr`, `readPhdr` and `readBytes` are `none` as soon as one byte of what
they read has an index at or above the size. A function that returns `some` has therefore read
inside the image, and `elfValidate`, `elfExtent` (and `elfLoad` in `Elf/Loader.lean`) are proved
never to be `none`. Their own failures are values: the `-1` of the C code is an `ElfError`.

All header fields are unsigned numbers of 16 or 32 bits; sums that the C code takes in 64 bits
are sums of natural numbers.
-/

namespace ChalesOs

/-- An image as the loader sees it: its size, and its bytes in a given memory. -/
structure Image where
  size : ℕ
  byte : Mem → ℕ → UInt8

/-- An image kept outside the memory, as a byte string. -/
def Image.ofBytes (bytes : List UInt8) : Image where
  size := bytes.length
  byte _ i := bytes.getD i 0

/-- An image that lies in the memory, from the address `base` on. -/
def Image.inMemory (base size : ℕ) : Image where
  size := size
  byte m i := m (base + i)

/-- The 16-bit little-endian number at the offset `off`. -/
def Image.half (img : Image) (m : Mem) (off : ℕ) : ℕ :=
  (img.byte m off).toNat + 0x100 * (img.byte m (off + 1)).toNat

/-- The 32-bit little-endian number at the offset `off`. -/
def Image.word (img : Image) (m : Mem) (off : ℕ) : ℕ :=
  img.half m off + 0x10000 * img.half m (off + 2)

/-- The fields of `elf32_ehdr_t` the loader looks at. -/
structure Ehdr where
  eiMag0 : UInt8
  eiMag1 : UInt8
  eiMag2 : UInt8
  eiMag3 : UInt8
  eiClass : UInt8
  eiData : UInt8
  eType : ℕ
  eMachine : ℕ
  eEntry : ℕ
  ePhoff : ℕ
  ePhentsize : ℕ
  ePhnum : ℕ

/-- The fields of `elf32_phdr_t` the loader looks at. -/
structure Phdr where
  pType : ℕ
  pOffset : ℕ
  pVaddr : ℕ
  pFilesz : ℕ
  pMemsz : ℕ

/-- `sizeof(elf32_ehdr_t)`. -/
def ehdrSize : ℕ := 52

/-- `sizeof(elf32_phdr_t)`. -/
def phdrSize : ℕ := 32

/-- `PT_LOAD`. -/
def ptLoad : ℕ := 1

/-- The header at the start of an image. -/
def Image.ehdr (img : Image) (m : Mem) : Ehdr where
  eiMag0 := img.byte m 0
  eiMag1 := img.byte m 1
  eiMag2 := img.byte m 2
  eiMag3 := img.byte m 3
  eiClass := img.byte m 4
  eiData := img.byte m 5
  eType := img.half m 16
  eMachine := img.half m 18
  eEntry := img.word m 24
  ePhoff := img.word m 28
  ePhentsize := img.half m 42
  ePhnum := img.half m 44

/-- The offset of entry `i` of the program header table. -/
def Ehdr.phdrOff (eh : Ehdr) (i : ℕ) : ℕ := eh.ePhoff + i * eh.ePhentsize

/-- The program header at the offset `off`. -/
def Image.phdr (img : Image) (m : Mem) (off : ℕ) : Phdr where
  pType := img.word m off
  pOffset := img.word m (off + 4)
  pVaddr := img.word m (off + 8)
  pFilesz := img.word m (off + 16)
  pMemsz := img.word m (off + 20)

/-- The checked read of the image header. -/
def readEhdr (img : Image) (m : Mem) : Option Ehdr :=
  if ehdrSize ≤ img.size then some (img.ehdr m) else none

/-- The checked read of entry `i` of the program header table. -/
def readPhdr (img : Image) (m : Mem) (eh : Ehdr) (i : ℕ) : Option Phdr :=
  if eh.phdrOff i + phdrSize ≤ img.size then some (img.phdr m (eh.phdrOff i)) else none

/-- The ways in which the loader refuses an image, with the numbers it prints: `i` is the
index of the program header. -/
inductive ElfError
  | tooSmall
  | badMagic
  | notClass32
  | notLittleEndian
  | notExec
  | not386
  | noPhdrs
  | phentTooSmall
  | phtabPastEnd
  | fileszGtMemsz (i : ℕ)
  | fileRange (i : ℕ)
  | pastLimit (i : ℕ)
  | overlapsKernel (i segStart segEnd kernelStart kernelEnd : ℕ)
  | badEntry (entry : ℕ)
  deriving DecidableEq

/-- `elf_validate`: the header, if everything the loader relies on before it walks the table
is in order. -/
def elfValidate (img : Image) (m : Mem) : Option (Except ElfError Ehdr) :=
  if img.size < ehdrSize then some (.error .tooSmall)
  else (readEhdr img m).map fun eh =>
    if eh.eiMag0 ≠ 0x7f ∨ eh.eiMag1 ≠ 0x45 ∨ eh.eiMag2 ≠ 0x4c ∨ eh.eiMag3 ≠ 0x46 then
      .error .badMagic
    else if eh.eiClass ≠ 1 then .error .notClass32
    else if eh.eiData ≠ 1 then .error .notLittleEndian
    else if eh.eType ≠ 2 then .error .notExec
    else if eh.eMachine ≠ 3 then .error .not386
    else if eh.ePhoff = 0 ∨ eh.ePhnum = 0 then .error .noPhdrs
    else if eh.ePhentsize < phdrSize then .error .phentTooSmall
    else if eh.ePhoff + eh.ePhnum * eh.ePhentsize > img.size then .error .phtabPastEnd
    else .ok eh

/-- The loop of `elf_extent`, `n` entries before the end of the table. -/
def elfExtentLoop (img : Image) (m : Mem) (eh : Ehdr) :
    (n i lo hi : ℕ) → Option (Option (ℕ × ℕ))
  | 0, _, lo, hi => some (if hi = 0 then none else some (lo, hi))
  | n + 1, i, lo, hi => do
    let ph ← readPhdr img m eh i
    if ph.pType ≠ ptLoad then elfExtentLoop img m eh n (i + 1) lo hi
    else
      let segEnd := ph.pVaddr + ph.pMemsz
      if segEnd > elfLoadLimit then some none
      else
        elfExtentLoop img m eh n (i + 1) (if ph.pVaddr < lo then ph.pVaddr else lo)
          (if segEnd > hi then segEnd else hi)

/-- `elf_extent`: the lowest and highest address the `PT_LOAD` entries cover, `some none` for
the `-1` of an image it refuses. -/
def elfExtent (img : Image) (m : Mem) : Option (Option (ℕ × ℕ)) := do
  match ← elfValidate img m with
  | .error _ => some none
  | .ok eh => elfExtentLoop img m eh eh.ePhnum 0 0xFFFFFFFF 0

/-! ### The table of a valid image -/

/-- What `elfValidate` has established when it accepts. -/
structure Ehdr.Valid (img : Image) (eh : Ehdr) : Prop where
  phdrSize_le : phdrSize ≤ eh.ePhentsize
  table_le : eh.ePhoff + eh.ePhnum * eh.ePhentsize ≤ img.size

/-- `elf_validate` reads inside the image, whatever the image is. -/
theorem elfValidate_isSome (img : Image) (m : Mem) : (elfValidate img m).isSome := by
  rw [elfValidate]
  by_cases h : img.size < ehdrSize
  · rw [if_pos h]
    rfl
  · rw [if_neg h, readEhdr, if_pos (by omega)]
    rfl

/-- What has been accepted behind a check has passed the check. -/
theorem of_check_ok {c : Prop} [Decidable c] {e : ElfError} {v : Except ElfError Ehdr} {eh : Ehdr}
    (h : (if c then .error e else v) = .ok eh) : ¬c ∧ v = .ok eh := by
  by_cases hc : c
  · rw [if_pos hc] at h
    cases h
  · rw [if_neg hc] at h
    exact ⟨hc, h⟩

/-- An accepted header is the image's own, and its table fits. -/
theorem elfValidate_ok {img : Image} {m : Mem} {eh : Ehdr}
    (h : elfValidate img m = some (.ok eh)) : eh = img.ehdr m ∧ eh.Valid img := by
  rw [elfValidate] at h
  by_cases hsize : img.size < ehdrSize
  · simp [hsize] at h
  · have hread : readEhdr img m = some (img.ehdr m) := if_pos (by omega)
    rw [if_neg hsize, hread, Option.map_some, Option.some.injEq] at h
    -- the identification, the kind of file and the machine
    obtain ⟨-, h⟩ := of_check_ok h
    obtain ⟨-, h⟩ := of_check_ok h
    obtain ⟨-, h⟩ := of_check_ok h
    obtain ⟨-, h⟩ := of_check_ok h
    obtain ⟨-, h⟩ := of_check_ok h
    -- the table
    obtain ⟨-, h⟩ := of_check_ok h
    obtain ⟨hentry, h⟩ := of_check_ok h
    obtain ⟨htable, h⟩ := of_check_ok h
    obtain rfl := Except.ok.inj h
    exact ⟨rfl, not_lt.mp hentry, not_lt.mp htable⟩

/-- Every entry of a valid table can be read. -/
theorem Ehdr.Valid.readPhdr {img : Image} {eh : Ehdr} (h : eh.Valid img) {m : Mem} {i : ℕ}
    (hi : i < eh.ePhnum) : readPhdr img m eh i = some (img.phdr m (eh.phdrOff i)) := by
  have hmul : (i + 1) * eh.ePhentsize ≤ eh.ePhnum * eh.ePhentsize := Nat.mul_le_mul_right _ hi
  have h₁ := h.phdrSize_le
  have h₂ := h.table_le
  rw [Nat.succ_mul] at hmul
  rw [ChalesOs.readPhdr, if_pos]
  rw [phdrOff]
  omega

/-- The `PT_LOAD` entries among the `n` entries from entry `i` on, in table order. -/
def Image.loadEntriesFrom (img : Image) (m : Mem) (eh : Ehdr) (i n : ℕ) : List Phdr :=
  ((List.range' i n).map fun k => img.phdr m (eh.phdrOff k)).filter (·.pType = ptLoad)

/-- The `PT_LOAD` entries of an image, in table order. -/
def Image.loadEntries (img : Image) (m : Mem) : List Phdr :=
  img.loadEntriesFrom m (img.ehdr m) 0 (img.ehdr m).ePhnum

theorem Image.loadEntriesFrom_zero (img : Image) (m : Mem) (eh : Ehdr) (i : ℕ) :
    img.loadEntriesFrom m eh i 0 = [] := rfl

theorem Image.loadEntriesFrom_succ_of_eq {img : Image} {m : Mem} {eh : Ehdr} {i n : ℕ}
    (h : (img.phdr m (eh.phdrOff i)).pType = ptLoad) :
    img.loadEntriesFrom m eh i (n + 1) =
      img.phdr m (eh.phdrOff i) :: img.loadEntriesFrom m eh (i + 1) n := by
  simp [loadEntriesFrom, List.range'_succ, h]

theorem Image.loadEntriesFrom_succ_of_ne {img : Image} {m : Mem} {eh : Ehdr} {i n : ℕ}
    (h : (img.phdr m (eh.phdrOff i)).pType ≠ ptLoad) :
    img.loadEntriesFrom m eh i (n + 1) = img.loadEntriesFrom m eh (i + 1) n := by
  simp [loadEntriesFrom, List.range'_succ, h]

/-! ### The extent -/

/-- The extent of a separate byte string does not depend on the memory. -/
theorem elfExtent_ofBytes (bytes : List UInt8) (m m' : Mem) :
    elfExtent (.ofBytes bytes) m = elfExtent (.ofBytes bytes) m' := by
  have hloop : ∀ eh n i lo hi, elfExtentLoop (.ofBytes bytes) m eh n i lo hi =
      elfExtentLoop (.ofBytes bytes) m' eh n i lo hi := by
    intro eh n
    induction n with
    | zero => exact fun _ _ _ => rfl
    | succ n ih =>
      intro i lo hi
      simp only [elfExtentLoop, ih]
      rfl
  simp only [elfExtent, hloop]
  rfl

/-- The end of an entry's segment, as a 64-bit sum. -/
def Phdr.segEnd (ph : Phdr) : ℕ := ph.pVaddr + ph.pMemsz

/-- The extent of entries, from the bounds `lo` and `hi` on. -/
def extentFrom (lo hi : ℕ) (phs : List Phdr) : Option (ℕ × ℕ) :=
  let hi := (phs.map Phdr.segEnd).foldl max hi
  if hi = 0 then none else some ((phs.map Phdr.pVaddr).foldl min lo, hi)

/-- The loop reads inside the image, and computes the extent of the entries it passes if they
all end below the limit. -/
private theorem elfExtentLoop_eq {img : Image} {m : Mem} {eh : Ehdr} (hv : eh.Valid img)
    (n i lo hi : ℕ) (hn : i + n = eh.ePhnum) :
    elfExtentLoop img m eh n i lo hi =
      some (if ∀ ph ∈ img.loadEntriesFrom m eh i n, ph.segEnd ≤ elfLoadLimit then
        extentFrom lo hi (img.loadEntriesFrom m eh i n) else none) := by
  induction n generalizing i lo hi with
  | zero =>
    rw [Image.loadEntriesFrom_zero, if_pos (List.forall_mem_nil _)]
    rfl
  | succ n ih =>
    simp only [elfExtentLoop, hv.readPhdr (m := m) (show i < eh.ePhnum by omega),
      Option.bind_eq_bind, Option.bind_some]
    set ph := img.phdr m (eh.phdrOff i) with hph
    by_cases hload : ph.pType = ptLoad
    · rw [if_neg (not_not.mpr hload), Image.loadEntriesFrom_succ_of_eq hload, ← hph]
      by_cases hlim : ph.segEnd ≤ elfLoadLimit
      · have hmin : (if ph.pVaddr < lo then ph.pVaddr else lo) = min lo ph.pVaddr := by
          split_ifs <;> omega
        have hmax : (if ph.segEnd > hi then ph.segEnd else hi) = max hi ph.segEnd := by
          split_ifs <;> omega
        rw [← Phdr.segEnd, if_neg (not_lt.mpr hlim), hmin, hmax, ih (i + 1) _ _ (by omega)]
        simp only [List.forall_mem_cons, hlim, true_and, extentFrom, List.map_cons, List.foldl_cons]
      · rw [← Phdr.segEnd, if_pos (not_le.mp hlim),
          if_neg fun h => hlim (h ph List.mem_cons_self)]
    · rw [if_pos hload, Image.loadEntriesFrom_succ_of_ne hload]
      exact ih (i + 1) lo hi (by omega)

/-- `elf_extent` in closed form. -/
theorem elfExtent_eq (img : Image) (m : Mem) :
    elfExtent img m = (elfValidate img m).map fun v =>
      match v with
      | .error _ => none
      | .ok _ =>
        if ∀ ph ∈ img.loadEntries m, ph.segEnd ≤ elfLoadLimit then
          extentFrom 0xFFFFFFFF 0 (img.loadEntries m)
        else none := by
  obtain ⟨v, hv⟩ := Option.isSome_iff_exists.mp (elfValidate_isSome img m)
  simp only [elfExtent, hv, Option.bind_eq_bind, Option.bind_some, Option.map_some]
  cases v with
  | error e => rfl
  | ok eh =>
    obtain ⟨rfl, hvalid⟩ := elfValidate_ok hv
    exact elfExtentLoop_eq hvalid _ 0 _ _ (Nat.zero_add _)

/-- An extent's bounds are those of the entries, or what they started from, and bound them all. -/
theorem extentFrom_spec {lo hi lo' hi' : ℕ} {phs : List Phdr}
    (h : extentFrom lo hi phs = some (lo', hi')) :
    hi' ≠ 0 ∧ (lo' = lo ∨ ∃ ph ∈ phs, ph.pVaddr = lo') ∧ (hi' = hi ∨ ∃ ph ∈ phs, ph.segEnd = hi') ∧
      lo' ≤ lo ∧ hi ≤ hi' ∧ ∀ ph ∈ phs, lo' ≤ ph.pVaddr ∧ ph.segEnd ≤ hi' := by
  rw [extentFrom] at h
  split_ifs at h with hzero
  cases h
  obtain ⟨hmem, hmin⟩ := List.min?_eq_some_iff.mp (List.min?_cons' (x := lo))
  obtain ⟨hmem', hmax⟩ := List.max?_eq_some_iff.mp (List.max?_cons' (x := hi))
  rw [List.mem_cons, List.mem_map] at hmem hmem'
  rw [List.forall_mem_cons, List.forall_mem_map] at hmin hmax
  exact ⟨hzero, hmem, hmem', hmin.1, hmax.1, fun ph hph => ⟨hmin.2 ph hph, hmax.2 ph hph⟩⟩

/-- What `elf_extent` has found when it succeeds. -/
theorem elfExtent_some {img : Image} {m : Mem} {lo hi : ℕ}
    (h : elfExtent img m = some (some (lo, hi))) :
    (∀ ph ∈ img.loadEntries m, ph.segEnd ≤ elfLoadLimit) ∧
      extentFrom 0xFFFFFFFF 0 (img.loadEntries m) = some (lo, hi) := by
  rw [elfExtent_eq] at h
  obtain ⟨v, -, hv⟩ := Option.map_eq_some_iff.mp h
  cases v with
  | error e => cases hv
  | ok eh =>
    dsimp only at hv
    split_ifs at hv with hlim
    exact ⟨hlim, hv⟩

/-- **What `elf_extent` reports.** It reads inside the image; when it succeeds with `(lo, hi)`,
every `PT_LOAD` entry lies in `[lo, hi)`, and this range is below 4 MiB. -/
theorem elfExtent_spec (img : Image) (m : Mem) : ∃ r, elfExtent img m = some r ∧
    ∀ lo hi, r = some (lo, hi) → lo ≤ hi ∧ hi ≠ 0 ∧ hi ≤ elfLoadLimit ∧
      ∀ ph ∈ img.loadEntries m, lo ≤ ph.pVaddr ∧ ph.pVaddr + ph.pMemsz ≤ hi := by
  obtain ⟨v, hv⟩ := Option.isSome_iff_exists.mp (elfValidate_isSome img m)
  obtain ⟨r, hr⟩ : ∃ r, elfExtent img m = some r := ⟨_, by rw [elfExtent_eq, hv, Option.map_some]⟩
  refine ⟨r, hr, fun lo hi h => ?_⟩
  obtain ⟨hlim, hext⟩ := elfExtent_some (h ▸ hr)
  obtain ⟨hzero, -, hhi, -, -, hall⟩ := extentFrom_spec hext
  obtain ⟨ph, hph, rfl⟩ := hhi.resolve_left hzero
  exact ⟨(hall ph hph).1.trans (Nat.le_add_right _ _), hzero, hlim ph hph, hall⟩

end ChalesOs
