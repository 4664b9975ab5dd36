import ChalesOs.Lib.ByteMemory
import ChalesOs.Memory.Paging
import ChalesOs.Elf.Format

/-!
# The ELF loader

`elfLoad` walks the program header table twice: `checkSegments` looks at every `PT_LOAD` entry
without touching anything, `loadSegments` then copies, clears and maps them, and trusts what
the first pass has seen. Both results carry the memory and the page table as they are at that
point, also the `-1` of the first pass, so that all-or-nothing is a theorem and not a
convention.

The image may lie in the memory that is being written, so the second pass reads it through the
current memory. `Image.HeldOutside` is the condition under which this makes no difference: the
image keeps its bytes whatever happens to the memory its segments cover. A separate byte string
always meets it (`Image.heldOutside_ofBytes`).

The abstract side is `Phdr.place`, the effect of one entry on a memory; `elfLoad_spec` says that
a successful load is the fold of `Phdr.place` over the table, and that an unsuccessful one is
nothing at all.
-/

namespace ChalesOs

open ByteMemory

/-- What the loader changes. -/
structure LoadState where
  mem : Mem
  pageTable : PageTable

/-- The checks of the first pass on one `PT_LOAD` entry. -/
def checkSegment (L : Layout) (size i : ℕ) (ph : Phdr) : Except ElfError Unit :=
  let segStart := ph.pVaddr
  let segEnd := ph.pVaddr + ph.pMemsz
  if ph.pFilesz > ph.pMemsz then .error (.fileszGtMemsz i)
  else if ph.pOffset + ph.pFilesz > size then .error (.fileRange i)
  else if segEnd > elfLoadLimit then .error (.pastLimit i)
  else if segStart < L.kernelEnd ∧ segEnd > L.kernelStart then
    .error (.overlapsKernel i segStart segEnd L.kernelStart L.kernelEnd)
  else .ok ()

/-- The first pass, `n` entries before the end of the table. -/
def checkSegments (L : Layout) (img : Image) (m : Mem) (eh : Ehdr) :
    (n i : ℕ) → Option (Except ElfError Unit)
  | 0, _ => some (.ok ())
  | n + 1, i => do
    let ph ← readPhdr img m eh i
    if ph.pType ≠ ptLoad then checkSegments L img m eh n (i + 1)
    else
      match checkSegment L img.size i ph with
      | .error e => some (.error e)
      | .ok () => checkSegments L img m eh n (i + 1)

/-- `memcpy` from the image, checked: `none` when it would read behind the image's end. -/
def copyFromImage (img : Image) (m : Mem) (dst off n : ℕ) : Option Mem :=
  if off + n ≤ img.size then some (copy m dst (img.byte m) off n) else none

/-- The second pass on one `PT_LOAD` entry: copy, clear the tail, map. -/
def loadSegment (img : Image) (ph : Phdr) (st : LoadState) : Option LoadState :=
  let dst := ph.pVaddr
  (if ph.pFilesz > 0 then copyFromImage img st.mem dst ph.pOffset ph.pFilesz
    else some st.mem).map fun mem =>
      { mem := if ph.pMemsz > ph.pFilesz then
            fill mem (dst + ph.pFilesz) (ph.pMemsz - ph.pFilesz) 0
          else mem
        pageTable := pagingMapUserRange st.pageTable ph.pVaddr (ph.pVaddr + ph.pMemsz) }

/-- The second pass, `n` entries before the end of the table. -/
def loadSegments (img : Image) (eh : Ehdr) : (n i : ℕ) → LoadState → Option LoadState
  | 0, _, st => some st
  | n + 1, i, st => do
    let ph ← readPhdr img st.mem eh i
    if ph.pType ≠ ptLoad then loadSegments img eh n (i + 1) st
    else
      let st ← loadSegment img ph st
      loadSegments img eh n (i + 1) st

/-- `elf_load`: the entry point, or the reason for `-1`, with the memory and the page table
it leaves behind. -/
def elfLoad (L : Layout) (img : Image) (st : LoadState) :
    Option (Except ElfError ℕ × LoadState) := do
  match ← elfValidate img st.mem with
  | .error e => some (.error e, st)
  | .ok eh =>
    match ← checkSegments L img st.mem eh eh.ePhnum 0 with
    | .error e => some (.error e, st)
    | .ok () =>
      if eh.eEntry ≥ elfLoadLimit ∨ (eh.eEntry < L.kernelEnd ∧ eh.eEntry ≥ L.kernelStart) then
        some (.error (.badEntry eh.eEntry), st)
      else
        let st ← loadSegments img eh eh.ePhnum 0 st
        some (.ok eh.eEntry, st)

/-! ### The abstract effect of a table -/

/-- The addresses of an entry's segment, `[p_vaddr, p_vaddr + p_memsz)`. -/
def Phdr.Covers (ph : Phdr) (a : ℕ) : Prop := ph.pVaddr ≤ a ∧ a < ph.pVaddr + ph.pMemsz

instance (ph : Phdr) (a : ℕ) : Decidable (ph.Covers a) :=
  inferInstanceAs (Decidable (_ ∧ _))

/-- The memory after one entry has been applied: `p_filesz` bytes of the image from `p_offset`
at `p_vaddr`, then zeros up to `p_memsz`. -/
def Phdr.place (bytes : ℕ → UInt8) (m : Mem) (ph : Phdr) : Mem := fun a =>
  if ph.pVaddr ≤ a ∧ a < ph.pVaddr + ph.pFilesz then bytes (ph.pOffset + (a - ph.pVaddr))
  else if ph.Covers a then 0
  else m a

/-- The image keeps its bytes whatever happens to the memory its segments cover. -/
def Image.HeldOutside (img : Image) (m : Mem) : Prop :=
  ∀ m' : Mem, (∀ a, (∀ ph ∈ img.loadEntries m, ¬ph.Covers a) → m' a = m a) →
    ∀ i, i < img.size → img.byte m' i = img.byte m i

/-- A separate byte string is held outside every memory. -/
theorem Image.heldOutside_ofBytes (bytes : List UInt8) (m : Mem) :
    (Image.ofBytes bytes).HeldOutside m := fun _ _ _ _ => rfl

/-- An image in the memory is held outside the segments when none of them meets its bytes. -/
theorem Image.heldOutside_inMemory {base size : ℕ} {m : Mem}
    (h : ∀ i, i < size → ∀ ph ∈ (Image.inMemory base size).loadEntries m, ¬ph.Covers (base + i)) :
    (Image.inMemory base size).HeldOutside m :=
  fun _ hm i hi => hm (base + i) (h i hi)

/-- An entry changes nothing outside its segment. -/
theorem Phdr.place_of_not_covers {bytes : ℕ → UInt8} {m : Mem} {ph : Phdr} {a : ℕ}
    (hsz : ph.pFilesz ≤ ph.pMemsz) (h : ¬ph.Covers a) : ph.place bytes m a = m a := by
  rw [place, if_neg, if_neg h]
  rintro ⟨h₁, h₂⟩
  exact h ⟨h₁, by omega⟩

/-! ### The two passes -/

/-- What the first pass has established about a `PT_LOAD` entry when it lets it pass. -/
structure Phdr.Checked (L : Layout) (size : ℕ) (ph : Phdr) : Prop where
  filesz_le : ph.pFilesz ≤ ph.pMemsz
  file_le : ph.pOffset + ph.pFilesz ≤ size
  limit : ph.pVaddr + ph.pMemsz ≤ elfLoadLimit
  off_kernel : L.kernelEnd ≤ ph.pVaddr ∨ ph.pVaddr + ph.pMemsz ≤ L.kernelStart

private theorem checkSegment_ok {L : Layout} {size i : ℕ} {ph : Phdr} :
    checkSegment L size i ph = .ok () ↔ ph.Checked L size := by
  rw [checkSegment]
  constructor
  · intro h
    split_ifs at h with h₁ h₂ h₃ h₄
    exact ⟨by omega, by omega, by omega, by omega⟩
  · rintro ⟨h₁, h₂, h₃, h₄⟩
    rw [if_neg (by omega), if_neg (by omega), if_neg (by omega), if_neg (by omega)]

/-- The first pass reads inside the image, and lets a table pass exactly when it lets every
`PT_LOAD` entry pass. -/
private theorem checkSegments_spec (L : Layout) {img : Image} {m : Mem} {eh : Ehdr}
    (hv : eh.Valid img) (n i : ℕ) (hn : i + n = eh.ePhnum) :
    ∃ r, checkSegments L img m eh n i = some r ∧
      (r = .ok () ↔ ∀ ph ∈ img.loadEntriesFrom m eh i n, ph.Checked L img.size) := by
  induction n generalizing i with
  | zero => exact ⟨_, rfl, iff_of_true rfl (List.forall_mem_nil _)⟩
  | succ n ih =>
    obtain ⟨r, hr, hspec⟩ := ih (i + 1) (by omega)
    simp only [checkSegments, hv.readPhdr (m := m) (show i < eh.ePhnum by omega),
      Option.bind_eq_bind, Option.bind_some]
    by_cases hload : (img.phdr m (eh.phdrOff i)).pType = ptLoad
    · rw [if_neg (not_not.mpr hload), Image.loadEntriesFrom_succ_of_eq hload]
      simp only [List.forall_mem_cons, ← checkSegment_ok (i := i)]
      cases hc : checkSegment L img.size i (img.phdr m (eh.phdrOff i)) with
      | error e => exact ⟨_, rfl, by simp⟩
      | ok u => exact ⟨r, hr, by simp [hspec, ← checkSegment_ok (i := i)]⟩
    · rw [if_pos hload, Image.loadEntriesFrom_succ_of_ne hload]
      exact ⟨r, hr, hspec⟩

/-- A program header depends on the image's bytes only. -/
private theorem phdr_congr {img : Image} {m m' : Mem} {off : ℕ}
    (h : ∀ i, i < img.size → img.byte m' i = img.byte m i) (hoff : off + phdrSize ≤ img.size) :
    img.phdr m' off = img.phdr m off := by
  have hb : ∀ k, k < phdrSize → img.byte m' (off + k) = img.byte m (off + k) :=
    fun k hk => h _ (by omega)
  have hw : ∀ k, k + 3 < phdrSize → img.word m' (off + k) = img.word m (off + k) := by
    intro k hk
    simp only [Image.word, Image.half]
    rw [hb k (by omega), Nat.add_assoc off k 1, hb (k + 1) (by omega), Nat.add_assoc off k 2,
      hb (k + 2) (by omega), Nat.add_assoc off (k + 2) 1, hb (k + 2 + 1) (by omega)]
  simp only [Image.phdr]
  rw [show img.word m' off = img.word m off from hw 0 (by decide), hw 4 (by decide),
    hw 8 (by decide), hw 16 (by decide), hw 20 (by decide)]

/-- The second pass on a checked entry applies it, and maps its pages. -/
private theorem loadSegment_spec {L : Layout} {img : Image} {m : Mem} {ph : Phdr}
    {st : LoadState} (hc : ph.Checked L img.size)
    (hb : ∀ i, i < img.size → img.byte st.mem i = img.byte m i) :
    loadSegment img ph st = some ⟨ph.place (img.byte m) st.mem,
      pagingMapUserRange st.pageTable ph.pVaddr (ph.pVaddr + ph.pMemsz)⟩ := by
  have h₁ := hc.filesz_le
  have h₂ := hc.file_le
  -- the two guarded stores, put together, are `Phdr.place`
  have hcopy : (if ph.pFilesz > 0 then copyFromImage img st.mem ph.pVaddr ph.pOffset ph.pFilesz
      else some st.mem) = some (copy st.mem ph.pVaddr (img.byte m) ph.pOffset ph.pFilesz) := by
    split_ifs with hpos
    · rw [copyFromImage, if_pos h₂, Option.some.injEq]
      funext a
      simp only [copy]
      split_ifs with ha
      · exact hb _ (by omega)
      · rfl
    · rw [show ph.pFilesz = 0 by omega, copy_zero]
  have hmem : (if ph.pMemsz > ph.pFilesz then
        fill (copy st.mem ph.pVaddr (img.byte m) ph.pOffset ph.pFilesz)
          (ph.pVaddr + ph.pFilesz) (ph.pMemsz - ph.pFilesz) 0
      else copy st.mem ph.pVaddr (img.byte m) ph.pOffset ph.pFilesz) =
      ph.place (img.byte m) st.mem := by
    funext a
    rw [ite_apply, Phdr.place]
    by_cases hfile : ph.pVaddr ≤ a ∧ a < ph.pVaddr + ph.pFilesz
    · rw [fill_of_not_mem (by omega), ite_self, copy_of_mem hfile, if_pos hfile]
    · rw [if_neg hfile, copy_of_not_mem hfile]
      by_cases hcov : ph.Covers a
      · have hcov' := hcov
        rw [Phdr.Covers] at hcov'
        rw [if_pos (by omega), if_pos hcov, fill_of_mem (by omega)]
      · have hcov' := hcov
        rw [Phdr.Covers] at hcov'
        rw [if_neg hcov, fill_of_not_mem (by omega), copy_of_not_mem hfile, ite_self]
  rw [← hmem, loadSegment, hcopy]
  rfl

/-- The second pass on a checked table applies its entries in table order. -/
private theorem loadSegments_spec {L : Layout} {img : Image} {m : Mem} {eh : Ehdr}
    (hv : eh.Valid img) (hheld : img.HeldOutside m)
    (hc : ∀ ph ∈ img.loadEntries m, ph.Checked L img.size) (n i : ℕ) (hn : i + n = eh.ePhnum)
    (st : LoadState)
    (hst : ∀ a, (∀ ph ∈ img.loadEntries m, ¬ph.Covers a) → st.mem a = m a)
    (hsub : ∀ ph ∈ img.loadEntriesFrom m eh i n, ph ∈ img.loadEntries m) :
    loadSegments img eh n i st = some
      ⟨(img.loadEntriesFrom m eh i n).foldl (Phdr.place (img.byte m)) st.mem,
        (img.loadEntriesFrom m eh i n).foldl
          (fun pt ph => pagingMapUserRange pt ph.pVaddr (ph.pVaddr + ph.pMemsz)) st.pageTable⟩ := by
  induction n generalizing i st with
  | zero => rfl
  | succ n ih =>
    have hi : i < eh.ePhnum := by omega
    -- nothing loaded so far reaches the image, so its table reads as before
    have hb := hheld st.mem hst
    have hread := hv.readPhdr (m := st.mem) hi
    have hoff : eh.phdrOff i + phdrSize ≤ img.size := by
      by_contra hcon
      rw [readPhdr, if_neg hcon] at hread
      simp at hread
    rw [phdr_congr hb hoff] at hread
    simp only [loadSegments, hread, Option.bind_eq_bind, Option.bind_some]
    by_cases hload : (img.phdr m (eh.phdrOff i)).pType = ptLoad
    · rw [Image.loadEntriesFrom_succ_of_eq hload] at hsub ⊢
      have hmem := hsub _ List.mem_cons_self
      rw [if_neg (not_not.mpr hload), loadSegment_spec (hc _ hmem) hb, Option.bind_some,
        List.foldl_cons, List.foldl_cons]
      -- the byte that is placed now is covered by a segment of the table
      refine ih (i + 1) (by omega) _ (fun a ha => ?_) fun ph hph => hsub ph (.tail _ hph)
      exact (Phdr.place_of_not_covers (hc _ hmem).filesz_le (ha _ hmem)).trans (hst a ha)
    · rw [Image.loadEntriesFrom_succ_of_ne hload] at hsub ⊢
      rw [if_pos hload]
      exact ih (i + 1) (by omega) st hst hsub

/-- A fold of entries changes nothing outside their segments. -/
theorem foldl_place_of_not_covers {bytes : ℕ → UInt8} {l : List Phdr} {m : Mem} {a : ℕ}
    (hsz : ∀ ph ∈ l, ph.pFilesz ≤ ph.pMemsz) (h : ∀ ph ∈ l, ¬ph.Covers a) :
    l.foldl (Phdr.place bytes) m a = m a := by
  induction l generalizing m with
  | nil => rfl
  | cons ph l ih =>
    rw [List.forall_mem_cons] at hsz h
    rw [List.foldl_cons, ih hsz.2 h.2, Phdr.place_of_not_covers hsz.1 h.1]

/-- The state after the entries of a table have been applied and mapped, in table order. -/
def LoadState.loaded (img : Image) (st : LoadState) : LoadState where
  mem := (img.loadEntries st.mem).foldl (Phdr.place (img.byte st.mem)) st.mem
  pageTable := (img.loadEntries st.mem).foldl
    (fun pt ph => pagingMapUserRange pt ph.pVaddr (ph.pVaddr + ph.pMemsz)) st.pageTable

/-- What `elf_load` asks of an image: a header in order, segments in order, and an entry point
below 4 MiB and outside the kernel. -/
structure Image.Accepted (L : Layout) (img : Image) (m : Mem) : Prop where
  header : ∃ eh, elfValidate img m = some (.ok eh)
  segments : ∀ ph ∈ img.loadEntries m, ph.Checked L img.size
  entry_lt : (img.ehdr m).eEntry < elfLoadLimit
  entry_off_kernel : L.kernelEnd ≤ (img.ehdr m).eEntry ∨ (img.ehdr m).eEntry < L.kernelStart

/-- An accepted image is loaded, and the program starts at the header's entry point. -/
theorem elfLoad_of_accepted {L : Layout} {img : Image} {st : LoadState}
    (hheld : img.HeldOutside st.mem) (h : img.Accepted L st.mem) :
    elfLoad L img st = some (.ok (img.ehdr st.mem).eEntry, st.loaded img) := by
  obtain ⟨⟨eh, hv⟩, hc, hlt, hoff⟩ := h
  obtain ⟨rfl, hvalid⟩ := elfValidate_ok hv
  obtain ⟨r, hr, hspec⟩ := checkSegments_spec L hvalid (m := st.mem) _ 0 (Nat.zero_add _)
  obtain rfl := hspec.mpr hc
  simp only [elfLoad, hv, hr, Option.bind_eq_bind, Option.bind_some]
  rw [if_neg (by omega), loadSegments_spec hvalid hheld hc _ 0 (Nat.zero_add _) st (fun a _ => rfl)
    fun ph hph => hph]
  rfl

/-- An image that is not accepted changes nothing. -/
theorem elfLoad_of_not_accepted {L : Layout} {img : Image} {st : LoadState}
    (h : ¬img.Accepted L st.mem) : ∃ e, elfLoad L img st = some (.error e, st) := by
  obtain ⟨v, hv⟩ := Option.isSome_iff_exists.mp (elfValidate_isSome img st.mem)
  simp only [elfLoad, hv, Option.bind_eq_bind, Option.bind_some]
  cases v with
  | error e => exact ⟨e, rfl⟩
  | ok eh =>
    obtain ⟨rfl, hvalid⟩ := elfValidate_ok hv
    obtain ⟨r, hr, hspec⟩ := checkSegments_spec L hvalid (m := st.mem) _ 0 (Nat.zero_add _)
    simp only [hr, Option.bind_some]
    cases r with
    | error e => exact ⟨e, rfl⟩
    | ok u =>
      dsimp only
      split_ifs with hentry
      · exact ⟨_, rfl⟩
      · exact absurd ⟨⟨_, hv⟩, hspec.mp rfl, by omega, by omega⟩ h

/-- `elf_load` returns 0 exactly on accepted images. -/
theorem elfLoad_ok_iff {L : Layout} {img : Image} {st st' : LoadState} {entry : ℕ}
    (hheld : img.HeldOutside st.mem) :
    elfLoad L img st = some (.ok entry, st') ↔
      img.Accepted L st.mem ∧ entry = (img.ehdr st.mem).eEntry ∧ st' = st.loaded img := by
  by_cases hacc : img.Accepted L st.mem
  · rw [elfLoad_of_accepted hheld hacc]
    simp [hacc, eq_comm]
  · obtain ⟨e, he⟩ := elfLoad_of_not_accepted hacc
    rw [he]
    simp [hacc]

/-- **The two outcomes of `elf_load`.** On an image held outside the memory its segments cover
it never reads behind the image's end. Either it refuses the image and has changed nothing, or
it applies the whole table, every entry of which has been checked. -/
theorem elfLoad_cases (L : Layout) {img : Image} {st : LoadState}
    (hheld : img.HeldOutside st.mem) :
    (∃ e, elfLoad L img st = some (.error e, st)) ∨
      (∃ entry, elfLoad L img st = some (.ok entry, st.loaded img)) ∧
        ∀ ph ∈ img.loadEntries st.mem, ph.Checked L img.size := by
  by_cases hacc : img.Accepted L st.mem
  · exact Or.inr ⟨⟨_, elfLoad_of_accepted hheld hacc⟩, hacc.segments⟩
  · exact Or.inl (elfLoad_of_not_accepted hacc)

/-- Whether a separate byte string is accepted does not depend on the memory. -/
theorem elfLoad_ofBytes_ok {L : Layout} {bytes : List UInt8} {st st' : LoadState} {entry : ℕ}
    (h : elfLoad L (.ofBytes bytes) st = some (.ok entry, st')) (st₀ : LoadState) :
    ∃ st₁, elfLoad L (.ofBytes bytes) st₀ = some (.ok entry, st₁) := by
  obtain ⟨⟨hheader, hsegments, hlt, hoff⟩, rfl, -⟩ :=
    (elfLoad_ok_iff (Image.heldOutside_ofBytes bytes st.mem)).mp h
  exact ⟨_, elfLoad_of_accepted (Image.heldOutside_ofBytes bytes st₀.mem)
    ⟨hheader, hsegments, hlt, hoff⟩⟩

/-- A loaded state differs from the old one only where a segment lies. -/
theorem LoadState.loaded_mem_of_not_covers {L : Layout} {img : Image} {st : LoadState}
    (hc : ∀ ph ∈ img.loadEntries st.mem, ph.Checked L img.size) {a : ℕ}
    (h : ∀ ph ∈ img.loadEntries st.mem, ¬ph.Covers a) : (st.loaded img).mem a = st.mem a :=
  foldl_place_of_not_covers (fun ph hph => (hc ph hph).filesz_le) h

/-- **`elf_load` is all-or-nothing, in bounds and exact.** For an image held outside the memory
its segments cover, `elf_load` reads inside the image only (its result is never `none`), and it
either refuses, with memory and page table unchanged, or the memory is the old one with the
`PT_LOAD` entries applied in table order, and no byte of the kernel image and none at or above
4 MiB has changed. -/
theorem elfLoad_all_or_nothing (L : Layout) (img : Image) (st : LoadState)
    (hheld : img.HeldOutside st.mem) :
    (∃ e, elfLoad L img st = some (.error e, st)) ∨
      ∃ entry st', elfLoad L img st = some (.ok entry, st') ∧
        st'.mem = (img.loadEntries st.mem).foldl (Phdr.place (img.byte st.mem)) st.mem ∧
        ∀ a, L.InKernel a ∨ elfLoadLimit ≤ a → st'.mem a = st.mem a := by
  rcases elfLoad_cases L hheld with h | ⟨⟨entry, h⟩, hc⟩
  · exact Or.inl h
  · refine Or.inr ⟨entry, st.loaded img, h, rfl, fun a ha => ?_⟩
    refine LoadState.loaded_mem_of_not_covers hc fun ph hph hcov => ?_
    obtain ⟨h₁, h₂⟩ := hcov
    have hlim := (hc ph hph).limit
    rcases ha with ⟨h₃, h₄⟩ | ha
    · rcases (hc ph hph).off_kernel with hk | hk <;> omega
    · omega

/-! ### A small image to evaluate the loader on -/

/-- An `ET_EXEC` image with one `PT_LOAD` entry, which puts `payload` at `vaddr` and makes it
`memsz` bytes long; the program starts at `vaddr`. -/
def oneSegmentElf (vaddr memsz : ℕ) (payload : List UInt8) : List UInt8 :=
  [0x7f, 0x45, 0x4c, 0x46, 1, 1, 1, 0, 0, 0, 0, 0, 0, 0, 0, 0] ++
  leHalf 2 ++ leHalf 3 ++ leWord 1 ++ leWord vaddr ++ leWord 52 ++ leWord 0 ++ leWord 0 ++
  leHalf 52 ++ leHalf 32 ++ leHalf 1 ++ leHalf 0 ++ leHalf 0 ++ leHalf 0 ++
  leWord 1 ++ leWord 84 ++ leWord vaddr ++ leWord vaddr ++ leWord payload.length ++
  leWord memsz ++ leWord 7 ++ leWord 0x1000 ++ payload

/-- A memory that holds, from `0x200000` on, an image that loads at `0x300000`. -/
def heldImageMem : Mem := write (fun _ => 0) 0x200000 (oneSegmentElf 0x300000 16 [1, 2])

/-- `elfLoad_all_or_nothing` on an image that lies in the memory it is loaded into, in the part
of it that belongs to the kernel. -/
theorem elfLoad_all_or_nothing_inMemory :
    (∃ e, elfLoad Layout.sample (.inMemory 0x200000 86) ⟨heldImageMem, fun _ => 0⟩ =
        some (.error e, ⟨heldImageMem, fun _ => 0⟩)) ∨
      ∃ entry st', elfLoad Layout.sample (.inMemory 0x200000 86) ⟨heldImageMem, fun _ => 0⟩ =
          some (.ok entry, st') ∧
        st'.mem = ((Image.inMemory 0x200000 86).loadEntries heldImageMem).foldl
          (Phdr.place ((Image.inMemory 0x200000 86).byte heldImageMem)) heldImageMem ∧
        ∀ a, Layout.sample.InKernel a ∨ elfLoadLimit ≤ a → st'.mem a = heldImageMem a :=
  elfLoad_all_or_nothing Layout.sample (.inMemory 0x200000 86) ⟨heldImageMem, fun _ => 0⟩
    (Image.heldOutside_inMemory (by decide +kernel))

end ChalesOs
