import Mathlib.Order.Bounds.Basic
import ChalesOs.Elf.Loader

/-!
# The extent of an image, and its entry point

`elf_extent` and `elf_load` walk the same program header table. `elfExtent_elfLoad` says that they
agree: the extent is the exact hull of the `PT_LOAD` entries, the loader writes nothing outside it,
and what can be loaded has an extent unless all its segments are empty.

The loader looks at the entry point as well, but compares it with the bounds of user memory only.
`elfLoad_entry_iff` is the condition under which an accepted program starts inside itself.
-/

namespace ChalesOs

/-- The `PT_LOAD` entries of a separate byte string do not depend on the memory. -/
theorem loadEntries_ofBytes (bytes : List UInt8) (m m' : Mem) :
    (Image.ofBytes bytes).loadEntries m = (Image.ofBytes bytes).loadEntries m' := rfl

/-- An extent is the hull of the entries, below 4 MiB. -/
theorem elfExtent_hull {img : Image} {m : Mem} {lo hi : ℕ}
    (h : elfExtent img m = some (some (lo, hi))) :
    IsLeast {v | ∃ ph ∈ img.loadEntries m, ph.pVaddr = v} lo ∧
      IsGreatest {v | ∃ ph ∈ img.loadEntries m, ph.segEnd = v} hi ∧ hi ≤ elfLoadLimit := by
  obtain ⟨hlim, hext⟩ := elfExtent_some h
  obtain ⟨hzero, hlo, hhi, -, -, hall⟩ := extentFrom_spec hext
  obtain ⟨ph, hph, hend⟩ := hhi.resolve_left hzero
  have hle : hi ≤ elfLoadLimit := hend ▸ hlim ph hph
  -- the table is not empty, so `lo` is not what the search starts from
  have hlo' : lo ≠ 0xFFFFFFFF := by
    have hph_lo := (hall ph hph).1
    have hph_le : ph.pVaddr ≤ ph.segEnd := Nat.le_add_right _ _
    rw [elfLoadLimit] at hle
    omega
  refine ⟨⟨hlo.resolve_left hlo', ?_⟩, ⟨⟨ph, hph, hend⟩, ?_⟩, hle⟩
  · rintro v ⟨ph, hph, rfl⟩
    exact (hall ph hph).1
  · rintro v ⟨ph, hph, rfl⟩
    exact (hall ph hph).2

/-- An accepted image with a segment that is not empty has an extent. -/
theorem Image.Accepted.elfExtent {L : Layout} {img : Image} {m : Mem} (h : img.Accepted L m)
    {ph : Phdr} (hph : ph ∈ img.loadEntries m) (hpos : 0 < ph.pMemsz) :
    ∃ lo hi, elfExtent img m = some (some (lo, hi)) := by
  obtain ⟨eh, hv⟩ := h.header
  have hlim : ∀ ph ∈ img.loadEntries m, ph.segEnd ≤ elfLoadLimit :=
    fun ph hph => (h.segments ph hph).limit
  rw [elfExtent_eq, hv, Option.map_some, if_pos hlim, extentFrom]
  have hcons : (0 :: (img.loadEntries m).map Phdr.segEnd).max? =
      some (((img.loadEntries m).map Phdr.segEnd).foldl max 0) := List.max?_cons'
  obtain ⟨-, hmax⟩ := List.max?_eq_some_iff.mp hcons
  have hle := hmax ph.segEnd (List.mem_cons_of_mem _ (List.mem_map_of_mem hph))
  rw [Phdr.segEnd] at hle
  rw [if_neg (by omega)]
  exact ⟨_, _, rfl⟩

/-- **`elf_extent` tells what `elf_load` will cover.** An extent is the hull of the `PT_LOAD`
entries and ends below 4 MiB; every address that a segment covers lies in it, and a successful
load changes nothing outside it. An image that can be loaded, with a segment that is not empty,
has an extent. -/
theorem elfExtent_elfLoad (L : Layout) (bytes : List UInt8) (m : Mem) :
    (∀ lo hi, elfExtent (.ofBytes bytes) m = some (some (lo, hi)) →
      IsLeast {v | ∃ ph ∈ (Image.ofBytes bytes).loadEntries m, ph.pVaddr = v} lo ∧
      IsGreatest {v | ∃ ph ∈ (Image.ofBytes bytes).loadEntries m, ph.pVaddr + ph.pMemsz = v} hi ∧
      hi ≤ elfLoadLimit ∧
      (∀ ph ∈ (Image.ofBytes bytes).loadEntries m, ∀ a, ph.Covers a → lo ≤ a ∧ a < hi) ∧
      ∀ st entry st', elfLoad L (.ofBytes bytes) st = some (.ok entry, st') →
        ∀ a, st'.mem a ≠ st.mem a → lo ≤ a ∧ a < hi) ∧
    ∀ st entry st', elfLoad L (.ofBytes bytes) st = some (.ok entry, st') →
      (∃ ph ∈ (Image.ofBytes bytes).loadEntries m, 0 < ph.pMemsz) →
      ∃ lo hi, elfExtent (.ofBytes bytes) m = some (some (lo, hi)) := by
  refine ⟨fun lo hi hext => ?_, fun st entry st' hload ⟨ph, hph, hpos⟩ => ?_⟩
  · obtain ⟨hlo, hhi, hle⟩ := elfExtent_hull hext
    have hcover : ∀ ph ∈ (Image.ofBytes bytes).loadEntries m, ∀ a, ph.Covers a →
        lo ≤ a ∧ a < hi := fun ph hph a ha =>
      ⟨(hlo.2 ⟨ph, hph, rfl⟩).trans ha.1, ha.2.trans_le (hhi.2 ⟨ph, hph, rfl⟩)⟩
    refine ⟨hlo, hhi, hle, hcover, fun st entry st' hload a hne => ?_⟩
    obtain ⟨hacc, -, rfl⟩ := (elfLoad_ok_iff (Image.heldOutside_ofBytes bytes st.mem)).mp hload
    by_contra hout
    refine hne (LoadState.loaded_mem_of_not_covers hacc.segments fun ph hph ha => hout ?_)
    rw [loadEntries_ofBytes bytes st.mem m] at hph
    exact hcover ph hph a ha
  · rw [elfExtent_ofBytes bytes m st.mem]
    exact ((elfLoad_ok_iff (Image.heldOutside_ofBytes bytes st.mem)).mp hload).1.elfExtent hph hpos

/-- `elfExtent_elfLoad` for a segment of 16 bytes at `0x300000`, of which two are in the file. -/
theorem elfExtent_elfLoad_sample :
    ∃ lo hi, elfExtent (.ofBytes (oneSegmentElf 0x300000 16 [1, 2])) (fun _ => 0) =
        some (some (lo, hi)) ∧ hi ≤ elfLoadLimit ∧
      ∀ st entry st', elfLoad Layout.sample (.ofBytes (oneSegmentElf 0x300000 16 [1, 2])) st =
        some (.ok entry, st') → ∀ a, st'.mem a ≠ st.mem a → lo ≤ a ∧ a < hi := by
  obtain ⟨hext, -⟩ := elfExtent_elfLoad Layout.sample (oneSegmentElf 0x300000 16 [1, 2]) fun _ => 0
  have h : elfExtent (.ofBytes (oneSegmentElf 0x300000 16 [1, 2])) (fun _ => 0) =
      some (some (0x300000, 0x300010)) := by decide
  obtain ⟨-, -, hle, -, hwrites⟩ := hext _ _ h
  exact ⟨_, _, h, hle, hwrites⟩

/-! ### The entry point -/

/-- The loader accepts the image only if the entry point is in a segment. -/
def Image.StartsInside (L : Layout) (img : Image) (m : Mem) : Prop :=
  img.Accepted L m → ∃ ph ∈ img.loadEntries m, ph.Covers (img.ehdr m).eEntry

/-- **Where an accepted program starts.** The entry point that `elf_load` returns lies in a
`PT_LOAD` entry exactly when the header's does, or one of the checks refuses the image: the checks
themselves do not compare the two. -/
theorem elfLoad_entry_iff (L : Layout) (bytes : List UInt8) (m : Mem) :
    (∀ st entry st', elfLoad L (.ofBytes bytes) st = some (.ok entry, st') →
      ∃ ph ∈ (Image.ofBytes bytes).loadEntries m, ph.pVaddr ≤ entry ∧
        entry < ph.pVaddr + ph.pMemsz) ↔
      (Image.ofBytes bytes).StartsInside L m := by
  constructor
  · intro h hacc
    have hload : elfLoad L (.ofBytes bytes) ⟨m, fun _ => 0⟩ = some (.ok _, _) :=
      elfLoad_of_accepted (Image.heldOutside_ofBytes bytes m) hacc
    exact h _ _ _ hload
  · intro h st entry st' hload
    obtain ⟨⟨hheader, hsegments, hlt, hoff⟩, rfl, -⟩ :=
      (elfLoad_ok_iff (Image.heldOutside_ofBytes bytes st.mem)).mp hload
    exact h ⟨hheader, hsegments, hlt, hoff⟩

/-- A segment at `0x300000` and the entry point `0x380000`. -/
def strayEntryElf : List UInt8 := (oneSegmentElf 0x300000 16 [1, 2]).set 26 0x38

/-- An accepted program that starts outside its segment. -/
theorem not_elfLoad_entry : ¬∀ L bytes m st entry st',
    elfLoad L (.ofBytes bytes) st = some (.ok entry, st') →
      ∃ ph ∈ (Image.ofBytes bytes).loadEntries m, ph.pVaddr ≤ entry ∧
        entry < ph.pVaddr + ph.pMemsz := by
  intro h
  have hacc : (Image.ofBytes strayEntryElf).Accepted Layout.sample fun _ => 0 := by
    refine ⟨⟨_, rfl⟩, fun ph hph => ?_, by decide, by decide⟩
    obtain rfl : ph = (Image.ofBytes strayEntryElf).phdr (fun _ => 0) 52 :=
      List.mem_singleton.mp hph
    exact ⟨by decide, by decide, by decide, by decide⟩
  have hload : elfLoad Layout.sample (.ofBytes strayEntryElf) ⟨fun _ => 0, fun _ => 0⟩ =
      some (.ok _, _) := elfLoad_of_accepted (Image.heldOutside_ofBytes strayEntryElf _) hacc
  obtain ⟨ph, hph, -, hlt⟩ := h _ _ (fun _ => 0) _ _ _ hload
  obtain rfl : ph = (Image.ofBytes strayEntryElf).phdr (fun _ => 0) 52 := List.mem_singleton.mp hph
  exact absurd hlt (by decide)

end ChalesOs
