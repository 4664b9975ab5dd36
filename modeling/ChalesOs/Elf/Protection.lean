import ChalesOs.Lib.StepSystem
import ChalesOs.Elf.Loader

/-!
# Kernel pages stay supervisor-only

The page table is written at boot, by the loader and by `execRun` when it maps the user stack.
`pageSystem` is the system of these writes: it starts from the boot table, and every step loads
an arbitrary image, in an arbitrary memory that holds it outside its segments, or maps the
stack.

The loader checks byte ranges and grants pages. When the kernel image ends on a page boundary
the two agree: a segment that shares no byte with the image shares no page with it
(`pageIndex_ne_of_off_kernel`). An empty segment may lie at the very edge of the kernel image,
but maps no page at all.
-/

namespace ChalesOs

variable {L : Layout}

/-- The writes to the page table. -/
inductive PageOp
  /-- `elf_load` on an image, when the memory is `m`. -/
  | load (img : Image) (m : Mem)
  /-- The stack mapping of `exec_run`. -/
  | mapStack

/-- The page table from boot on. -/
def pageSystem (L : Layout) : StepSystem PageTable PageOp where
  start pt := pt = pagingInitialize L
  step pt
    | .load img m => (elfLoad L img ⟨m, pt⟩).map fun r => r.2.pageTable
    | .mapStack => some (pagingMapUserRange pt execStackBase execStackTop)

/-- Loaded images are held outside the memory their segments cover. -/
def PageOp.HeldOutside (_ : PageTable) : PageOp → Prop
  | .load img m => img.HeldOutside m
  | .mapStack => True

/-- Mapping the pages of checked entries keeps the invariant. -/
private theorem TableInv.mapEntries (halign : L.kernelEnd % 4096 = 0) {size : ℕ} {l : List Phdr}
    (hc : ∀ ph ∈ l, ph.Checked L size) {pt : PageTable} (h : TableInv L pt) :
    TableInv L (l.foldl
      (fun pt ph => pagingMapUserRange pt ph.pVaddr (ph.pVaddr + ph.pMemsz)) pt) := by
  induction l generalizing pt with
  | nil => exact h
  | cons ph l ih =>
    rw [List.forall_mem_cons] at hc
    exact ih hc.2 (h.mapRange fun a b ha h₁ h₂ =>
      pageIndex_ne_of_off_kernel halign hc.1.off_kernel ha h₁ h₂)

/-- `elf_load` keeps the page table invariant. -/
theorem TableInv.load (halign : L.kernelEnd % 4096 = 0) {img : Image} {st : LoadState}
    (h : TableInv L st.pageTable) (hheld : img.HeldOutside st.mem)
    {r : Except ElfError ℕ × LoadState} (hr : elfLoad L img st = some r) :
    TableInv L r.2.pageTable := by
  rcases elfLoad_cases L hheld with ⟨e, he⟩ | ⟨⟨entry, he⟩, hc⟩
  · obtain rfl : (.error e, st) = r := Option.some_injective _ (he.symm.trans hr)
    exact h
  · obtain rfl : (.ok entry, st.loaded img) = r := Option.some_injective _ (he.symm.trans hr)
    exact h.mapEntries halign hc

/-- Mapping the user stack keeps the page table invariant when the stack lies behind the
kernel image. -/
theorem TableInv.mapStack (halign : L.kernelEnd % 4096 = 0) (hend : L.kernelEnd ≤ execStackBase)
    {pt : PageTable} (h : TableInv L pt) :
    TableInv L (pagingMapUserRange pt execStackBase execStackTop) :=
  h.mapRange fun _ _ ha h₁ h₂ => pageIndex_ne_of_off_kernel halign (Or.inl hend) ha h₁ h₂

/-- **Kernel pages stay supervisor-only.** After `paging_initialize` and any sequence of image
loads and stack mappings, every entry of the page table is present and maps its own page, and
the page of a byte of the kernel image is open to ring 3 only if it meets the `.user` section or
the user heap. -/
theorem kernelProtected_of_reachable (halign : L.kernelEnd % 4096 = 0)
    (hend : L.kernelEnd ≤ execStackBase) {pt : PageTable}
    (h : (pageSystem L).ReachableBy PageOp.HeldOutside pt) : KernelProtected L pt := by
  refine TableInv.kernelProtected ?_ (hend.trans (by decide))
  refine h.invariant (fun pt hpt => ?_) fun pt op pt' hinv hheld hstep => ?_
  · rw [show pt = pagingInitialize L from hpt]
    exact tableInv_pagingInitialize L
  · cases op with
    | load img m =>
      obtain ⟨r, hr, rfl⟩ := Option.map_eq_some_iff.mp hstep
      have hinv : TableInv L (LoadState.mk m pt).pageTable := hinv
      exact TableInv.load halign hinv hheld hr
    | mapStack =>
      obtain rfl := Option.some_injective _ hstep
      exact hinv.mapStack halign hend

/-- `kernelProtected_of_reachable` after the boot, a stack mapping and the load of a program. -/
theorem kernelProtected_sample :
    KernelProtected Layout.sample
      (((pageSystem Layout.sample).runInputs (pagingInitialize Layout.sample)
        [.mapStack, .load (.ofBytes (oneSegmentElf 0x2FF000 4096 [1, 2])) fun _ => 0]).getD
          fun _ => 0) := by
  refine kernelProtected_of_reachable (by decide) (by decide) ?_
  have hload : ∃ r, elfLoad Layout.sample (.ofBytes (oneSegmentElf 0x2FF000 4096 [1, 2]))
      ⟨fun _ => 0, pagingMapUserRange (pagingInitialize Layout.sample) execStackBase
        execStackTop⟩ = some r := by
    rcases elfLoad_cases Layout.sample (Image.heldOutside_ofBytes _ _) with ⟨e, he⟩ | ⟨⟨e, he⟩, -⟩
    · exact ⟨_, he⟩
    · exact ⟨_, he⟩
  obtain ⟨r, hr⟩ := hload
  refine .step (i := .load (.ofBytes (oneSegmentElf 0x2FF000 4096 [1, 2])) fun _ => 0)
    (.step (i := .mapStack) (.start rfl) trivial rfl) (Image.heldOutside_ofBytes _ _) ?_
  simp only [StepSystem.runInputs, pageSystem, Option.bind_some, hr, Option.map_some,
    Option.getD_some]

end ChalesOs
