import Mathlib.Data.Nat.Bitwise
import Mathlib.Logic.Function.Basic
import ChalesOs.Memory.Layout

/-!
# The page table

`page_table0` maps the first 4 MiB, one entry a page. Every page is identity-mapped and
present; the only thing that varies is `PTE_USER`. `pagingInitialize` grants it to the pages of
the `.user` section and of the user heap, and `pagingMapUserRange` to the pages of a byte range
(the loader calls it for every segment, `execRun` for the user stack).

Both walk from the first to the last page of a range, inclusively; `mapUserPages_apply` is the
one lemma about that loop. The predicate `KernelProtected` is what every table built from these
two functions has to keep: permissions are granted by whole pages, so a range may only be mapped
when no page of it meets the kernel image.
-/

namespace ChalesOs

/-- `PTE_P`: the page is present. -/
def pteP : ℕ := 0x1

/-- `PTE_RW`: the page is writable. -/
def pteRw : ℕ := 0x2

/-- `PTE_USER`: ring 3 may use the page. -/
def pteUser : ℕ := 0x4

/-- `page_table0`; the entries are those at indices below 1024. -/
abbrev PageTable : Type := ℕ → ℕ

/-- The page of an address. -/
def pageIndex (addr : ℕ) : ℕ := addr >>> 12

/-- The entry that maps `page` to itself for the kernel only. -/
def supervisorEntry (page : ℕ) : ℕ := page * 0x1000 ||| pteP ||| pteRw

/-- The entry that maps `page` to itself for ring 3 too. -/
def userEntry (page : ℕ) : ℕ := page * 0x1000 ||| pteP ||| pteRw ||| pteUser

/-- `for (; page <= last_page; page++) page_table0[page] = ...`, with `n` pages to go. -/
def mapUserPages (pt : PageTable) (page : ℕ) : ℕ → PageTable
  | 0 => pt
  | n + 1 => mapUserPages (Function.update pt page (userEntry page)) (page + 1) n

/-- Mark the pages of `[start, end)` in a table, from the first to the last page inclusively,
when the range is not empty. -/
def markUserSection (pt : PageTable) (startAddr endAddr : ℕ) : PageTable :=
  if endAddr > startAddr then
    mapUserPages pt (pageIndex startAddr) (pageIndex (endAddr - 1) + 1 - pageIndex startAddr)
  else pt

/-- `paging_initialize`: 0..4 MiB for the kernel only, the VGA page explicitly so, then the
`.user` section and the user heap for ring 3. -/
def pagingInitialize (L : Layout) : PageTable :=
  let pt : PageTable := fun i => if i < 1024 then supervisorEntry i else 0
  let vgaIndex := 0xB8000 / 0x1000
  let pt := if vgaIndex < 1024 then Function.update pt vgaIndex (supervisorEntry vgaIndex) else pt
  let pt := markUserSection pt L.userStart L.userEnd
  markUserSection pt L.userHeapStart L.userHeapEnd

/-- `paging_map_user_range`: grant ring 3 the pages of `[start_addr, end_addr)`. -/
def pagingMapUserRange (pt : PageTable) (startAddr endAddr : ℕ) : PageTable :=
  if endAddr ≤ startAddr then pt
  else
    let page := pageIndex startAddr
    let lastPage := pageIndex (endAddr - 1)
    let lastPage := if lastPage ≥ 1024 then 1023 else lastPage
    mapUserPages pt page (lastPage + 1 - page)

/-! ### Entries -/

theorem pageIndex_eq_div (addr : ℕ) : pageIndex addr = addr / 4096 := by
  simp [pageIndex, Nat.shiftRight_eq_div_pow]

private theorem supervisorEntry_eq (page : ℕ) : supervisorEntry page = 2 ^ 12 * page + 3 := by
  rw [supervisorEntry, Nat.or_assoc, Nat.two_pow_add_eq_or_of_lt (by decide), Nat.mul_comm]
  rfl

private theorem userEntry_eq (page : ℕ) : userEntry page = 2 ^ 12 * page + 7 := by
  rw [userEntry, Nat.or_assoc, Nat.or_assoc, Nat.two_pow_add_eq_or_of_lt (by decide),
    Nat.mul_comm]
  rfl

/-- An entry is one of the two the kernel ever writes for its page. -/
def IsEntry (page pte : ℕ) : Prop := pte = supervisorEntry page ∨ pte = userEntry page

theorem IsEntry.and_pteP {page pte : ℕ} (h : IsEntry page pte) : pte &&& pteP = pteP := by
  rcases h with rfl | rfl
  · rw [supervisorEntry_eq, pteP, Nat.and_one_is_mod]
    omega
  · rw [userEntry_eq, pteP, Nat.and_one_is_mod]
    omega

theorem IsEntry.shiftRight {page pte : ℕ} (h : IsEntry page pte) : pte >>> 12 = page := by
  rw [Nat.shiftRight_eq_div_pow]
  rcases h with rfl | rfl
  · rw [supervisorEntry_eq]
    omega
  · rw [userEntry_eq]
    omega

/-- The supervisor entry does not have `PTE_USER` set. -/
theorem supervisorEntry_and_pteUser (page : ℕ) : supervisorEntry page &&& pteUser = 0 := by
  have hbit : (supervisorEntry page).testBit 2 = false := by
    rw [supervisorEntry_eq, Nat.testBit_eq_decide_div_mod_eq]
    simp only [decide_eq_false_iff_not]
    omega
  rw [pteUser, show (0x4 : ℕ) = 2 ^ 2 from rfl, Nat.and_two_pow, hbit]
  rfl

/-! ### What the loops write -/

/-- The loop writes exactly the entries of the `n` pages from `page` on. -/
theorem mapUserPages_apply (pt : PageTable) (page n i : ℕ) :
    mapUserPages pt page n i = if page ≤ i ∧ i < page + n then userEntry i else pt i := by
  induction n generalizing pt page with
  | zero => rw [mapUserPages, if_neg (by omega)]
  | succ n ih =>
    rw [mapUserPages, ih]
    rcases Nat.lt_trichotomy i page with hi | rfl | hi
    · rw [if_neg (by omega), if_neg (by omega), Function.update_of_ne (by omega)]
    · rw [if_neg (by omega), if_pos (by omega), Function.update_self]
    · rw [Function.update_of_ne (by omega)]
      by_cases hin : i < page + (n + 1)
      · rw [if_pos (by omega), if_pos (by omega)]
      · rw [if_neg (by omega), if_neg (by omega)]

/-- The pages of a non-empty range are those of its bytes. -/
private theorem exists_mem_page {startAddr endAddr i : ℕ} (h : startAddr < endAddr)
    (h₁ : pageIndex startAddr ≤ i) (h₂ : i ≤ pageIndex (endAddr - 1)) :
    ∃ b, pageIndex b = i ∧ startAddr ≤ b ∧ b < endAddr := by
  simp only [pageIndex_eq_div] at h₁ h₂ ⊢
  by_cases hs : startAddr ≤ i * 4096
  · exact ⟨i * 4096, by omega, by omega, by omega⟩
  · exact ⟨startAddr, by omega, by omega, by omega⟩

/-- `paging_map_user_range` changes an entry only to the user entry of a page that holds a
byte of the range. -/
theorem pagingMapUserRange_apply (pt : PageTable) (startAddr endAddr i : ℕ) :
    pagingMapUserRange pt startAddr endAddr i = pt i ∨
      pagingMapUserRange pt startAddr endAddr i = userEntry i ∧
        ∃ b, pageIndex b = i ∧ startAddr ≤ b ∧ b < endAddr := by
  rw [pagingMapUserRange]
  split_ifs with hle
  · exact Or.inl rfl
  · simp only [mapUserPages_apply]
    split_ifs with hlast hi hi
    · exact Or.inr ⟨rfl, exists_mem_page (by omega) hi.1 (by omega)⟩
    · exact Or.inl rfl
    · exact Or.inr ⟨rfl, exists_mem_page (by omega) hi.1 (by omega)⟩
    · exact Or.inl rfl

/-- Marking a section changes an entry only to the user entry of a page that holds a byte of
the section. -/
theorem markUserSection_apply (pt : PageTable) (startAddr endAddr i : ℕ) :
    markUserSection pt startAddr endAddr i = pt i ∨
      markUserSection pt startAddr endAddr i = userEntry i ∧
        ∃ b, pageIndex b = i ∧ startAddr ≤ b ∧ b < endAddr := by
  rw [markUserSection]
  split_ifs with hlt
  · rw [mapUserPages_apply]
    split_ifs with hi
    · exact Or.inr ⟨rfl, exists_mem_page hlt hi.1 (by omega)⟩
    · exact Or.inl rfl
  · exact Or.inl rfl

/-! ### Protection of the kernel's pages -/

/-- The page holds a byte of the `.user` section or of the user heap. -/
def Layout.IsUserPage (L : Layout) (page : ℕ) : Prop :=
  ∃ b, pageIndex b = page ∧ (L.userStart ≤ b ∧ b < L.userEnd ∨ L.InUserHeap b)

/-- **Kernel pages are supervisor-only.** Every entry is present and maps its own page, and
the page of a kernel byte is open to ring 3 only if it meets the `.user` section or the user
heap. -/
structure KernelProtected (L : Layout) (pt : PageTable) : Prop where
  present : ∀ page, page < 1024 → pt page &&& pteP = pteP
  identity : ∀ page, page < 1024 → pt page >>> 12 = page
  supervisor : ∀ a, L.InKernel a → pt (pageIndex a) &&& pteUser ≠ 0 →
    L.IsUserPage (pageIndex a)

/-- The invariant behind `KernelProtected`: entries are well formed, and a page that meets
the kernel image without being a user page has the supervisor entry. -/
structure TableInv (L : Layout) (pt : PageTable) : Prop where
  isEntry : ∀ page, page < 1024 → IsEntry page (pt page)
  kernel : ∀ a, L.InKernel a → ¬L.IsUserPage (pageIndex a) → pageIndex a < 1024 →
    pt (pageIndex a) = supervisorEntry (pageIndex a)

/-- The invariant gives the protection statement when the kernel image lies below 4 MiB. -/
theorem TableInv.kernelProtected {L : Layout} {pt : PageTable} (h : TableInv L pt)
    (hlim : L.kernelEnd ≤ elfLoadLimit) : KernelProtected L pt where
  present page hp := (h.isEntry page hp).and_pteP
  identity page hp := (h.isEntry page hp).shiftRight
  supervisor a ha hu := by
    by_contra hpage
    refine hu ?_
    have hlt : pageIndex a < 1024 := by
      have := ha.2
      rw [pageIndex_eq_div]
      simp only [elfLoadLimit] at hlim
      omega
    rw [h.kernel a ha hpage hlt, supervisorEntry_and_pteUser]

/-- The table built at boot has the invariant. -/
theorem tableInv_pagingInitialize (L : Layout) : TableInv L (pagingInitialize L) := by
  have hbase : ∀ i, i < 1024 →
      (if 0xB8000 / 0x1000 < 1024 then
          Function.update (fun i => if i < 1024 then supervisorEntry i else 0)
            (0xB8000 / 0x1000) (supervisorEntry (0xB8000 / 0x1000))
        else fun i => if i < 1024 then supervisorEntry i else 0) i = supervisorEntry i := by
    intro i hi
    rw [if_pos (by decide), Function.update_apply]
    split_ifs with h
    · rw [h]
    · rfl
  -- an entry is still the boot entry, or its page belongs to one of the two user sections
  have hcase : ∀ i, i < 1024 → pagingInitialize L i = supervisorEntry i ∨
      pagingInitialize L i = userEntry i ∧ L.IsUserPage i := by
    intro i hi
    rw [pagingInitialize]
    rcases markUserSection_apply _ L.userHeapStart L.userHeapEnd i with h | ⟨h, b, hb, h₁, h₂⟩
    · rw [h]
      rcases markUserSection_apply _ L.userStart L.userEnd i with h | ⟨h, b, hb, h₁, h₂⟩
      · exact Or.inl (h.trans (hbase i hi))
      · exact Or.inr ⟨h, b, hb, Or.inl ⟨h₁, h₂⟩⟩
    · exact Or.inr ⟨h, b, hb, Or.inr ⟨h₁, h₂⟩⟩
  refine ⟨fun page hp => (hcase page hp).imp id And.left, fun a _ hu hlt => ?_⟩
  exact (hcase _ hlt).resolve_right fun h => hu h.2

/-- Granting ring 3 a range keeps the invariant when no page of the range meets the kernel
image. -/
theorem TableInv.mapRange {L : Layout} {pt : PageTable} (h : TableInv L pt)
    {startAddr endAddr : ℕ} (hoff : ∀ a b, L.InKernel a → startAddr ≤ b → b < endAddr →
      pageIndex b ≠ pageIndex a) :
    TableInv L (pagingMapUserRange pt startAddr endAddr) where
  isEntry page hp := by
    rcases pagingMapUserRange_apply pt startAddr endAddr page with h' | ⟨h', -⟩
    · rw [h']
      exact h.isEntry page hp
    · exact Or.inr h'
  kernel a ha hu hlt := by
    rcases pagingMapUserRange_apply pt startAddr endAddr (pageIndex a) with h' | ⟨-, b, hb, h₁, h₂⟩
    · rw [h']
      exact h.kernel a ha hu hlt
    · exact absurd hb (hoff a b ha h₁ h₂)

/-- A range that starts behind a page-aligned kernel image, or ends before its page-aligned
start, shares no page with it. -/
theorem pageIndex_ne_of_off_kernel {L : Layout} (halign : L.kernelEnd % 4096 = 0)
    {startAddr endAddr : ℕ} (hoff : L.kernelEnd ≤ startAddr ∨ endAddr ≤ L.kernelStart)
    {a b : ℕ} (ha : L.InKernel a) (h₁ : startAddr ≤ b) (h₂ : b < endAddr) :
    pageIndex b ≠ pageIndex a := by
  have hstart := L.kernelStart_eq
  obtain ⟨ha₁, ha₂⟩ := ha
  simp only [pageIndex_eq_div]
  rcases hoff with h | h
  · omega
  · omega

end ChalesOs
