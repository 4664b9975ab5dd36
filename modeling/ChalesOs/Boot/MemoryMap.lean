import Mathlib.Algebra.GroupWithZero.Nat
import ChalesOs.Memory.Strings

/-!
# The memory map, from the BIOS to the kernel

`detect_memory` of `stage2.S` asks the BIOS for the entries of its memory map, and writes those
that are not empty into a table with a multiboot information structure in front.
`print_memory_map` of `kernel.c` walks over the table by the sizes stored in it, and adds up the
memory that can be used.

The two agree through `HoldsMap`, which says what the structure and the table are for a list of
entries: the loader leaves it for the first 64 entries that are not empty
(`exists_detectMemory`), and the kernel visits exactly the entries of such a table
(`printMemoryMap_visits`).
-/

namespace ChalesOs

open ByteMemory

/-! ### The loader -/

/-- `MBI_ADDR`. -/
def mbiAddr : ℕ := 0x1000

/-- `MMAP_ADDR`. -/
def mmapAddr : ℕ := 0x1100

/-- `MMAP_MAX`. -/
def mmapMax : ℕ := 64

/-- `'SMAP'`, in `EDX` in front of the call and in `EAX` behind it. -/
def smap : UInt32 := 0x534D4150

/-- An entry of the BIOS: 20 bytes. -/
structure E820Entry where
  base : UInt64
  length : UInt64
  type : UInt32
  deriving DecidableEq

/-- The words of an entry. -/
def E820Entry.words (e : E820Entry) : List ℕ :=
  [e.base.toNat % 0x100000000, e.base.toNat / 0x100000000, e.length.toNat % 0x100000000,
    e.length.toNat / 0x100000000, e.type.toNat]

/-- How `int 0x15` with `EAX = 0xE820` ends: with the carry flag set, and some bytes left in the
place of the entry, or with an entry, a signature in `EAX` and a continuation value in `EBX`. -/
inductive E820Reply
  | carry (left : ℕ → UInt8)
  | entry (e : E820Entry) (signature cont : UInt32)

/-- How `detect_memory` ends. -/
inductive MapResult
  | bad
  | map (mem : Mem)

/-- `e820_end`, with `BP = count`. -/
def e820End (count : ℕ) (mem : Mem) : MapResult :=
  if count = 0 then .bad
  else
    let mem := storeWord mem (mbiAddr + 44) (count * 24)
    let mem := storeWord mem (mbiAddr + 48) mmapAddr
    .map (storeWord mem mbiAddr (1 <<< 6))

/-- The loop `e820_next`, with `DI = di`, `BP = count`, and the replies to come. It has no outcome
when there is no next reply. -/
def e820Loop : List E820Reply → (di count : ℕ) → Mem → Option MapResult
  | [], _, _, _ => none
  | reply :: replies, di, count, mem =>
    let mem := storeWord mem di 20
    match reply with
    | .carry left => some (e820End count (copy mem (di + 4) left 0 20))
    | .entry e signature cont =>
      let mem := storeWords mem (di + 4) e.words
      if signature ≠ smap then some .bad
      else if loadWord mem (di + 4 + 8) ||| loadWord mem (di + 4 + 12) = 0 then
        -- the slot is used again
        if cont ≠ 0 then e820Loop replies di count mem else some (e820End count mem)
      else if count + 1 ≥ mmapMax then some (e820End (count + 1) mem)
      else if cont ≠ 0 then e820Loop replies (di + 4 + 20) (count + 1) mem
      else some (e820End (count + 1) mem)

/-- `detect_memory`. -/
def detectMemory (replies : List E820Reply) (mem : Mem) : Option MapResult :=
  e820Loop replies mmapAddr 0 (fill mem mbiAddr 116 0)

/-! ### The kernel -/

/-- `BOOT_MAGIC`. -/
def bootMagic : ℕ := 0x2BADB002

/-- `MBI_FLAG_MMAP`. -/
def mbiFlagMmap : ℕ := 1 <<< 6

/-- `mmap_entry_t`. -/
structure MmapEntry where
  size : ℕ
  base : ℕ
  length : ℕ
  type : ℕ
  deriving DecidableEq

/-- The entry at the address `p`. -/
def loadEntry (mem : Mem) (p : ℕ) : MmapEntry where
  size := loadWord mem p
  base := loadWord mem (p + 4) + 0x100000000 * loadWord mem (p + 8)
  length := loadWord mem (p + 12) + 0x100000000 * loadWord mem (p + 16)
  type := loadWord mem (p + 20)

/-- The loop of `print_memory_map`: the entries it visits, and `total_kib`. It has no outcome when
it does not end within a number of rounds. -/
def mapLoop (mem : Mem) : (fuel p last totalKib : ℕ) → Option (List MmapEntry × ℕ)
  | 0, _, _, _ => none
  | fuel + 1, p, last, totalKib =>
    if p < last then
      let e := loadEntry mem p
      let kib := u32 (e.length >>> 10)
      let totalKib := if e.type = 1 then u32 (totalKib + kib) else totalKib
      (mapLoop mem fuel (u32 (p + u32 (e.size + 4))) last totalKib).map fun r => (e :: r.1, r.2)
    else some ([], totalKib)

/-- `print_memory_map`, which prints a line for each entry it visits. -/
def printMemoryMap (fuel magic mbi : ℕ) (mem : Mem) : Option (List MmapEntry × ℕ) :=
  if magic ≠ bootMagic ∨ mbi = 0 ∨ loadWord mem mbi &&& mbiFlagMmap = 0 then some ([], 0)
  else
    let p := loadWord mem (mbi + 48)
    mapLoop mem fuel p (u32 (p + loadWord mem (mbi + 44))) 0

/-! ### What they agree on -/

/-- The signature is intact. -/
def E820Reply.Intact : E820Reply → Prop
  | .carry _ => True
  | .entry _ signature _ => signature = smap

/-- The entries up to the end of the map, a carry or a zero continuation; `none` if the replies do
not get there. -/
def e820Entries : List E820Reply → Option (List E820Entry)
  | [] => none
  | .carry _ :: _ => some []
  | .entry e _ cont :: replies => if cont = 0 then some [e] else (e820Entries replies).map (e :: ·)

/-- The first 64 entries that are not empty. -/
def mapEntries (entries : List E820Entry) : List E820Entry :=
  (entries.filter fun e => e.length ≠ 0).take 64

/-- What the kernel makes of an entry. -/
def E820Entry.mmap (e : E820Entry) : MmapEntry :=
  ⟨20, e.base.toNat, e.length.toNat, e.type.toNat⟩

/-- The memory that can be used, in KiB: entries of type 1, as a 32-bit sum. -/
def usableKib (entries : List E820Entry) : ℕ :=
  ((entries.filter fun e => e.type = 1).map fun e => e.length.toNat / 1024 % 2 ^ 32).sum % 2 ^ 32

/-- The words of a slot of the table. -/
def E820Entry.slot (e : E820Entry) : List ℕ := 20 :: e.words

/-- The information structure and the table hold the entries. -/
structure HoldsMap (mem : Mem) (entries : List E820Entry) : Prop where
  flags : loadWord mem mbiAddr = mbiFlagMmap
  mmapLength : loadWord mem (mbiAddr + 44) = 24 * entries.length
  mmapAddr_eq : loadWord mem (mbiAddr + 48) = mmapAddr
  table : WordsAt mem mmapAddr (entries.flatMap E820Entry.slot)
  length_le : entries.length ≤ 64

/-! ### The loader writes the table -/

variable {e : E820Entry} {entries kept : List E820Entry} {replies : List E820Reply}
  {mem mem' : Mem} {a p n total fuel : ℕ}

theorem E820Entry.length_slot (e : E820Entry) : e.slot.length = 6 := rfl

theorem length_slots (entries : List E820Entry) :
    (entries.flatMap E820Entry.slot).length = 6 * entries.length := by
  induction entries with
  | nil => rfl
  | cons e entries ih =>
    rw [List.flatMap_cons, List.length_append, ih, e.length_slot, List.length_cons]
    omega

theorem E820Entry.slot_lt (e : E820Entry) : ∀ w ∈ e.slot, w < 0x100000000 := by
  have hbase := e.base.toNat_lt
  have hlength := e.length.toNat_lt
  have htype := e.type.toNat_lt
  simp only [slot, words, List.forall_mem_cons, List.not_mem_nil, false_implies, implies_true,
    and_true]
  omega

/-- The two words of the length tell whether the entry is empty. -/
theorem E820Entry.or_eq_zero (e : E820Entry) :
    e.length.toNat % 0x100000000 ||| e.length.toNat / 0x100000000 = 0 ↔ e.length = 0 := by
  rw [Nat.or_eq_zero_iff, ← UInt64.toNat_inj, UInt64.toNat_zero]
  omega

/-- The table behind the kept entries: one more slot has been written. -/
theorem wordsAt_slot (htable : WordsAt mem mmapAddr (kept.flatMap E820Entry.slot))
    (e : E820Entry) :
    WordsAt (storeWords mem (mmapAddr + 24 * kept.length) e.slot) mmapAddr
      ((kept ++ [e]).flatMap E820Entry.slot) := by
  have hlen := length_slots kept
  rw [List.flatMap_append, List.flatMap_singleton, wordsAt_append, hlen, ← Nat.mul_assoc]
  refine ⟨htable.congr fun b _ hb => eqOn_storeWords ?_, wordsAt_storeWords e.slot_lt⟩
  simp only [Set.mem_compl_iff, Set.mem_Ico]
  omega

/-- The end of the loop fills in the information structure. -/
theorem exists_e820End (hne : kept ≠ []) (hle : kept.length ≤ 64)
    (htable : WordsAt mem mmapAddr (kept.flatMap E820Entry.slot)) :
    ∃ mem', e820End kept.length mem = .map mem' ∧ HoldsMap mem' kept := by
  have hcount : kept.length ≠ 0 := mt List.eq_nil_of_length_eq_zero hne
  have hmbi : mbiAddr = 0x1000 := rfl
  have hmmap : mmapAddr = 0x1100 := rfl
  refine ⟨_, if_neg hcount, ?_, ?_, ?_, htable.congr fun b hb _ => ?_, hle⟩
  · rw [loadWord_storeWord_self]
    rfl
  · rw [loadWord_storeWord_of_apart (by omega), loadWord_storeWord_of_apart (by omega),
      loadWord_storeWord_self, u32_of_lt (by omega), Nat.mul_comm]
  · rw [loadWord_storeWord_of_apart (by omega), loadWord_storeWord_self]
    rfl
  · have hbehind : ∀ c, c + 4 ≤ mmapAddr → b ∈ (Set.Ico c (c + 4))ᶜ := fun c hc => by
      simp only [Set.mem_compl_iff, Set.mem_Ico]
      omega
    exact (eqOn_storeWord (hbehind _ (by omega))).trans
      ((eqOn_storeWord (hbehind _ (by omega))).trans (eqOn_storeWord (hbehind _ (by omega))))

/-- The entries behind the first one. -/
theorem e820Entries_cons {signature cont : UInt32}
    (h : e820Entries (.entry e signature cont :: replies) = some entries) :
    ∃ rest, entries = e :: rest ∧
      (cont = 0 ∧ rest = [] ∨ cont ≠ 0 ∧ e820Entries replies = some rest) := by
  rw [e820Entries] at h
  by_cases hcont : cont = 0
  · rw [if_pos hcont] at h
    exact ⟨[], (Option.some.inj h).symm, Or.inl ⟨hcont, rfl⟩⟩
  · rw [if_neg hcont] at h
    obtain ⟨rest, hrest, rfl⟩ := Option.map_eq_some_iff.mp h
    exact ⟨rest, rfl, Or.inr ⟨hcont, hrest⟩⟩

/-- What is written behind the table leaves the table alone. -/
theorem wordsAt_behind (htable : WordsAt mem mmapAddr (kept.flatMap E820Entry.slot))
    (heq : ∀ b < mmapAddr + 24 * kept.length, mem' b = mem b) :
    WordsAt mem' mmapAddr (kept.flatMap E820Entry.slot) :=
  htable.congr fun b _ hb => heq b (by rw [length_slots] at hb; omega)

/-- A call that succeeds fills the slot behind the table, and the test of its length is the one of
the entry. -/
theorem storeWords_slot (e : E820Entry)
    (htable : WordsAt mem mmapAddr (kept.flatMap E820Entry.slot)) :
    WordsAt (storeWords mem (mmapAddr + 24 * kept.length) e.slot) mmapAddr
        (kept.flatMap E820Entry.slot) ∧
      (loadWord (storeWords mem (mmapAddr + 24 * kept.length) e.slot)
            (mmapAddr + 24 * kept.length + 4 + 8) |||
          loadWord (storeWords mem (mmapAddr + 24 * kept.length) e.slot)
            (mmapAddr + 24 * kept.length + 4 + 12) = 0 ↔ e.length = 0) := by
  refine ⟨wordsAt_behind htable fun b hb => eqOn_storeWords fun hmem => ?_, ?_⟩
  · exact absurd hmem.1 (not_le.mpr hb)
  · have hloads : WordsAt (storeWords mem (mmapAddr + 24 * kept.length) e.slot)
        (mmapAddr + 24 * kept.length) e.slot := wordsAt_storeWords e.slot_lt
    obtain ⟨-, -, -, hlow, hhigh, -⟩ := hloads
    rw [← e.or_eq_zero]
    exact iff_of_eq (congrArg₂ (fun v w => v ||| w = 0) hlow hhigh)

/-- The end of the loop, when no entries are to come. -/
theorem exists_e820Finish {p : E820Entry → Bool} (hsome : kept ++ List.filter p [] ≠ [])
    (hle : kept.length ≤ 64) (htable : WordsAt mem mmapAddr (kept.flatMap E820Entry.slot)) :
    ∃ mem', some (e820End kept.length mem) = some (.map mem') ∧
      HoldsMap mem' ((kept ++ List.filter p []).take 64) := by
  rw [List.filter_nil, List.append_nil] at hsome ⊢
  obtain ⟨mem', hend, hmap⟩ := exists_e820End hsome hle htable
  rw [List.take_of_length_le hle]
  exact ⟨mem', congrArg some hend, hmap⟩

/-- **The loop.** From any point on, it completes the table to the first 64 entries that are not
empty. -/
theorem exists_e820Loop (kept : List E820Entry) (hintact : ∀ r ∈ replies, r.Intact)
    (hended : e820Entries replies = some entries) (hroom : kept.length < 64)
    (hsome : kept ++ entries.filter (fun e => e.length ≠ 0) ≠ [])
    (htable : WordsAt mem mmapAddr (kept.flatMap E820Entry.slot)) :
    ∃ mem', e820Loop replies (mmapAddr + 24 * kept.length) kept.length mem = some (.map mem') ∧
      HoldsMap mem' ((kept ++ entries.filter fun e => e.length ≠ 0).take 64) := by
  induction replies generalizing kept mem entries with
  | nil => exact absurd hended (by simp [e820Entries])
  | cons reply replies ih =>
    obtain ⟨hreply, hothers⟩ := List.forall_mem_cons.mp hintact
    cases reply with
    | carry left =>
      obtain rfl := Option.some.inj hended
      rw [e820Loop]
      refine exists_e820Finish hsome hroom.le (wordsAt_behind htable fun b hb => ?_)
      rw [copy_of_not_mem (by omega)]
      exact eqOn_storeWord fun hmem => absurd hmem.1 (not_le.mpr hb)
    | entry e signature cont =>
      obtain ⟨rest, rfl, hrest⟩ := e820Entries_cons hended
      have hsignature : ¬signature ≠ smap := not_not.mpr hreply
      have hslot : storeWords (storeWord mem (mmapAddr + 24 * kept.length) 20)
          (mmapAddr + 24 * kept.length + 4) e.words =
          storeWords mem (mmapAddr + 24 * kept.length) e.slot := rfl
      have hfilled := wordsAt_slot htable e
      obtain ⟨hkept, htest⟩ := storeWords_slot e htable
      rw [e820Loop, hslot, if_neg hsignature]
      generalize storeWords mem (mmapAddr + 24 * kept.length) e.slot = mem₁ at *
      by_cases hempty : e.length = 0
      · -- an empty entry
        rw [List.filter_cons_of_neg (by simpa using hempty)] at hsome ⊢
        rw [if_pos (htest.mpr hempty)]
        obtain ⟨rfl, rfl⟩ | ⟨hcont, hrest⟩ := hrest
        · rw [if_neg (not_not.mpr rfl)]
          exact exists_e820Finish hsome hroom.le hkept
        · rw [if_pos hcont]
          exact ih kept hothers hrest hroom hsome hkept
      · -- an entry that is kept
        have hlength : (kept ++ [e]).length = kept.length + 1 := by simp
        have hmax : mmapMax = 64 := rfl
        have hne : ∀ l, kept ++ [e] ++ l ≠ [] := by simp
        rw [List.filter_cons_of_pos (by simpa using hempty), List.append_cons,
          if_neg (mt htest.mp hempty), ← hlength]
        by_cases hfull : (kept ++ [e]).length ≥ mmapMax
        · have hend := exists_e820End (List.append_ne_nil_of_right_ne_nil _ (List.cons_ne_nil e []))
            (by omega) hfilled
          obtain ⟨mem', hend, hmap⟩ := hend
          rw [if_pos hfull, List.take_left' (by omega)]
          exact ⟨mem', congrArg some hend, hmap⟩
        rw [if_neg hfull]
        obtain ⟨rfl, rfl⟩ | ⟨hcont, hrest⟩ := hrest
        · rw [if_neg (not_not.mpr rfl)]
          exact exists_e820Finish (hne _) (by omega) hfilled
        · have hnext : mmapAddr + 24 * kept.length + 4 + 20 =
              mmapAddr + 24 * (kept ++ [e]).length := by omega
          rw [if_pos hcont, hnext]
          exact ih (kept ++ [e]) hothers hrest (by omega) (hne _) hfilled

/-- **The loader.** Behind `detect_memory` the table holds the first 64 entries that are not
empty. -/
theorem exists_detectMemory (hintact : ∀ r ∈ replies, r.Intact)
    (hended : e820Entries replies = some entries) (hsome : ∃ e ∈ entries, e.length ≠ 0)
    (mem : Mem) :
    ∃ mem', detectMemory replies mem = some (.map mem') ∧ HoldsMap mem' (mapEntries entries) := by
  obtain ⟨e, hmem, he⟩ := hsome
  refine exists_e820Loop [] hintact hended (Nat.zero_lt_succ _) ?_ trivial
  exact List.ne_nil_of_mem (List.mem_filter.mpr ⟨hmem, decide_eq_true he⟩)

/-! ### The kernel reads the table -/

/-- An entry of the table. -/
theorem loadEntry_eq (h : WordsAt mem p e.slot) : loadEntry mem p = e.mmap := by
  obtain ⟨hsize, hbase, hbase', hlength, hlength', htype, -⟩ := h
  have h₁ : loadWord mem (p + 8) = e.base.toNat / 0x100000000 := hbase'
  have h₂ : loadWord mem (p + 12) = e.length.toNat % 0x100000000 := hlength
  have h₃ : loadWord mem (p + 16) = e.length.toNat / 0x100000000 := hlength'
  have h₄ : loadWord mem (p + 20) = e.type.toNat := htype
  rw [loadEntry, E820Entry.mmap, hsize, hbase, h₁, h₂, h₃, h₄, Nat.mod_add_div, Nat.mod_add_div]

/-- One entry more. -/
theorem usableKib_cons (e : E820Entry) (entries : List E820Entry) :
    usableKib (e :: entries) = u32 ((if e.type = 1 then e.length.toNat / 1024 % 2 ^ 32 else 0) +
      usableKib entries) := by
  rw [usableKib, usableKib, u32]
  split_ifs with htype
  · rw [List.filter_cons_of_pos (by simpa using htype), List.map_cons, List.sum_cons]
    omega
  · rw [List.filter_cons_of_neg (by simpa using htype), Nat.zero_add]
    omega

/-- **The loop of the kernel** visits the entries of a table one by one. -/
theorem mapLoop_visits (htable : WordsAt mem p (entries.flatMap E820Entry.slot))
    (hend : p + 24 * entries.length < 0x100000000) (hfuel : entries.length < fuel)
    (htotal : total < 0x100000000) :
    mapLoop mem fuel p (p + 24 * entries.length) total =
      some (entries.map E820Entry.mmap, u32 (total + usableKib entries)) := by
  induction entries generalizing p fuel total with
  | nil =>
    obtain ⟨fuel, rfl⟩ := Nat.exists_eq_succ_of_ne_zero (Nat.ne_zero_of_lt hfuel)
    have hnone : usableKib [] = 0 := rfl
    rw [mapLoop, if_neg (by simp), hnone, Nat.add_zero, u32_of_lt htotal, List.map_nil]
  | cons e entries ih =>
    obtain ⟨fuel, rfl⟩ := Nat.exists_eq_succ_of_ne_zero (Nat.ne_zero_of_lt hfuel)
    rw [List.flatMap_cons, wordsAt_append, e.length_slot] at htable
    have hslot : WordsAt mem p e.slot := htable.1
    have hrest : WordsAt mem (p + 24) (entries.flatMap E820Entry.slot) := htable.2
    rw [List.length_cons] at hend hfuel ⊢
    have hsize : u32 (e.mmap.size + 4) = 24 := rfl
    have hnext : u32 (p + u32 (e.mmap.size + 4)) = p + 24 := by
      rw [hsize, u32_of_lt (by omega)]
    have htype : e.mmap.type = 1 ↔ e.type = 1 := UInt32.toNat_inj (b := 1)
    have hkib : u32 (e.mmap.length >>> 10) = e.length.toNat / 1024 % 2 ^ 32 := by
      rw [Nat.shiftRight_eq_div_pow]
      rfl
    have hlast : p + 24 * (entries.length + 1) = p + 24 + 24 * entries.length := by omega
    rw [mapLoop, if_pos (by omega), loadEntry_eq hslot]
    dsimp only
    rw [hnext, hkib, hlast, usableKib_cons]
    simp only [htype]
    split_ifs with hone
    · have hlt : u32 (total + e.length.toNat / 1024 % 2 ^ 32) < 0x100000000 :=
        Nat.mod_lt _ (by decide)
      have hsum : u32 (u32 (total + e.length.toNat / 1024 % 2 ^ 32) + usableKib entries) =
          u32 (total + u32 (e.length.toNat / 1024 % 2 ^ 32 + usableKib entries)) := by
        rw [u32, u32, u32, u32, Nat.mod_add_mod, Nat.add_mod_mod, Nat.add_assoc]
      rw [ih hrest (by omega) (by omega) hlt, Option.map_some, List.map_cons, hsum]
    · rw [ih hrest (by omega) (by omega) htotal, Option.map_some, List.map_cons, Nat.zero_add, u32,
        u32, u32, Nat.add_mod_mod]

/-- `print_memory_map` on a memory that holds a map. -/
theorem printMemoryMap_visits (h : HoldsMap mem entries) (hfuel : entries.length < fuel) :
    printMemoryMap fuel bootMagic mbiAddr mem =
      some (entries.map E820Entry.mmap, usableKib entries) := by
  have hmmap : mmapAddr = 0x1100 := rfl
  have hle := h.length_le
  have hflag : ¬(bootMagic ≠ bootMagic ∨ mbiAddr = 0 ∨ mbiFlagMmap &&& mbiFlagMmap = 0) := by decide
  have hsum : usableKib entries < 0x100000000 := Nat.mod_lt _ (by decide)
  rw [printMemoryMap, h.flags, if_neg hflag, h.mmapAddr_eq, h.mmapLength]
  dsimp only
  rw [u32_of_lt (by omega), mapLoop_visits h.table (by omega) hfuel (by decide), Nat.zero_add,
    u32_of_lt hsum]

/-- The map does not depend on the rest of the memory. -/
theorem HoldsMap.congr (h : HoldsMap mem entries)
    (heq : ∀ b, mbiAddr ≤ b → b < mmapAddr + 24 * mmapMax → mem' b = mem b) :
    HoldsMap mem' entries := by
  have hmbi : mbiAddr = 0x1000 := rfl
  have hmmap : mmapAddr = 0x1100 := rfl
  have hmax : mmapMax = 64 := rfl
  have hle := h.length_le
  have hload : ∀ b, mbiAddr ≤ b → b + 4 ≤ mmapAddr → loadWord mem' b = loadWord mem b :=
    fun b hb hb' => loadWord_congr fun k hk => heq _ (by omega) (by omega)
  refine ⟨?_, ?_, ?_, h.table.congr fun b hb hb' => heq b (by omega) ?_, hle⟩
  · rw [hload _ le_rfl (by omega), h.flags]
  · rw [hload _ (by omega) (by omega), h.mmapLength]
  · rw [hload _ (by omega) (by omega), h.mmapAddr_eq]
  · rw [length_slots] at hb'
    omega

/-- **Loader and kernel agree on the memory map.** For every sequence of replies that gets to its
end, with intact signatures and an entry that is not empty, `detect_memory` succeeds. In every
memory that agrees with the one it leaves on the structure and the table, `print_memory_map`
returns: it visits the first 64 entries that are not empty, and its result is their usable
memory. -/
theorem memoryMap_agrees (hintact : ∀ r ∈ replies, r.Intact)
    (hended : e820Entries replies = some entries) (hsome : ∃ e ∈ entries, e.length ≠ 0)
    (mem : Mem) :
    ∃ mem₁, detectMemory replies mem = some (.map mem₁) ∧
      ∀ mem₂ : Mem, (∀ b, mbiAddr ≤ b → b < mmapAddr + 24 * mmapMax → mem₂ b = mem₁ b) →
        ∀ fuel, 64 < fuel → printMemoryMap fuel bootMagic mbiAddr mem₂ =
          some ((mapEntries entries).map E820Entry.mmap, usableKib (mapEntries entries)) := by
  obtain ⟨mem₁, hdetect, hmap⟩ := exists_detectMemory hintact hended hsome mem
  refine ⟨mem₁, hdetect, fun mem₂ heq fuel hfuel => ?_⟩
  exact printMemoryMap_visits (hmap.congr heq) (hmap.length_le.trans_lt hfuel)

/-- `memoryMap_agrees` for an empty entry, 640 KiB that can be used, and an entry that is
reserved. -/
theorem memoryMap_agrees_sample :
    ∃ mem₁, detectMemory [.entry ⟨0, 0, 1⟩ smap 1, .entry ⟨0, 0xA0000, 1⟩ smap 2,
        .entry ⟨0xFFFFFFFF00000000, 0x400000000, 2⟩ smap 0] (fun _ => 0xCC) = some (.map mem₁) ∧
      printMemoryMap 65 bootMagic mbiAddr mem₁ =
        some ([⟨20, 0, 0xA0000, 1⟩, ⟨20, 0xFFFFFFFF00000000, 0x400000000, 2⟩], 640) := by
  have hintact : ∀ r ∈ [E820Reply.entry ⟨0, 0, 1⟩ smap 1, .entry ⟨0, 0xA0000, 1⟩ smap 2,
      .entry ⟨0xFFFFFFFF00000000, 0x400000000, 2⟩ smap 0], r.Intact := by
    simp [E820Reply.Intact]
  obtain ⟨mem₁, hdetect, hprint⟩ := memoryMap_agrees hintact rfl
    ⟨⟨0, 0xA0000, 1⟩, by simp, by decide⟩ fun _ => 0xCC
  exact ⟨mem₁, hdetect, hprint mem₁ (fun _ _ _ => rfl) 65 (by decide)⟩

end ChalesOs
