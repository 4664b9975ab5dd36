import ChalesOs.Memory.KmallocTiles

/-!
# `krealloc` on bytes

`krealloc` of a block that is too small takes a new one, copies, and frees the old one. The new
block may be a free neighbour of the old one, and freeing the old one merges it with its own free
neighbours; but the allocator writes nothing except headers, and no header lies in an allocation,
so the copy and the contents of all the other allocations survive (`Kmalloc.Represents.krealloc`).
-/

namespace ChalesOs

open ByteMemory

variable {L : Layout} {h : Kmalloc} {H H' : KernelHeap} {p n size : ℕ} {e : HeapCall}

/-- Pointers name allocations: two of them with the same pointer are the same. -/
theorem KernelHeap.eq_of_mem_allocs {m : ℕ} (hn : (p, n) ∈ H.allocs L) (hm : (p, m) ∈ H.allocs L) :
    n = m := by
  have hnd : ((H.allocs L).map Prod.fst).Nodup :=
    KernelHeap.live_eq_map L H ▸ nodup_liveFrom _ _
  exact (Prod.mk.inj (List.inj_on_of_nodup_map hnd hn hm rfl)).2

/-- What a successful `krealloc` of the allocation `(p, n)` to `size` bytes makes of the heap `H`:
the allocation is replaced by one that is large enough and begins with the same bytes, and the
contents of the other allocations stay. -/
structure Kmalloc.Reallocated (L : Layout) (h : Kmalloc) (H : KernelHeap) (p n size : ℕ)
    (e : HeapCall) (H' : KernelHeap) : Prop where
  represents : e.heap.Represents L H'
  allocs : ∃ m, size ≤ m ∧ (H'.allocs L).Perm ((e.ptr, m) :: (H.allocs L).erase (p, n))
  data : ∀ k, k < min n size → e.heap.mem (e.ptr + k) = h.mem (p + k)
  others : ∀ q l, (q, l) ∈ H.allocs L → q ≠ p → ∀ x, q ≤ x ∧ x < q + l →
    e.heap.mem x = h.mem x

/-- The new pointer is not `NULL`. -/
theorem Kmalloc.Reallocated.ptr_ne_zero (ha : h.Reallocated L H p n size e H') : e.ptr ≠ 0 := by
  obtain ⟨m, -, hperm⟩ := ha.allocs
  have hnew := (mem_allocsFrom (hperm.mem_iff.mpr List.mem_cons_self)).1
  rw [kmallocMetadataSize] at hnew
  omega

/-- A block that is large enough stays where it is. -/
theorem Kmalloc.Represents.reallocated_self (hr : h.Represents L H) (hp : (p, n) ∈ H.allocs L)
    (hle : size ≤ n) (headers : List ℕ) :
    h.Reallocated L H p n size ⟨p, h, headers⟩ H where
  represents := hr
  allocs := ⟨n, hle, List.perm_cons_erase hp⟩
  data _ _ := rfl
  others _ _ _ _ _ _ := rfl

/-- The heap when the old contents have been copied into a new allocation. -/
def Kmalloc.withCopy (h : Kmalloc) (dst src n : ℕ) : Kmalloc :=
  { h with mem := copy h.mem dst h.mem src n }

/-- Behind a successful `kmalloc` of more bytes than the allocation `(p, n)` has, copying its
contents and freeing it ends, and moves it. -/
theorem Kmalloc.Allocated.move (ha : h.Allocated L H size e H') (hp : (p, n) ∈ H.allocs L)
    (hlt : n < size) (hstop : h.StopsAt L (H'.top L)) :
    ∃ c, (e.heap.withCopy e.ptr p n).kfree L p = some c ∧
      ∀ headers, h.Reallocated L H p n size ⟨e.ptr, c.heap, headers⟩ (ChalesOs.kfree L H' p) := by
  obtain ⟨m, hm, hperm⟩ := ha.allocs
  have hnew : (e.ptr, m) ∈ H'.allocs L := hperm.mem_iff.mpr List.mem_cons_self
  have hold : ∀ {q l}, (q, l) ∈ H.allocs L → (q, l) ∈ H'.allocs L := fun hq =>
    hperm.mem_iff.mpr (List.mem_cons_of_mem _ hq)
  have hend : e.ptr + m ≤ H'.top L := (mem_allocsFrom hnew).2
  -- a pointer of `H` is not the new one
  have hne : ∀ {q l}, (q, l) ∈ H.allocs L → q ≠ e.ptr := by
    rintro q l hq rfl
    have hnd := ((hperm.map Prod.fst).nodup_iff.mp
      (KernelHeap.live_eq_map L H' ▸ nodup_liveFrom _ _))
    exact (List.nodup_cons.mp hnd).1 (List.mem_map.mpr ⟨_, hq, rfl⟩)
  -- the copy stays inside the new allocation
  have hcopy : (e.heap.withCopy e.ptr p n).Represents L H' := by
    refine ha.represents.congr rfl rfl fun x hx => eqOn_copy fun hin => hx ?_
    exact Or.inr (Or.inr ⟨_, _, hnew, hin.1, hin.2.trans_le (by omega)⟩)
  have hstop' : (e.heap.withCopy e.ptr p n).StopsAt L (H'.top L) := by
    refine StopsAt.congr hstop fun x hx => (eqOn_copy fun hin => ?_).trans (ha.frame x hx)
    have hlast := hin.2
    omega
  have hlive : p ∈ H'.live L := by
    rw [KernelHeap.live_eq_map]
    exact List.mem_map_of_mem (hold hp)
  obtain ⟨c, hcall, hrep, -, hmem⟩ := hcopy.kfree hstop' hlive
  -- and freeing writes headers only
  have hkeep : ∀ {q l x}, (q, l) ∈ H'.allocs L → q ≤ x ∧ x < q + l →
      c.heap.mem x = copy e.heap.mem e.ptr e.heap.mem p n x := fun hq hx =>
    hmem (KernelHeap.not_mem_headerBytes hq hx)
  refine ⟨c, hcall, fun headers => ⟨hrep, ⟨m, hm, ?_⟩, fun k hk => ?_, fun q l hq hqp x hx => ?_⟩⟩
  · obtain ⟨n', hfreed⟩ := kfree_allocs hlive
    obtain rfl : n = n' :=
      KernelHeap.eq_of_mem_allocs (hold hp) (hfreed.mem_iff.mpr List.mem_cons_self)
    have herase := (hfreed.symm.trans hperm).erase (p, n)
    rw [List.erase_cons_head, List.erase_cons_tail] at herase
    · exact herase
    · simpa using fun heq => absurd heq.symm (hne hp)
  · show c.heap.mem (e.ptr + k) = h.mem (p + k)
    rw [hkeep hnew ⟨by omega, by omega⟩, copy_of_mem (by omega), Nat.add_sub_cancel_left]
    exact ha.payload p n hp _ ⟨by omega, by omega⟩
  · have hapart := allocsFrom_apart (hold hq) hnew fun heq => hne hq (Prod.mk.inj heq).1
    refine (hkeep (hold hq) hx).trans (Eq.trans ?_ (ha.payload q l hq x hx))
    exact copy_of_not_mem (by dsimp only at hapart; omega)

/-- **`krealloc` on bytes.** When the sum in `expand_heap` does not wrap to an address in front of
`_heap_end`, resizing an allocation to at least one byte ends. It fails and changes nothing, or
replaces the allocation. -/
theorem Kmalloc.Represents.krealloc (hr : h.Represents L H)
    (hstop : ∀ x, H.top L ≤ x → h.StopsAt L x) (hsize : size ≠ 0) (hp : (p, n) ∈ H.allocs L)
    (hfits : (∀ b ∈ H.blocks, b.isFree = true → b.size < size) →
      L.heapEnd < u32 (H.top L + kmallocMetadataSize + size) ∨
        H.top L + kmallocMetadataSize + size ≤ L.heapEnd) :
    ∃ e, h.krealloc L p size = some e ∧
      (e.ptr = 0 ∧ e.heap = h ∨ ∃ H', h.Reallocated L H p n size e H') := by
  have hbound := mem_allocsFrom hp
  have hhead := (hr.blocks.tiles.headerAt_alloc (List.mem_cons_of_mem _ hp)).2
  rw [Layout.firstBlock, kmallocMetadataSize] at hbound
  rw [Kmalloc.krealloc, if_neg hsize, if_neg (by omega), hr.kmallocInit_eq]
  dsimp only
  rw [if_neg (not_not.mpr hhead.magic), hhead.size]
  by_cases hle : size ≤ n
  · exact ⟨_, if_pos hle, Or.inr ⟨H, hr.reallocated_self hp hle _⟩⟩
  obtain ⟨e, hcall, -, he⟩ := hr.kmalloc (hstop _ le_rfl) hsize hfits
  rw [if_neg hle, hcall]
  simp only [Option.bind_eq_bind, Option.bind_some]
  rcases he with ⟨hnull, hheap⟩ | ⟨H', ha⟩
  · exact ⟨_, if_pos hnull, Or.inl ⟨rfl, hheap⟩⟩
  obtain ⟨m, -, hperm⟩ := ha.allocs
  have htop : H.top L ≤ H'.top L := by
    rcases ha.top with heq | ⟨-, -, heq⟩ <;> omega
  -- the header of the old block is as it was
  have hold : e.heap.size (p - kmallocMetadataSize) = n :=
    (ha.represents.blocks.tiles.headerAt_alloc (List.mem_cons_of_mem _
      (hperm.mem_iff.mpr (List.mem_cons_of_mem _ hp)))).2.size
  obtain ⟨c, hfree, hmoved⟩ := ha.move hp (not_le.mp hle) (hstop _ htop)
  rw [if_neg (hmoved []).ptr_ne_zero, hold]
  exact ⟨_, by rw [← Kmalloc.withCopy, hfree]; rfl, Or.inr ⟨_, hmoved _⟩⟩

/-! ### The heap invariant -/

/-- **`krealloc` keeps the data.** In a heap that its headers tile, with no magic number behind the
last block, resizing an allocation without wrapping returns `NULL` and changes nothing, or returns
an allocation of at least the size asked for that begins with the bytes of the old one; the
contents of all the other allocations stay. -/
theorem krealloc_keeps (hr : h.Represents L H) (hstop : ∀ x, H.top L ≤ x → h.StopsAt L x)
    (hp : (p, n) ∈ H.allocs L) (hsize : 0 < size)
    (hwrap : H.top L + kmallocMetadataSize + size < 0x100000000) :
    ∃ e, h.krealloc L p size = some e ∧
      (e.ptr = 0 ∧ e.heap = h ∨ e.ptr ≠ 0 ∧ ∃ H', h.Reallocated L H p n size e H') := by
  obtain ⟨e, hcall, he⟩ := hr.krealloc hstop hsize.ne' hp fun _ => by
    rw [u32, Nat.mod_eq_of_lt hwrap]
    exact lt_or_ge _ _
  refine ⟨e, hcall, he.imp_right ?_⟩
  rintro ⟨H', ha⟩
  exact ⟨ha.ptr_ne_zero, H', ha⟩

/-- `krealloc_keeps` for an only block of 16 bytes. -/
theorem krealloc_keeps_sample : ∃ (h : Kmalloc) (H : KernelHeap) (e : HeapCall),
    (0x280018, 16) ∈ H.allocs Layout.sample ∧
    h.krealloc Layout.sample 0x280018 32 = some e ∧
    (e.ptr = 0 ∧ e.heap = h ∨
      e.ptr ≠ 0 ∧ ∃ H', h.Reallocated Layout.sample H 0x280018 16 32 e H') := by
  have hfresh : Kmalloc.Fresh Layout.sample ⟨fun _ => 0, 0, 0⟩ := ⟨rfl, rfl, fun _ _ _ => rfl⟩
  obtain ⟨hinit, hmem₀⟩ := hfresh.kmallocInit
  have hzero : ∀ x, 0x28000C ≤ x →
      (Kmalloc.kmallocInit Layout.sample ⟨fun _ => 0, 0, 0⟩).mem x = 0 := fun x hx =>
    hmem₀ fun hin => absurd hin.2 (not_lt.mpr hx)
  obtain ⟨c, -, -, hrep, -, hmem⟩ := hinit.kmalloc_of_expand
    (Kmalloc.stopsAt_of_zero fun k _ => hzero _ (by
      show 0x28000C ≤ 0x28000C + 4 + k
      omega)) (by decide : (16 : ℕ) ≠ 0) rfl (by decide)
  have hstop : ∀ x, 0x280028 ≤ x → c.heap.StopsAt Layout.sample x := fun x hx =>
    Kmalloc.stopsAt_of_zero fun k _ => by
      refine (hmem fun hin => ?_).trans (hzero _ (by omega))
      have hlast : x + 4 + k < 0x280018 := hin.2
      omega
  have hp : (0x280018, 16) ∈ KernelHeap.allocs Layout.sample ⟨[⟨16, false⟩]⟩ := by decide
  obtain ⟨e, hcall, he⟩ := krealloc_keeps hrep hstop hp (by decide : 0 < 32) (by decide)
  exact ⟨_, _, e, hp, hcall, he⟩

end ChalesOs
