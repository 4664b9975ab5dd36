import Mathlib.Data.Set.BooleanAlgebra
import Mathlib.Order.CompletePartialOrder
import Mathlib.Order.Interval.Set.Disjoint
import ChalesOs.Memory.Krealloc

/-!
# Runs of the kernel heap

Clients of `kmalloc.c` know the pointers they hold and the sizes they asked for. `HeapRun.Holds`
says that these are the blocks in use of a `KernelHeap` the bytes represent; each call keeps this,
under a condition on the request and on the word at the top of the heap.

Two conditions are used. For `heap_tiled`, no request wraps and no address behind the last block
carries the magic number. For `heapCalls_safe` the heap always ends at `_heap_end` or leaves room
for a whole header; then the magic number behind the last block is a word of the arena, and zero.
-/

namespace ChalesOs

open ByteMemory

variable {L : Layout} {h h' : Kmalloc} {H H' : KernelHeap} {r r' : HeapRun} {p size : ℕ}
  {e : HeapCall} {op : HeapOp}

/-- The address behind the last block. -/
def Kmalloc.top (L : Layout) (h : Kmalloc) : ℕ :=
  if h.heapBase = 0 then L.firstBlock else h.after h.heapPtr

/-- The heap is not set up yet, or represents `H`. -/
def Kmalloc.Models (L : Layout) (h : Kmalloc) (H : KernelHeap) : Prop :=
  h.Fresh L ∧ H = ⟨[]⟩ ∨ h.Represents L H

/-- The allocations clients hold are the blocks in use of `H`. -/
structure HeapRun.Holds (L : Layout) (r : HeapRun) (H : KernelHeap) : Prop where
  models : r.heap.Models L H
  perm : (r.live.map Prod.fst).Perm (H.live L)
  sizes : ∀ p ∈ r.live, ∃ n, (p.1, n) ∈ H.allocs L ∧ p.2 ≤ n

/-! ### The heap that may still be set up -/

theorem Kmalloc.Models.inArena (hm : h.Models L H) : H.top L ≤ L.heapEnd := by
  rcases hm with ⟨-, rfl⟩ | hr
  · have := L.heapEnd_eq
    show L.firstBlock ≤ L.heapEnd
    rw [Layout.firstBlock, kmallocMetadataSize]
    omega
  · exact hr.inArena

theorem Kmalloc.Models.top_eq (hm : h.Models L H) : h.top L = H.top L := by
  have hpos := L.task0_lt_heapStart
  rcases hm with ⟨hf, rfl⟩ | hr
  · exact if_pos hf.base
  · rw [Kmalloc.top, hr.base, if_neg (by omega)]
    exact hr.after_heapPtr.1

/-- `kmalloc_init` sets the heap up, and changes nothing behind its blocks. -/
theorem Kmalloc.Models.kmallocInit (hm : h.Models L H) :
    (h.kmallocInit L).Represents L H ∧ ∀ x, H.top L ≤ x → (h.kmallocInit L).mem x = h.mem x := by
  rcases hm with ⟨hf, rfl⟩ | hr
  · obtain ⟨hr, hmem⟩ := hf.kmallocInit
    exact ⟨hr, fun x hx => hmem (by simp [show L.firstBlock ≤ x from hx])⟩
  · rw [hr.kmallocInit_eq]
    exact ⟨hr, fun _ _ => rfl⟩

/-- The arena behind the blocks is zero. -/
theorem Kmalloc.Models.clear (hm : h.Models L H) {x : ℕ} (hx : H.top L ≤ x) (hx' : x < L.heapEnd) :
    h.mem x = 0 := by
  obtain ⟨hr, hmem⟩ := hm.kmallocInit
  rw [← hmem x hx]
  exact hr.clear x hx hx'

/-- `kmalloc` begins with `kmalloc_init`. -/
theorem Kmalloc.Models.kmalloc_kmallocInit (hm : h.Models L H) (hsize : size ≠ 0) :
    (h.kmallocInit L).kmalloc L size = h.kmalloc L size := by
  rw [Kmalloc.kmalloc, Kmalloc.kmalloc, if_neg hsize, if_neg hsize,
    hm.kmallocInit.1.kmallocInit_eq]

/-- A heap some of whose allocations are held is set up. -/
theorem HeapRun.Holds.represents (hh : r.Holds L H) (hp : p ∈ r.live.map Prod.fst) :
    r.heap.Represents L H := by
  refine hh.models.resolve_left fun hf => ?_
  have := hh.perm.mem_iff.mp hp
  rw [hf.2] at this
  exact List.not_mem_nil this

/-- The pointers held are in use, and none is `NULL`. -/
theorem HeapRun.Holds.mem_live (hh : r.Holds L H) (hp : p ∈ r.live.map Prod.fst) :
    p ∈ H.live L ∧ L.heapStart < p := by
  have hlive := hh.perm.mem_iff.mp hp
  exact ⟨hlive, ((hh.represents hp).inArena.mem_live hlive).1⟩

/-! ### What the calls do to the allocations held -/

/-- An allocation is added to those held. -/
theorem HeapRun.Holds.allocated {size' : ℕ} (hh : r.Holds L H)
    (ha : h.Allocated L H size e H') (hle : size' ≤ size) :
    HeapRun.Holds L ⟨e.heap, (e.ptr, size') :: r.live⟩ H' := by
  obtain ⟨n, hn, hperm⟩ := ha.allocs
  refine ⟨Or.inr ha.represents, ?_, fun p hp => ?_⟩
  · rw [List.map_cons, KernelHeap.live_eq_map]
    refine List.Perm.trans ?_ (hperm.map Prod.fst).symm
    rw [List.map_cons, ← KernelHeap.live_eq_map]
    exact hh.perm.cons _
  · rcases List.mem_cons.mp hp with rfl | hp
    · exact ⟨n, hperm.mem_iff.mpr List.mem_cons_self, hle.trans hn⟩
    · obtain ⟨m, hm, hpm⟩ := hh.sizes p hp
      exact ⟨m, hperm.mem_iff.mpr (List.mem_cons_of_mem _ hm), hpm⟩

/-- Every pointer is held once. -/
theorem HeapRun.Holds.nodup (hh : r.Holds L H) : (r.live.map Prod.fst).Nodup :=
  hh.perm.nodup_iff.mpr (nodup_liveFrom _ _)

/-- The pointers held when one is given back. -/
theorem HeapRun.Holds.map_without (hh : r.Holds L H) (p : ℕ) :
    (r.without p).map Prod.fst = (r.live.map Prod.fst).erase p := by
  rw [hh.nodup.erase_eq_filter, List.filter_map]
  refine congrArg (List.map Prod.fst) (List.filter_congr fun q _ => ?_)
  simp [bne, Bool.beq_eq_decide_eq]

/-- An allocation is removed from those held. -/
theorem HeapRun.Holds.without (hh : r.Holds L H) (hp : p ∈ H.live L)
    (hr : h.Represents L (kfree L H p)) :
    HeapRun.Holds L ⟨h, r.without p⟩ (kfree L H p) := by
  have hlive := (kfree_live (hh.models.inArena : H.InArena L) hp).2
  obtain ⟨n, hperm⟩ := kfree_allocs hp
  refine ⟨Or.inr hr, ?_, fun q hq => ?_⟩
  · rw [hlive, hh.map_without]
    exact hh.perm.erase p
  · obtain ⟨hq, hne⟩ := List.mem_filter.mp hq
    obtain ⟨m, hm, hle⟩ := hh.sizes q hq
    refine ⟨m, ((List.mem_cons.mp (hperm.mem_iff.mp hm)).resolve_left fun heq => ?_), hle⟩
    exact (of_decide_eq_true hne) (Prod.mk.inj heq).1

/-- `NULL` is not among the pointers held. -/
theorem HeapRun.Holds.without_null (hh : r.Holds L H) : r.without 0 = r.live :=
  List.filter_eq_self.mpr fun q hq => by
    have := (hh.mem_live (List.mem_map_of_mem hq)).2
    exact decide_eq_true (by omega)

/-- `kmalloc` in a run. -/
theorem HeapRun.Holds.kmalloc (hh : r.Holds L H) (hstop : r.heap.StopsAt L (H.top L))
    (hsize : size ≠ 0)
    (hfits : (∀ b ∈ H.blocks, b.isFree = true → b.size < size) →
      L.heapEnd < u32 (H.top L + kmallocMetadataSize + size) ∨
        H.top L + kmallocMetadataSize + size ≤ L.heapEnd) :
    ∃ e, r.heap.kmalloc L size = some e ∧ (∀ x ∈ e.headers, H.Reads L x) ∧
      (e.ptr = 0 ∧ HeapRun.Holds L ⟨e.heap, r.live⟩ H ∨
        ∃ H', (r.heap.kmallocInit L).Allocated L H size e H' ∧ L.heapStart < e.ptr ∧
          e.ptr + size ≤ L.heapEnd ∧ HeapRun.Holds L ⟨e.heap, (e.ptr, size) :: r.live⟩ H') := by
  obtain ⟨hr, hmem⟩ := hh.models.kmallocInit
  obtain ⟨e, hcall, hheaders, he⟩ := hr.kmalloc (hstop.congr hmem) hsize hfits
  rw [hh.models.kmalloc_kmallocInit hsize] at hcall
  refine ⟨e, hcall, hheaders, he.imp (fun he => ⟨he.1, ?_⟩) fun ⟨H', ha⟩ => ⟨H', ha, ?_⟩⟩
  · exact ⟨Or.inr (he.2 ▸ hr), hh.perm, hh.sizes⟩
  · obtain ⟨n, hn, hperm⟩ := ha.allocs
    have hmem := mem_allocsFrom (hperm.mem_iff.mpr List.mem_cons_self)
    have hend : blocksEnd L.firstBlock H'.blocks ≤ L.heapEnd := ha.represents.inArena
    rw [Layout.firstBlock, kmallocMetadataSize] at hmem
    exact ⟨by omega, by rw [Layout.firstBlock, kmallocMetadataSize] at hend; omega,
      hh.allocated ha le_rfl⟩

/-- `kfree` in a run. -/
theorem HeapRun.Holds.kfree (hh : r.Holds L H) (hstop : r.heap.StopsAt L (H.top L))
    (hp : p ∈ r.live.map Prod.fst) :
    ∃ e, r.heap.kfree L p = some e ∧ (∀ x ∈ e.headers, H.Reads L x) ∧
      HeapRun.Holds L ⟨e.heap, r.without p⟩ (ChalesOs.kfree L H p) := by
  obtain ⟨hlive, -⟩ := hh.mem_live hp
  obtain ⟨e, hcall, hr, hheaders, -⟩ := (hh.represents hp).kfree hstop hlive
  exact ⟨e, hcall, hheaders, hh.without hlive hr⟩

/-- A block held, and how large it is. -/
theorem HeapRun.Holds.headerAt (hh : r.Holds L H) (hp : p ∈ r.live.map Prod.fst) :
    ∃ n, (p, n) ∈ H.allocs L ∧ r.heap.HeaderAt (p - kmallocMetadataSize) ⟨n, false⟩ := by
  obtain ⟨q, hq, rfl⟩ := List.mem_map.mp hp
  obtain ⟨n, hn, -⟩ := hh.sizes q hq
  have htiles := (hh.represents hp).blocks.tiles
  exact ⟨n, hn, (htiles.headerAt_alloc (List.mem_cons_of_mem _ hn)).2⟩

/-- Writes of clients in a run. -/
theorem HeapRun.Holds.congr (hh : r.Holds L H)
    (hmem : ∀ x, ¬r.MayStore L x → h.mem x = r.heap.mem x)
    (hbase : h.heapBase = r.heap.heapBase) (hptr : h.heapPtr = r.heap.heapPtr) :
    HeapRun.Holds L ⟨h, r.live⟩ H := by
  refine ⟨?_, hh.perm, hh.sizes⟩
  rcases hh.models with ⟨hf, rfl⟩ | hr
  · have hlive : r.live = [] := List.map_eq_nil_iff.mp hh.perm.eq_nil
    refine Or.inl ⟨⟨hbase.trans hf.base, hptr.trans hf.ptr, fun x hx hx' => ?_⟩, rfl⟩
    refine (hmem x ?_).trans (hf.clear x hx hx')
    rintro (hout | hout | ⟨p, hp, -⟩)
    · omega
    · omega
    · rw [hlive] at hp
      exact List.not_mem_nil hp
  · refine Or.inr (hr.congr hbase hptr fun x hx => hmem x (mt ?_ hx))
    rintro (hout | hout | ⟨p, hp, h₁, h₂⟩)
    · exact Or.inl hout
    · exact Or.inr (Or.inl hout)
    · obtain ⟨n, hn, hle⟩ := hh.sizes p hp
      exact Or.inr (Or.inr ⟨p.1, n, hn, h₁, by omega⟩)

/-- The store of a byte in a run. -/
theorem HeapRun.Holds.store {a : ℕ} (hh : r.Holds L H) (ha : r.MayStore L a) (v : UInt8) :
    HeapRun.Holds L { r with heap := { r.heap with mem := write r.heap.mem a [v] } } H := by
  refine hh.congr (fun x hx => eqOn_write fun hmem => hx ?_) rfl rfl
  have hxa : x = a := by
    simp only [List.length_singleton, Set.mem_Ico] at hmem
    omega
  exact hxa ▸ ha

/-- A new allocation takes the place of an old one. -/
theorem HeapRun.Holds.reallocated {n : ℕ} (hh : r.Holds L H)
    (hn : (p, n) ∈ H.allocs L) (ha : r.heap.Reallocated L H p n size e H') :
    HeapRun.Holds L ⟨e.heap, (e.ptr, size) :: r.without p⟩ H' := by
  obtain ⟨m, hm, hperm⟩ := ha.allocs
  refine ⟨Or.inr ha.represents, ?_, fun q hq => ?_⟩
  · have hrest : (((H.allocs L).erase (p, n)).map Prod.fst).Perm ((H.live L).erase p) := by
      have hcons := (List.perm_cons_erase hn).map Prod.fst
      rw [← KernelHeap.live_eq_map] at hcons
      simpa using (hcons.erase p).symm
    rw [List.map_cons, hh.map_without, KernelHeap.live_eq_map]
    refine List.Perm.trans ?_ (hperm.map Prod.fst).symm
    exact ((hh.perm.erase p).trans hrest.symm).cons _
  · rcases List.mem_cons.mp hq with rfl | hq
    · exact ⟨m, hperm.mem_iff.mpr List.mem_cons_self, hm⟩
    · obtain ⟨hq, hne⟩ := List.mem_filter.mp hq
      obtain ⟨l, hl, hle⟩ := hh.sizes q hq
      refine ⟨l, hperm.mem_iff.mpr (List.mem_cons_of_mem _ ?_), hle⟩
      exact (List.mem_erase_of_ne fun heq => (of_decide_eq_true hne) (Prod.mk.inj heq).1).mpr hl

/-- `krealloc` of a pointer held to a size that is not 0, in a run. -/
theorem HeapRun.Holds.krealloc (hh : r.Holds L H)
    (hstop : ∀ x, H.top L ≤ x → r.heap.StopsAt L x) (hsize : size ≠ 0)
    (hp : p ∈ r.live.map Prod.fst)
    (hfits : (∀ b ∈ H.blocks, b.isFree = true → b.size < size) →
      L.heapEnd < u32 (H.top L + kmallocMetadataSize + size) ∨
        H.top L + kmallocMetadataSize + size ≤ L.heapEnd) :
    ∃ e H', r.heap.krealloc L p size = some e ∧
      HeapRun.Holds L ⟨e.heap, if e.ptr = 0 then r.live else (e.ptr, size) :: r.without p⟩ H' := by
  obtain ⟨n, hn, -⟩ := hh.headerAt hp
  obtain ⟨e, hcall, he⟩ := (hh.represents hp).krealloc hstop hsize hn hfits
  rcases he with ⟨hnull, hheap⟩ | ⟨H', ha⟩
  · refine ⟨e, H, hcall, ?_⟩
    rw [if_pos hnull, hheap]
    exact hh
  · refine ⟨e, H', hcall, ?_⟩
    rw [if_neg ha.ptr_ne_zero]
    exact hh.reallocated hn ha

/-! ### Runs without wrapping requests -/

/-- No address of the arena behind the last block carries the magic number. -/
def Kmalloc.Unmarked (L : Layout) (h : Kmalloc) : Prop :=
  ∀ x, h.top L ≤ x → x < L.heapEnd → h.magic x ≠ kmallocMagic

/-- The condition of `heap_tiled` on a call: the end of the block asked for, behind the last one,
is a 32-bit number, and the heap is `Unmarked`. -/
def HeapRun.Regular (L : Layout) (r : HeapRun) : HeapOp → Prop
  | .kmalloc size | .krealloc _ size =>
    r.heap.top L + kmallocMetadataSize + size.toNat < 0x100000000 ∧ r.heap.Unmarked L
  | .kfree _ => r.heap.Unmarked L
  | .store _ _ => True

/-- What a client may do: free and resize what it holds, and write to it. -/
def HeapRun.Permits (L : Layout) (r : HeapRun) : HeapOp → Prop
  | .kmalloc _ => True
  | .kfree ptr | .krealloc ptr _ => r.Owns ptr
  | .store a _ => r.MayStore L a

/-- Only what is permitted has an outcome. -/
theorem HeapRun.permits_of_heapExec (h : heapExec L r op = some r') : r.Permits L op := by
  by_contra hp
  cases op with
  | kmalloc size => exact hp trivial
  | kfree ptr => exact absurd ((if_neg hp).symm.trans h) (by simp)
  | krealloc ptr size => exact absurd ((if_neg hp).symm.trans h) (by simp)
  | store a v => exact absurd ((if_neg hp).symm.trans h) (by simp)

/-- The whole of `kmalloc`, in a run. -/
theorem HeapRun.Holds.call_kmalloc (hh : r.Holds L H) (hstop : r.heap.StopsAt L (H.top L))
    (hlt : H.top L + kmallocMetadataSize + size < 0x100000000) :
    ∃ e H', r.heap.kmalloc L size = some e ∧
      HeapRun.Holds L ⟨e.heap, if e.ptr = 0 then r.live else (e.ptr, size) :: r.live⟩ H' := by
  by_cases hsize : size = 0
  · refine ⟨⟨0, r.heap, []⟩, H, by rw [Kmalloc.kmalloc, if_pos hsize], ?_⟩
    rw [if_pos rfl]
    exact hh
  · obtain ⟨e, hcall, -, he⟩ := hh.kmalloc hstop hsize fun _ => by
      rw [u32, Nat.mod_eq_of_lt hlt]
      exact lt_or_ge _ _
    rcases he with ⟨hnull, hh'⟩ | ⟨H', -, hptr, -, hh'⟩
    · exact ⟨e, H, hcall, by rwa [if_pos hnull]⟩
    · exact ⟨e, H', hcall, by rwa [if_neg (by omega)]⟩

/-- The whole of `kfree`, in a run. -/
theorem HeapRun.Holds.call_kfree (hh : r.Holds L H) (hstop : r.heap.StopsAt L (H.top L))
    (hp : r.Owns p) :
    ∃ e H', r.heap.kfree L p = some e ∧ HeapRun.Holds L ⟨e.heap, r.without p⟩ H' := by
  rcases hp with rfl | hp
  · refine ⟨⟨0, r.heap, []⟩, H, if_pos rfl, ?_⟩
    rw [hh.without_null]
    exact hh
  · obtain ⟨e, hcall, -, hh'⟩ := hh.kfree hstop hp
    exact ⟨e, _, hcall, hh'⟩

/-- The whole of `krealloc`, in a run. -/
theorem HeapRun.Holds.call_krealloc (hh : r.Holds L H)
    (hstop : ∀ x, H.top L ≤ x → r.heap.StopsAt L x)
    (hlt : H.top L + kmallocMetadataSize + size < 0x100000000) (hp : r.Owns p) :
    ∃ e H', r.heap.krealloc L p size = some e ∧ HeapRun.Holds L ⟨e.heap,
      if size = 0 then r.without p else if e.ptr = 0 then r.live
      else (e.ptr, size) :: r.without p⟩ H' := by
  by_cases hsize : size = 0
  · rw [Kmalloc.krealloc, if_pos hsize]
    simp only [if_pos hsize]
    exact hh.call_kfree (hstop _ le_rfl) hp
  simp only [if_neg hsize]
  rcases hp with rfl | hp
  · rw [Kmalloc.krealloc, if_neg hsize, if_pos rfl, hh.without_null]
    exact hh.call_kmalloc (hstop _ le_rfl) hlt
  · refine hh.krealloc hstop hsize hp fun _ => ?_
    rw [u32, Nat.mod_eq_of_lt hlt]
    exact lt_or_ge _ _

/-- **One step.** A permitted regular call ends, and clients hold the blocks in use behind it. -/
theorem HeapRun.Holds.exec (hh : r.Holds L H) (hok : r.Regular L op) (hp : r.Permits L op) :
    ∃ r' H', heapExec L r op = some r' ∧ r'.Holds L H' := by
  have htop := hh.models.top_eq
  have hstop : r.heap.Unmarked L → ∀ x, H.top L ≤ x → r.heap.StopsAt L x := fun hu x hx =>
    hu x (htop.trans_le hx)
  cases op with
  | kmalloc size =>
    obtain ⟨e, H', hcall, hh'⟩ := hh.call_kmalloc (hstop hok.2 _ le_rfl) (htop ▸ hok.1)
    exact ⟨_, H', by rw [heapExec, hcall, Option.map_some], hh'⟩
  | kfree ptr =>
    have hp : r.Owns ptr := hp
    obtain ⟨e, H', hcall, hh'⟩ := hh.call_kfree (hstop hok _ le_rfl) hp
    exact ⟨_, H', by rw [heapExec, if_pos hp, hcall, Option.map_some], hh'⟩
  | krealloc ptr size =>
    have hp : r.Owns ptr := hp
    obtain ⟨e, H', hcall, hh'⟩ := hh.call_krealloc (hstop hok.2) (htop ▸ hok.1) hp
    refine ⟨_, H', by rw [heapExec, if_pos hp, hcall, Option.map_some], ?_⟩
    have hzero : size = 0 ↔ size.toNat = 0 := UInt32.toNat_inj.symm
    simpa only [hzero] using hh'
  | store a v =>
    exact ⟨_, H, if_pos hp, hh.store hp v⟩

/-- Clients hold the blocks in use, in every state of a regular run. -/
theorem HeapRun.holds_of_reachable (hr : (heapSystem L).ReachableBy (HeapRun.Regular L) r) :
    ∃ H, r.Holds L H := by
  refine hr.invariant (p := fun r => ∃ H, r.Holds L H)
    (fun r ⟨hbase, hptr, hlive, hclear⟩ => ?_) fun r op r' ⟨H, hh⟩ hok hs => ?_
  · exact ⟨⟨[]⟩, Or.inl ⟨⟨hbase, hptr, hclear⟩, rfl⟩, by rw [hlive]; exact .nil, by simp [hlive]⟩
  · obtain ⟨r₁, H', hexec, hh'⟩ := hh.exec hok (HeapRun.permits_of_heapExec hs)
    obtain rfl := Option.some.inj (hexec.symm.trans hs)
    exact ⟨H', hh'⟩

/-! ### The invariant of the heap -/

/-- The bytes of the allocation at `p`: all of the block behind its header. -/
def Kmalloc.payload (h : Kmalloc) (p : ℕ) : Set ℕ :=
  Set.Ico p (p + h.size (p - kmallocMetadataSize))

/-- The headers `hs`, found by walking from `heap_base`, cut the used part of the arena into
blocks that fit the allocations clients hold. -/
structure HeapRun.Tiled (L : Layout) (r : HeapRun) (hs : List ℕ) : Prop where
  base : r.heap.heapBase = L.heapStart
  first : hs.head? = some L.heapStart
  next : hs.IsChain fun x y => r.heap.after x = y
  last : hs.getLast? = some r.heap.heapPtr
  magic : ∀ x ∈ hs, r.heap.magic x = kmallocMagic
  inArena : ∀ x ∈ hs, L.heapStart ≤ x ∧
    x + kmallocMetadataSize + r.heap.size x ≤ L.heapEnd
  live : ∀ p ∈ r.live, ∃ x ∈ hs, x ≠ L.heapStart ∧ p.1 = x + kmallocMetadataSize ∧
    r.heap.isFree x = 0 ∧ p.2 ≤ r.heap.size x
  disjoint : r.live.Pairwise fun p q => Disjoint (r.heap.payload p.1) (r.heap.payload q.1)
  merged : hs.IsChain fun x y => r.heap.isFree x = 0 ∨ r.heap.isFree y = 0
  freed : r.live = [] → hs.length ≤ 2

/-- A heap that is set up is tiled by its headers. -/
theorem HeapRun.Holds.tiled (hh : r.Holds L H) (hr : r.heap.Represents L H) :
    r.Tiled L (headersFrom L.heapStart (heapBaseBlock :: H.blocks)) := by
  have hmax := L.heapEnd_le
  have hle : blocksEnd L.heapStart (heapBaseBlock :: H.blocks) ≤ L.heapEnd := hr.inArena
  have htiles := hr.blocks.tiles
  have hchain := htiles.isChain (noAdjacentFree_heapBase.mpr hr.apart) (by omega)
  have hne : heapBaseBlock :: H.blocks ≠ [] := List.cons_ne_nil _ _
  -- each fact about a header is one about the block that it describes
  refine ⟨hr.base, rfl, hchain.imp fun _ _ h => h.1, ?_, fun x hx => ?_, fun x hx => ?_,
    fun p hp => ?_, ?_, hchain.imp fun x y hxy => ?_, fun hlive => ?_⟩
  · rw [getLast?_headersFrom hne, hr.blocks.ptr]
  · obtain ⟨b, -, hb, -⟩ := htiles.headerAt hx
    exact hb.magic
  · obtain ⟨b, -, hb, hend⟩ := htiles.headerAt hx
    rw [hb.size]
    exact ⟨(mem_headersFrom hx).1, hend.trans hle⟩
  · obtain ⟨n, hn, hpn⟩ := hh.sizes p hp
    have hmem := (mem_allocsFrom hn).1
    have halloc : (p.1, n) ∈ allocsFrom L.heapStart (heapBaseBlock :: H.blocks) :=
      List.mem_cons_of_mem _ hn
    obtain ⟨hx, hb⟩ := htiles.headerAt_alloc halloc
    refine ⟨_, hx, ?_, ?_, not_not.mp (mt hb.isFree.mp (by simp)), hpn.trans_eq hb.size.symm⟩
    all_goals
      rw [Layout.firstBlock, kmallocMetadataSize] at hmem
      rw [kmallocMetadataSize]
      omega
  · refine (List.pairwise_map.mp hh.nodup).imp_of_mem fun {p q} hp hq hne => ?_
    obtain ⟨n, hn, -⟩ := hh.sizes p hp
    obtain ⟨m, hm, -⟩ := hh.sizes q hq
    have hpn : r.heap.size (p.1 - kmallocMetadataSize) = n :=
      (htiles.headerAt_alloc (List.mem_cons_of_mem _ hn)).2.size
    have hqm : r.heap.size (q.1 - kmallocMetadataSize) = m :=
      (htiles.headerAt_alloc (List.mem_cons_of_mem _ hm)).2.size
    have hapart := allocsFrom_apart hn hm fun heq => hne (Prod.mk.inj heq).1
    rw [Kmalloc.payload, Kmalloc.payload, hpn, hqm, Set.Ico_disjoint_Ico]
    omega
  · obtain ⟨-, b, c, hb, hc, hbc⟩ := hxy
    by_contra hfree
    rw [not_or] at hfree
    exact hbc ⟨hb.isFree.mp hfree.1, hc.isFree.mp hfree.2⟩
  · have hnil : H.live L = [] := by
      have := hh.perm
      rw [hlive] at this
      exact this.symm.eq_nil
    have := hr.apart.length_le_one (liveFrom_eq_nil.mp hnil)
    rw [length_headersFrom, List.length_cons]
    omega

/-- **The heap invariant.** In every state of a regular run the heap has not been set up, or the
walk from `heap_base` cuts it into blocks that fit the allocations held. -/
theorem heap_tiled (hr : (heapSystem L).ReachableBy (HeapRun.Regular L) r) :
    r.heap.heapBase = 0 ∧ r.live = [] ∨ ∃ hs, r.Tiled L hs := by
  obtain ⟨H, hh⟩ := HeapRun.holds_of_reachable hr
  rcases hh.models with ⟨hf, rfl⟩ | hrep
  · exact Or.inl ⟨hf.base, List.map_eq_nil_iff.mp hh.perm.eq_nil⟩
  · exact Or.inr ⟨_, hh.tiled hrep⟩

/-- A heap of zeros. -/
def HeapRun.zeros : HeapRun := ⟨⟨fun _ => 0, 0, 0⟩, []⟩

theorem HeapRun.zeros_start (L : Layout) : (heapSystem L).start HeapRun.zeros :=
  ⟨rfl, rfl, rfl, fun _ _ _ => rfl⟩

theorem HeapRun.zeros_unmarked (L : Layout) : HeapRun.zeros.heap.Unmarked L := fun _ _ hlt =>
  Kmalloc.stopsAt_of_zero (fun _ _ => rfl) hlt

/-- The invariant behind a first request. -/
theorem heap_tiled_sample : ∃ r : HeapRun, r.live = [(0x280018, 16)] ∧
    (r.heap.heapBase = 0 ∧ r.live = [] ∨ ∃ hs, r.Tiled Layout.sample hs) := by
  have hlive : (heapExec Layout.sample HeapRun.zeros (.kmalloc 16)).map HeapRun.live =
      some [(0x280018, 16)] := by decide
  have hok : HeapRun.zeros.Regular Layout.sample (.kmalloc 16) :=
    ⟨by decide, HeapRun.zeros_unmarked _⟩
  obtain ⟨r, hexec, hlive⟩ := Option.map_eq_some_iff.mp hlive
  exact ⟨r, hlive, heap_tiled (.step (.start (HeapRun.zeros_start _)) hok hexec)⟩

/-! ### Runs that keep room for a header -/

/-- The walk over the headers from the first address on meets a block at the second one. -/
inductive Kmalloc.Meets (L : Layout) (h : Kmalloc) : ℕ → ℕ → Prop
  | here {a : ℕ} : a < L.heapEnd → h.magic a = kmallocMagic → Meets L h a a
  | there {a x : ℕ} : a < L.heapEnd → h.magic a = kmallocMagic → Meets L h (h.after a) x →
      Meets L h a x

/-- There is a free block of at least `size` bytes. -/
def Kmalloc.HasFree (L : Layout) (h : Kmalloc) (size : ℕ) : Prop :=
  h.heapBase ≠ 0 ∧ ∃ x, h.Meets L h.heapBase x ∧ h.isFree x ≠ 0 ∧ size ≤ h.size x

/-- The condition of `heapCalls_safe` on a call: a request is for nothing, is served by a free
block, is refused, fills the arena, or leaves room for a header behind its block. -/
def HeapRun.KeepsRoom (L : Layout) (r : HeapRun) : HeapOp → Prop
  | .kmalloc size => size = 0 ∨ r.heap.HasFree L size.toNat ∨
      L.heapEnd < u32 (r.heap.top L + kmallocMetadataSize + size.toNat) ∨
      r.heap.top L + kmallocMetadataSize + size.toNat = L.heapEnd ∨
      r.heap.top L + kmallocMetadataSize + size.toNat + kmallocMetadataSize ≤ L.heapEnd
  | .kfree _ | .store _ _ => True
  | .krealloc _ _ => False

/-- The headers a call accesses lie in the arena. -/
def HeapCall.InArena (L : Layout) (e : HeapCall) : Prop :=
  ∀ x ∈ e.headers, L.heapStart ≤ x ∧ x + kmallocMetadataSize ≤ L.heapEnd

/-- A request for `size` bytes ends, accesses headers in the arena only, and returns `NULL` or the
address of `size` bytes of the arena. -/
def Kmalloc.Serves (L : Layout) (h : Kmalloc) (size : ℕ) : Prop :=
  ∃ e, h.kmalloc L size = some e ∧ e.InArena L ∧
    (e.ptr ≠ 0 → L.heapStart ≤ e.ptr ∧ e.ptr + size ≤ L.heapEnd)

/-- The blocks fill the arena or leave room for a header. -/
def KernelHeap.Room (L : Layout) (H : KernelHeap) : Prop :=
  H.top L = L.heapEnd ∨ H.top L + kmallocMetadataSize ≤ L.heapEnd

/-- What a walk over tiles meets is one of their blocks. -/
theorem Kmalloc.Meets.mem_tiles {a x : ℕ} {bs : List Block} (hx : h.Meets L a x)
    (ht : h.Tiles a bs) (hle : blocksEnd a bs ≤ L.heapEnd)
    (hstop : h.StopsAt L (blocksEnd a bs)) : ∃ b ∈ bs, h.HeaderAt x b := by
  have hmax := L.heapEnd_le
  induction hx generalizing bs with
  | here ha hmagic =>
    cases bs with
    | nil => exact absurd hmagic (hstop ha)
    | cons b bs => exact ⟨b, List.mem_cons_self, ht.1⟩
  | @there a _ ha hmagic _ ih =>
    cases bs with
    | nil => exact absurd hmagic (hstop ha)
    | cons b bs =>
      have hend := le_blocksEnd bs (b.endAt a)
      rw [blocksEnd_cons] at hle hstop
      rw [ht.1.after_eq (by omega)] at ih
      obtain ⟨c, hc, hhead⟩ := ih ht.2 hle hstop
      exact ⟨c, List.mem_cons_of_mem _ hc, hhead⟩

/-- A free block that is met is listed. -/
theorem HeapRun.Holds.exists_free (hh : r.Holds L H) (hstop : r.heap.StopsAt L (H.top L))
    (hfree : r.heap.HasFree L size) : ∃ b ∈ H.blocks, b.isFree = true ∧ size ≤ b.size := by
  obtain ⟨hbase, x, hmeets, hx, hle⟩ := hfree
  have hr := hh.models.resolve_left fun hf => hbase hf.1.base
  rw [hr.base] at hmeets
  obtain ⟨b, hb, hhead⟩ := hmeets.mem_tiles hr.blocks.tiles hr.inArena hstop
  have hisFree := hhead.isFree.mp hx
  refine ⟨b, (List.mem_cons.mp hb).resolve_left ?_, hisFree, hle.trans_eq hhead.size⟩
  rintro rfl
  exact absurd hisFree (by decide)

/-- With room for a header the walks stop at the top of the heap. -/
theorem HeapRun.Holds.stopsAt (hh : r.Holds L H) (hroom : H.Room L) :
    r.heap.StopsAt L (H.top L) := fun hlt => by
  have hclear : ∀ k < 12, r.heap.mem (H.top L + k) = 0 := fun k hk => by
    refine hh.models.clear (Nat.le_add_right _ _) ?_
    rw [KernelHeap.Room, kmallocMetadataSize] at hroom
    omega
  refine Kmalloc.stopsAt_of_zero (fun k hk => ?_) hlt
  rw [Nat.add_assoc, hclear _ (by omega)]

/-- With room for a header every header the allocator accesses lies in the arena. -/
theorem KernelHeap.Room.reads (hroom : H.Room L) (hle : H.top L ≤ L.heapEnd) {x : ℕ}
    (hx : H.Reads L x) : L.heapStart ≤ x ∧ x + kmallocMetadataSize ≤ L.heapEnd := by
  rcases hx with hx | ⟨rfl, hlt⟩
  · obtain ⟨h₁, h₂⟩ := mem_headersFrom hx
    rw [blocksEnd_heapBase] at h₂
    exact ⟨h₁, h₂.trans hle⟩
  · have hstart : L.firstBlock ≤ H.top L := le_blocksEnd _ _
    rw [Layout.firstBlock] at hstart
    rw [KernelHeap.Room] at hroom
    omega

/-- A request that keeps room, in a run. -/
theorem HeapRun.Holds.kmalloc_room (hh : r.Holds L H) (hroom : H.Room L) {size : UInt32}
    (hok : r.KeepsRoom L (.kmalloc size)) :
    r.heap.Serves L size.toNat ∧
      ∀ r', heapExec L r (.kmalloc size) = some r' → ∃ H', r'.Holds L H' ∧ H'.Room L := by
  have hmax := L.heapEnd_le
  have hle := hh.models.inArena
  have hstop := hh.stopsAt hroom
  by_cases hsize : size.toNat = 0
  · have hcall : r.heap.kmalloc L size.toNat = some ⟨0, r.heap, []⟩ := by
      rw [Kmalloc.kmalloc, if_pos hsize]
    refine ⟨⟨_, hcall, by simp [HeapCall.InArena], by simp⟩, fun r' hs => ⟨H, ?_, hroom⟩⟩
    rw [heapExec, hcall] at hs
    obtain rfl := Option.some.inj hs
    exact hh
  -- without a free block that is large enough, the request is refused or the new block fits
  have hexpand : (∀ b ∈ H.blocks, b.isFree = true → b.size < size.toNat) →
      L.heapEnd < u32 (H.top L + kmallocMetadataSize + size.toNat) ∨
      H.top L + kmallocMetadataSize + size.toNat = L.heapEnd ∨
      H.top L + kmallocMetadataSize + size.toNat + kmallocMetadataSize ≤ L.heapEnd := by
    intro hnone
    rw [HeapRun.KeepsRoom, hh.models.top_eq] at hok
    rcases hok with rfl | hfree | hok
    · exact absurd rfl hsize
    · obtain ⟨b, hb, hbfree, hbsize⟩ := hh.exists_free hstop hfree
      exact absurd hbsize (not_le.mpr (hnone b hb hbfree))
    · exact hok
  obtain ⟨e, hcall, hheaders, he⟩ := hh.kmalloc hstop hsize fun hnone =>
    (hexpand hnone).imp id fun hfits => by omega
  refine ⟨⟨e, hcall, fun x hx => hroom.reads hle (hheaders x hx), fun hptr => ?_⟩, fun r' hs => ?_⟩
  · rcases he with ⟨hnull, -⟩ | ⟨H', -, h₁, h₂, -⟩
    · exact absurd hnull hptr
    · exact ⟨h₁.le, h₂⟩
  · rw [heapExec, hcall, Option.map_some] at hs
    rcases he with ⟨hnull, hh'⟩ | ⟨H', ha, hptr, -, hh'⟩
    · rw [if_pos hnull] at hs
      obtain rfl := Option.some.inj hs
      exact ⟨H, hh', hroom⟩
    · rw [if_neg (by omega)] at hs
      obtain rfl := Option.some.inj hs
      -- only a new block at the end takes room
      refine ⟨H', hh', ?_⟩
      rw [KernelHeap.Room] at hroom ⊢
      rcases ha.top with heq | ⟨hnone, hfits, heq⟩
      · rwa [heq]
      · rw [heq]
        refine (hexpand hnone).resolve_left fun hfull => ?_
        rw [u32, Nat.mod_eq_of_lt (by omega)] at hfull
        omega

/-- Freeing a pointer held, in a run that keeps room. -/
theorem HeapRun.Holds.kfree_room (hh : r.Holds L H) (hroom : H.Room L)
    (hp : p ∈ r.live.map Prod.fst) :
    ∃ e H', r.heap.kfree L p = some e ∧ e.InArena L ∧
      HeapRun.Holds L ⟨e.heap, r.without p⟩ H' ∧ H'.Room L := by
  obtain ⟨e, hcall, hheaders, hh'⟩ := hh.kfree (hh.stopsAt hroom) hp
  obtain ⟨hlive, hpos⟩ := hh.mem_live hp
  refine ⟨e, _, hcall, fun x hx => hroom.reads hh.models.inArena (hheaders x hx), hh', ?_⟩
  have htop : (ChalesOs.kfree L H p).top L = H.top L := by
    rw [ChalesOs.kfree, if_neg (by omega)]
    exact (kfreeBlocks_spec hlive).2
  rwa [KernelHeap.Room, htop]

/-- The blocks fill the arena or leave room for a header, in every state of a run that keeps
room. -/
theorem HeapRun.room_of_reachable (hr : (heapSystem L).ReachableBy (HeapRun.KeepsRoom L) r) :
    ∃ H, r.Holds L H ∧ H.Room L := by
  refine hr.invariant (p := fun r => ∃ H, r.Holds L H ∧ H.Room L)
    (fun r ⟨hbase, hptr, hlive, hclear⟩ => ⟨⟨[]⟩, ?_, ?_⟩)
    fun r op r' ⟨H, hh, hroom⟩ hok hs => ?_
  · exact ⟨Or.inl ⟨⟨hbase, hptr, hclear⟩, rfl⟩, by rw [hlive]; exact .nil, by simp [hlive]⟩
  · -- a fresh arena has room for a header
    have harena := L.heapEnd_eq
    refine Or.inr (?_ : L.firstBlock + kmallocMetadataSize ≤ L.heapEnd)
    rw [Layout.firstBlock, kmallocMetadataSize]
    omega
  · have hs : heapExec L r op = some r' := hs
    have hp := HeapRun.permits_of_heapExec hs
    cases op with
    | kmalloc size => exact (hh.kmalloc_room hroom hok).2 r' hs
    | kfree ptr =>
      have hp : r.Owns ptr := hp
      rw [heapExec, if_pos hp] at hs
      rcases hp with rfl | hp
      · rw [Kmalloc.kfree, if_pos rfl, Option.map_some, hh.without_null] at hs
        obtain rfl := Option.some.inj hs
        exact ⟨H, hh, hroom⟩
      · obtain ⟨e, H', hcall, -, hh', hroom'⟩ := hh.kfree_room hroom hp
        rw [hcall, Option.map_some] at hs
        obtain rfl := Option.some.inj hs
        exact ⟨H', hh', hroom'⟩
    | krealloc ptr size => exact hok.elim
    | store a v =>
      have hp : r.MayStore L a := hp
      rw [heapExec, if_pos hp] at hs
      obtain rfl := Option.some.inj hs
      exact ⟨H, hh.store hp v, hroom⟩

/-- A request ends, whatever its size. -/
theorem HeapRun.Holds.kmalloc_isSome (hh : r.Holds L H) (hstop : r.heap.StopsAt L (H.top L))
    (size : ℕ) : (r.heap.kmalloc L size).isSome := by
  obtain ⟨hr, hmem⟩ := hh.models.kmallocInit
  obtain ⟨walked, hfind, -⟩ := hr.findFreeBlock (hstop.congr hmem) size
  rw [Kmalloc.kmalloc]
  split_ifs
  · rfl
  · dsimp only
    rw [hfind]
    rfl

/-- **The arena.** In every state of a run that keeps room, every request ends; one that keeps room
is served inside the arena, and freeing what has been allocated ends and stays inside it. -/
theorem heapCalls_safe (hr : (heapSystem L).ReachableBy (HeapRun.KeepsRoom L) r) :
    (∀ size : UInt32, (r.heap.kmalloc L size.toNat).isSome) ∧
      (∀ size : UInt32, r.KeepsRoom L (.kmalloc size) → r.heap.Serves L size.toNat) ∧
      ∀ p ∈ r.live, ∃ e, r.heap.kfree L p.1 = some e ∧ e.InArena L := by
  obtain ⟨H, hh, hroom⟩ := HeapRun.room_of_reachable hr
  refine ⟨fun size => hh.kmalloc_isSome (hh.stopsAt hroom) _,
    fun size hok => (hh.kmalloc_room hroom hok).1, fun p hp => ?_⟩
  obtain ⟨e, -, hcall, hinside, -⟩ := hh.kfree_room hroom (List.mem_map_of_mem hp)
  exact ⟨e, hcall, hinside⟩

/-- The calls behind a first request. -/
theorem heapCalls_safe_sample : ∃ r : HeapRun, r.live = [(0x280018, 16)] ∧
    (∀ size : UInt32, (r.heap.kmalloc Layout.sample size.toNat).isSome) ∧
    (∀ size : UInt32, r.KeepsRoom Layout.sample (.kmalloc size) →
      r.heap.Serves Layout.sample size.toNat) ∧
    ∀ p ∈ r.live, ∃ e, r.heap.kfree Layout.sample p.1 = some e ∧ e.InArena Layout.sample := by
  have hlive : (heapExec Layout.sample HeapRun.zeros (.kmalloc 16)).map HeapRun.live =
      some [(0x280018, 16)] := by decide
  have hok : HeapRun.zeros.KeepsRoom Layout.sample (.kmalloc 16) :=
    Or.inr (Or.inr (Or.inr (Or.inr (by decide))))
  obtain ⟨r, hexec, hlive⟩ := Option.map_eq_some_iff.mp hlive
  exact ⟨r, hlive, heapCalls_safe (.step (.start (HeapRun.zeros_start _)) hok hexec)⟩

/-- A request whose end wraps is served: a block of 4 GiB in a heap of 64 KiB. -/
theorem not_heapCalls_safe : ¬∀ r, (heapSystem Layout.sample).Reachable r →
    (∀ size : UInt32, r.heap.Serves Layout.sample size.toNat) ∧
      ∀ p ∈ r.live, ∃ e, r.heap.kfree Layout.sample p.1 = some e ∧ e.InArena Layout.sample := by
  intro hall
  obtain ⟨e, hcall, -, hptr⟩ := (hall _ (.start (HeapRun.zeros_start _))).1 0xFFFFFFF4
  have hresult : (HeapRun.zeros.heap.kmalloc Layout.sample 0xFFFFFFF4).map HeapCall.ptr =
      some 0x280018 := by decide
  have he : e.ptr = 0x280018 := by
    rw [show (0xFFFFFFF4 : UInt32).toNat = 0xFFFFFFF4 by decide] at hcall
    rw [hcall] at hresult
    exact Option.some.inj hresult
  rw [he] at hptr
  exact absurd (hptr (by decide)).2 (by decide)

/-- A request that leaves four bytes: the next walk reads a header of which eight bytes are behind
`_heap_end`. -/
example : ∃ r e, heapExec Layout.sample HeapRun.zeros (.kmalloc 0xFFE4) = some r ∧
    r.heap.kmalloc Layout.sample 0x10000 = some e ∧ 0x28FFFC ∈ e.headers := by
  have hheaders : ((heapExec Layout.sample HeapRun.zeros (.kmalloc 0xFFE4)).bind fun r =>
      (r.heap.kmalloc Layout.sample 0x10000).map HeapCall.headers) =
      some [0x280000, 0x28000C, 0x28FFFC, 0x28000C] := by decide
  obtain ⟨r, hr, he⟩ := Option.bind_eq_some_iff.mp hheaders
  obtain ⟨e, he, hmem⟩ := Option.map_eq_some_iff.mp he
  exact ⟨r, e, hr, he, by simp [hmem]⟩

end ChalesOs
