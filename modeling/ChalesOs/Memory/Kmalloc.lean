import ChalesOs.Lib.StepSystem
import ChalesOs.Memory.KernelHeap
import ChalesOs.Memory.Words

/-!
# `kmalloc.c` on bytes

The kernel heap as the C code sees it: headers of three words in memory, found again by adding
sizes to addresses, and the two variables `heap_base` and `heap_ptr`. All sums of addresses are
taken modulo `2 ^ 32`, and 0 is `NULL`.

The two walks over the headers end when they meet what they look for, a header without the magic
number, or `_heap_end`. Nothing makes them end in general, so they take fuel, and their result is
`none` when it runs out. Within one walk the memory does not change, so a walk that has not ended
after `walkFuel` headers has met one of them twice and never ends.

Every function also returns the addresses of the headers it reads or writes, in a `HeapCall`: the
claim that the allocator stays inside its arena is about these.

`heapSystem` runs any sequence of calls by clients that hold on to what they have allocated, free
nothing else, and write nothing else in the arena.
-/

namespace ChalesOs

open ByteMemory

/-- `KMALLOC_MAGIC`. -/
def kmallocMagic : ℕ := 0xDEADBEEF

/-- As many headers as there are addresses, and one more. -/
def walkFuel : ℕ := 0x100000001

/-- The memory and the variables of `kmalloc.c`. -/
structure Kmalloc where
  mem : Mem
  heapBase : ℕ
  heapPtr : ℕ

/-! ### Headers -/

/-- `block->size`. -/
def Kmalloc.size (h : Kmalloc) (block : ℕ) : ℕ := loadWord h.mem block

/-- `block->magic`. -/
def Kmalloc.magic (h : Kmalloc) (block : ℕ) : ℕ := loadWord h.mem (block + 4)

/-- `block->is_free`, as a number. -/
def Kmalloc.isFree (h : Kmalloc) (block : ℕ) : ℕ := loadWord h.mem (block + 8)

/-- `block->size = v`. -/
def Kmalloc.setSize (h : Kmalloc) (block v : ℕ) : Kmalloc :=
  { h with mem := storeWord h.mem block v }

/-- `block->magic = v`. -/
def Kmalloc.setMagic (h : Kmalloc) (block v : ℕ) : Kmalloc :=
  { h with mem := storeWord h.mem (block + 4) v }

/-- `block->is_free = v`. -/
def Kmalloc.setIsFree (h : Kmalloc) (block v : ℕ) : Kmalloc :=
  { h with mem := storeWord h.mem (block + 8) v }

/-- `(char*)(block + 1) + block->size`. -/
def Kmalloc.after (h : Kmalloc) (block : ℕ) : ℕ :=
  u32 (block + kmallocMetadataSize + h.size block)

/-- What a function returns: a pointer, the heap, and the headers accessed. -/
structure HeapCall where
  ptr : ℕ
  heap : Kmalloc
  headers : List ℕ

/-! ### The functions of `kmalloc.c` -/

/-- `kmalloc_init`. -/
def Kmalloc.kmallocInit (L : Layout) (h : Kmalloc) : Kmalloc :=
  if h.heapBase = 0 then
    { (((h.setSize L.heapStart 0).setMagic L.heapStart kmallocMagic).setIsFree L.heapStart 0) with
      heapBase := L.heapStart
      heapPtr := L.heapStart }
  else h

/-- `next_block`. -/
def Kmalloc.nextBlock (L : Layout) (h : Kmalloc) (block : ℕ) : ℕ :=
  if h.after block ≥ L.heapEnd then 0 else h.after block

/-- The loop of `prev_block`, with the headers it reads. -/
def Kmalloc.prevBlock (L : Layout) (h : Kmalloc) (block : ℕ) :
    (fuel cur prev : ℕ) → Option (ℕ × List ℕ)
  | 0, _, _ => none
  | fuel + 1, cur, prev =>
    if cur < L.heapEnd ∧ cur ≠ block then
      if h.magic cur ≠ kmallocMagic then some (0, [cur])
      else (prevBlock L h block fuel (h.after cur) cur).map fun r => (r.1, cur :: r.2)
    else some (prev, [])

/-- The loop of `find_free_block`, with the headers it reads. -/
def Kmalloc.findFreeBlock (L : Layout) (h : Kmalloc) (size : ℕ) :
    (fuel block : ℕ) → Option (ℕ × List ℕ)
  | 0, _ => none
  | fuel + 1, block =>
    if block < L.heapEnd then
      if h.magic block ≠ kmallocMagic then some (0, [block])
      else if h.isFree block ≠ 0 ∧ h.size block ≥ size then some (block, [block])
      else (findFreeBlock L h size fuel (h.after block)).map fun r => (r.1, block :: r.2)
    else some (0, [])

/-- The forward half of `coalesce`. -/
def Kmalloc.coalesceForward (L : Layout) (h : Kmalloc) (block : ℕ) : Kmalloc :=
  let next := h.nextBlock L block
  if next ≠ 0 ∧ h.magic next = kmallocMagic ∧ h.isFree next ≠ 0 then
    let h' := h.setSize block (u32 (h.size block + kmallocMetadataSize + h.size next))
    if next = h.heapPtr then { h' with heapPtr := block } else h'
  else h

/-- The backward half of `coalesce`, when `prev_block` has returned `prev`. -/
def Kmalloc.coalesceBackward (h : Kmalloc) (block prev : ℕ) : Kmalloc :=
  if prev ≠ 0 ∧ h.magic prev = kmallocMagic ∧ h.isFree prev ≠ 0 then
    let h' := h.setSize prev (u32 (h.size prev + kmallocMetadataSize + h.size block))
    if block = h.heapPtr then { h' with heapPtr := prev } else h'
  else h

/-- `coalesce`. The header of `prev` is one of those `prev_block` has read. -/
def Kmalloc.coalesce (L : Layout) (h : Kmalloc) (block : ℕ) : Option HeapCall :=
  let next := h.nextBlock L block
  let h := h.coalesceForward L block
  (h.prevBlock L block walkFuel h.heapBase 0).map fun r =>
    ⟨0, h.coalesceBackward block r.1, block :: (if next = 0 then [] else [next]) ++ r.2⟩

/-- `expand_heap`. -/
def Kmalloc.expandHeap (L : Layout) (h : Kmalloc) (size : ℕ) : HeapCall :=
  let nextBlock := h.after h.heapPtr
  if u32 (nextBlock + kmallocMetadataSize + size) > L.heapEnd then ⟨0, h, [h.heapPtr]⟩
  else
    let h' := ((h.setSize nextBlock size).setMagic nextBlock kmallocMagic).setIsFree nextBlock 0
    ⟨nextBlock, { h' with heapPtr := nextBlock }, [h.heapPtr, nextBlock]⟩

/-- `kmalloc`. -/
def Kmalloc.kmalloc (L : Layout) (h : Kmalloc) (size : ℕ) : Option HeapCall :=
  if size = 0 then some ⟨0, h, []⟩
  else
    let h := h.kmallocInit L
    (h.findFreeBlock L size walkFuel h.heapBase).map fun r =>
      if r.1 = 0 then
        let c := h.expandHeap L size
        if c.ptr = 0 then ⟨0, c.heap, r.2 ++ c.headers⟩
        else ⟨u32 (c.ptr + kmallocMetadataSize), c.heap, r.2 ++ c.headers⟩
      else ⟨u32 (r.1 + kmallocMetadataSize), h.setIsFree r.1 0, r.2⟩

/-- `kfree`. -/
def Kmalloc.kfree (L : Layout) (h : Kmalloc) (ptr : ℕ) : Option HeapCall :=
  if ptr = 0 then some ⟨0, h, []⟩
  else
    let block := ptr - kmallocMetadataSize
    if h.magic block ≠ kmallocMagic then some ⟨0, h, [block]⟩
    else (h.setIsFree block 1).coalesce L block

/-- `krealloc`. -/
def Kmalloc.krealloc (L : Layout) (h : Kmalloc) (ptr size : ℕ) : Option HeapCall :=
  if size = 0 then h.kfree L ptr
  else if ptr = 0 then h.kmalloc L size
  else
    let h := h.kmallocInit L
    let block := ptr - kmallocMetadataSize
    if h.magic block ≠ kmallocMagic then some ⟨0, h, [block]⟩
    else if h.size block ≥ size then some ⟨ptr, h, [block]⟩
    else do
      let c ← h.kmalloc L size
      if c.ptr = 0 then some ⟨0, c.heap, block :: c.headers⟩
      else
        let h := { c.heap with mem := copy c.heap.mem c.ptr c.heap.mem ptr (c.heap.size block) }
        let c' ← h.kfree L ptr
        some ⟨c.ptr, c'.heap, block :: c.headers ++ c'.headers⟩

/-! ### Runs -/

/-- What clients do: calls, with sizes that are `size_t`, and stores of single bytes. -/
inductive HeapOp
  | kmalloc (size : UInt32)
  | kfree (ptr : ℕ)
  | krealloc (ptr : ℕ) (size : UInt32)
  | store (a : ℕ) (v : UInt8)

/-- A state of a run: the heap, and the allocations clients hold, with the sizes asked for. -/
structure HeapRun where
  heap : Kmalloc
  live : List (ℕ × ℕ)

/-- The pointer is `NULL` or allocated. -/
def HeapRun.Owns (r : HeapRun) (ptr : ℕ) : Prop := ptr = 0 ∨ ptr ∈ r.live.map Prod.fst

instance (r : HeapRun) (ptr : ℕ) : Decidable (r.Owns ptr) := inferInstanceAs (Decidable (_ ∨ _))

/-- The byte is outside the arena, or in an allocation. -/
def HeapRun.MayStore (L : Layout) (r : HeapRun) (a : ℕ) : Prop :=
  a < L.heapStart ∨ L.heapEnd ≤ a ∨ ∃ p ∈ r.live, p.1 ≤ a ∧ a < p.1 + p.2

instance (L : Layout) (r : HeapRun) (a : ℕ) : Decidable (r.MayStore L a) :=
  inferInstanceAs (Decidable (_ ∨ _ ∨ _))

/-- What clients hold when they have given `ptr` back. -/
def HeapRun.without (r : HeapRun) (ptr : ℕ) : List (ℕ × ℕ) := r.live.filter fun p => p.1 ≠ ptr

/-- One operation. Freeing what is not allocated and writing to other bytes of the arena are no
operations of well-behaved clients. -/
def heapExec (L : Layout) (r : HeapRun) : HeapOp → Option HeapRun
  | .kmalloc size => (r.heap.kmalloc L size.toNat).map fun c =>
    ⟨c.heap, if c.ptr = 0 then r.live else (c.ptr, size.toNat) :: r.live⟩
  | .kfree ptr =>
    if r.Owns ptr then (r.heap.kfree L ptr).map fun c => ⟨c.heap, r.without ptr⟩ else none
  | .krealloc ptr size =>
    if r.Owns ptr then (r.heap.krealloc L ptr size.toNat).map fun c =>
      ⟨c.heap,
        if size = 0 then r.without ptr
        else if c.ptr = 0 then r.live
        else (c.ptr, size.toNat) :: r.without ptr⟩
    else none
  | .store a v =>
    if r.MayStore L a then some { r with heap := { r.heap with mem := write r.heap.mem a [v] } }
    else none

/-- Any sequence of operations from a zeroed heap. -/
def heapSystem (L : Layout) : StepSystem HeapRun HeapOp where
  start r := r.heap.heapBase = 0 ∧ r.heap.heapPtr = 0 ∧ r.live = [] ∧
    ∀ a, L.heapStart ≤ a → a < L.heapEnd → r.heap.mem a = 0
  step := heapExec L

end ChalesOs
