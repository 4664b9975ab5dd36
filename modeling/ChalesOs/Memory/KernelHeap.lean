import Mathlib.Data.List.Chain
import Mathlib.Data.List.Nodup
import Mathlib.Data.List.Pairwise
import Mathlib.Data.List.Perm.Basic
import Mathlib.Order.Nat
import ChalesOs.Memory.Layout

/-!
# The kernel heap

The blocks of `kmalloc.c`, in address order, behind the zero-sized `heap_base` at `_heap_start`.
Every block is a header of 12 bytes followed by its payload, so the sizes fix all addresses.
`kmalloc` reuses the first free block that is large enough, whole, and otherwise appends one;
`kfree` marks a block free and merges it with its free neighbours.

Clients see a heap through the list of its live payload addresses. `kmalloc_live` and
`kfree_live` say that one adds exactly the address it returns, which is new, and the other
removes exactly the address it is given.
-/

namespace ChalesOs

/-- `KMALLOC_METADATA_SIZE`. -/
def kmallocMetadataSize : ℕ := 12

/-- A block header, without its magic number. -/
structure Block where
  size : ℕ
  isFree : Bool

/-- The blocks behind `heap_base`, in address order. -/
structure KernelHeap where
  blocks : List Block

/-- The address behind the payload of a block whose header is at `a`. -/
def Block.endAt (b : Block) (a : ℕ) : ℕ := a + kmallocMetadataSize + b.size

/-- The address behind blocks whose first header is at `a`. -/
def blocksEnd (a : ℕ) (bs : List Block) : ℕ := bs.foldl (fun a b => b.endAt a) a

/-- The header address of the first block behind `heap_base`. -/
def Layout.firstBlock (L : Layout) : ℕ := L.heapStart + kmallocMetadataSize

/-- `find_free_block` and `is_free = 0`: the first free block of at least `size` bytes, taken. -/
def takeFreeBlock (size : ℕ) : (a : ℕ) → List Block → Option (ℕ × List Block)
  | _, [] => none
  | a, b :: bs =>
    if b.isFree ∧ b.size ≥ size then
      some (a + kmallocMetadataSize, { b with isFree := false } :: bs)
    else (takeFreeBlock size (b.endAt a) bs).map fun r => (r.1, b :: r.2)

/-- `expand_heap`: a new block behind the last one, if its end is not behind `_heap_end`. -/
def expandHeap (L : Layout) (h : KernelHeap) (size : ℕ) : Option (ℕ × KernelHeap) :=
  let nextBlock := blocksEnd L.firstBlock h.blocks
  if (nextBlock + kmallocMetadataSize + size) % 0x100000000 > L.heapEnd then none
  else some (nextBlock + kmallocMetadataSize, ⟨h.blocks ++ [⟨size, false⟩]⟩)

/-- `kmalloc`: the payload address, `none` for `NULL`, and the heap after it. -/
def kmalloc (L : Layout) (h : KernelHeap) (size : ℕ) : Option ℕ × KernelHeap :=
  if size = 0 then (none, h)
  else
    match takeFreeBlock size L.firstBlock h.blocks with
    | some (p, blocks) => (some p, ⟨blocks⟩)
    | none =>
      match expandHeap L h size with
      | some (p, h) => (some p, h)
      | none => (none, h)

/-- The forward half of `coalesce`: the block followed by the blocks behind it. -/
def coalesceForward (b : Block) : List Block → List Block
  | [] => [b]
  | n :: bs =>
    if n.isFree then { b with size := b.size + kmallocMetadataSize + n.size } :: bs
    else b :: n :: bs

/-- `coalesce` of the first of `bs`, with the block in front of it. -/
def coalesceBackward (prev : Block) : List Block → List Block
  | [] => [prev]
  | b :: bs =>
    if prev.isFree then { prev with size := prev.size + kmallocMetadataSize + b.size } :: bs
    else prev :: b :: bs

/-- `kfree` on blocks whose first header is at `a`. The block in front of the freed one, when
there is one, is merged with it after the freed block has been merged with the next one. -/
def kfreeBlocks (ptr : ℕ) : (a : ℕ) → List Block → List Block
  | _, [] => []
  | a, b :: bs =>
    if a + kmallocMetadataSize = ptr then coalesceForward { b with isFree := true } bs
    else if b.endAt a + kmallocMetadataSize = ptr then
      coalesceBackward b (kfreeBlocks ptr (b.endAt a) bs)
    else b :: kfreeBlocks ptr (b.endAt a) bs

/-- `kfree`; `NULL` and what is not a block are left alone. -/
def kfree (L : Layout) (h : KernelHeap) (ptr : ℕ) : KernelHeap :=
  if ptr = 0 then h else ⟨kfreeBlocks ptr L.firstBlock h.blocks⟩

/-! ### Live allocations -/

/-- The payload addresses of the blocks in use. -/
def liveFrom : (a : ℕ) → List Block → List ℕ
  | _, [] => []
  | a, b :: bs =>
    if b.isFree then liveFrom (b.endAt a) bs
    else (a + kmallocMetadataSize) :: liveFrom (b.endAt a) bs

/-- The live allocations of a heap. -/
def KernelHeap.live (L : Layout) (h : KernelHeap) : List ℕ := liveFrom L.firstBlock h.blocks

/-- The blocks end inside the arena. -/
def KernelHeap.InArena (L : Layout) (h : KernelHeap) : Prop :=
  blocksEnd L.firstBlock h.blocks ≤ L.heapEnd

variable {L : Layout} {h h' : KernelHeap} {a p size : ℕ} {b : Block} {bs bs' : List Block}

@[simp]
theorem blocksEnd_nil : blocksEnd a [] = a := rfl

@[simp]
theorem blocksEnd_cons : blocksEnd a (b :: bs) = blocksEnd (b.endAt a) bs := rfl

theorem blocksEnd_append : blocksEnd a (bs ++ bs') = blocksEnd (blocksEnd a bs) bs' :=
  List.foldl_append

theorem Block.lt_endAt (b : Block) (a : ℕ) : a + kmallocMetadataSize ≤ b.endAt a :=
  Nat.le_add_right _ _

theorem le_blocksEnd (bs : List Block) (a : ℕ) : a ≤ blocksEnd a bs := by
  induction bs generalizing a with
  | nil => exact le_rfl
  | cons b bs ih =>
    have h₁ := b.lt_endAt a
    have h₂ := ih (b.endAt a)
    rw [blocksEnd_cons]
    omega

/-- Live payloads lie behind the first header and in front of the end. -/
theorem mem_liveFrom (hp : p ∈ liveFrom a bs) :
    a + kmallocMetadataSize ≤ p ∧ p ≤ blocksEnd a bs := by
  induction bs generalizing a with
  | nil => simp [liveFrom] at hp
  | cons b bs ih =>
    have hb := b.lt_endAt a
    have hend := le_blocksEnd bs (b.endAt a)
    rw [blocksEnd_cons]
    have htail : p ∈ liveFrom (b.endAt a) bs →
        a + kmallocMetadataSize ≤ p ∧ p ≤ blocksEnd (b.endAt a) bs := fun hp => by
      have := ih hp
      omega
    rw [liveFrom] at hp
    split_ifs at hp
    · exact htail hp
    · rcases List.mem_cons.mp hp with rfl | hp
      · omega
      · exact htail hp

theorem nodup_liveFrom (bs : List Block) (a : ℕ) : (liveFrom a bs).Nodup := by
  induction bs generalizing a with
  | nil => exact List.nodup_nil
  | cons b bs ih =>
    rw [liveFrom]
    split_ifs
    · exact ih _
    · refine List.nodup_cons.mpr ⟨fun hmem => ?_, ih _⟩
      have h₁ := (mem_liveFrom hmem).1
      have h₂ := b.lt_endAt a
      rw [kmallocMetadataSize] at *
      omega

theorem liveFrom_append :
    liveFrom a (bs ++ bs') = liveFrom a bs ++ liveFrom (blocksEnd a bs) bs' := by
  induction bs generalizing a with
  | nil => rfl
  | cons b bs ih =>
    simp only [List.cons_append, liveFrom, blocksEnd_cons, ih]
    split_ifs <;> rfl

/-! ### What allocation does -/

/-- Taking a free block adds its payload, and moves nothing. -/
theorem takeFreeBlock_spec {r : ℕ × List Block} (h : takeFreeBlock size a bs = some r) :
    (liveFrom a r.2).Perm (r.1 :: liveFrom a bs) ∧ blocksEnd a r.2 = blocksEnd a bs := by
  induction bs generalizing a r with
  | nil => simp [takeFreeBlock] at h
  | cons b bs ih =>
    rw [takeFreeBlock] at h
    split_ifs at h with hfree
    · obtain rfl := Option.some.inj h
      simp only [liveFrom, hfree.1, if_true]
      exact ⟨.refl _, rfl⟩
    · obtain ⟨r, hr, rfl⟩ := Option.map_eq_some_iff.mp h
      obtain ⟨hperm, hend⟩ := ih hr
      refine ⟨?_, hend⟩
      simp only [liveFrom]
      split_ifs
      · exact hperm
      · exact (hperm.cons _).trans (.swap _ _ _)

/-- **Allocation.** A successful `kmalloc` adds the address it returns, which is new and inside
the arena, and nothing else; a failing one changes nothing. -/
theorem kmalloc_live (harena : h.InArena L) (hsize : size ≤ 0x10000)
    {r : Option ℕ} (hr : kmalloc L h size = (r, h')) :
    h'.InArena L ∧ (r = none ∧ h' = h ∨
      ∃ p, r = some p ∧ (h'.live L).Perm (p :: h.live L) ∧ p ∉ h.live L) := by
  have hnew : ∀ {p}, (h'.live L).Perm (p :: h.live L) → p ∉ h.live L := fun hperm =>
    (List.nodup_cons.mp (hperm.nodup_iff.mp (nodup_liveFrom _ _))).1
  rw [kmalloc] at hr
  split_ifs at hr with hzero
  · obtain ⟨rfl, rfl⟩ := Prod.mk.inj hr
    exact ⟨harena, Or.inl ⟨rfl, rfl⟩⟩
  cases htake : takeFreeBlock size L.firstBlock h.blocks with
  | some s =>
    simp only [htake] at hr
    obtain ⟨rfl, rfl⟩ := Prod.mk.inj hr
    obtain ⟨hperm, hend⟩ := takeFreeBlock_spec htake
    exact ⟨hend.trans_le harena, Or.inr ⟨_, rfl, hperm, hnew hperm⟩⟩
  | none =>
    simp only [htake, expandHeap] at hr
    split_ifs at hr with hfit
    · obtain ⟨rfl, rfl⟩ := Prod.mk.inj hr
      exact ⟨harena, Or.inl ⟨rfl, rfl⟩⟩
    · obtain ⟨rfl, rfl⟩ := Prod.mk.inj hr
      have hperm : (KernelHeap.live L ⟨h.blocks ++ [⟨size, false⟩]⟩).Perm
          ((blocksEnd L.firstBlock h.blocks + kmallocMetadataSize) :: h.live L) := by
        rw [KernelHeap.live, liveFrom_append]
        exact List.perm_append_singleton _ _
      refine ⟨?_, Or.inr ⟨_, rfl, hperm, hnew hperm⟩⟩
      -- a sum that does not reach past the end has not wrapped
      have hL := L.heapEnd_le_userHeapStart
      have hL' := L.userHeapEnd_le_kernelEnd
      have hL'' := L.userHeapEnd_eq
      have hmax := L.kernelEnd_le
      rw [KernelHeap.InArena] at harena ⊢
      rw [blocksEnd_append]
      show blocksEnd L.firstBlock h.blocks + kmallocMetadataSize + size ≤ L.heapEnd
      rw [kmallocMetadataSize] at *
      omega

/-! ### What freeing does -/

theorem coalesceForward_spec (b : Block) (hb : b.isFree = true) (bs : List Block) (a : ℕ) :
    liveFrom a (coalesceForward b bs) = liveFrom (b.endAt a) bs ∧
      blocksEnd a (coalesceForward b bs) = blocksEnd (b.endAt a) bs := by
  cases bs with
  | nil => simp [coalesceForward, liveFrom, hb]
  | cons n bs =>
    rw [coalesceForward]
    split_ifs with hn
    · have hend : Block.endAt { b with size := b.size + kmallocMetadataSize + n.size } a =
          n.endAt (b.endAt a) := by
        simp only [Block.endAt]
        omega
      refine ⟨?_, by rw [blocksEnd_cons, hend, blocksEnd_cons]⟩
      rw [liveFrom, if_pos hb, hend, liveFrom, if_pos hn]
    · simp only [liveFrom, hb, if_true, blocksEnd_cons, and_self]

theorem coalesceBackward_spec (prev : Block) (bs : List Block) (a : ℕ)
    (hfree : ∀ b ∈ bs.head?, b.isFree = true) :
    liveFrom a (coalesceBackward prev bs) = liveFrom a (prev :: bs) ∧
      blocksEnd a (coalesceBackward prev bs) = blocksEnd a (prev :: bs) := by
  cases bs with
  | nil => exact ⟨rfl, rfl⟩
  | cons b bs =>
    have hb : b.isFree = true := hfree b (by simp)
    rw [coalesceBackward]
    split_ifs with hprev
    · have hend : Block.endAt { prev with size := prev.size + kmallocMetadataSize + b.size } a =
          b.endAt (prev.endAt a) := by
        simp only [Block.endAt]
        omega
      refine ⟨?_, by rw [blocksEnd_cons, hend, blocksEnd_cons, blocksEnd_cons]⟩
      rw [liveFrom, if_pos hprev, hend, liveFrom, if_pos hprev, liveFrom, if_pos hb]
    · exact ⟨rfl, rfl⟩

/-- The freed block is free, also when it is merged with the next one. -/
theorem kfreeBlocks_head : ∀ b ∈ (kfreeBlocks (a + kmallocMetadataSize) a bs).head?,
    b.isFree = true := by
  cases bs with
  | nil => simp [kfreeBlocks]
  | cons b bs =>
    rw [kfreeBlocks, if_pos rfl]
    cases bs with
    | nil => simp [coalesceForward]
    | cons n bs =>
      rw [coalesceForward]
      split_ifs <;> simp

/-- Freeing removes one payload, and moves nothing. -/
theorem kfreeBlocks_spec (hp : p ∈ liveFrom a bs) :
    liveFrom a (kfreeBlocks p a bs) = (liveFrom a bs).erase p ∧
      blocksEnd a (kfreeBlocks p a bs) = blocksEnd a bs := by
  induction bs generalizing a with
  | nil => simp [liveFrom] at hp
  | cons b bs ih =>
    by_cases hhere : a + kmallocMetadataSize = p
    · subst hhere
      rw [kfreeBlocks, if_pos rfl]
      obtain ⟨hlive, hend⟩ := coalesceForward_spec { b with isFree := true } rfl bs a
      refine ⟨hlive.trans ?_, hend⟩
      rw [liveFrom] at hp ⊢
      split_ifs at hp ⊢ with hfree
      · have h₁ := (mem_liveFrom hp).1
        have h₂ := b.lt_endAt a
        rw [kmallocMetadataSize] at *
        omega
      · rw [List.erase_cons_head]
        rfl
    · -- the block is further on, and this one may be merged with it
      have htail : p ∈ liveFrom (b.endAt a) bs := by
        rw [liveFrom] at hp
        split_ifs at hp
        · exact hp
        · exact (List.mem_cons.mp hp).resolve_left (Ne.symm hhere)
      obtain ⟨hlive, hend⟩ := ih htail
      have hcons : liveFrom a (b :: kfreeBlocks p (b.endAt a) bs) =
          (liveFrom a (b :: bs)).erase p := by
        simp only [liveFrom, hlive]
        split_ifs
        · rfl
        · rw [List.erase_cons_tail (by simpa using hhere)]
      rw [kfreeBlocks, if_neg hhere]
      split_ifs with hnext
      · subst hnext
        obtain ⟨hlive', hend'⟩ := coalesceBackward_spec b _ a kfreeBlocks_head
        exact ⟨hlive'.trans hcons, hend'.trans hend⟩
      · exact ⟨hcons, hend⟩

/-- **Freeing.** `kfree` of a live allocation removes it, and nothing else. -/
theorem kfree_live (harena : h.InArena L) (hp : p ∈ h.live L) :
    (kfree L h p).InArena L ∧ (kfree L h p).live L = (h.live L).erase p := by
  obtain ⟨hlive, hend⟩ := kfreeBlocks_spec hp
  have hpos : p ≠ 0 := by
    have := (mem_liveFrom hp).1
    rw [kmallocMetadataSize] at this
    omega
  rw [kfree, if_neg hpos]
  exact ⟨hend.trans_le harena, hlive⟩

/-- Freeing some of the live allocations leaves the others. -/
theorem foldl_kfree_live {freed kept : List ℕ} (harena : h.InArena L)
    (hlive : (h.live L).Perm (freed ++ kept)) :
    (freed.foldl (kfree L) h).InArena L ∧ ((freed.foldl (kfree L) h).live L).Perm kept := by
  induction freed generalizing h with
  | nil => exact ⟨harena, hlive⟩
  | cons p freed ih =>
    have hp : p ∈ h.live L := hlive.mem_iff.mpr (by simp)
    obtain ⟨harena', hlive'⟩ := kfree_live harena hp
    refine ih harena' ?_
    rw [hlive']
    exact (hlive.erase p).trans (by rw [List.cons_append, List.erase_cons_head])

/-! ### Blocks and their sizes -/

/-- The payload addresses and the sizes of the blocks in use. -/
def allocsFrom : (a : ℕ) → List Block → List (ℕ × ℕ)
  | _, [] => []
  | a, b :: bs =>
    if b.isFree then allocsFrom (b.endAt a) bs
    else (a + kmallocMetadataSize, b.size) :: allocsFrom (b.endAt a) bs

/-- The header addresses of all blocks. -/
def headersFrom : (a : ℕ) → List Block → List ℕ
  | _, [] => []
  | a, b :: bs => a :: headersFrom (b.endAt a) bs

/-- No two adjacent blocks are both free. -/
def NoAdjacentFree (bs : List Block) : Prop :=
  bs.IsChain fun b c => ¬(b.isFree = true ∧ c.isFree = true)

variable {pre post : List Block} {q c : Block} {n x : ℕ}

theorem liveFrom_eq_map (a : ℕ) (bs : List Block) :
    liveFrom a bs = (allocsFrom a bs).map Prod.fst := by
  induction bs generalizing a with
  | nil => rfl
  | cons b bs ih =>
    rw [liveFrom, allocsFrom, ih]
    split_ifs <;> rfl

theorem allocsFrom_append :
    allocsFrom a (bs ++ bs') = allocsFrom a bs ++ allocsFrom (blocksEnd a bs) bs' := by
  induction bs generalizing a with
  | nil => rfl
  | cons b bs ih =>
    simp only [List.cons_append, allocsFrom, blocksEnd_cons, ih]
    split_ifs <;> rfl

theorem headersFrom_append :
    headersFrom a (bs ++ bs') = headersFrom a bs ++ headersFrom (blocksEnd a bs) bs' := by
  induction bs generalizing a with
  | nil => rfl
  | cons b bs ih => simp only [List.cons_append, headersFrom, blocksEnd_cons, ih]

@[simp]
theorem length_headersFrom (a : ℕ) (bs : List Block) : (headersFrom a bs).length = bs.length := by
  induction bs generalizing a with
  | nil => rfl
  | cons b bs ih => rw [headersFrom, List.length_cons, List.length_cons, ih]

/-- Headers lie between the first one and the end. -/
theorem mem_headersFrom (hx : x ∈ headersFrom a bs) :
    a ≤ x ∧ x + kmallocMetadataSize ≤ blocksEnd a bs := by
  induction bs generalizing a with
  | nil => simp [headersFrom] at hx
  | cons b bs ih =>
    have hb := b.lt_endAt a
    have hend := le_blocksEnd bs (b.endAt a)
    rw [blocksEnd_cons]
    rcases List.mem_cons.mp hx with rfl | hx
    · omega
    · have := ih hx
      omega

/-- Blocks take room. -/
theorem length_le_blocksEnd (a : ℕ) (bs : List Block) :
    a + kmallocMetadataSize * bs.length ≤ blocksEnd a bs := by
  induction bs generalizing a with
  | nil => simp
  | cons b bs ih =>
    have hb := b.lt_endAt a
    have := ih (b.endAt a)
    rw [blocksEnd_cons, List.length_cons, Nat.mul_succ]
    omega

/-- The block `takeFreeBlock` takes. -/
theorem takeFreeBlock_split {r : ℕ × List Block} (h : takeFreeBlock size a bs = some r) :
    ∃ pre b post, bs = pre ++ b :: post ∧
      r = (blocksEnd a pre + kmallocMetadataSize, pre ++ { b with isFree := false } :: post) ∧
      b.isFree = true ∧ size ≤ b.size := by
  induction bs generalizing a r with
  | nil => simp [takeFreeBlock] at h
  | cons b bs ih =>
    rw [takeFreeBlock] at h
    split_ifs at h with hfree
    · exact ⟨[], b, bs, rfl, (Option.some.inj h).symm, hfree.1, hfree.2⟩
    · obtain ⟨r, hr, rfl⟩ := Option.map_eq_some_iff.mp h
      obtain ⟨pre, c, post, rfl, rfl, hc⟩ := ih hr
      exact ⟨b :: pre, c, post, rfl, rfl, hc⟩

/-- The block of an allocation. -/
theorem exists_split_of_mem_allocsFrom (hp : (p, n) ∈ allocsFrom a bs) :
    ∃ pre b post, bs = pre ++ b :: post ∧ p = blocksEnd a pre + kmallocMetadataSize ∧
      n = b.size ∧ b.isFree = false := by
  induction bs generalizing a with
  | nil => simp [allocsFrom] at hp
  | cons b bs ih =>
    have htail : (p, n) ∈ allocsFrom (b.endAt a) bs → ∃ pre c post, b :: bs = pre ++ c :: post ∧
        p = blocksEnd a pre + kmallocMetadataSize ∧ n = c.size ∧ c.isFree = false := fun hp => by
      obtain ⟨pre, c, post, rfl, rfl, hc⟩ := ih hp
      exact ⟨b :: pre, c, post, rfl, rfl, hc⟩
    rw [allocsFrom] at hp
    split_ifs at hp with hfree
    · exact htail hp
    · rcases List.mem_cons.mp hp with heq | hp
      · obtain ⟨rfl, rfl⟩ := Prod.mk.inj heq
        exact ⟨[], b, bs, rfl, rfl, rfl, by simpa using hfree⟩
      · exact htail hp

/-- Payloads lie between the first header and the end. -/
theorem mem_allocsFrom (hp : (p, n) ∈ allocsFrom a bs) :
    a + kmallocMetadataSize ≤ p ∧ p + n ≤ blocksEnd a bs := by
  obtain ⟨pre, b, post, rfl, rfl, rfl, -⟩ := exists_split_of_mem_allocsFrom hp
  have h₁ := le_blocksEnd pre a
  have h₂ := le_blocksEnd post (b.endAt (blocksEnd a pre))
  rw [blocksEnd_append, blocksEnd_cons]
  exact ⟨by omega, h₂⟩

/-- A header is in front of a payload or behind it. -/
theorem headersFrom_apart (hp : (p, n) ∈ allocsFrom a bs) (hx : x ∈ headersFrom a bs) :
    x + kmallocMetadataSize ≤ p ∨ p + n ≤ x := by
  obtain ⟨pre, b, post, rfl, rfl, rfl, -⟩ := exists_split_of_mem_allocsFrom hp
  rw [headersFrom_append, headersFrom, List.mem_append, List.mem_cons] at hx
  rcases hx with hx | rfl | hx
  · have := (mem_headersFrom hx).2
    omega
  · exact Or.inl le_rfl
  · exact Or.inr (mem_headersFrom hx).1

/-- Payloads come in address order. -/
theorem allocsFrom_pairwise (a : ℕ) (bs : List Block) :
    (allocsFrom a bs).Pairwise fun p q => p.1 + p.2 ≤ q.1 := by
  induction bs generalizing a with
  | nil => exact List.Pairwise.nil
  | cons b bs ih =>
    rw [allocsFrom]
    split_ifs
    · exact ih _
    · refine List.pairwise_cons.mpr ⟨fun q hq => ?_, ih _⟩
      exact (Nat.le_add_right _ _).trans (mem_allocsFrom (p := q.1) (n := q.2) hq).1

/-- Different payloads are apart. -/
theorem allocsFrom_apart {p q : ℕ × ℕ} (hp : p ∈ allocsFrom a bs) (hq : q ∈ allocsFrom a bs)
    (hne : p ≠ q) : p.1 + p.2 ≤ q.1 ∨ q.1 + q.2 ≤ p.1 := by
  have : Std.Symm fun p q : ℕ × ℕ => p.1 + p.2 ≤ q.1 ∨ q.1 + q.2 ≤ p.1 := ⟨fun _ _ => Or.symm⟩
  have hall : (allocsFrom a bs).Pairwise fun p q => p.1 + p.2 ≤ q.1 ∨ q.1 + q.2 ≤ p.1 :=
    (allocsFrom_pairwise a bs).imp fun h => Or.inl h
  exact hall.forall hp hq hne

theorem takeFreeBlock_eq_none :
    takeFreeBlock size a bs = none ↔ ∀ b ∈ bs, b.isFree = true → b.size < size := by
  induction bs generalizing a with
  | nil => simp [takeFreeBlock]
  | cons b bs ih =>
    rw [takeFreeBlock, List.forall_mem_cons, ← ih (a := b.endAt a)]
    split_ifs with hfree
    · simp only [false_iff, not_and]
      intro hlt
      exact absurd (hlt hfree.1) (not_lt.mpr hfree.2)
    · rw [Option.map_eq_none_iff]
      refine (and_iff_right fun hb => ?_).symm
      exact not_le.mp fun hle => hfree ⟨hb, hle⟩

/-- No block is in use exactly when all are free. -/
theorem liveFrom_eq_nil : liveFrom a bs = [] ↔ ∀ b ∈ bs, b.isFree = true := by
  induction bs generalizing a with
  | nil => simp [liveFrom]
  | cons b bs ih =>
    rw [liveFrom, List.forall_mem_cons]
    split_ifs with hfree
    · rw [ih, and_iff_right hfree]
    · simp [hfree]

/-- Free blocks merge into one. -/
theorem NoAdjacentFree.length_le_one (h : NoAdjacentFree bs) (hfree : ∀ b ∈ bs, b.isFree = true) :
    bs.length ≤ 1 := by
  match bs, h with
  | [], _ => exact Nat.zero_le 1
  | [_], _ => exact le_rfl
  | b :: c :: bs, h =>
    have hbc := (List.isChain_cons_cons.mp h).1
    exact absurd ⟨hfree b (by simp), hfree c (by simp)⟩ hbc

/-- The block of a live payload. -/
theorem exists_split_of_mem_liveFrom (hp : p ∈ liveFrom a bs) :
    ∃ pre b post, bs = pre ++ b :: post ∧ p = blocksEnd a pre + kmallocMetadataSize ∧
      b.isFree = false := by
  rw [liveFrom_eq_map] at hp
  obtain ⟨alloc, halloc, rfl⟩ := List.mem_map.mp hp
  obtain ⟨pre, b, post, hbs, hpre, -, hb⟩ := exists_split_of_mem_allocsFrom halloc
  exact ⟨pre, b, post, hbs, hpre, hb⟩

/-- Freeing a block behind another one. -/
theorem kfreeBlocks_concat :
    kfreeBlocks (blocksEnd a (pre ++ [q]) + kmallocMetadataSize) a (pre ++ q :: b :: post) =
      pre ++ coalesceBackward q (coalesceForward { b with isFree := true } post) := by
  induction pre generalizing a with
  | nil =>
    have hq := q.lt_endAt a
    rw [List.nil_append, List.nil_append, List.nil_append, blocksEnd_cons, blocksEnd_nil,
      kfreeBlocks, if_neg (by rw [kmallocMetadataSize] at *; omega), if_pos rfl, kfreeBlocks,
      if_pos rfl]
  | cons c pre ih =>
    have hc := c.lt_endAt a
    have hend := length_le_blocksEnd (c.endAt a) (pre ++ [q])
    rw [List.length_append, List.length_singleton] at hend
    rw [List.cons_append, List.cons_append, blocksEnd_cons, kfreeBlocks,
      if_neg (by rw [kmallocMetadataSize] at *; omega),
      if_neg (by rw [kmallocMetadataSize] at *; omega), ih, List.cons_append]

/-- The blocks in use behind a freeing. -/
theorem allocsFrom_coalesce (a : ℕ) (pre : List Block) (q : Block) (post : List Block)
    (hb : b.isFree = false) :
    (allocsFrom a (pre ++ q :: b :: post)).Perm
      ((blocksEnd a (pre ++ [q]) + kmallocMetadataSize, b.size) ::
        allocsFrom a (pre ++ coalesceBackward q
          (coalesceForward { b with isFree := true } post))) := by
  -- merging with the following block changes no allocation, only where it starts
  have hforward : ∀ a, allocsFrom a (coalesceForward { b with isFree := true } post) =
      allocsFrom (b.endAt a) post := by
    intro a
    cases post with
    | nil => rfl
    | cons n post =>
      rw [coalesceForward]
      split_ifs with hn
      · simp only [allocsFrom, if_true, hn, Block.endAt]
        congr 1
        omega
      · rfl
  -- and neither does merging with the block in front
  have hbackward : ∀ a, allocsFrom a (coalesceBackward q
      (coalesceForward { b with isFree := true } post)) =
      allocsFrom a [q] ++ allocsFrom (b.endAt (q.endAt a)) post := by
    intro a
    rw [← hforward]
    generalize hcs : coalesceForward { b with isFree := true } post = cs
    cases cs with
    | nil =>
      rw [coalesceBackward, allocsFrom, List.append_nil]
    | cons c cs =>
      have hc : c.isFree = true := by
        cases post with
        | nil => obtain ⟨rfl, -⟩ := List.cons.inj hcs; rfl
        | cons n post =>
          rw [coalesceForward] at hcs
          split_ifs at hcs <;> (obtain ⟨rfl, -⟩ := List.cons.inj hcs; rfl)
      rw [coalesceBackward]
      split_ifs with hq
      · simp only [allocsFrom, hq, hc, if_true, List.nil_append, Block.endAt]
        congr 1
        omega
      · simp [allocsFrom, hq]
  rw [allocsFrom_append, allocsFrom_append, hbackward]
  have hsplit : allocsFrom (blocksEnd a pre) (q :: b :: post) = allocsFrom (blocksEnd a pre) [q] ++
      (blocksEnd a (pre ++ [q]) + kmallocMetadataSize, b.size) ::
        allocsFrom (b.endAt (q.endAt (blocksEnd a pre))) post := by
    rw [show q :: b :: post = [q] ++ b :: post from rfl, allocsFrom_append]
    refine congrArg (allocsFrom (blocksEnd a pre) [q] ++ ·) ?_
    rw [allocsFrom, if_neg (by simp [hb]), blocksEnd_append]
    rfl
  rw [hsplit, ← List.append_assoc, ← List.append_assoc]
  exact List.perm_middle

/-- Merging leaves no two adjacent free blocks. -/
theorem NoAdjacentFree.coalesce (h : NoAdjacentFree (pre ++ q :: b :: post)) :
    NoAdjacentFree
      (pre ++ coalesceBackward q (coalesceForward { b with isFree := true } post)) := by
  rw [NoAdjacentFree] at *
  cases post with
  | nil =>
    rw [coalesceForward, coalesceBackward]
    split_ifs with hq <;> simp_all [List.isChain_append]
  | cons n post =>
    rw [coalesceForward]
    split_ifs with hn <;> rw [coalesceBackward] <;> split_ifs with hq <;>
      simp_all [List.isChain_append, List.isChain_cons]

/-! ### The heap with its base -/

/-- The block at `heap_base`. -/
def heapBaseBlock : Block := ⟨0, false⟩

/-- The address behind the last block. -/
def KernelHeap.top (L : Layout) (H : KernelHeap) : ℕ := blocksEnd L.firstBlock H.blocks

/-- The payloads and sizes of the blocks in use. -/
def KernelHeap.allocs (L : Layout) (H : KernelHeap) : List (ℕ × ℕ) :=
  allocsFrom L.firstBlock H.blocks

theorem KernelHeap.live_eq_map (L : Layout) (H : KernelHeap) :
    H.live L = (H.allocs L).map Prod.fst :=
  liveFrom_eq_map _ _

theorem blocksEnd_heapBase (L : Layout) (H : KernelHeap) :
    blocksEnd L.heapStart (heapBaseBlock :: H.blocks) = H.top L := rfl

theorem noAdjacentFree_heapBase : NoAdjacentFree (heapBaseBlock :: bs) ↔ NoAdjacentFree bs := by
  rw [NoAdjacentFree, NoAdjacentFree, List.isChain_cons]
  simp [heapBaseBlock]

/-- What `kfree` of a live payload does to the list of blocks: the block is marked free, and
merged with its free neighbours. -/
theorem kfree_split {H : KernelHeap} (hp : p ∈ H.live L) :
    ∃ pre q b post, heapBaseBlock :: H.blocks = pre ++ q :: b :: post ∧ b.isFree = false ∧
      p = blocksEnd L.heapStart (pre ++ [q]) + kmallocMetadataSize ∧
      heapBaseBlock :: (kfree L H p).blocks =
        pre ++ coalesceBackward q (coalesceForward { b with isFree := true } post) := by
  obtain ⟨pre₀, b, post, hblocks, rfl, hb⟩ := exists_split_of_mem_liveFrom hp
  obtain ⟨pre, q, hpre⟩ : ∃ pre q, heapBaseBlock :: pre₀ = pre ++ [q] := by
    obtain hnil | ⟨pre, q, h⟩ := List.eq_nil_or_concat (heapBaseBlock :: pre₀)
    · exact absurd hnil (List.cons_ne_nil _ _)
    · exact ⟨pre, q, h.trans List.concat_eq_append⟩
  have hsplit : heapBaseBlock :: H.blocks = pre ++ q :: b :: post := by
    rw [hblocks, ← List.cons_append, hpre, List.append_cons pre q (b :: post)]
  have hend : blocksEnd L.firstBlock pre₀ = blocksEnd L.heapStart (pre ++ [q]) := by
    rw [← hpre]
    rfl
  refine ⟨pre, q, b, post, hsplit, hb, by rw [hend], ?_⟩
  have hle := le_blocksEnd pre₀ L.firstBlock
  have hbase : ∀ cs, coalesceBackward heapBaseBlock cs = heapBaseBlock :: cs := by
    rintro (_ | ⟨c, cs⟩) <;> rfl
  rw [kfree, if_neg (by rw [kmallocMetadataSize]; omega), hend, ← kfreeBlocks_concat, ← hsplit,
    kfreeBlocks, if_neg, hbase, ite_self]
  · rfl
  · rw [← hend, Layout.firstBlock] at *
    rw [kmallocMetadataSize] at *
    omega

/-- The blocks in use behind a freeing. -/
theorem kfree_allocs {H : KernelHeap} (hp : p ∈ H.live L) :
    ∃ n, (H.allocs L).Perm ((p, n) :: (kfree L H p).allocs L) := by
  obtain ⟨pre, q, b, post, hsplit, hb, rfl, hfree⟩ := kfree_split hp
  refine ⟨b.size, ?_⟩
  have hperm := allocsFrom_coalesce L.heapStart pre q post hb
  rw [← hsplit, ← hfree] at hperm
  exact (hperm.trans (.swap _ _ _)).cons_inv

/-- No two adjacent free blocks behind a freeing. -/
theorem kfree_noAdjacentFree {H : KernelHeap} (hp : p ∈ H.live L)
    (h : NoAdjacentFree H.blocks) : NoAdjacentFree (kfree L H p).blocks := by
  obtain ⟨pre, q, b, post, hsplit, -, -, hfree⟩ := kfree_split hp
  rw [← noAdjacentFree_heapBase, hfree]
  rw [← noAdjacentFree_heapBase, hsplit] at h
  exact h.coalesce

/-- What a `kmalloc` that finds a free block does: the block is taken whole. -/
theorem kmalloc_of_take {H : KernelHeap} (hsize : size ≠ 0) {r : ℕ × List Block}
    (h : takeFreeBlock size L.firstBlock H.blocks = some r) :
    kmalloc L H size = (some r.1, ⟨r.2⟩) := by
  rw [kmalloc, if_neg hsize, h]

/-- What a `kmalloc` that finds no free block does: a new block, if the test of `expand_heap` lets
it pass. -/
theorem kmalloc_of_expand {H : KernelHeap} (hsize : size ≠ 0)
    (h : takeFreeBlock size L.firstBlock H.blocks = none) :
    kmalloc L H size =
      if (H.top L + kmallocMetadataSize + size) % 0x100000000 > L.heapEnd then (none, H)
      else (some (H.top L + kmallocMetadataSize), ⟨H.blocks ++ [⟨size, false⟩]⟩) := by
  rw [kmalloc, if_neg hsize, h]
  dsimp only
  rw [expandHeap, KernelHeap.top]
  split_ifs <;> rfl

/-- The blocks in use behind an allocation. -/
theorem kmalloc_allocs {H H' : KernelHeap} (hr : kmalloc L H size = (some p, H')) :
    ∃ n, size ≤ n ∧ (H'.allocs L).Perm ((p, n) :: H.allocs L) := by
  by_cases hsize : size = 0
  · simp [kmalloc, hsize] at hr
  cases htake : takeFreeBlock size L.firstBlock H.blocks with
  | some r =>
    rw [kmalloc_of_take hsize htake] at hr
    obtain ⟨hp, rfl⟩ := Prod.mk.inj hr
    obtain ⟨pre, b, post, hblocks, rfl, hb, hle⟩ := takeFreeBlock_split htake
    obtain rfl := Option.some.inj hp
    refine ⟨b.size, hle, ?_⟩
    rw [KernelHeap.allocs, KernelHeap.allocs, hblocks, allocsFrom_append, allocsFrom_append,
      allocsFrom, allocsFrom, if_pos hb]
    exact List.perm_middle
  | none =>
    rw [kmalloc_of_expand hsize htake] at hr
    split_ifs at hr
    · simp at hr
    · obtain ⟨hp, rfl⟩ := Prod.mk.inj hr
      obtain rfl := Option.some.inj hp
      refine ⟨size, le_rfl, ?_⟩
      rw [KernelHeap.allocs, allocsFrom_append]
      exact List.perm_append_comm

/-- No two adjacent free blocks behind an allocation. -/
theorem kmalloc_noAdjacentFree {H : KernelHeap} (h : NoAdjacentFree H.blocks) (size : ℕ) :
    NoAdjacentFree (kmalloc L H size).2.blocks := by
  by_cases hsize : size = 0
  · rwa [kmalloc, if_pos hsize]
  cases htake : takeFreeBlock size L.firstBlock H.blocks with
  | some r =>
    rw [kmalloc_of_take hsize htake]
    obtain ⟨pre, b, post, hblocks, rfl, -⟩ := takeFreeBlock_split htake
    rw [NoAdjacentFree] at *
    rw [hblocks] at h
    simp_all [List.isChain_append, List.isChain_cons]
  | none =>
    rw [kmalloc_of_expand hsize htake]
    split_ifs
    · exact h
    · rw [NoAdjacentFree] at *
      simp_all [List.isChain_append]

/-- Live allocations lie in the arena, behind every static object. -/
theorem KernelHeap.InArena.mem_live (harena : h.InArena L) (hp : p ∈ h.live L) :
    L.heapStart < p ∧ p ≤ L.heapEnd := by
  obtain ⟨h₁, h₂⟩ := mem_liveFrom hp
  rw [Layout.firstBlock, kmallocMetadataSize] at h₁
  exact ⟨by omega, h₂.trans harena⟩

end ChalesOs
