import Mathlib.Data.Set.Function
import ChalesOs.Memory.Kmalloc

/-!
# The bytes of the kernel heap as a list of blocks

`Kmalloc.Tiles h a bs` says that walking over the headers in memory from the address `a` on meets
the blocks `bs`, one behind the other. `Kmalloc.Represents` connects the bytes and the two
variables of `kmalloc.c` with a `KernelHeap`: the walk from `heap_base` meets the zero-sized block
`heapBaseBlock` and then the blocks of the heap, `heap_ptr` is the header of the last of them, and
the arena behind the last one is zero.

The simulation has one theorem for each function. `Kmalloc.Represents.kmalloc` and
`Kmalloc.Represents.kfree` say that the C functions end, do to the bytes what the functions of
`Memory/KernelHeap.lean` do to the list, and touch no header but those of the blocks and, when the
blocks do not fill the arena, the one right behind them.
-/

namespace ChalesOs

open ByteMemory

variable {L : Layout} {h h' : Kmalloc} {H : KernelHeap} {a x p size fuel prev : ℕ}
  {b b' c q : Block} {bs mid mid' pre post : List Block}

/-! ### Small rules of the header updates -/

@[simp] theorem Kmalloc.setSize_heapBase (v : ℕ) : (h.setSize a v).heapBase = h.heapBase := rfl

@[simp] theorem Kmalloc.setSize_heapPtr (v : ℕ) : (h.setSize a v).heapPtr = h.heapPtr := rfl

@[simp] theorem Kmalloc.setIsFree_heapBase (v : ℕ) : (h.setIsFree a v).heapBase = h.heapBase := rfl

@[simp] theorem Kmalloc.setIsFree_heapPtr (v : ℕ) : (h.setIsFree a v).heapPtr = h.heapPtr := rfl

/-- The size field belongs to the header. -/
theorem Kmalloc.eqOn_setSize (v : ℕ) :
    Set.EqOn (h.setSize a v).mem h.mem (Set.Ico a (a + kmallocMetadataSize))ᶜ :=
  eqOn_storeWord.mono <| Set.compl_subset_compl.mpr <|
    Set.Ico_subset_Ico le_rfl (by rw [kmallocMetadataSize]; omega)

/-- The free mark belongs to the header. -/
theorem Kmalloc.eqOn_setIsFree (v : ℕ) :
    Set.EqOn (h.setIsFree a v).mem h.mem (Set.Ico a (a + kmallocMetadataSize))ᶜ :=
  eqOn_storeWord.mono <| Set.compl_subset_compl.mpr <|
    Set.Ico_subset_Ico (by omega) (by rw [kmallocMetadataSize])

/-! ### Tiles -/

/-- The header at `a` is that of the block `b`. -/
structure Kmalloc.HeaderAt (h : Kmalloc) (a : ℕ) (b : Block) : Prop where
  size : h.size a = b.size
  magic : h.magic a = kmallocMagic
  isFree : h.isFree a ≠ 0 ↔ b.isFree = true

/-- Walking over the headers from `a` on meets the blocks `bs`. -/
def Kmalloc.Tiles (h : Kmalloc) : (a : ℕ) → List Block → Prop
  | _, [] => True
  | a, b :: bs => h.HeaderAt a b ∧ Tiles h (b.endAt a) bs

/-- A header depends on its twelve bytes. -/
theorem Kmalloc.HeaderAt.congr (hb : h.HeaderAt a b)
    (hmem : ∀ x, a ≤ x → x < a + kmallocMetadataSize → h'.mem x = h.mem x) : h'.HeaderAt a b := by
  have hword : ∀ k, k + 4 ≤ kmallocMetadataSize →
      loadWord h'.mem (a + k) = loadWord h.mem (a + k) := fun k hk =>
    loadWord_congr fun i hi => hmem _ (by omega) (by omega)
  obtain ⟨h₁, h₂, h₃⟩ := hb
  refine ⟨(hword 0 (by decide)).trans h₁, (hword 4 (by decide)).trans h₂, ?_⟩
  rw [Kmalloc.isFree, hword 8 (by decide)]
  exact h₃

/-- Tiles depend on the bytes between their ends. -/
theorem Kmalloc.Tiles.congr (ht : h.Tiles a bs)
    (hmem : Set.EqOn h'.mem h.mem (Set.Ico a (blocksEnd a bs))) : h'.Tiles a bs := by
  induction bs generalizing a with
  | nil => trivial
  | cons b bs ih =>
    have hb := b.lt_endAt a
    have hend := le_blocksEnd bs (b.endAt a)
    rw [blocksEnd_cons] at hmem
    refine ⟨ht.1.congr fun x h₁ h₂ => hmem ⟨h₁, by omega⟩, ih ht.2 fun x hx => hmem ⟨?_, hx.2⟩⟩
    have := hx.1
    omega

theorem Kmalloc.tiles_append :
    h.Tiles a (pre ++ post) ↔ h.Tiles a pre ∧ h.Tiles (blocksEnd a pre) post := by
  induction pre generalizing a with
  | nil => simp [Tiles]
  | cons b pre ih => simp only [List.cons_append, Tiles, ih, blocksEnd_cons, and_assoc]

/-- Blocks in the middle may be replaced by blocks of the same extent, when nothing else
changes. -/
theorem Kmalloc.Tiles.replace (ht : h.Tiles a (pre ++ mid ++ post))
    (hmem : Set.EqOn h'.mem h.mem (Set.Ico (blocksEnd a pre) (blocksEnd a (pre ++ mid)))ᶜ)
    (hmid : h'.Tiles (blocksEnd a pre) mid')
    (hend : blocksEnd (blocksEnd a pre) mid' = blocksEnd (blocksEnd a pre) mid) :
    h'.Tiles a (pre ++ mid' ++ post) := by
  rw [tiles_append, tiles_append] at ht ⊢
  obtain ⟨⟨hpre, -⟩, hpost⟩ := ht
  have hle := le_blocksEnd mid (blocksEnd a pre)
  rw [blocksEnd_append] at hmem hpost ⊢
  refine ⟨⟨hpre.congr (hmem.mono fun x hx => ?_), hmid⟩, ?_⟩
  · simp only [Set.mem_compl_iff, Set.mem_Ico] at hx ⊢
    omega
  · rw [hend]
    refine hpost.congr (hmem.mono fun x hx => ?_)
    simp only [Set.mem_compl_iff, Set.mem_Ico] at hx ⊢
    omega

/-- The walk goes from a block to the next one. -/
theorem Kmalloc.HeaderAt.after_eq (hb : h.HeaderAt a b) (hend : b.endAt a < 0x100000000) :
    h.after a = b.endAt a := by
  rw [after, hb.size, u32]
  exact Nat.mod_eq_of_lt hend

/-- The header of a block with a new free mark. -/
theorem Kmalloc.HeaderAt.setIsFree (hb : h.HeaderAt a b) (v : Bool) :
    (h.setIsFree a v.toNat).HeaderAt a { b with isFree := v } where
  size := (loadWord_storeWord_of_apart (by omega)).trans hb.size
  magic := (loadWord_storeWord_of_apart (by omega)).trans hb.magic
  isFree := by
    rw [Kmalloc.isFree, Kmalloc.setIsFree, loadWord_storeWord_self]
    cases v <;> simp [u32]

/-- The header of a block with a new size. -/
theorem Kmalloc.HeaderAt.setSize (hb : h.HeaderAt a b) {v : ℕ} (hv : v < 0x100000000) :
    (h.setSize a v).HeaderAt a { b with size := v } where
  size := loadWord_storeWord_self.trans (Nat.mod_eq_of_lt hv)
  magic := (loadWord_storeWord_of_apart (by omega)).trans hb.magic
  isFree := by
    rw [Kmalloc.isFree, Kmalloc.setSize, loadWord_storeWord_of_apart (by omega)]
    exact hb.isFree

/-! ### The walks -/

/-- `find_free_block` on tiles: it finds what `takeFreeBlock` takes, and reads no header but those
of the tiles and the one behind them. -/
theorem Kmalloc.Tiles.findFreeBlock (ht : h.Tiles a bs) (hle : blocksEnd a bs ≤ L.heapEnd)
    (hstop : blocksEnd a bs < L.heapEnd → h.magic (blocksEnd a bs) ≠ kmallocMagic)
    (hfuel : bs.length < fuel) (size : ℕ) :
    ∃ walked, h.findFreeBlock L size fuel a =
        some ((takeFreeBlock size a bs).elim 0 fun r => r.1 - kmallocMetadataSize, walked) ∧
      ∀ x ∈ walked, x ∈ headersFrom a bs ∨ x = blocksEnd a bs ∧ x < L.heapEnd := by
  have hmax := L.heapEnd_le
  obtain ⟨fuel, rfl⟩ : ∃ k, fuel = k + 1 := ⟨fuel - 1, by omega⟩
  induction bs generalizing a fuel with
  | nil =>
    rw [blocksEnd_nil] at hstop
    rw [Kmalloc.findFreeBlock]
    by_cases ha : a < L.heapEnd
    · rw [if_pos ha, if_pos (hstop ha)]
      exact ⟨[a], rfl, fun x hx => Or.inr ⟨List.mem_singleton.mp hx, List.mem_singleton.mp hx ▸ ha⟩⟩
    · rw [if_neg ha]
      exact ⟨[], rfl, fun x hx => absurd hx List.not_mem_nil⟩
  | cons b bs ih =>
    obtain ⟨hb, ht⟩ := ht
    have hlt := b.lt_endAt a
    have hend := le_blocksEnd bs (b.endAt a)
    rw [blocksEnd_cons] at hle hstop ⊢
    have hpos : 0 < kmallocMetadataSize := by decide
    -- the header says of the block what the list says
    have hcond : h.isFree a ≠ 0 ∧ h.size a ≥ size ↔ b.isFree = true ∧ b.size ≥ size := by
      rw [hb.isFree, hb.size]
    rw [Kmalloc.findFreeBlock, if_pos (by omega), if_neg (not_not.mpr hb.magic), takeFreeBlock]
    by_cases hfree : b.isFree = true ∧ b.size ≥ size
    · rw [if_pos (hcond.mpr hfree), if_pos hfree]
      refine ⟨[a], ?_, fun x hx => Or.inl ?_⟩
      · rw [Option.elim_some, Nat.add_sub_cancel]
      · rw [List.mem_singleton.mp hx]
        exact List.mem_cons_self
    · rw [if_neg (mt hcond.mp hfree), if_neg hfree, hb.after_eq (by omega)]
      rw [List.length_cons] at hfuel
      obtain ⟨k, rfl⟩ : ∃ k, fuel = k + 1 := ⟨fuel - 1, by omega⟩
      obtain ⟨walked, hfind, hwalked⟩ := ih ht hle hstop k (by omega)
      refine ⟨a :: walked, ?_, fun x hx => ?_⟩
      · rw [hfind]
        cases takeFreeBlock size (b.endAt a) bs <;> rfl
      · rcases List.mem_cons.mp hx with rfl | hx
        · exact Or.inl List.mem_cons_self
        · exact (hwalked x hx).imp (List.mem_cons_of_mem _) id

/-- `prev_block` on tiles: it finds the block in front. -/
theorem Kmalloc.Tiles.prevBlock (ht : h.Tiles a pre)
    (hle : blocksEnd a pre + kmallocMetadataSize ≤ L.heapEnd) (hfuel : pre.length < fuel)
    (prev : ℕ) :
    h.prevBlock L (blocksEnd a pre) fuel a prev =
      some ((headersFrom a pre).getLastD prev, headersFrom a pre) := by
  have hmax := L.heapEnd_le
  obtain ⟨fuel, rfl⟩ : ∃ k, fuel = k + 1 := ⟨fuel - 1, by omega⟩
  induction pre generalizing a fuel prev with
  | nil =>
    rw [Kmalloc.prevBlock, if_neg fun hne => hne.2 rfl]
    rfl
  | cons b pre ih =>
    obtain ⟨hb, ht⟩ := ht
    have hlt := b.lt_endAt a
    have hend := le_blocksEnd pre (b.endAt a)
    rw [blocksEnd_cons] at hle ⊢
    have hpos : 0 < kmallocMetadataSize := by decide
    rw [List.length_cons] at hfuel
    obtain ⟨k, rfl⟩ : ∃ k, fuel = k + 1 := ⟨fuel - 1, by omega⟩
    rw [Kmalloc.prevBlock, if_pos ⟨by omega, by omega⟩, if_neg (not_not.mpr hb.magic),
      hb.after_eq (by omega), ih ht hle a k (by omega), headersFrom, List.getLastD_cons]
    rfl

/-! ### The bytes of the headers -/

/-- The bytes of the headers of blocks from the address `a` on. -/
def headerBytes (a : ℕ) (bs : List Block) : Set ℕ :=
  {x | ∃ y ∈ headersFrom a bs, x ∈ Set.Ico y (y + kmallocMetadataSize)}

/-- The header of one of the blocks. -/
theorem Ico_subset_headerBytes :
    Set.Ico (blocksEnd a pre) (blocksEnd a pre + kmallocMetadataSize) ⊆
      headerBytes a (pre ++ b :: post) := by
  intro x hx
  refine ⟨_, ?_, hx⟩
  rw [headersFrom_append, headersFrom]
  exact List.mem_append_right _ List.mem_cons_self

/-- The headers lie between the first one and the end of the blocks. -/
theorem headerBytes_subset : headerBytes a bs ⊆ Set.Ico a (blocksEnd a bs) := by
  rintro x ⟨y, hy, hle, hlt⟩
  obtain ⟨hstart, hend⟩ := mem_headersFrom hy
  exact ⟨hstart.trans hle, hlt.trans_le hend⟩

/-- No byte of an allocation belongs to a header. -/
theorem not_mem_headerBytes {n : ℕ} (hp : (p, n) ∈ allocsFrom a bs) (hx : p ≤ x ∧ x < p + n) :
    x ∉ headerBytes a bs := by
  rintro ⟨y, hy, hle, hlt⟩
  have hapart := headersFrom_apart hp hy
  omega

/-- The bytes of the headers of the heap. -/
def KernelHeap.headerBytes (L : Layout) (H : KernelHeap) : Set ℕ :=
  ChalesOs.headerBytes L.heapStart (heapBaseBlock :: H.blocks)

/-- The headers of the heap lie below its top. -/
theorem KernelHeap.headerBytes_subset (L : Layout) (H : KernelHeap) :
    H.headerBytes L ⊆ Set.Ico L.heapStart (H.top L) :=
  ChalesOs.headerBytes_subset.trans_eq (by rw [blocksEnd_heapBase])

/-- No byte of an allocation of the heap belongs to a header. -/
theorem KernelHeap.not_mem_headerBytes {n : ℕ} (hp : (p, n) ∈ H.allocs L)
    (hx : p ≤ x ∧ x < p + n) : x ∉ H.headerBytes L :=
  ChalesOs.not_mem_headerBytes (List.mem_cons_of_mem _ hp) hx

/-! ### Merging -/

/-- The blocks from `a` on, with `heap_ptr` at the last of them. -/
structure Kmalloc.BlocksAt (h : Kmalloc) (a : ℕ) (bs : List Block) : Prop where
  tiles : h.Tiles a bs
  ptr : h.heapPtr = blocksEnd a bs.dropLast

/-- The block at the end of the blocks in front of it. -/
theorem Kmalloc.BlocksAt.headerAt (hbs : h.BlocksAt a (pre ++ b :: post)) :
    h.HeaderAt (blocksEnd a pre) b :=
  (tiles_append.mp hbs.tiles).2.1

/-- Merging two adjacent blocks: the first gets the extent of both, and `heap_ptr` goes back if it
was at the second. -/
theorem Kmalloc.BlocksAt.merge (hbs : h.BlocksAt a (pre ++ b :: c :: post))
    (hle : blocksEnd a (pre ++ b :: c :: post) < 0x100000000) :
    (if blocksEnd a (pre ++ [b]) = h.heapPtr then
        { h.setSize (blocksEnd a pre) (u32 (h.size (blocksEnd a pre) + kmallocMetadataSize +
          h.size (blocksEnd a (pre ++ [b])))) with heapPtr := blocksEnd a pre }
      else h.setSize (blocksEnd a pre) (u32 (h.size (blocksEnd a pre) + kmallocMetadataSize +
        h.size (blocksEnd a (pre ++ [b]))))).BlocksAt a
      (pre ++ { b with size := b.size + kmallocMetadataSize + c.size } :: post) := by
  have hb := hbs.headerAt
  have hc : h.HeaderAt (blocksEnd a (pre ++ [b])) c := by
    rw [List.append_cons] at hbs
    exact hbs.headerAt
  obtain ⟨ht, hptr⟩ := hbs
  have hm : Block.endAt { b with size := b.size + kmallocMetadataSize + c.size } (blocksEnd a pre) =
      c.endAt (b.endAt (blocksEnd a pre)) := by
    simp only [Block.endAt]
    omega
  have hpost := le_blocksEnd post (c.endAt (b.endAt (blocksEnd a pre)))
  -- the sum is the distance of two ends in the arena, so it does not wrap
  have hsize : b.size + kmallocMetadataSize + c.size < 0x100000000 := by
    rw [blocksEnd_append, blocksEnd_cons, blocksEnd_cons] at hle
    simp only [Block.endAt] at hle hpost
    omega
  have hmerged := hb.setSize hsize
  rw [hb.size, hc.size, u32, Nat.mod_eq_of_lt hsize]
  have htiles : (h.setSize (blocksEnd a pre) (b.size + kmallocMetadataSize + c.size)).Tiles a
      (pre ++ { b with size := b.size + kmallocMetadataSize + c.size } :: post) := by
    rw [show pre ++ b :: c :: post = pre ++ [b, c] ++ post by simp] at ht
    rw [List.append_cons]
    refine ht.replace ((eqOn_setSize _).mono <| Set.compl_subset_compl.mpr <|
      Set.Ico_subset_Ico le_rfl ?_) ⟨hmerged, trivial⟩ hm
    rw [blocksEnd_append]
    exact (b.lt_endAt _).trans (le_blocksEnd [c] _)
  have hN : blocksEnd a (pre ++ [b]) = b.endAt (blocksEnd a pre) := blocksEnd_append
  have hlt := c.lt_endAt (b.endAt (blocksEnd a pre))
  rw [hptr, hN]
  -- the last header has moved only if the merged block was the last one
  cases post with
  | nil =>
    have hdrop : (pre ++ [b, c]).dropLast = pre ++ [b] := by
      rw [List.append_cons, List.dropLast_concat]
    rw [hdrop, hN, if_pos rfl]
    exact ⟨htiles.congr fun _ _ => rfl, by rw [List.dropLast_concat]⟩
  | cons d post =>
    have hdrop : ∀ l : List Block, (l ++ d :: post).dropLast = l ++ (d :: post).dropLast := fun l =>
      List.dropLast_append_of_ne_nil (by simp)
    have hge := le_blocksEnd (d :: post).dropLast (c.endAt (b.endAt (blocksEnd a pre)))
    rw [List.append_cons, List.append_cons, hdrop, blocksEnd_append, blocksEnd_append,
      blocksEnd_append, if_neg]
    · refine ⟨htiles, hptr.trans ?_⟩
      rw [List.append_cons _ _ (d :: post), List.append_cons, List.append_cons, hdrop, hdrop]
      simp only [blocksEnd_append, blocksEnd_cons, blocksEnd_nil, hm]
    · simp only [blocksEnd_cons, blocksEnd_nil]
      rw [kmallocMetadataSize] at hlt
      omega

/-- The header behind the blocks, when there is room for one more byte, carries no magic number. -/
def Kmalloc.StopsAt (L : Layout) (h : Kmalloc) (a : ℕ) : Prop :=
  a < L.heapEnd → h.magic a ≠ kmallocMagic

/-- `next_block` of a block. -/
theorem Kmalloc.BlocksAt.nextBlock (hbs : h.BlocksAt a (pre ++ b :: post))
    (hle : blocksEnd a (pre ++ b :: post) ≤ L.heapEnd) :
    h.nextBlock L (blocksEnd a pre) =
      if post = [] ∧ L.heapEnd ≤ blocksEnd a (pre ++ [b]) then 0 else blocksEnd a (pre ++ [b]) := by
  have hmax := L.heapEnd_le
  have hb := hbs.headerAt
  rw [List.append_cons, blocksEnd_append] at hle
  have hpost := length_le_blocksEnd (blocksEnd a (pre ++ [b])) post
  have hN : blocksEnd a (pre ++ [b]) = b.endAt (blocksEnd a pre) := blocksEnd_append
  rw [Kmalloc.nextBlock, hb.after_eq (by omega), hN]
  cases post with
  | nil => simp only [true_and, ge_iff_le]
  | cons c post =>
    rw [List.length_cons, Nat.mul_succ] at hpost
    rw [if_neg, if_neg (by simp)]
    rw [kmallocMetadataSize] at hpost
    omega

/-- The forward half of `coalesce` on blocks. -/
theorem Kmalloc.BlocksAt.coalesceForward (hbs : h.BlocksAt a (pre ++ b :: post))
    (hle : blocksEnd a (pre ++ b :: post) ≤ L.heapEnd)
    (hstop : h.StopsAt L (blocksEnd a (pre ++ b :: post))) :
    (h.coalesceForward L (blocksEnd a pre)).BlocksAt a
        (pre ++ ChalesOs.coalesceForward b post) ∧
      (h.coalesceForward L (blocksEnd a pre)).heapBase = h.heapBase ∧
      Set.EqOn (h.coalesceForward L (blocksEnd a pre)).mem h.mem
        (Set.Ico (blocksEnd a pre) (blocksEnd a pre + kmallocMetadataSize))ᶜ := by
  have hmax := L.heapEnd_le
  have hnext := hbs.nextBlock hle
  rw [Kmalloc.coalesceForward]
  dsimp only
  -- at the end of the heap `next_block` finds nothing, or no magic number
  cases post with
  | nil =>
    rw [hnext, if_neg]
    · exact ⟨hbs, rfl, Set.eqOn_refl _ _⟩
    · rintro ⟨hne, hmagic, -⟩
      rw [StopsAt] at hstop
      split_ifs at hne hmagic with hend
      · exact hne rfl
      · simp only [true_and, not_le] at hend
        exact hstop hend hmagic
  | cons c post =>
    have hc : h.HeaderAt (blocksEnd a (pre ++ [b])) c := by
      rw [List.append_cons] at hbs
      exact hbs.headerAt
    have hlt := length_le_blocksEnd a (pre ++ [b])
    rw [List.length_append, List.length_singleton, Nat.mul_succ] at hlt
    have hne : blocksEnd a (pre ++ [b]) ≠ 0 := by
      rw [kmallocMetadataSize] at hlt
      omega
    rw [if_neg fun hnil => List.cons_ne_nil _ _ hnil.1] at hnext
    rw [hnext, ChalesOs.coalesceForward]
    by_cases hfree : c.isFree = true
    · rw [if_pos ⟨hne, hc.magic, hc.isFree.mpr hfree⟩, if_pos hfree]
      refine ⟨hbs.merge (by omega), ?_, ?_⟩
      · split_ifs <;> rfl
      · split_ifs <;> exact eqOn_setSize _
    · rw [if_neg fun hcond => hfree (hc.isFree.mp hcond.2.2), if_neg hfree]
      exact ⟨hbs, rfl, Set.eqOn_refl _ _⟩

/-- The backward half of `coalesce` on blocks. -/
theorem Kmalloc.BlocksAt.coalesceBackward (hbs : h.BlocksAt a (pre ++ q :: bs)) (hne : bs ≠ [])
    (hle : blocksEnd a (pre ++ q :: bs) < 0x100000000) (ha : a ≠ 0) :
    (h.coalesceBackward (blocksEnd a (pre ++ [q])) (blocksEnd a pre)).BlocksAt a
        (pre ++ ChalesOs.coalesceBackward q bs) ∧
      (h.coalesceBackward (blocksEnd a (pre ++ [q])) (blocksEnd a pre)).heapBase = h.heapBase ∧
      Set.EqOn (h.coalesceBackward (blocksEnd a (pre ++ [q])) (blocksEnd a pre)).mem h.mem
        (Set.Ico (blocksEnd a pre) (blocksEnd a pre + kmallocMetadataSize))ᶜ := by
  obtain ⟨b, bs, rfl⟩ := List.exists_cons_of_ne_nil hne
  have hq := hbs.headerAt
  have hpos : blocksEnd a pre ≠ 0 := by
    have := le_blocksEnd pre a
    omega
  rw [Kmalloc.coalesceBackward, ChalesOs.coalesceBackward]
  by_cases hfree : q.isFree = true
  · rw [if_pos ⟨hpos, hq.magic, hq.isFree.mpr hfree⟩, if_pos hfree]
    refine ⟨hbs.merge hle, ?_, ?_⟩
    · dsimp only
      split_ifs <;> rfl
    · dsimp only
      split_ifs <;> exact eqOn_setSize _
  · rw [if_neg fun hcond => hfree (hq.isFree.mp hcond.2.2), if_neg hfree]
    exact ⟨hbs, rfl, Set.eqOn_refl _ _⟩

/-- A new free mark in the header of a block. -/
theorem Kmalloc.BlocksAt.setIsFree (hbs : h.BlocksAt a (pre ++ b :: post)) (v : Bool) :
    (h.setIsFree (blocksEnd a pre) v.toNat).BlocksAt a
      (pre ++ { b with isFree := v } :: post) := by
  have hb := hbs.headerAt.setIsFree v
  obtain ⟨ht, hptr⟩ := hbs
  constructor
  · rw [List.append_cons] at ht ⊢
    refine ht.replace ((eqOn_setIsFree _).mono <| Set.compl_subset_compl.mpr <|
      Set.Ico_subset_Ico le_rfl ?_) ⟨hb, trivial⟩ rfl
    rw [blocksEnd_append]
    exact b.lt_endAt _
  · refine hptr.trans ?_
    cases post with
    | nil => rw [List.dropLast_concat, List.dropLast_concat]
    | cons c post =>
      rw [List.dropLast_append_of_ne_nil (by simp), List.dropLast_append_of_ne_nil (by simp),
        blocksEnd_append, blocksEnd_append]
      rfl

/-- `coalesce` of a block behind another one. -/
theorem Kmalloc.BlocksAt.coalesce (hbs : h.BlocksAt a (pre ++ q :: b :: post))
    (hbase : h.heapBase = a) (ha : a ≠ 0) (hb : b.isFree = true)
    (hle : blocksEnd a (pre ++ q :: b :: post) ≤ L.heapEnd)
    (hstop : h.StopsAt L (blocksEnd a (pre ++ q :: b :: post)))
    (hfuel : (pre ++ q :: b :: post).length < walkFuel) :
    ∃ d, h.coalesce L (blocksEnd a (pre ++ [q])) = some d ∧
      d.heap.BlocksAt a
        (pre ++ ChalesOs.coalesceBackward q (ChalesOs.coalesceForward b post)) ∧
      d.heap.heapBase = a ∧
      Set.EqOn d.heap.mem h.mem (headerBytes a (pre ++ q :: b :: post))ᶜ ∧
      ∀ x ∈ d.headers, x ∈ headersFrom a (pre ++ q :: b :: post) ∨
        x = blocksEnd a (pre ++ q :: b :: post) ∧ x < L.heapEnd := by
  have hmax := L.heapEnd_le
  have hQ := length_le_blocksEnd a pre
  have hA : blocksEnd a (pre ++ [q]) = q.endAt (blocksEnd a pre) := blocksEnd_append
  have hQA := q.lt_endAt (blocksEnd a pre)
  have hsplit : blocksEnd a (pre ++ q :: b :: post) =
      blocksEnd (blocksEnd a (pre ++ [q])) (b :: post) := by
    rw [List.append_cons, blocksEnd_append]
  have hAend : blocksEnd a (pre ++ [q]) + kmallocMetadataSize ≤
      blocksEnd a (pre ++ q :: b :: post) := by
    rw [hsplit, blocksEnd_cons]
    exact (b.lt_endAt _).trans (le_blocksEnd post _)
  rw [List.append_cons] at hbs
  -- forward first
  obtain ⟨h₁, hbase₁, hmem₁⟩ := hbs.coalesceForward (by rwa [← List.append_cons])
    (by rwa [← List.append_cons])
  have hnext := hbs.nextBlock (by rwa [← List.append_cons])
  -- the walk of `prev_block`
  have htiles := (tiles_append.mp h₁.tiles).1
  rw [List.length_append, List.length_cons] at hfuel
  have hprev := htiles.prevBlock (L := L) (hAend.trans hle)
    (by rw [List.length_append, List.length_singleton]; omega : (pre ++ [q]).length < walkFuel) 0
  have hlast : (headersFrom a (pre ++ [q])).getLastD 0 = blocksEnd a pre := by
    rw [headersFrom_append, List.getLastD_eq_getLast?]
    simp [headersFrom]
  have hne : ChalesOs.coalesceForward b post ≠ [] := by
    cases post with
    | nil => simp [ChalesOs.coalesceForward]
    | cons n post =>
      rw [ChalesOs.coalesceForward]
      split_ifs <;> simp
  have hend : blocksEnd a (pre ++ q :: ChalesOs.coalesceForward b post) =
      blocksEnd a (pre ++ q :: b :: post) := by
    rw [hsplit, List.append_cons, blocksEnd_append, (coalesceForward_spec b hb post _).2]
    rfl
  rw [← List.append_cons] at h₁
  -- then backward, in the heap that forward merging has left
  obtain ⟨h₂, hbase₂, hmem₂⟩ := h₁.coalesceBackward hne (by omega) ha
  have hheaders : headersFrom a (pre ++ q :: b :: post) = headersFrom a (pre ++ [q]) ++
      blocksEnd a (pre ++ [q]) :: headersFrom (b.endAt (blocksEnd a (pre ++ [q]))) post := by
    rw [List.append_cons, headersFrom_append]
    rfl
  rw [Kmalloc.coalesce, hbase₁, hbase, hprev, Option.map_some, hlast]
  refine ⟨_, rfl, h₂, hbase₂.trans (hbase₁.trans hbase), ?_, fun x hx => ?_⟩
  · refine (hmem₂.mono ?_).trans (hmem₁.mono ?_)
    · exact Set.compl_subset_compl.mpr Ico_subset_headerBytes
    · rw [List.append_cons]
      exact Set.compl_subset_compl.mpr Ico_subset_headerBytes
  · rw [hheaders, List.mem_append, List.mem_cons]
    rw [List.cons_append, List.mem_cons, List.mem_append] at hx
    -- a header that was looked at: the block itself, the next one, or one of the walk
    rcases hx with rfl | hx | hx
    · exact Or.inl (Or.inr (Or.inl rfl))
    · have hN : blocksEnd a (pre ++ [q] ++ [b]) = b.endAt (blocksEnd a (pre ++ [q])) :=
        blocksEnd_append
      have hx' : h.nextBlock L (blocksEnd a (pre ++ [q])) ≠ 0 ∧
          x = h.nextBlock L (blocksEnd a (pre ++ [q])) := by
        split_ifs at hx with h0
        · exact absurd hx List.not_mem_nil
        · exact ⟨h0, List.mem_singleton.mp hx⟩
      rw [hnext, hN] at hx'
      obtain ⟨hne, rfl⟩ := hx'
      cases post with
      | nil =>
        have hfull : ¬L.heapEnd ≤ b.endAt (blocksEnd a (pre ++ [q])) := fun hfull =>
          hne (if_pos ⟨rfl, hfull⟩)
        rw [if_neg fun hand => hfull hand.2]
        exact Or.inr ⟨hsplit.symm, not_le.mp hfull⟩
      | cons n post =>
        rw [if_neg fun hand => List.cons_ne_nil _ _ hand.1]
        exact Or.inl (Or.inr (Or.inr List.mem_cons_self))
    · exact Or.inl (Or.inl hx)

/-! ### The simulation -/

/-- The bytes and the two variables hold the heap `H`. -/
structure Kmalloc.Represents (L : Layout) (h : Kmalloc) (H : KernelHeap) : Prop where
  base : h.heapBase = L.heapStart
  blocks : h.BlocksAt L.heapStart (heapBaseBlock :: H.blocks)
  inArena : H.InArena L
  clear : ∀ x, H.top L ≤ x → x < L.heapEnd → h.mem x = 0
  apart : NoAdjacentFree H.blocks

/-- The headers the allocator may touch: those of the blocks, and the one behind them when it
starts in the arena. -/
def KernelHeap.Reads (L : Layout) (H : KernelHeap) (x : ℕ) : Prop :=
  x ∈ headersFrom L.heapStart (heapBaseBlock :: H.blocks) ∨ x = H.top L ∧ x < L.heapEnd

/-- There is fuel for the walks. -/
theorem Kmalloc.Represents.length_lt (hr : h.Represents L H) :
    (heapBaseBlock :: H.blocks).length < walkFuel := by
  have hlen := length_le_blocksEnd L.heapStart (heapBaseBlock :: H.blocks)
  have hle : H.top L ≤ L.heapEnd := hr.inArena
  have hend := L.heapEnd_eq
  rw [blocksEnd_heapBase] at hlen
  rw [walkFuel]
  rw [kmallocMetadataSize] at hlen
  omega

/-- Whether the walks stop depends on the bytes behind the blocks. -/
theorem Kmalloc.StopsAt.congr (hstop : h.StopsAt L a) (hmem : ∀ x, a ≤ x → h'.mem x = h.mem x) :
    h'.StopsAt L a := fun ha => by
  rw [magic, loadWord_congr fun k _ => hmem _ (by omega)]
  exact hstop ha

/-- The walks stop at a word of zeros. -/
theorem Kmalloc.stopsAt_of_zero (hzero : ∀ k, k < 4 → h.mem (a + 4 + k) = 0) : h.StopsAt L a := by
  intro _
  rw [magic, loadWord_congr (m := fun _ => 0) hzero]
  simp [loadWord, kmallocMagic]

/-- **`kfree` on bytes.** Freeing a live payload ends, and does to the bytes what it does to the
list of blocks. -/
theorem Kmalloc.Represents.kfree (hr : h.Represents L H) (hstop : h.StopsAt L (H.top L))
    (hp : p ∈ H.live L) :
    ∃ c, h.kfree L p = some c ∧ c.heap.Represents L (ChalesOs.kfree L H p) ∧
      (∀ x ∈ c.headers, H.Reads L x) ∧ Set.EqOn c.heap.mem h.mem (H.headerBytes L)ᶜ := by
  have happart := kfree_noAdjacentFree hp hr.apart
  obtain ⟨harena, -⟩ := kfree_live hr.inArena hp
  have hend := (kfreeBlocks_spec hp).2
  obtain ⟨pre, q, b, post, hsplit, hb, rfl, hfree⟩ := kfree_split hp
  have hpos : L.heapStart ≠ 0 := by
    have := L.task0_lt_heapStart
    omega
  have htop : blocksEnd L.heapStart (pre ++ q :: b :: post) = H.top L := by
    rw [← hsplit, blocksEnd_heapBase]
  have hends : ∀ c : Block, blocksEnd L.heapStart (pre ++ q :: c :: post) =
      blocksEnd (blocksEnd L.heapStart (pre ++ [q])) (c :: post) := fun c => by
    rw [List.append_cons, blocksEnd_append]
  have htop₁ : blocksEnd L.heapStart (pre ++ q :: { b with isFree := true } :: post) =
      H.top L := by
    rw [← htop, hends, hends]
    rfl
  have hlen := hr.length_lt
  have hbs := hr.blocks
  rw [hsplit] at hlen hbs
  rw [List.append_cons] at hbs
  have hA : blocksEnd L.heapStart (pre ++ [q]) + kmallocMetadataSize ≤ H.top L := by
    rw [← htop, hends, blocksEnd_cons]
    exact (b.lt_endAt _).trans (le_blocksEnd post _)
  have hAstart := le_blocksEnd (pre ++ [q]) L.heapStart
  -- the mark does not move a header, so all stores are in the headers of the heap
  have hhead : headersFrom L.heapStart (pre ++ q :: { b with isFree := true } :: post) =
      headersFrom L.heapStart (heapBaseBlock :: H.blocks) := by
    rw [hsplit, headersFrom_append, headersFrom_append]
    rfl
  have hmem₁ : Set.EqOn (h.setIsFree (blocksEnd L.heapStart (pre ++ [q])) true.toNat).mem h.mem
      (H.headerBytes L)ᶜ := by
    refine (eqOn_setIsFree _).mono (Set.compl_subset_compl.mpr ?_)
    rw [KernelHeap.headerBytes, hsplit, List.append_cons pre q (b :: post)]
    exact Ico_subset_headerBytes
  have hout : ∀ x, H.top L ≤ x → x ∈ (H.headerBytes L)ᶜ := fun x hx hin =>
    (H.headerBytes_subset L hin).2.not_ge hx
  -- the block is marked, and merged with its neighbours
  have h₁ := hbs.setIsFree true
  rw [← List.append_cons] at h₁
  have hstop₁ : (h.setIsFree (blocksEnd L.heapStart (pre ++ [q])) true.toNat).StopsAt L (H.top L) :=
    hstop.congr fun x hx => hmem₁ (hout x hx)
  obtain ⟨c, hcall, hblocks, hbase, hmem, hheaders⟩ := h₁.coalesce hr.base hpos rfl
    (htop₁.trans_le hr.inArena) (htop₁ ▸ hstop₁) (by simpa using hlen)
  rw [headerBytes, hhead] at hmem
  rw [htop₁, hhead] at hheaders
  have htop' : KernelHeap.top L (ChalesOs.kfree L H
      (blocksEnd L.heapStart (pre ++ [q]) + kmallocMetadataSize)) = H.top L := by
    rw [ChalesOs.kfree, if_neg (by rw [kmallocMetadataSize]; omega)]
    exact hend
  refine ⟨c, ?_, ⟨hbase, hfree ▸ hblocks, harena, fun x hx hx' => ?_, happart⟩, fun x hx => ?_,
    hmem.trans hmem₁⟩
  · rw [Kmalloc.kfree, if_neg (by rw [kmallocMetadataSize]; omega)]
    dsimp only
    rw [Nat.add_sub_cancel, if_neg (not_not.mpr hbs.headerAt.magic)]
    exact hcall
  · rw [htop'] at hx
    exact ((hmem.trans hmem₁) (hout x hx)).trans (hr.clear x hx hx')
  · exact hheaders x hx

/-! ### Allocation on bytes -/

/-- The header of a new block. -/
theorem Kmalloc.headerAt_new (h : Kmalloc) (a : ℕ) (hsize : size < 0x100000000) :
    (((h.setSize a size).setMagic a kmallocMagic).setIsFree a 0).HeaderAt a ⟨size, false⟩ where
  size := by
    rw [Kmalloc.size, Kmalloc.setIsFree, loadWord_storeWord_of_apart (by omega), Kmalloc.setMagic,
      loadWord_storeWord_of_apart (by omega), Kmalloc.setSize, loadWord_storeWord_self]
    exact Nat.mod_eq_of_lt hsize
  magic := by
    rw [Kmalloc.magic, Kmalloc.setIsFree, loadWord_storeWord_of_apart (by omega), Kmalloc.setMagic,
      loadWord_storeWord_self]
    rfl
  isFree := by
    rw [Kmalloc.isFree, Kmalloc.setIsFree, loadWord_storeWord_self]
    simp [u32]

/-- The three stores of a new header stay inside it. -/
theorem Kmalloc.eqOn_new (h : Kmalloc) (a size : ℕ) :
    Set.EqOn (((h.setSize a size).setMagic a kmallocMagic).setIsFree a 0).mem h.mem
      (Set.Ico a (a + kmallocMetadataSize))ᶜ := by
  have hmagic : Set.EqOn ((h.setSize a size).setMagic a kmallocMagic).mem (h.setSize a size).mem
      (Set.Ico a (a + kmallocMetadataSize))ᶜ :=
    eqOn_storeWord.mono <| Set.compl_subset_compl.mpr <|
      Set.Ico_subset_Ico (by omega) (by rw [kmallocMetadataSize]; omega)
  exact (eqOn_setIsFree 0).trans (hmagic.trans (eqOn_setSize size))

/-- The heap before the first call: no base, and zeros in the arena. -/
structure Kmalloc.Fresh (L : Layout) (h : Kmalloc) : Prop where
  base : h.heapBase = 0
  ptr : h.heapPtr = 0
  clear : ∀ x, L.heapStart ≤ x → x < L.heapEnd → h.mem x = 0

/-- `kmalloc_init` sets up the empty heap. -/
theorem Kmalloc.Fresh.kmallocInit (hf : h.Fresh L) :
    (h.kmallocInit L).Represents L ⟨[]⟩ ∧
      Set.EqOn (h.kmallocInit L).mem h.mem (Set.Ico L.heapStart L.firstBlock)ᶜ := by
  have harena := L.heapEnd_eq
  rw [Kmalloc.kmallocInit, if_pos hf.base]
  have hmem : Set.EqOn _ h.mem (Set.Ico L.heapStart L.firstBlock)ᶜ :=
    eqOn_new h L.heapStart 0
  refine ⟨⟨rfl, ⟨⟨?_, trivial⟩, rfl⟩, ?_, fun x hx hx' => ?_, List.isChain_nil⟩, hmem⟩
  · exact (headerAt_new h _ (by decide)).congr fun _ _ _ => rfl
  · show L.firstBlock ≤ L.heapEnd
    rw [Layout.firstBlock, kmallocMetadataSize]
    omega
  · have hx : L.firstBlock ≤ x := hx
    refine (hmem (by simp [hx])).trans (hf.clear x ?_ hx')
    exact (Nat.le_add_right _ _).trans hx

/-- `kmalloc_init` of a heap that is set up does nothing. -/
theorem Kmalloc.Represents.kmallocInit_eq (hr : h.Represents L H) : h.kmallocInit L = h := by
  have := L.task0_lt_heapStart
  rw [Kmalloc.kmallocInit, hr.base, if_neg (by omega)]

/-- `heap_ptr` is a header, and the address behind its block is the top of the heap. -/
theorem Kmalloc.Represents.after_heapPtr (hr : h.Represents L H) :
    h.after h.heapPtr = H.top L ∧
      h.heapPtr ∈ headersFrom L.heapStart (heapBaseBlock :: H.blocks) := by
  have hmax := L.heapEnd_le
  have hle : H.top L ≤ L.heapEnd := hr.inArena
  obtain ⟨pre, b, hsplit⟩ : ∃ pre b, heapBaseBlock :: H.blocks = pre ++ [b] := by
    obtain hnil | ⟨pre, b, h⟩ := List.eq_nil_or_concat (heapBaseBlock :: H.blocks)
    · exact absurd hnil (List.cons_ne_nil _ _)
    · exact ⟨pre, b, h.trans List.concat_eq_append⟩
  have hbs := hr.blocks
  rw [hsplit] at hbs
  have hptr : h.heapPtr = blocksEnd L.heapStart pre := by
    rw [hbs.ptr, List.dropLast_concat]
  have htop : b.endAt (blocksEnd L.heapStart pre) = H.top L := by
    rw [← blocksEnd_heapBase, hsplit, blocksEnd_append]
    rfl
  rw [hptr, hbs.headerAt.after_eq (by omega), htop, hsplit, headersFrom_append]
  exact ⟨rfl, List.mem_append_right _ List.mem_cons_self⟩

/-- `find_free_block`, called by `kmalloc`. -/
theorem Kmalloc.Represents.findFreeBlock (hr : h.Represents L H)
    (hstop : h.StopsAt L (H.top L)) (size : ℕ) :
    ∃ walked, h.findFreeBlock L size walkFuel h.heapBase =
        some ((takeFreeBlock size L.firstBlock H.blocks).elim 0 fun r => r.1 - kmallocMetadataSize,
          walked) ∧ ∀ x ∈ walked, H.Reads L x := by
  have hfind := hr.blocks.tiles.findFreeBlock (L := L) (by exact hr.inArena) hstop hr.length_lt size
  have hbase : takeFreeBlock size L.heapStart (heapBaseBlock :: H.blocks) =
      (takeFreeBlock size L.firstBlock H.blocks).map fun r => (r.1, heapBaseBlock :: r.2) := by
    rw [takeFreeBlock, if_neg (by simp [heapBaseBlock])]
    rfl
  obtain ⟨walked, hfind, hwalked⟩ := hfind
  refine ⟨walked, ?_, hwalked⟩
  rw [hr.base, hfind, hbase]
  cases takeFreeBlock size L.firstBlock H.blocks <;> rfl

/-- `kmalloc` on bytes, when a free block is taken. -/
theorem Kmalloc.Represents.kmalloc_of_take (hr : h.Represents L H)
    (hstop : h.StopsAt L (H.top L)) (hsize : size ≠ 0) {r : ℕ × List Block}
    (htake : takeFreeBlock size L.firstBlock H.blocks = some r) :
    ∃ c, h.kmalloc L size = some c ∧ c.ptr = r.1 ∧ c.heap.Represents L ⟨r.2⟩ ∧
      (∀ x ∈ c.headers, H.Reads L x) ∧ Set.EqOn c.heap.mem h.mem (H.headerBytes L)ᶜ := by
  have hmax := L.heapEnd_le
  have hle : H.top L ≤ L.heapEnd := hr.inArena
  have happart := kmalloc_noAdjacentFree (L := L) hr.apart size
  obtain ⟨walked, hfind, hwalked⟩ := hr.findFreeBlock hstop size
  rw [ChalesOs.kmalloc_of_take hsize htake] at happart
  have hend := (takeFreeBlock_spec htake).2
  rw [htake, Option.elim_some] at hfind
  obtain ⟨pre, b, post, hblocks, rfl, -⟩ := takeFreeBlock_split htake
  have hpre : blocksEnd L.firstBlock pre = blocksEnd L.heapStart (heapBaseBlock :: pre) := rfl
  have hstart := length_le_blocksEnd L.heapStart (heapBaseBlock :: pre)
  have hA : blocksEnd L.firstBlock pre + kmallocMetadataSize ≤ H.top L := by
    rw [KernelHeap.top, hblocks, blocksEnd_append, blocksEnd_cons]
    exact (b.lt_endAt _).trans (le_blocksEnd post _)
  have hbs := hr.blocks
  rw [hblocks, ← List.cons_append] at hbs
  -- the only store is the one to the flag of the block that is taken
  have hmem : Set.EqOn (h.setIsFree (blocksEnd L.firstBlock pre) 0).mem h.mem
      (H.headerBytes L)ᶜ := by
    refine (eqOn_setIsFree _).mono (Set.compl_subset_compl.mpr ?_)
    rw [KernelHeap.headerBytes, hblocks, ← List.cons_append, hpre]
    exact Ico_subset_headerBytes
  rw [Kmalloc.kmalloc, if_neg hsize, hr.kmallocInit_eq]
  dsimp only
  rw [hfind, Option.map_some]
  dsimp only
  rw [List.length_cons, Nat.mul_succ, kmallocMetadataSize] at hstart
  rw [kmallocMetadataSize] at hA
  rw [Nat.add_sub_cancel, if_neg (by omega)]
  refine ⟨_, rfl, ?_, ⟨hr.base, hbs.setIsFree false, hend.trans_le hle, fun x hx hx' => ?_,
    happart⟩, hwalked, hmem⟩
  · exact Nat.mod_eq_of_lt (by rw [kmallocMetadataSize]; omega)
  · have hx : H.top L ≤ x := hend.symm.trans_le hx
    exact (hmem fun hin => (H.headerBytes_subset L hin).2.not_ge hx).trans (hr.clear x hx hx')

/-- `kmalloc` on bytes, when there is no free block and no room. -/
theorem Kmalloc.Represents.kmalloc_of_full (hr : h.Represents L H)
    (hstop : h.StopsAt L (H.top L)) (hsize : size ≠ 0)
    (htake : takeFreeBlock size L.firstBlock H.blocks = none)
    (hfull : L.heapEnd < u32 (H.top L + kmallocMetadataSize + size)) :
    ∃ c, h.kmalloc L size = some c ∧ c.ptr = 0 ∧ c.heap = h ∧ ∀ x ∈ c.headers, H.Reads L x := by
  obtain ⟨walked, hfind, hwalked⟩ := hr.findFreeBlock hstop size
  obtain ⟨htop, hptr⟩ := hr.after_heapPtr
  rw [htake, Option.elim_none] at hfind
  rw [Kmalloc.kmalloc, if_neg hsize, hr.kmallocInit_eq]
  dsimp only
  rw [hfind, Option.map_some]
  dsimp only
  rw [if_pos rfl, Kmalloc.expandHeap]
  dsimp only
  rw [htop, if_pos hfull, if_pos rfl]
  refine ⟨_, rfl, rfl, rfl, fun x hx => ?_⟩
  rcases List.mem_append.mp hx with hx | hx
  · exact hwalked x hx
  · rw [List.mem_singleton.mp hx]
    exact Or.inl hptr

/-- `kmalloc` on bytes, when a block is added behind the last one. -/
theorem Kmalloc.Represents.kmalloc_of_expand (hr : h.Represents L H)
    (hstop : h.StopsAt L (H.top L)) (hsize : size ≠ 0)
    (htake : takeFreeBlock size L.firstBlock H.blocks = none)
    (hroom : H.top L + kmallocMetadataSize + size ≤ L.heapEnd) :
    ∃ c, h.kmalloc L size = some c ∧ c.ptr = H.top L + kmallocMetadataSize ∧
      c.heap.Represents L ⟨H.blocks ++ [⟨size, false⟩]⟩ ∧ (∀ x ∈ c.headers, H.Reads L x) ∧
      Set.EqOn c.heap.mem h.mem (Set.Ico (H.top L) (H.top L + kmallocMetadataSize))ᶜ := by
  have hmax := L.heapEnd_le
  have hstart := length_le_blocksEnd L.heapStart (heapBaseBlock :: H.blocks)
  have happart := kmalloc_noAdjacentFree (L := L) hr.apart size
  obtain ⟨walked, hfind, hwalked⟩ := hr.findFreeBlock hstop size
  obtain ⟨htop, hptr⟩ := hr.after_heapPtr
  rw [blocksEnd_heapBase, List.length_cons, Nat.mul_succ, kmallocMetadataSize] at hstart
  have hnew := headerAt_new h (H.top L) (by omega : size < 0x100000000)
  have hmem := eqOn_new h (H.top L) size
  rw [ChalesOs.kmalloc_of_expand hsize htake,
    Nat.mod_eq_of_lt (by omega : H.top L + kmallocMetadataSize + size < 0x100000000),
    if_neg (by omega)] at happart
  rw [htake, Option.elim_none] at hfind
  rw [Kmalloc.kmalloc, if_neg hsize, hr.kmallocInit_eq]
  dsimp only
  rw [hfind, Option.map_some]
  dsimp only
  -- none of the sums wraps, because the new block ends in the arena
  have hexpand : h.expandHeap L size = ⟨H.top L,
      { (((h.setSize (H.top L) size).setMagic (H.top L) kmallocMagic).setIsFree (H.top L) 0) with
        heapPtr := H.top L }, [h.heapPtr, H.top L]⟩ := by
    rw [Kmalloc.expandHeap, htop, u32, Nat.mod_eq_of_lt (by omega)]
    exact if_neg (by omega)
  rw [if_pos rfl, hexpand, if_neg (by dsimp only; omega)]
  have hblocks : heapBaseBlock :: (H.blocks ++ [⟨size, false⟩]) =
      heapBaseBlock :: H.blocks ++ [⟨size, false⟩] := rfl
  refine ⟨_, rfl, Nat.mod_eq_of_lt (by dsimp only; rw [kmallocMetadataSize]; omega),
    ⟨hr.base, ⟨?_, ?_⟩, ?_, fun x hx hx' => ?_, happart⟩, fun x hx => ?_, hmem⟩
  · rw [hblocks, tiles_append]
    refine ⟨?_, hnew.congr fun _ _ _ => rfl, trivial⟩
    have htiles : (((h.setSize (H.top L) size).setMagic (H.top L) kmallocMagic).setIsFree
        (H.top L) 0).Tiles L.heapStart (heapBaseBlock :: H.blocks) :=
      hr.blocks.tiles.congr (hmem.mono fun x hx => ?_)
    · exact htiles.congr fun _ _ => rfl
    rw [blocksEnd_heapBase, Set.mem_Ico] at hx
    simp only [Set.mem_compl_iff, Set.mem_Ico]
    omega
  · rw [hblocks, List.dropLast_concat]
    rfl
  · show blocksEnd L.firstBlock (H.blocks ++ [⟨size, false⟩]) ≤ L.heapEnd
    rw [blocksEnd_append]
    exact hroom
  · have hx : H.top L + kmallocMetadataSize + size ≤ x := by
      rw [KernelHeap.top, blocksEnd_append] at hx
      exact hx
    refine (hmem ?_).trans (hr.clear x (by omega) hx')
    simp only [Set.mem_compl_iff, Set.mem_Ico]
    omega
  · -- beside the walk, `expand_heap` looks at the last header and writes the new one
    rcases List.mem_append.mp hx with hx | hx
    · exact hwalked x hx
    · rcases List.mem_cons.mp hx with rfl | hx
      · exact Or.inl hptr
      · rw [List.mem_singleton.mp hx]
        exact Or.inr ⟨rfl, by omega⟩

/-! ### What is outside the headers -/

/-- Tiles depend on the bytes of the headers. -/
theorem Kmalloc.Tiles.congr_headers (ht : h.Tiles a bs)
    (hmem : ∀ x ∈ headersFrom a bs, ∀ y, x ≤ y → y < x + kmallocMetadataSize →
      h'.mem y = h.mem y) : h'.Tiles a bs := by
  induction bs generalizing a with
  | nil => trivial
  | cons b bs ih =>
    exact ⟨ht.1.congr (hmem a List.mem_cons_self),
      ih ht.2 fun x hx => hmem x (List.mem_cons_of_mem _ hx)⟩

/-- The header of a listed block. -/
theorem Kmalloc.Tiles.headerAt (ht : h.Tiles a bs) (hx : x ∈ headersFrom a bs) :
    ∃ b ∈ bs, h.HeaderAt x b ∧ b.endAt x ≤ blocksEnd a bs := by
  induction bs generalizing a with
  | nil => simp [headersFrom] at hx
  | cons b bs ih =>
    rw [blocksEnd_cons]
    rcases List.mem_cons.mp hx with rfl | hx
    · exact ⟨b, List.mem_cons_self, ht.1, le_blocksEnd _ _⟩
    · obtain ⟨c, hc, hhead, hend⟩ := ih ht.2 hx
      exact ⟨c, List.mem_cons_of_mem _ hc, hhead, hend⟩

/-- The header in front of an allocation. -/
theorem Kmalloc.Tiles.headerAt_alloc (ht : h.Tiles a bs) (hp : (p, n) ∈ allocsFrom a bs) :
    p - kmallocMetadataSize ∈ headersFrom a bs ∧
      h.HeaderAt (p - kmallocMetadataSize) ⟨n, false⟩ := by
  obtain ⟨pre, b, post, rfl, rfl, rfl, hb⟩ := exists_split_of_mem_allocsFrom hp
  rw [Nat.add_sub_cancel, headersFrom_append]
  obtain ⟨h₁, h₂, h₃⟩ := (tiles_append.mp ht).2.1
  exact ⟨List.mem_append_right _ List.mem_cons_self, h₁, h₂, by rw [h₃, hb]⟩

/-- The headers of tiles are those the walk goes through, in its order, and neighbours are
related as their blocks are. -/
theorem Kmalloc.Tiles.isChain {R : Block → Block → Prop} (ht : h.Tiles a bs) (hR : bs.IsChain R)
    (hle : blocksEnd a bs < 0x100000000) :
    (headersFrom a bs).IsChain fun x y =>
      h.after x = y ∧ ∃ b c, h.HeaderAt x b ∧ h.HeaderAt y c ∧ R b c := by
  induction bs generalizing a with
  | nil => exact List.isChain_nil
  | cons b bs ih =>
    have hend := le_blocksEnd bs (b.endAt a)
    rw [blocksEnd_cons] at hle
    have htail := ih ht.2 (List.isChain_cons.mp hR).2 hle
    cases bs with
    | nil => exact List.isChain_singleton _
    | cons c bs =>
      refine List.isChain_cons_cons.mpr ⟨⟨ht.1.after_eq (by omega), b, c, ht.1, ht.2.1, ?_⟩, htail⟩
      exact (List.isChain_cons_cons.mp hR).1

/-- The last header. -/
theorem getLast?_headersFrom (hne : bs ≠ []) :
    (headersFrom a bs).getLast? = some (blocksEnd a bs.dropLast) := by
  obtain hnil | ⟨pre, b, rfl⟩ := List.eq_nil_or_concat bs
  · exact absurd hnil hne
  · rw [List.concat_eq_append, headersFrom_append, List.dropLast_concat]
    exact List.getLast?_concat

/-- The bytes a client may write: those outside the arena and those of allocations. -/
def KernelHeap.MayWrite (L : Layout) (H : KernelHeap) (x : ℕ) : Prop :=
  x < L.heapStart ∨ L.heapEnd ≤ x ∨ ∃ p n, (p, n) ∈ H.allocs L ∧ p ≤ x ∧ x < p + n

/-- Writes of clients leave the heap alone. -/
theorem Kmalloc.Represents.congr (hr : h.Represents L H) (hbase : h'.heapBase = h.heapBase)
    (hptr : h'.heapPtr = h.heapPtr) (hmem : ∀ x, ¬H.MayWrite L x → h'.mem x = h.mem x) :
    h'.Represents L H := by
  have hle : H.top L ≤ L.heapEnd := hr.inArena
  refine ⟨hbase.trans hr.base, ⟨?_, hptr.trans hr.blocks.ptr⟩, hr.inArena, fun x hx hx' => ?_,
    hr.apart⟩
  · refine hr.blocks.tiles.congr_headers fun x hx y hxy hyx => hmem y ?_
    have hmem := mem_headersFrom hx
    rw [blocksEnd_heapBase] at hmem
    rintro (hy | hy | ⟨p, n, hp, hy⟩)
    · omega
    · omega
    · have hlive : (p, n) ∈ allocsFrom L.heapStart (heapBaseBlock :: H.blocks) :=
        List.mem_cons_of_mem _ hp
      have := headersFrom_apart hlive hx
      omega
  · refine (hmem x ?_).trans (hr.clear x hx hx')
    have hstart : L.firstBlock ≤ H.top L := le_blocksEnd _ _
    rw [Layout.firstBlock] at hstart
    rintro (hy | hy | ⟨p, n, hp, hy⟩)
    · omega
    · omega
    · have : p + n ≤ H.top L := (mem_allocsFrom hp).2
      omega

/-! ### Allocation, in one statement -/

/-- What a successful `kmalloc` of `size` bytes makes of the heap `H`: one more allocation, and the
blocks end where they did, if one of them was free and large enough, or behind the new one. -/
structure Kmalloc.Allocated (L : Layout) (h : Kmalloc) (H : KernelHeap) (size : ℕ) (e : HeapCall)
    (H' : KernelHeap) : Prop where
  represents : e.heap.Represents L H'
  allocs : ∃ n, size ≤ n ∧ (H'.allocs L).Perm ((e.ptr, n) :: H.allocs L)
  top : H'.top L = H.top L ∨ (∀ b ∈ H.blocks, b.isFree = true → b.size < size) ∧
    H.top L + kmallocMetadataSize + size ≤ L.heapEnd ∧
    H'.top L = H.top L + kmallocMetadataSize + size
  frame : ∀ x, H'.top L ≤ x → e.heap.mem x = h.mem x
  payload : ∀ p n, (p, n) ∈ H.allocs L → ∀ x, p ≤ x ∧ x < p + n → e.heap.mem x = h.mem x

/-- **`kmalloc` on bytes.** When the sum in `expand_heap` does not wrap to an address in front of
`_heap_end`, a request ends; it fails and changes nothing, or adds an allocation. -/
theorem Kmalloc.Represents.kmalloc (hr : h.Represents L H) (hstop : h.StopsAt L (H.top L))
    (hsize : size ≠ 0)
    (hfits : (∀ b ∈ H.blocks, b.isFree = true → b.size < size) →
      L.heapEnd < u32 (H.top L + kmallocMetadataSize + size) ∨
        H.top L + kmallocMetadataSize + size ≤ L.heapEnd) :
    ∃ e, h.kmalloc L size = some e ∧ (∀ x ∈ e.headers, H.Reads L x) ∧
      (e.ptr = 0 ∧ e.heap = h ∨ ∃ H', h.Allocated L H size e H') := by
  cases htake : takeFreeBlock size L.firstBlock H.blocks with
  | some r =>
    obtain ⟨e, hcall, hptr, hrep, hheaders, hmem⟩ := hr.kmalloc_of_take hstop hsize htake
    obtain ⟨n, hn, hperm⟩ := kmalloc_allocs (ChalesOs.kmalloc_of_take (L := L) hsize htake)
    have hend : KernelHeap.top L ⟨r.2⟩ = H.top L := (takeFreeBlock_spec htake).2
    refine ⟨e, hcall, hheaders, Or.inr ⟨⟨r.2⟩, hrep, ⟨n, hn, hptr ▸ hperm⟩, Or.inl hend,
      fun x hx => hmem ?_, fun p n hp x hx => hmem (KernelHeap.not_mem_headerBytes hp hx)⟩⟩
    rw [hend] at hx
    exact fun hin => (H.headerBytes_subset L hin).2.not_ge hx
  | none =>
    have hnone := takeFreeBlock_eq_none.mp htake
    -- no free block is large enough: the heap is extended, or full
    rcases hfits hnone with hfull | hroom
    · obtain ⟨e, hcall, hptr, hheap, hheaders⟩ := hr.kmalloc_of_full hstop hsize htake hfull
      exact ⟨e, hcall, hheaders, Or.inl ⟨hptr, hheap⟩⟩
    · have hmax := L.heapEnd_le
      obtain ⟨e, hcall, hptr, hrep, hheaders, hmem⟩ :=
        hr.kmalloc_of_expand hstop hsize htake hroom
      have hexpand := ChalesOs.kmalloc_of_expand hsize htake
      rw [Nat.mod_eq_of_lt (by omega), if_neg (by omega)] at hexpand
      obtain ⟨n, hn, hperm⟩ := kmalloc_allocs hexpand
      have hend : KernelHeap.top L ⟨H.blocks ++ [⟨size, false⟩]⟩ =
          H.top L + kmallocMetadataSize + size := by
        rw [KernelHeap.top, blocksEnd_append]
        rfl
      refine ⟨e, hcall, hheaders, Or.inr ⟨_, hrep, ⟨n, hn, hptr ▸ hperm⟩,
        Or.inr ⟨hnone, hroom, hend⟩, fun x hx => hmem ?_, fun p n hp x hx => hmem ?_⟩⟩
      · rw [hend] at hx
        simp only [Set.mem_compl_iff, Set.mem_Ico]
        omega
      · have hbelow : p + n ≤ H.top L := (mem_allocsFrom hp).2
        simp only [Set.mem_compl_iff, Set.mem_Ico]
        omega

end ChalesOs
