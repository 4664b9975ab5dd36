import Mathlib.Tactic.Common

/-!
# The linked kernel image

The kernel's symbols are fixed by the linker script, not by the C code, so everything that
depends on them takes a `Layout`: the addresses the script assigns, together with the order
and the sizes it gives them. The initial task `task0` is a static object in `.bss`, in front
of the kernel heap.

The constants below 4 MiB that the C code fixes itself (the user stack region of ELF programs,
the limit of the identity map) are plain definitions.
-/

namespace ChalesOs

/-- `EXEC_STACK_TOP`: the end of the user stack region of ELF programs. -/
def execStackTop : ℕ := 0x2FF000

/-- `EXEC_STACK_SIZE`. -/
def execStackSize : ℕ := 0x4000

/-- The lowest address of the user stack region, `EXEC_STACK_TOP - EXEC_STACK_SIZE`. -/
def execStackBase : ℕ := execStackTop - execStackSize

/-- `ELF_LOAD_LIMIT`: everything below 4 MiB is identity-mapped, nothing else is mapped. -/
def elfLoadLimit : ℕ := 0x400000

/-- The symbols of the linker script, with the order and sizes the script gives them. -/
structure Layout where
  kernelStart : ℕ
  userStart : ℕ
  userEnd : ℕ
  /-- The address of the static `task0`. -/
  task0 : ℕ
  /-- `stack_bottom`, the kernel stack of the initial task. -/
  stackBottom : ℕ
  heapStart : ℕ
  heapEnd : ℕ
  userHeapStart : ℕ
  userHeapEnd : ℕ
  kernelEnd : ℕ
  kernelStart_eq : kernelStart = 0x100000
  kernelStart_le_userStart : kernelStart ≤ userStart
  userStart_le_userEnd : userStart ≤ userEnd
  userEnd_le_task0 : userEnd ≤ task0
  task0_lt_heapStart : task0 < heapStart
  heapEnd_eq : heapEnd = heapStart + 0x10000
  heapEnd_le_userHeapStart : heapEnd ≤ userHeapStart
  userHeapEnd_eq : userHeapEnd = userHeapStart + 0x20000
  userHeapEnd_le_kernelEnd : userHeapEnd ≤ kernelEnd
  kernelEnd_le : kernelEnd ≤ 0xFFFFFFFF

/-- The bytes of the kernel's own image, `[_kernel_start, _kernel_end)`. -/
def Layout.InKernel (L : Layout) (a : ℕ) : Prop := L.kernelStart ≤ a ∧ a < L.kernelEnd

/-- The bytes of the user heap, `[_user_heap_start, _user_heap_end)`. -/
def Layout.InUserHeap (L : Layout) (a : ℕ) : Prop := L.userHeapStart ≤ a ∧ a < L.userHeapEnd

/-- The bytes of the user stack region, `[EXEC_STACK_TOP - EXEC_STACK_SIZE, EXEC_STACK_TOP)`. -/
def InUserStack (a : ℕ) : Prop := execStackBase ≤ a ∧ a < execStackTop

/-- The arena of the kernel heap is followed by the user heap, which has 128 KiB. -/
theorem Layout.heapEnd_le (L : Layout) : L.heapEnd + 0x20000 < 0x100000000 := by
  have h₁ := L.heapEnd_le_userHeapStart
  have h₂ := L.userHeapEnd_eq
  have h₃ := L.userHeapEnd_le_kernelEnd
  have h₄ := L.kernelEnd_le
  omega

/-- One layout the linker script allows, with room for the two pools of `.bss`: an instance to
evaluate the model on. -/
def Layout.sample : Layout where
  kernelStart := 0x100000
  userStart := 0x130000
  userEnd := 0x132000
  task0 := 0x132100
  stackBottom := 0x2B4000
  heapStart := 0x280000
  heapEnd := 0x290000
  userHeapStart := 0x290000
  userHeapEnd := 0x2B0000
  kernelEnd := 0x2B9000
  kernelStart_eq := rfl
  kernelStart_le_userStart := by decide
  userStart_le_userEnd := by decide
  userEnd_le_task0 := by decide
  task0_lt_heapStart := by decide
  heapEnd_eq := rfl
  heapEnd_le_userHeapStart := by decide
  userHeapEnd_eq := rfl
  userHeapEnd_le_kernelEnd := by decide
  kernelEnd_le := by decide

end ChalesOs
