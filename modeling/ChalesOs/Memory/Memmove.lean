import ChalesOs.Lib.ArrayLoops
import ChalesOs.Memory.Words

/-!
# `memmove`

`memmove.c` copies byte by byte, from the front when the destination lies below the source and from
the end otherwise, so that no byte is overwritten before it has been read. `memmove_eq` says that
the result is the copy of a snapshot, as long as neither range runs over the end of the address
space.
-/

namespace ChalesOs

open ByteMemory

/-- `dst[i] = src[i]`. -/
def memmoveByte (dst src i : ℕ) (mem : Mem) : Option Mem :=
  some (Function.update mem (u32 (dst + i)) (mem (u32 (src + i))))

/-- `memmove(dst, src, size)`: the result, and the memory. -/
def memmove (dst src size : ℕ) (mem : Mem) : Option (ℕ × Mem) :=
  (if dst < src then forRange size (memmoveByte dst src) mem
  else forDown size (memmoveByte dst src) mem).map fun mem => (dst, mem)

variable {dst src size : ℕ} {mem : Mem}

/-- Inside of the address space a byte is read and written at its own address. -/
theorem memmoveByte_eq (hdst : dst + size ≤ 0x100000000) (hsrc : src + size ≤ 0x100000000) (i : ℕ)
    (hi : i < size) (mem : Mem) :
    memmoveByte dst src i mem = some (Function.update mem (dst + i) (mem (src + i))) := by
  rw [memmoveByte, u32_of_lt (by omega), u32_of_lt (by omega)]

/-- Whatever the overlap, the bytes moved are the ones that were there before. -/
theorem memmove_eq (hdst : dst + size ≤ 0x100000000) (hsrc : src + size ≤ 0x100000000) :
    memmove dst src size mem = some (dst, copy mem dst mem src size) := by
  have hbyte := memmoveByte_eq hdst hsrc
  rw [memmove]
  split_ifs with hlt
  · rw [forRange_copy hlt.le hbyte, Option.map_some]
  · rw [forDown_copy (not_lt.mp hlt) hbyte, Option.map_some]

/-- **`memmove`.** The destination holds the bytes of the source as they were before the call, and
no other byte changes. -/
theorem memmove_moves (hdst : dst + size ≤ 0x100000000) (hsrc : src + size ≤ 0x100000000) :
    ∃ mem', memmove dst src size mem = some (dst, mem') ∧
      (∀ i, i < size → mem' (dst + i) = mem (src + i)) ∧
      ∀ a, ¬(dst ≤ a ∧ a < dst + size) → mem' a = mem a := by
  refine ⟨_, memmove_eq hdst hsrc, fun i hi => ?_, fun a ha => copy_of_not_mem ha⟩
  rw [copy_of_mem (by omega), Nat.add_sub_cancel_left]

/-- Five bytes, moved up by two over their own end. -/
theorem memmove_moves_sample :
    ∃ mem', memmove 3 1 5 UInt8.ofNat = some (3, mem') ∧
      (∀ i, i < 5 → mem' (3 + i) = UInt8.ofNat (1 + i)) ∧
      ∀ a, ¬(3 ≤ a ∧ a < 3 + 5) → mem' a = UInt8.ofNat a :=
  memmove_moves (by decide) (by decide)

end ChalesOs
