import ChalesOs.Lib.ByteMemory

/-!
# Bytes, words and C strings

The few data formats all parts of the kernel share. Addresses and `uint32_t` values are natural
numbers; `u32` marks the places where a sum can wrap.
-/

namespace ChalesOs

open ByteMemory

/-- Byte-addressed memory. -/
abbrev Mem : Type := ℕ → UInt8

/-- A C string: the bytes in front of its `NUL`. -/
abbrev CString : Type := List UInt8

/-- Arithmetic modulo `2 ^ 32`. -/
def u32 (n : ℕ) : ℕ := n % 0x100000000

/-- `(v + 15) & ~15u`. -/
def align16 (v : ℕ) : ℕ := (v + 15) / 16 * 16

/-- A 16-bit number in little-endian order. -/
def leHalf (v : ℕ) : List UInt8 := [UInt8.ofNat v, UInt8.ofNat (v / 0x100)]

/-- A 32-bit number in little-endian order. -/
def leWord (v : ℕ) : List UInt8 := leHalf v ++ leHalf (v / 0x10000)

/-- The 32-bit little-endian number at the address `a`. -/
def loadWord (m : Mem) (a : ℕ) : ℕ :=
  (m a).toNat + 0x100 * (m (a + 1)).toNat + 0x10000 * (m (a + 2)).toNat +
    0x1000000 * (m (a + 3)).toNat

/-- The memory with the 32-bit number `v` stored at the address `a`. -/
def storeWord (m : Mem) (a v : ℕ) : Mem := write m a (leWord v)

@[simp]
theorem length_leWord (v : ℕ) : (leWord v).length = 4 := rfl

/-- A property of all bytes can be checked byte by byte. -/
theorem forall_byte {p : UInt8 → Prop} (h : ∀ n < 256, p (UInt8.ofNat n)) (c : UInt8) : p c :=
  c.ofNat_toNat ▸ h c.toNat c.toNat_lt

/-- The `int` a word stands for. -/
theorem toInt_toInt32 {w : UInt32} : w.toInt32.toInt =
    if w.toNat < 0x80000000 then (w.toNat : ℤ) else w.toNat - 0x100000000 := by
  have hbits : w.toInt32.toInt = w.toBitVec.toInt := rfl
  rw [hbits, BitVec.toInt_eq_toNat_cond, UInt32.toNat_toBitVec]
  split_ifs <;> omega

theorem u32_le (n : ℕ) : u32 n ≤ n := Nat.mod_le n _

theorem u32_of_lt {n : ℕ} (h : n < 0x100000000) : u32 n = n := Nat.mod_eq_of_lt h

variable {m m' : Mem} {a b v : ℕ}

/-- A word in memory is a 32-bit number. -/
theorem loadWord_lt (m : Mem) (a : ℕ) : loadWord m a < 0x100000000 := by
  have h₀ := (m a).toNat_lt
  have h₁ := (m (a + 1)).toNat_lt
  have h₂ := (m (a + 2)).toNat_lt
  have h₃ := (m (a + 3)).toNat_lt
  rw [loadWord]
  omega

/-- The first byte of a word that is 0. -/
theorem eq_zero_of_loadWord (h : loadWord m a = 0) : m a = 0 := by
  rw [loadWord] at h
  exact UInt8.toNat_inj.mp (by omega : (m a).toNat = 0)

/-- A word depends on its four bytes. -/
theorem loadWord_congr (h : ∀ k < 4, m' (a + k) = m (a + k)) : loadWord m' a = loadWord m a := by
  rw [loadWord, loadWord, h 1 (by omega), h 2 (by omega), h 3 (by omega)]
  rw [show m' a = m a from h 0 (by omega)]

/-- What has been stored can be loaded. -/
@[simp]
theorem loadWord_storeWord_self : loadWord (storeWord m a v) a = u32 v := by
  have hbyte : ∀ k, k < 4 → storeWord m a v (a + k) = (leWord v)[k]?.getD 0 := fun k hk => by
    rw [storeWord, write, if_pos (Nat.le_add_right _ _), Nat.add_sub_cancel_left,
      List.getElem?_eq_getElem (by simpa using hk), Option.getD_some, Option.getD_some]
  rw [loadWord, hbyte 1 (by omega), hbyte 2 (by omega), hbyte 3 (by omega),
    show storeWord m a v a = _ from hbyte 0 (by omega)]
  simp only [leWord, leHalf, u32, List.cons_append, List.nil_append, List.getElem?_cons_zero,
    List.getElem?_cons_succ, Option.getD_some, UInt8.toNat_ofNat']
  omega

/-- A store changes its four bytes only. -/
theorem eqOn_storeWord : Set.EqOn (storeWord m a v) m (Set.Ico a (a + 4))ᶜ := eqOn_write

/-- A store leaves the words apart from it alone. -/
theorem loadWord_storeWord_of_apart (h : b + 4 ≤ a ∨ a + 4 ≤ b) :
    loadWord (storeWord m a v) b = loadWord m b :=
  loadWord_congr fun k hk => eqOn_storeWord <| by
    simp only [Set.mem_compl_iff, Set.mem_Ico]
    omega

theorem le_align16 (v : ℕ) : v ≤ align16 v := by
  rw [align16]
  omega

end ChalesOs
