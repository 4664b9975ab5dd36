import Mathlib.Data.Set.Function
import Mathlib.Logic.Function.Basic
import ChalesOs.Memory.Strings

/-!
# Registers and the stack

The instructions of `sched_switch` on the registers it names. `pushRegs` and `popRegs` are the
rules for a row of `pushl` and for a row of `popl`.
-/

namespace ChalesOs

open ByteMemory

/-- The general registers of `sched_switch`. -/
inductive Reg
  | eax
  | ebx
  | edx
  | esi
  | edi
  | ebp
  | esp
  deriving DecidableEq

/-- The processor and the memory. -/
structure Cpu where
  regs : Reg → UInt32
  /-- Where the processor goes on; inside a piece of code only `ret` sets it. -/
  eip : UInt32
  mem : Mem

/-- The stack pointer, as an address. -/
def Cpu.sp (c : Cpu) : ℕ := (c.regs .esp).toNat

/-- The word at the address `a`. -/
def Cpu.word (c : Cpu) (a : UInt32) : UInt32 := UInt32.ofNat (loadWord c.mem a.toNat)

def Cpu.setReg (c : Cpu) (r : Reg) (v : UInt32) : Cpu :=
  { c with regs := Function.update c.regs r v }

def Cpu.setWord (c : Cpu) (a v : UInt32) : Cpu :=
  { c with mem := storeWord c.mem a.toNat v.toNat }

/-- The instructions of `sched_switch`. -/
inductive Instr
  /-- `movl disp(%base), %dst` -/
  | load (disp : UInt32) (base dst : Reg)
  /-- `movl %src, (%base)` -/
  | store (src base : Reg)
  | push (r : Reg)
  | pop (r : Reg)
  | ret

/-- One instruction. -/
def Instr.run : Instr → Cpu → Cpu
  | .load disp base dst, c => c.setReg dst (c.word (c.regs base + disp))
  | .store src base, c => c.setWord (c.regs base) (c.regs src)
  | .push r, c => (c.setReg .esp (c.regs .esp - 4)).setWord (c.regs .esp - 4) (c.regs r)
  | .pop r, c => (c.setReg .esp (c.regs .esp + 4)).setReg r (c.word (c.regs .esp))
  | .ret, c => { c.setReg .esp (c.regs .esp + 4) with eip := c.word (c.regs .esp) }

/-- A piece of code without jumps. -/
def runCode (code : List Instr) (c : Cpu) : Cpu := code.foldl (fun c i => i.run c) c

@[simp]
theorem runCode_nil (c : Cpu) : runCode [] c = c := rfl

@[simp]
theorem runCode_cons (i : Instr) (code : List Instr) (c : Cpu) :
    runCode (i :: code) c = runCode code (i.run c) := rfl

theorem runCode_append (code code' : List Instr) (c : Cpu) :
    runCode (code ++ code') c = runCode code' (runCode code c) :=
  List.foldl_append

variable {c : Cpu} {r : Reg} {v : UInt32}

@[simp] theorem Cpu.setReg_mem : (c.setReg r v).mem = c.mem := rfl

@[simp] theorem Cpu.setReg_self : (c.setReg r v).regs r = v := Function.update_self ..

theorem Cpu.setReg_of_ne {r' : Reg} (h : r' ≠ r) : (c.setReg r v).regs r' = c.regs r' :=
  Function.update_of_ne h ..

theorem Cpu.toNat_word (c : Cpu) (a : UInt32) : (c.word a).toNat = loadWord c.mem a.toNat :=
  UInt32.toNat_ofNat_of_lt (loadWord_lt c.mem _)

/-! ### `pushl` and `popl` -/

theorem toNat_sub_four {a : UInt32} (h : 4 ≤ a.toNat) : (a - 4).toNat = a.toNat - 4 :=
  UInt32.toNat_sub_of_le a 4 (UInt32.le_iff_toNat_le.mpr h)

theorem toNat_add_four {a : UInt32} (h : a.toNat + 4 < 0x100000000) :
    (a + 4).toNat = a.toNat + 4 := by
  rw [UInt32.toNat_add]
  exact Nat.mod_eq_of_lt h

theorem Cpu.sp_ret (h : c.sp + 4 < 0x100000000) : (Instr.ret.run c).sp = c.sp + 4 := by
  have hesp : (Instr.ret.run c).regs .esp = c.regs .esp + 4 := by simp [Instr.run]
  rw [Cpu.sp, hesp]
  exact toNat_add_four h

theorem Cpu.eip_ret : (Instr.ret.run c).eip.toNat = loadWord c.mem c.sp := c.toNat_word _

theorem Cpu.regs_ret (h : r ≠ .esp) : (Instr.ret.run c).regs r = c.regs r :=
  Cpu.setReg_of_ne h

/-- The state `c'` after the registers `rs` have been pushed in the state `c`. -/
structure Pushed (rs : List Reg) (c c' : Cpu) : Prop where
  sp : c'.sp + 4 * rs.length = c.sp
  regs : ∀ r, r ≠ .esp → c'.regs r = c.regs r
  mem : Set.EqOn c'.mem c.mem (Set.Ico c'.sp c.sp)ᶜ
  words : WordsAt c'.mem c'.sp (rs.reverse.map fun r => (c.regs r).toNat)

/-- A row of `pushl`. -/
theorem pushRegs {rs : List Reg} (hrs : .esp ∉ rs) (hsp : 4 * rs.length ≤ c.sp) :
    Pushed rs c (runCode (rs.map .push) c) := by
  induction rs generalizing c with
  | nil => exact ⟨rfl, fun _ _ => rfl, fun _ _ => rfl, trivial⟩
  | cons r rs ih =>
    obtain ⟨hr, hrs⟩ := not_or.mp (mt List.mem_cons.mpr hrs)
    rw [List.length_cons] at hsp
    rw [List.map_cons, runCode_cons]
    set c₁ := (Instr.push r).run c with hc₁
    have hsp₁ : c₁.sp + 4 = c.sp := by
      have : c₁.sp = c.sp - 4 := toNat_sub_four (a := c.regs .esp) (by rw [Cpu.sp] at hsp; omega)
      omega
    have hregs₁ : ∀ x, x ≠ .esp → c₁.regs x = c.regs x := fun x hx => Cpu.setReg_of_ne hx
    have hmem₁ : c₁.mem = storeWord c.mem c₁.sp (c.regs r).toNat := rfl
    obtain ⟨hsp', hregs, hmem, hwords⟩ := ih (c := c₁) hrs (by omega)
    refine ⟨by rw [List.length_cons]; omega, fun x hx => (hregs x hx).trans (hregs₁ x hx), ?_, ?_⟩
    · refine (hmem.mono ?_).trans ((hmem₁ ▸ eqOn_storeWord).mono ?_) <;>
        exact Set.compl_subset_compl.mpr (Set.Ico_subset_Ico (by omega) (by omega))
    · rw [List.reverse_cons, List.map_append, wordsAt_append]
      refine ⟨?_, ?_, trivial⟩
      · have heq : ∀ x ∈ rs.reverse, (c.regs x).toNat = (c₁.regs x).toNat := fun x hx => by
          rw [hregs₁ x fun h => hrs (h ▸ List.mem_reverse.mp hx)]
        rwa [List.map_congr_left heq]
      · rw [List.length_map, List.length_reverse, hsp']
        rw [loadWord_congr fun k hk => eq_of_le_of_eqOn hmem (Nat.le_add_right _ k), hmem₁,
          loadWord_storeWord_self, u32_of_lt (c.regs r).toNat_lt]

/-- The state `c'` after words on the stack of the state `c` have been popped into `rs`. -/
structure Popped (rs : List Reg) (ws : List ℕ) (c c' : Cpu) : Prop where
  mem : c'.mem = c.mem
  sp : c'.sp = c.sp + 4 * rs.length
  regs : ∀ r, r ∉ rs → r ≠ .esp → c'.regs r = c.regs r
  words : rs.map (fun r => (c'.regs r).toNat) = ws

/-- A row of `popl`. -/
theorem popRegs {rs : List Reg} {ws : List ℕ} (hrs : .esp ∉ rs) (hnd : rs.Nodup)
    (hlen : ws.length = rs.length) (hws : WordsAt c.mem c.sp ws)
    (hsp : c.sp + 4 * rs.length < 0x100000000) : Popped rs ws c (runCode (rs.map .pop) c) := by
  induction rs generalizing c ws with
  | nil => exact ⟨rfl, rfl, fun _ _ _ => rfl, (List.length_eq_zero_iff.mp hlen).symm⟩
  | cons r rs ih =>
    obtain ⟨w, ws, rfl⟩ := List.exists_cons_of_length_eq_add_one hlen
    obtain ⟨hr, hrs⟩ := not_or.mp (mt List.mem_cons.mpr hrs)
    obtain ⟨hnd₁, hnd⟩ := List.nodup_cons.mp hnd
    obtain ⟨hw, hws⟩ := hws
    rw [List.length_cons] at hsp
    rw [List.map_cons, runCode_cons]
    set c₁ := (Instr.pop r).run c with hc₁
    have hsp₁ : c₁.sp = c.sp + 4 := by
      have hesp : c₁.regs .esp = c.regs .esp + 4 := by
        rw [hc₁, Instr.run, Cpu.setReg_of_ne hr, Cpu.setReg_self]
      rw [Cpu.sp, hesp]
      exact toNat_add_four (by rw [Cpu.sp] at hsp; omega)
    have hregs₁ : ∀ x, x ≠ r → x ≠ .esp → c₁.regs x = c.regs x := fun x hx hx' =>
      (Cpu.setReg_of_ne hx).trans (Cpu.setReg_of_ne hx')
    have hr₁ : (c₁.regs r).toNat = w := by
      rw [hc₁, Instr.run, Cpu.setReg_self, Cpu.toNat_word]
      exact hw
    obtain ⟨hmem, hsp', hregs, hwords⟩ :=
      ih (c := c₁) hrs hnd (by simpa using hlen) (by rwa [hsp₁]) (by omega)
    refine ⟨hmem, by rw [List.length_cons]; omega, fun x hx hx' => ?_, ?_⟩
    · obtain ⟨hxr, hx⟩ := not_or.mp (mt List.mem_cons.mpr hx)
      exact (hregs x hx hx').trans (hregs₁ x hxr hx')
    · rw [List.map_cons, hregs r hnd₁ (Ne.symm hr), hr₁, hwords]

end ChalesOs
