import Mathlib.Data.Fintype.Basic
import Mathlib.Tactic.Common

/-!
# Cascaded 8259 interrupt controllers

The 8259A as a driver sees it: the initialisation words ICW1 to ICW4, the operation words for the
mask (OCW1), the end of an interrupt (OCW2) and the selection of a register (OCW3), and the
acknowledge cycle of the processor. Priorities are fixed, line 0 first. Rotating priorities,
polling, the special mask mode and buffered mode are not part of it.

`Cascade` is a master with a slave. A line that is no longer requested when the processor
acknowledges it gives the vector of line 7 and leaves nothing in service, in either chip; when it
is the slave's, the master still has the line of the slave in service.

`Idle` is what a handler has to restore: nothing is in service, in either chip. A real interrupt is
ended by one end-of-interrupt command for every chip it went through (`Chip.end_serve`).
-/

namespace Pic8259

/-- The bit of a line in the registers. -/
def lineBit (n : Fin 8) : UInt8 := 1 <<< UInt8.ofNat n

/-- The bit of the line is set in the register. -/
def On (r : UInt8) (n : Fin 8) : Prop := r &&& lineBit n ≠ 0

instance (r : UInt8) (n : Fin 8) : Decidable (On r n) := inferInstanceAs (Decidable (_ ≠ _))

/-- The line of the highest priority in a register. -/
def first (r : UInt8) : Option (Fin 8) := (List.finRange 8).find? fun n => On r n

/-- What the next byte at the data port is taken for. -/
inductive Expecting
  | mask
  | icw2 (single needsIcw4 : Bool)
  | icw3 (needsIcw4 : Bool)
  | icw4
  deriving DecidableEq

/-- One controller. -/
structure Chip where
  /-- The vector of line 0. -/
  offset : UInt8
  /-- ICW3: the lines with a slave for a master, its identity for a slave. -/
  cascade : UInt8
  imr : UInt8
  irr : UInt8
  isr : UInt8
  /-- Reads of the command port give the in-service register. -/
  readsIsr : Bool
  autoEoi : Bool
  expecting : Expecting
  deriving DecidableEq

namespace Chip

/-- A write to the command port. -/
def writeCommand (v : UInt8) (c : Chip) : Chip :=
  if v &&& 0x10 ≠ 0 then
    -- ICW1
    { c with
      imr := 0
      irr := 0
      isr := 0
      readsIsr := false
      autoEoi := v &&& 0x01 ≠ 0 && c.autoEoi
      expecting := .icw2 (v &&& 0x02 ≠ 0) (v &&& 0x01 ≠ 0) }
  else if v &&& 0x08 ≠ 0 then
    -- OCW3
    if v &&& 0x02 ≠ 0 then { c with readsIsr := v &&& 0x01 ≠ 0 } else c
  else if v &&& 0xE0 = 0x20 then
    -- OCW2, non-specific end of interrupt
    match first c.isr with
    | none => c
    | some n => { c with isr := c.isr &&& ~~~lineBit n }
  else if v &&& 0xE0 = 0x60 then
    -- OCW2, specific end of interrupt
    { c with isr := c.isr &&& ~~~(1 <<< (v &&& 0x07)) }
  else c

/-- A write to the data port. -/
def writeData (v : UInt8) (c : Chip) : Chip :=
  match c.expecting with
  | .mask => { c with imr := v }
  | .icw2 single needsIcw4 =>
    { c with
      offset := v &&& 0xF8
      expecting := if single then (if needsIcw4 then .icw4 else .mask) else .icw3 needsIcw4 }
  | .icw3 needsIcw4 => { c with cascade := v, expecting := if needsIcw4 then .icw4 else .mask }
  | .icw4 => { c with autoEoi := v &&& 0x02 ≠ 0, expecting := .mask }

/-- A read of the command port. -/
def readCommand (c : Chip) : UInt8 := if c.readsIsr then c.isr else c.irr

/-- A read of the data port. -/
def readData (c : Chip) : UInt8 := c.imr

/-- The line to be acknowledged: the first one that is requested and not masked, unless one of the
same or a higher priority is in service. -/
def pending (c : Chip) : Option (Fin 8) :=
  match first (c.irr &&& ~~~c.imr) with
  | none => none
  | some n =>
    match first c.isr with
    | none => some n
    | some m => if n < m then some n else none

/-- The line `n` goes into service. -/
def serve (n : Fin 8) (c : Chip) : Chip :=
  { c with
    irr := c.irr &&& ~~~lineBit n
    isr := if c.autoEoi then c.isr else c.isr ||| lineBit n }

/-- The vector of the line `n`. -/
def vector (c : Chip) (n : Fin 8) : UInt8 := c.offset ||| UInt8.ofNat n

end Chip

/-- A master and its slave. -/
structure Cascade where
  master : Chip
  slave : Chip
  deriving DecidableEq

namespace Cascade

/-- The acknowledge cycle: the vector the processor reads. -/
def acknowledge (p : Cascade) : UInt8 × Cascade :=
  match p.master.pending with
  | none => (p.master.vector (Fin.last 7), p)
  | some n =>
    if On p.master.cascade n then
      match p.slave.pending with
      | none => (p.slave.vector (Fin.last 7), { p with master := p.master.serve n })
      | some k => (p.slave.vector k, ⟨p.master.serve n, p.slave.serve k⟩)
    else (p.master.vector n, { p with master := p.master.serve n })

/-- The request lines change. -/
def request (master slave : UInt8) (p : Cascade) : Cascade :=
  ⟨{ p.master with irr := master }, { p.slave with irr := slave }⟩

/-- Nothing is in service. -/
def Idle (p : Cascade) : Prop := p.master.isr = 0 ∧ p.slave.isr = 0

instance (p : Cascade) : Decidable p.Idle := inferInstanceAs (Decidable (_ ∧ _))

end Cascade

/-! ### Registers -/

variable {c : Chip} {p : Cascade} {n k : Fin 8} {m s v : UInt8}

theorem first_zero : first 0 = none := by decide

theorem first_lineBit (n : Fin 8) : first (lineBit n) = some n := by
  revert n
  decide

/-- The line that is found is the first one that is on. -/
theorem first_eq_some : first v = some n ↔ On v n ∧ ∀ m < n, ¬On v m := by
  rw [first, List.find?_eq_some_iff_getElem, decide_eq_true_iff]
  refine and_congr_right fun _ => ?_
  constructor
  · rintro ⟨i, hi, hn, hbefore⟩ m hm
    obtain rfl : i = n := by simpa [Fin.ext_iff] using hn
    simpa using hbefore m hm
  · intro hbefore
    refine ⟨n, by simp, by simp, fun j hj => ?_⟩
    simpa using hbefore ⟨j, by omega⟩ hj

/-- No line is found if and only if all are off. -/
theorem first_eq_none : first v = none ↔ ∀ n, ¬On v n := by
  simp [first, List.find?_eq_none]

theorem lineBit_ne_zero (n : Fin 8) : lineBit n ≠ 0 := by
  revert n
  decide

/-- The bits of a register. -/
theorem on_iff : On v n ↔ v.toBitVec.getLsbD n = true := by
  have hbit : (lineBit n).toBitVec = BitVec.twoPow 8 n := by
    revert n
    decide
  have hand : (v &&& lineBit n).toBitVec =
      if v.toBitVec.getLsbD n then BitVec.twoPow 8 n else 0 := by
    rw [UInt8.toBitVec_and, hbit, BitVec.and_twoPow]
    rfl
  rw [On, ne_eq, ← UInt8.toBitVec_inj, hand]
  split_ifs with hn
  · rw [← hbit]
    exact iff_of_true (fun h => lineBit_ne_zero n (UInt8.toBitVec_inj.mp h)) hn
  · exact iff_of_false (not_not.mpr rfl) hn

theorem on_or : On (v ||| s) n ↔ On v n ∨ On s n := by
  rw [on_iff, on_iff, on_iff, UInt8.toBitVec_or, BitVec.getLsbD_or, Bool.or_eq_true]

theorem on_and_not : On (v &&& ~~~s) n ↔ On v n ∧ ¬On s n := by
  rw [on_iff, on_iff, on_iff, UInt8.toBitVec_and, UInt8.toBitVec_not, BitVec.getLsbD_and,
    BitVec.getLsbD_not, decide_eq_true n.isLt, Bool.true_and, Bool.and_eq_true,
    Bool.not_eq_true_eq_eq_false, Bool.not_eq_true]

/-- The bit of a line is on for this line. -/
theorem on_lineBit : On (lineBit k) n ↔ n = k := by
  revert n k
  decide

/-! ### One chip -/

/-- The end of the only interrupt in service: its request is gone. -/
theorem Chip.end_serve (hisr : c.isr = 0) (hauto : c.autoEoi = false) :
    (c.serve n).writeCommand 0x20 = { c with irr := c.irr &&& ~~~lineBit n } := by
  have hserve : (c.serve n).isr = lineBit n := by
    rw [serve, hisr, hauto]
    exact UInt8.zero_or
  rw [writeCommand, if_neg (by decide), if_neg (by decide), if_pos (by decide), hserve,
    first_lineBit]
  dsimp only
  rw [UInt8.and_not_self, ← hisr]
  rfl

/-- The in-service register is selected, and nothing else happens. -/
theorem Chip.writeCommand_readIsr (c : Chip) :
    c.writeCommand 0x0B = { c with readsIsr := true } := by
  rw [writeCommand, if_neg (by decide), if_pos (by decide), if_pos (by decide)]
  rfl

/-- What is requested and not masked is pending, when nothing is in service. -/
theorem Chip.pending_of_idle (hisr : c.isr = 0) : c.pending = first (c.irr &&& ~~~c.imr) := by
  rw [pending, hisr, first_zero]
  cases first (c.irr &&& ~~~c.imr) with
  | none => rfl
  | some n => rfl

end Pic8259
