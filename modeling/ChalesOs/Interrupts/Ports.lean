import Mathlib.Data.List.Induction
import ChalesOs.Lib.Pic8259

/-!
# The devices behind the ports

`pic.c`, and the parts of `timer.c` and `keyboard.c` that talk to a device: the two interrupt
controllers at the ports 0x20 and 0xA0, channel 0 of the timer chip at 0x40, and the data port of
the keyboard controller. `Devices` is their state, and `outport8` and `inport8` are what the
instructions of `portio.h` do to it. Accesses to other ports are not accesses to these devices.

The initialisation does not depend on what the firmware has left behind: `picInitialize_eq` and
`timerInitialize_eq` hold in every state of the devices, also in the middle of an initialisation
or between the two bytes of a count. Behind it, `isMasked_maskCalls` says which lines are masked
after any calls of `pic_set_mask` and `pic_clear_mask`.
-/

namespace ChalesOs

open Pic8259

/-! ### The devices -/

/-- Channel 0 of the timer chip: its last control word, the low byte of a count whose high byte is
still to come, and the count it was loaded with. -/
structure Pit where
  control : UInt8
  low : Option UInt8
  count : UInt16
  deriving DecidableEq

/-- A control word; the upper two bits select the channel. -/
def Pit.writeControl (v : UInt8) (t : Pit) : Pit :=
  if v &&& 0xC0 = 0 then { t with control := v, low := none } else t

/-- A byte of the count. The access mode says which bytes are written. -/
def Pit.writeCount (v : UInt8) (t : Pit) : Pit :=
  if t.control &&& 0x30 = 0x10 then { t with count := v.toUInt16 }
  else if t.control &&& 0x30 = 0x20 then { t with count := v.toUInt16 <<< 8 }
  else if t.control &&& 0x30 = 0x30 then
    match t.low with
    | none => { t with low := some v }
    | some l => { t with low := none, count := l.toUInt16 ||| v.toUInt16 <<< 8 }
  else t

/-- The devices: the last code the keyboard has sent is at its data port, and `other` is what the
remaining ports give. -/
structure Devices where
  pics : Cascade
  pit : Pit
  scancode : UInt8
  other : UInt16 → UInt8

/-- `outport8`. -/
def outport8 (port : UInt16) (value : UInt8) (d : Devices) : Devices :=
  if port = 0x20 then
    { d with pics := { d.pics with master := d.pics.master.writeCommand value } }
  else if port = 0x21 then
    { d with pics := { d.pics with master := d.pics.master.writeData value } }
  else if port = 0xA0 then
    { d with pics := { d.pics with slave := d.pics.slave.writeCommand value } }
  else if port = 0xA1 then
    { d with pics := { d.pics with slave := d.pics.slave.writeData value } }
  else if port = 0x40 then { d with pit := d.pit.writeCount value }
  else if port = 0x43 then { d with pit := d.pit.writeControl value }
  else d

/-- `inport8`. -/
def inport8 (port : UInt16) (d : Devices) : UInt8 :=
  if port = 0x20 then d.pics.master.readCommand
  else if port = 0x21 then d.pics.master.readData
  else if port = 0xA0 then d.pics.slave.readCommand
  else if port = 0xA1 then d.pics.slave.readData
  else if port = 0x60 then d.scancode
  else d.other port

/-! ### `pic.c` -/

/-- `PIC_MASTER`. -/
def picMaster : UInt16 := 0x20

/-- `PIC_SLAVE`. -/
def picSlave : UInt16 := 0xA0

/-- `PIC_COMMAND`. -/
def picCommand : UInt16 := 0x00

/-- `PIC_DATA`. -/
def picData : UInt16 := 0x01

/-- `PIC_CMD_ENDINTR`. -/
def picCmdEndintr : UInt8 := 0x20

/-- `PIC_ICW1_ICW4`. -/
def picIcw1Icw4 : UInt8 := 0x01

/-- `PIC_CMD_INIT`. -/
def picCmdInit : UInt8 := 0x10

/-- `PIC_MODE_8086`. -/
def picMode8086 : UInt8 := 0x01

/-- `PIC_READ_ISR`. -/
def picReadIsrCommand : UInt8 := 0x0B

/-- `pic_read_isr`. -/
def picReadIsr (d : Devices) : UInt16 × Devices :=
  let d := outport8 (picMaster + picCommand) picReadIsrCommand d
  let d := outport8 (picSlave + picCommand) picReadIsrCommand d
  ((inport8 (picMaster + picCommand) d).toUInt16 <<< 0 |||
    (inport8 (picSlave + picCommand) d).toUInt16 <<< 8, d)

/-- `pic_eoi_master`. -/
def picEoiMaster (d : Devices) : Devices := outport8 picMaster picCmdEndintr d

/-- `pic_eoi_slave`. -/
def picEoiSlave (d : Devices) : Devices := outport8 picSlave picCmdEndintr d

/-- `pic_initialize`. -/
def picInitialize (d : Devices) : Devices :=
  let mapIrsqAt : UInt8 := 32
  let masterMask : UInt8 := 0
  let slaveMask : UInt8 := 0
  let d := outport8 (picMaster + picCommand) (picCmdInit ||| picIcw1Icw4) d
  let d := outport8 (picSlave + picCommand) (picCmdInit ||| picIcw1Icw4) d
  let d := outport8 (picMaster + picData) (mapIrsqAt + 0) d
  let d := outport8 (picSlave + picData) (mapIrsqAt + 8) d
  -- the slave is at IRQ2
  let d := outport8 (picMaster + picData) 0x04 d
  let d := outport8 (picSlave + picData) 0x02 d
  let d := outport8 (picMaster + picData) picMode8086 d
  let d := outport8 (picSlave + picData) picMode8086 d
  let d := outport8 (picMaster + picData) masterMask d
  outport8 (picSlave + picData) slaveMask d

/-- The lines `pic_set_mask` and `pic_clear_mask` share: the port of the mask, and `1 << irq`. -/
def picMaskPort (irq : UInt8) : UInt16 × UInt32 :=
  if irq < 8 then (picMaster + picData, 1 <<< irq.toUInt32)
  else (picSlave + picData, 1 <<< (irq - 8).toUInt32)

/-- `pic_set_mask`. -/
def picSetMask (irq : UInt8) (d : Devices) : Devices :=
  let (port, bit) := picMaskPort irq
  let value := ((inport8 port d).toUInt32 ||| bit).toUInt8
  outport8 port value d

/-- `pic_clear_mask`. -/
def picClearMask (irq : UInt8) (d : Devices) : Devices :=
  let (port, bit) := picMaskPort irq
  let value := ((inport8 port d).toUInt32 &&& ~~~bit).toUInt8
  outport8 port value d

/-! ### `timer_initialize` and `keyboard_read_scancode` -/

/-- `PIT_BASE_FREQUENCY`. -/
def pitBaseFrequency : ℕ := 1193182

/-- `TIMER_FREQUENCY`. -/
def timerFrequency : ℕ := 1000

/-- `PIT_CMD_INIT`: channel 0, low byte and high byte, mode 2, binary. -/
def pitCmdInit : UInt8 := 0x00 ||| 0x30 ||| 0x04 ||| 0x00

/-- `timer_initialize`, without the counter of ticks. -/
def timerInitialize (d : Devices) : Devices :=
  let divisor : UInt16 := UInt16.ofNat (pitBaseFrequency / timerFrequency)
  let d := outport8 0x43 pitCmdInit d
  let d := outport8 0x40 (divisor &&& 0xFF).toUInt8 d
  outport8 0x40 ((divisor >>> 8) &&& 0xFF).toUInt8 d

/-- `keyboard_read_scancode`. -/
def keyboardReadScancode (d : Devices) : UInt8 := inport8 0x60 d

/-! ### Initialisation -/

variable {d : Devices} {n : Fin 8}

/-- A controller that delivers interrupts from the vector `offset` on, with nothing in service. -/
structure Programmed (c : Chip) (offset cascade : UInt8) : Prop where
  offset : c.offset = offset
  cascade : c.cascade = cascade
  autoEoi : c.autoEoi = false
  expecting : c.expecting = .mask

/-- The controllers as `pic_initialize` leaves them, whatever was before. -/
theorem picInitialize_eq (d : Devices) :
    picInitialize d =
      { d with pics :=
          ⟨⟨32, 4, 0, 0, 0, false, false, .mask⟩, ⟨40, 2, 0, 0, 0, false, false, .mask⟩⟩ } :=
  rfl

/-- The low byte of a count, behind the control word of `timer_initialize`. -/
theorem outport8_low (d : Devices) (v : UInt8) (count : UInt16) :
    outport8 0x40 v { d with pit := ⟨0x34, none, count⟩ } =
      { d with pit := ⟨0x34, some v, count⟩ } := by
  have haccess : (0x34 : UInt8) &&& 0x30 = 0x30 := by decide
  simp [outport8, Pit.writeCount, haccess]

/-- The high byte behind it. -/
theorem outport8_high (d : Devices) (l v : UInt8) (count : UInt16) :
    outport8 0x40 v { d with pit := ⟨0x34, some l, count⟩ } =
      { d with pit := ⟨0x34, none, l.toUInt16 ||| v.toUInt16 <<< 8⟩ } := by
  have haccess : (0x34 : UInt8) &&& 0x30 = 0x30 := by decide
  simp [outport8, Pit.writeCount, haccess]

/-- The timer chip as `timer_initialize` leaves it, whatever was before: it divides the frequency
by 1193, in mode 2. -/
theorem timerInitialize_eq (d : Devices) :
    timerInitialize d = { d with pit := ⟨0x34, none, 1193⟩ } := by
  have hdivisor : UInt16.ofNat (pitBaseFrequency / timerFrequency) = 1193 := by decide
  have hlow : ((1193 : UInt16) &&& 0xFF).toUInt8 = 0xA9 := by decide
  have hhigh : (((1193 : UInt16) >>> 8) &&& 0xFF).toUInt8 = 0x04 := by decide
  have hcount : (0xA9 : UInt8).toUInt16 ||| (0x04 : UInt8).toUInt16 <<< 8 = 1193 := by decide
  have hcontrol : outport8 0x43 pitCmdInit d = { d with pit := ⟨0x34, none, d.pit.count⟩ } := rfl
  rw [timerInitialize, hdivisor, hlow, hhigh, hcontrol, outport8_low, outport8_high, hcount]

/-! ### Masks -/

/-- A line of the master among all lines. -/
theorem master_lt (n : Fin 8) : n.1 < 16 := by omega

/-- A line of the slave among all lines. -/
theorem slave_lt (k : Fin 8) : 8 + k.1 < 16 := by omega

/-- A line that is none of the master's is one of the slave's. -/
theorem sub_eight_lt {k : Fin 16} (hk : ¬k.1 < 8) : k.1 - 8 < 8 := by omega

/-- The mask register of the chip a line belongs to, and its number there. -/
def Devices.maskOf (d : Devices) (k : Fin 16) : UInt8 × Fin 8 :=
  if h : k.1 < 8 then (d.pics.master.imr, ⟨k, h⟩) else (d.pics.slave.imr, ⟨k - 8, sub_eight_lt h⟩)

/-- The line is masked. -/
def Devices.IsMasked (d : Devices) (k : Fin 16) : Prop := On (d.maskOf k).1 (d.maskOf k).2

/-- Both controllers take bytes at the data port for masks. -/
def Devices.TakesMasks (d : Devices) : Prop :=
  d.pics.master.expecting = .mask ∧ d.pics.slave.expecting = .mask

/-- `pic_set_mask` on a line, or `pic_clear_mask`. -/
def maskCall (call : Fin 16 × Bool) (d : Devices) : Devices :=
  if call.2 then picSetMask (UInt8.ofNat call.1) d else picClearMask (UInt8.ofNat call.1) d

/-- A sequence of such calls. -/
def maskCalls (calls : List (Fin 16 × Bool)) (d : Devices) : Devices :=
  calls.foldl (fun d call => maskCall call d) d

/-- The mask register with one bit set or cleared. -/
def changedMask (r : UInt8) (n : Fin 8) (on : Bool) : UInt8 :=
  if on then r ||| lineBit n else r &&& ~~~lineBit n

theorem on_changedMask {r : UInt8} {n k : Fin 8} {on : Bool} :
    On (changedMask r n on) k ↔ if k = n then on = true else On r k := by
  rw [changedMask]
  cases on
  · rw [if_neg (by decide), on_and_not, on_lineBit]
    split_ifs <;> simp_all
  · rw [if_pos rfl, on_or, on_lineBit]
    split_ifs <;> simp_all

/-- The bits of the new mask are computed as an `int`. -/
theorem toUInt8_mask (r bit : UInt8) :
    (r.toUInt32 ||| bit.toUInt32).toUInt8 = r ||| bit ∧
      (r.toUInt32 &&& ~~~bit.toUInt32).toUInt8 = r &&& ~~~bit := by
  constructor
  · rw [UInt32.toUInt8_or, UInt8.toUInt8_toUInt32, UInt8.toUInt8_toUInt32]
  · rw [UInt32.toUInt8_and, UInt32.toUInt8_not, UInt8.toUInt8_toUInt32, UInt8.toUInt8_toUInt32]

/-- A call for a line of the master. -/
theorem maskCall_master (h : d.TakesMasks) {k : Fin 16} (hk : k.1 < 8) (on : Bool) :
    maskCall (k, on) d = { d with pics := { d.pics with master := { d.pics.master with
      imr := changedMask d.pics.master.imr ⟨k, hk⟩ on } } } := by
  have hport : picMaskPort (UInt8.ofNat k) = (0x21, (lineBit ⟨k, hk⟩).toUInt32) := by
    revert k
    decide
  have hwrite : ∀ v, outport8 0x21 v d =
      { d with pics := { d.pics with master := { d.pics.master with imr := v } } } := fun v => by
    simp [outport8, Chip.writeData, h.1]
  have hread : inport8 0x21 d = d.pics.master.imr := rfl
  obtain ⟨hset, hclear⟩ := toUInt8_mask d.pics.master.imr (lineBit ⟨k, hk⟩)
  rw [maskCall, changedMask]
  cases on
  · rw [if_neg Bool.false_ne_true, if_neg Bool.false_ne_true, picClearMask, hport]
    dsimp only
    rw [hread, hclear, hwrite]
  · rw [if_pos rfl, if_pos rfl, picSetMask, hport]
    dsimp only
    rw [hread, hset, hwrite]

/-- A call for a line of the slave. -/
theorem maskCall_slave (h : d.TakesMasks) {k : Fin 16} (hk : ¬k.1 < 8) (on : Bool) :
    maskCall (k, on) d = { d with pics := { d.pics with slave := { d.pics.slave with
      imr := changedMask d.pics.slave.imr ⟨k - 8, by omega⟩ on } } } := by
  have hport : picMaskPort (UInt8.ofNat k) =
      (0xA1, (lineBit ⟨k - 8, by omega⟩).toUInt32) := by
    revert k
    decide
  have hwrite : ∀ v, outport8 0xA1 v d =
      { d with pics := { d.pics with slave := { d.pics.slave with imr := v } } } := fun v => by
    simp [outport8, Chip.writeData, h.2]
  have hread : inport8 0xA1 d = d.pics.slave.imr := rfl
  obtain ⟨hset, hclear⟩ := toUInt8_mask d.pics.slave.imr (lineBit ⟨k - 8, by omega⟩)
  rw [maskCall, changedMask]
  cases on
  · rw [if_neg Bool.false_ne_true, if_neg Bool.false_ne_true, picClearMask, hport]
    dsimp only
    rw [hread, hclear, hwrite]
  · rw [if_pos rfl, if_pos rfl, picSetMask, hport]
    dsimp only
    rw [hread, hset, hwrite]

/-- A call decides about its own line and leaves the others alone. -/
theorem isMasked_maskCall (h : d.TakesMasks) (k j : Fin 16) (on : Bool) :
    (maskCall (k, on) d).TakesMasks ∧
      ((maskCall (k, on) d).IsMasked j ↔ if j = k then on = true else d.IsMasked j) := by
  by_cases hk : k.1 < 8
  · rw [maskCall_master h hk]
    refine ⟨h, ?_⟩
    rw [Devices.IsMasked, Devices.IsMasked, Devices.maskOf, Devices.maskOf]
    by_cases hj : j.1 < 8
    · rw [dif_pos hj, dif_pos hj]
      dsimp only
      rw [on_changedMask]
      simp only [Fin.ext_iff]
    · have hne : j ≠ k := fun h => hj (h ▸ hk)
      rw [dif_neg hj, dif_neg hj, if_neg hne]
  · rw [maskCall_slave h hk]
    refine ⟨h, ?_⟩
    rw [Devices.IsMasked, Devices.IsMasked, Devices.maskOf, Devices.maskOf]
    by_cases hj : j.1 < 8
    · have hne : j ≠ k := fun h => hk (h ▸ hj)
      rw [dif_pos hj, dif_pos hj, if_neg hne]
    · have hsub : j.1 - 8 = k.1 - 8 ↔ j = k := by
        rw [Fin.ext_iff]
        omega
      rw [dif_neg hj, dif_neg hj]
      dsimp only
      rw [on_changedMask]
      simp only [Fin.mk.injEq, hsub]

/-- **The masks.** Behind `pic_initialize`, in whatever state it has found the controllers, and any
calls of `pic_set_mask` and `pic_clear_mask`, a line is masked if and only if the last call for it
has set its mask. -/
theorem isMasked_maskCalls (d : Devices) (calls : List (Fin 16 × Bool)) (j : Fin 16) :
    (maskCalls calls (picInitialize d)).IsMasked j ↔
      ((calls.filter fun call => call.1 = j).getLast?.map Prod.snd) = some true := by
  have hrun : ∀ calls : List (Fin 16 × Bool), (maskCalls calls (picInitialize d)).TakesMasks ∧
      ((maskCalls calls (picInitialize d)).IsMasked j ↔
        ((calls.filter fun call => call.1 = j).getLast?.map Prod.snd) = some true) := by
    intro calls
    induction calls using List.reverseRecOn with
    | nil =>
      have hclear : ((picInitialize d).maskOf j).1 = 0 := by
        rw [picInitialize_eq, Devices.maskOf]
        split_ifs <;> rfl
      refine ⟨⟨rfl, rfl⟩, iff_of_false (fun hmasked => ?_) (by simp)⟩
      rw [maskCalls, List.foldl_nil, Devices.IsMasked, hclear] at hmasked
      exact hmasked UInt8.zero_and
    | append_singleton calls call ih =>
      obtain ⟨k, on⟩ := call
      obtain ⟨htakes, ih⟩ := ih
      have hcall : maskCalls (calls ++ [(k, on)]) (picInitialize d) =
          maskCall (k, on) (maskCalls calls (picInitialize d)) := List.foldl_concat ..
      obtain ⟨htakes', hmasked⟩ := isMasked_maskCall htakes k j on
      rw [hcall]
      refine ⟨htakes', hmasked.trans ?_⟩
      rw [ih, List.filter_append]
      by_cases hjk : j = k
      · simp [hjk]
      · have hkj : ¬k = j := fun h => hjk h.symm
        simp [hjk, hkj]
  exact (hrun calls).2

end ChalesOs
