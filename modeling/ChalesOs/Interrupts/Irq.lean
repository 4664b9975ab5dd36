import ChalesOs.Console.Keyboard
import ChalesOs.Interrupts.Ports
import ChalesOs.Lib.BoundedQueue
import ChalesOs.Lib.StepSystem
import ChalesOs.Ramfs.Ops

/-!
# Hardware interrupts

`irq_handler` and what it calls in `keyboard.c` and `timer.c`, together with the two interrupt
controllers. The gates of the hardware interrupts are interrupt gates, so a handler runs to its end
before the next one.

`irqSystem` runs from the initialisation of the devices: at any time the request lines change, the
keyboard sends a code, the processor takes an interrupt, or a system call takes a character out of
the keyboard buffer. `IrqInv` holds between the handlers: the controllers are programmed, and
nothing is in service. `IrqInv.served` is the step: whatever the processor has acknowledged,
spurious or not and through one controller or both, one run of the handler ends it.
-/

namespace ChalesOs

open ByteMemory BoundedQueue Pic8259

/-! ### `keyboard.c` and `timer.c` -/

/-- The size of `key_states`. -/
def keyStatesSize : ℕ := 128

/-- `KEY_BACKSPACE`. -/
def keyBackspace : UInt8 := 0x0E

/-- `KEY_ENTER`. -/
def keyEnter : UInt8 := 0x1C

/-- `keyboard_is_key_pressed`. -/
def keyboardIsKeyPressed (scancode : UInt8) (keyStates : ℕ → UInt8) :
    Option (Bool × (ℕ → UInt8)) :=
  let keyCode := scancode &&& 0x7F
  let isRelease := scancode &&& 0x80
  if isRelease ≠ 0 then
    (store keyStatesSize keyStates keyCode.toNat 0).map fun states => (false, states)
  else (store keyStatesSize keyStates keyCode.toNat 1).map fun states => (true, states)

/-- `scancode_to_ascii`. -/
def scancodeToAscii : List UInt8 :=
  [0, 0] ++ cstr "1234567890-=" ++ [0, 0] ++
    cstr "qwertyuiop[]" ++ [0, 0] ++
    cstr "asdfghjkl;" ++ [0x27, 0x60, 0] ++
    [0x5C] ++ cstr "zxcvbnm,./" ++ [0, 0, 0, 0x20, 0]

/-- `keyboard_scancode_to_ascii`. -/
def keyboardScancodeToAscii (scancode : UInt8) : UInt8 :=
  if scancode.toNat < scancodeToAscii.length then scancodeToAscii.getD scancode.toNat 0 else 0

/-- `timer_tick`; `system_ticks` is a `uint32_t`. -/
def timerTick (ticks : ℕ) : ℕ := u32 (ticks + 1)

/-! ### `irq_handler` -/

/-- What the handlers of the hardware interrupts work on. -/
structure IrqState where
  devices : Devices
  keyboard : Keyboard
  keyStates : ℕ → UInt8
  ticks : ℕ

/-- `irq == n && !(pic_read_isr() & (1 << n))`. -/
def irqIsSpurious (irq n : UInt8) (d : Devices) : Bool × Devices :=
  if irq = n then
    let (isr, d) := picReadIsr d
    (isr &&& 1 <<< n.toUInt16 = 0, d)
  else (false, d)

/-- The branch of `irq_handler` for the keyboard. -/
def irqKeyboard (s : IrqState) : Option IrqState :=
  let scancode := keyboardReadScancode s.devices
  (keyboardIsKeyPressed scancode s.keyStates).map fun (pressed, keyStates) =>
    let s := { s with keyStates := keyStates }
    if pressed then
      if scancode = keyBackspace then { s with keyboard := keyboardBufferPush 0x08 s.keyboard }
      else if scancode = keyEnter then { s with keyboard := keyboardBufferPush 0x0A s.keyboard }
      else
        let ascii := keyboardScancodeToAscii scancode
        if ascii ≠ 0 then { s with keyboard := keyboardBufferPush ascii s.keyboard } else s
    else s

/-- The branches of `irq_handler` for the keyboard and the timer. -/
def irqService (irq : UInt8) (s : IrqState) : Option IrqState :=
  if irq = 1 then irqKeyboard s
  else if irq = 0 then some { s with ticks := timerTick s.ticks }
  else some s

/-- `irq_handler`. -/
def irqHandler (intNo : ℕ) (s : IrqState) : Option IrqState :=
  let irq := UInt8.ofNat (intNo - 32)
  let (spurious, d) := irqIsSpurious irq 7 s.devices
  if spurious then some { s with devices := d }
  else
    let (spurious, d) := irqIsSpurious irq 15 d
    if spurious then some { s with devices := picEoiMaster d }
    else
      (irqService irq { s with devices := d }).map fun s =>
        let d := if irq ≥ 8 then picEoiSlave s.devices else s.devices
        { s with devices := picEoiMaster d }

/-- `interrupt_handler`, for the numbers of hardware interrupts. -/
def interruptHandler (intNo : ℕ) (s : IrqState) : Option IrqState :=
  if 32 ≤ intNo ∧ intNo < 32 + 16 then irqHandler intNo s else none

/-- What happens to the devices and the keyboard buffer. -/
inductive IrqEvent
  /-- The request lines of the two controllers change. -/
  | lines (master slave : UInt8)
  /-- The keyboard sends a code. -/
  | code (scancode : UInt8)
  /-- The processor takes an interrupt. -/
  | interrupt
  /-- The system call `getchar`. -/
  | getchar

/-- One event. -/
def irqExec (s : IrqState) : IrqEvent → Option IrqState
  | .lines master slave =>
    some { s with devices := { s.devices with pics := s.devices.pics.request master slave } }
  | .code scancode => some { s with devices := { s.devices with scancode := scancode } }
  | .interrupt =>
    let (vector, pics) := s.devices.pics.acknowledge
    interruptHandler vector.toNat { s with devices := { s.devices with pics := pics } }
  | .getchar => some { s with keyboard := (getchar s.keyboard).2 }

/-- `kernel_main` up to `sti`, as far as it concerns the devices. -/
def devicesInitialize (d : Devices) : Devices :=
  picClearMask 1 (picClearMask 0 (timerInitialize (picInitialize d)))

/-- Any sequence of events from `sti` on. -/
def irqSystem : StepSystem IrqState IrqEvent where
  start s := ∃ d, s = ⟨devicesInitialize d, .empty, fun _ => 0, 0⟩
  step := irqExec

/-! ### What it is meant to do -/

/-- The controllers are programmed as the kernel wants them, no line is masked, and nothing is in
service. -/
structure IrqInv (d : Devices) : Prop where
  master : Programmed d.pics.master 32 4
  slave : Programmed d.pics.slave 40 2
  idle : d.pics.Idle
  unmasked : d.pics.master.imr = 0 ∧ d.pics.slave.imr = 0

/-- The line of the master where the slave is. -/
def slaveLine : Fin 8 := ⟨2, by decide⟩

/-- The request the processor gets to see, `none` for a spurious interrupt: the first line of the
master that is requested and not masked, or the first one of the slave behind line 2. -/
def Devices.request (d : Devices) : Option (Fin 16) :=
  match d.pics.master.pending with
  | none => none
  | some n =>
    if n = slaveLine then d.pics.slave.pending.map fun k => ⟨8 + k.1, slave_lt k⟩
    else some ⟨n, master_lt n⟩

/-- The devices behind the service of the request: its bits in the request registers are clear. -/
def Devices.served (d : Devices) : Devices :=
  match d.pics.master.pending with
  | none => d
  | some n =>
    let master := { d.pics.master with irr := d.pics.master.irr &&& ~~~lineBit n }
    if n = slaveLine then
      match d.pics.slave.pending with
      | none => { d with pics := { d.pics with master := master } }
      | some k =>
        let slave := { d.pics.slave with irr := d.pics.slave.irr &&& ~~~lineBit k }
        { d with pics := ⟨master, slave⟩ }
    else { d with pics := { d.pics with master := master } }

/-- What the pressed key with a code puts into the keyboard buffer. -/
def decodedKey (scancode : UInt8) : Option UInt8 :=
  if scancode = keyBackspace then some 0x08
  else if scancode = keyEnter then some 0x0A
  else if keyboardScancodeToAscii scancode ≠ 0 then some (keyboardScancodeToAscii scancode)
  else none

/-- The clock, the queue of characters and the keys that are held. -/
structure InputView where
  ticks : ℕ
  queue : List UInt8
  held : Fin 128 → Bool

/-- What the clock, the queue and the keys are told. -/
inductive InputEvent
  | tick
  | key (scancode : UInt8)
  | taken

/-- A queue with a limited number of places, behind a key. -/
def InputView.apply (v : InputView) : InputEvent → InputView
  | .tick => { v with ticks := u32 (v.ticks + 1) }
  | .key scancode =>
    let code : Fin 128 := ⟨scancode.toNat % 128, Nat.mod_lt _ (by decide)⟩
    if scancode.toNat < 128 then
      { v with
        held := Function.update v.held code true
        queue := (decodedKey scancode).elim v.queue fun c =>
          step keyboardBufferSize v.queue (.push c) }
    else { v with held := Function.update v.held code false }
  | .taken => { v with queue := v.queue.tail }

/-- The view of a state. -/
def IrqState.view (s : IrqState) : InputView where
  ticks := s.ticks
  queue := s.keyboard.contents
  held k := s.keyStates k ≠ 0

/-- What an event tells the clock, the queue and the keys. -/
def IrqState.told (s : IrqState) : IrqEvent → List InputEvent
  | .interrupt =>
    if s.devices.request = some 0 then [.tick]
    else if s.devices.request = some 1 then [.key s.devices.scancode]
    else []
  | .getchar => [.taken]
  | _ => []

/-- The devices with other registers selected for reading. -/
def Devices.select (b b' : Bool) (d : Devices) : Devices :=
  { d with pics := ⟨{ d.pics.master with readsIsr := b }, { d.pics.slave with readsIsr := b' }⟩ }

/-! ### The keyboard and the clock -/

variable {d : Devices} {s s' : IrqState} {irq n : UInt8} {states : ℕ → UInt8} {scancode : UInt8}

/-- Codes are in the range of the table of keys, and the highest bit tells a release. -/
theorem keyboardIsKeyPressed_eq :
    keyboardIsKeyPressed scancode states =
      some (decide (scancode.toNat < 128), Function.update states (scancode.toNat % 128)
        (if scancode.toNat < 128 then 1 else 0)) := by
  have hcode : (scancode &&& 0x7F).toNat = scancode.toNat % 128 := by
    rw [UInt8.toNat_and]
    exact Nat.and_two_pow_sub_one_eq_mod _ 7
  have hrelease : scancode &&& 0x80 ≠ 0 ↔ ¬scancode.toNat < 128 :=
    forall_byte (p := fun c => c &&& 0x80 ≠ 0 ↔ ¬c.toNat < 128) (by decide +kernel) scancode
  have hlt : scancode.toNat % 128 < keyStatesSize := Nat.mod_lt _ (by decide)
  rw [keyboardIsKeyPressed]
  simp only [hrelease, hcode, store_of_lt hlt, Option.map_some]
  split_ifs with hpressed <;> simpa using hpressed

/-- The keys that are held, behind the change of one of them. -/
theorem held_update (states : ℕ → UInt8) (k : Fin 128) (v : UInt8) :
    (fun j : Fin 128 => decide (Function.update states k v j ≠ 0)) =
      Function.update (fun j : Fin 128 => decide (states j ≠ 0)) k (decide (v ≠ 0)) := by
  funext j
  by_cases hj : j = k
  · subst hj
    rw [Function.update_self, Function.update_self]
  · rw [Function.update_of_ne hj, Function.update_of_ne fun h => hj (Fin.ext h)]

/-- A character for the buffer, or none. -/
theorem contents_pushed (c : Option UInt8) (q : Keyboard) :
    (c.elim q fun c => keyboardBufferPush c q).contents =
      c.elim q.contents fun c => step keyboardBufferSize q.contents (.push c) := by
  cases c with
  | none => rfl
  | some c =>
    have hlen : q.contents.length ≤ keyboardBufferSize :=
      Keyboard.length_contents.trans_le q.count_le
    rw [Option.elim_some, Option.elim_some, contents_push, step_push hlen]

/-- What the keyboard handler leaves behind. -/
theorem irqKeyboard_eq (s : IrqState) :
    ∃ s', irqKeyboard s = some s' ∧ s'.devices = s.devices ∧
      s'.view = s.view.apply (.key s.devices.scancode) := by
  generalize hcode : s.devices.scancode = scancode
  have hread : keyboardReadScancode s.devices = scancode := hcode
  let code : Fin 128 := ⟨scancode.toNat % 128, Nat.mod_lt _ (by decide)⟩
  rw [irqKeyboard, hread, keyboardIsKeyPressed_eq, Option.map_some, InputView.apply]
  by_cases hpressed : scancode.toNat < 128
  · simp only [hpressed, decide_true, if_true]
    have hpush : ∀ states, (if scancode = keyBackspace then
          { s with keyStates := states, keyboard := keyboardBufferPush 0x08 s.keyboard }
        else if scancode = keyEnter then
          { s with keyStates := states, keyboard := keyboardBufferPush 0x0A s.keyboard }
        else if keyboardScancodeToAscii scancode ≠ 0 then
          { s with
            keyStates := states
            keyboard := keyboardBufferPush (keyboardScancodeToAscii scancode) s.keyboard }
        else { s with keyStates := states }) =
        { s with
          keyStates := states
          keyboard := (decodedKey scancode).elim s.keyboard fun c =>
            keyboardBufferPush c s.keyboard } := by
      intro states
      rw [decodedKey]
      split_ifs <;> rfl
    refine ⟨_, congrArg some (hpush _), rfl, ?_⟩
    rw [IrqState.view, IrqState.view]
    dsimp only
    rw [contents_pushed, held_update s.keyStates code 1]
    rfl
  · simp only [hpressed, decide_false, if_false, Bool.false_eq_true]
    refine ⟨_, rfl, rfl, ?_⟩
    rw [IrqState.view, IrqState.view]
    dsimp only
    rw [held_update s.keyStates code 0]
    rfl

/-- The tests of `irq_handler` on the number of the line. -/
theorem ofNat_irq (k : Fin 16) :
    (UInt8.ofNat k = 0 ↔ k = 0) ∧ (UInt8.ofNat k = 1 ↔ k = 1) ∧ (UInt8.ofNat k = 7 ↔ k = 7) ∧
      (UInt8.ofNat k = 15 ↔ k = 15) ∧ (UInt8.ofNat k ≥ 8 ↔ 8 ≤ k.1) := by
  revert k
  decide

/-- What the handler of a line does before the end of the interrupt. -/
theorem irqService_eq (k : Fin 16) (s : IrqState) :
    ∃ s', irqService (UInt8.ofNat k) s = some s' ∧ s'.devices = s.devices ∧
      s'.view = (if k = 0 then [.tick]
        else if k = 1 then [.key s.devices.scancode] else []).foldl InputView.apply s.view := by
  obtain ⟨htimer, hkeyboard, -⟩ := ofNat_irq k
  rw [irqService]
  simp only [hkeyboard, htimer]
  by_cases h1 : k = 1
  · obtain ⟨s', hs', hdevices, hview⟩ := irqKeyboard_eq s
    subst h1
    exact ⟨s', hs', hdevices, hview⟩
  · rw [if_neg h1, if_neg h1]
    by_cases h0 : k = 0
    · rw [if_pos h0, if_pos h0]
      exact ⟨_, rfl, rfl, rfl⟩
    · rw [if_neg h0, if_neg h0]
      exact ⟨_, rfl, rfl, rfl⟩

/-! ### The controllers -/

/-- What is in service, in both controllers. -/
def Devices.inService (d : Devices) : UInt16 :=
  d.pics.master.isr.toUInt16 ||| d.pics.slave.isr.toUInt16 <<< 8

theorem picReadIsr_eq (d : Devices) : picReadIsr d = (d.inService, d.select true true) := by
  have hmaster : outport8 0x20 0x0B d = { d with pics :=
      { d.pics with master := { d.pics.master with readsIsr := true } } } := by
    rw [outport8, if_pos rfl, Chip.writeCommand_readIsr]
  have hslave : ∀ d : Devices, outport8 0xA0 0x0B d = { d with pics :=
      { d.pics with slave := { d.pics.slave with readsIsr := true } } } := fun d => by
    rw [outport8, if_neg (by decide), if_neg (by decide), if_pos rfl, Chip.writeCommand_readIsr]
  have hports : picMaster + picCommand = 0x20 ∧ picSlave + picCommand = 0xA0 := by decide
  have hreads : inport8 0x20 (d.select true true) = d.pics.master.isr ∧
      inport8 0xA0 (d.select true true) = d.pics.slave.isr := by
    constructor
    · rw [inport8, if_pos rfl]
      rfl
    · rw [inport8, if_neg (by decide), if_neg (by decide), if_pos rfl]
      rfl
  rw [picReadIsr, hports.1, hports.2, picReadIsrCommand, hmaster, hslave]
  change ((inport8 0x20 (d.select true true)).toUInt16 <<< 0 |||
    (inport8 0xA0 (d.select true true)).toUInt16 <<< 8, d.select true true) = _
  rw [hreads.1, hreads.2, UInt16.shiftLeft_zero, Devices.inService]

/-- Asking for a spurious interrupt changes nothing but the selection. -/
theorem irqIsSpurious_eq (irq n : UInt8) (d : Devices) :
    ∃ b b', irqIsSpurious irq n d =
      (decide (irq = n ∧ d.inService &&& 1 <<< n.toUInt16 = 0), d.select b b') := by
  rw [irqIsSpurious]
  by_cases hirq : irq = n
  · refine ⟨true, true, ?_⟩
    rw [if_pos hirq, picReadIsr_eq]
    simp [hirq]
  · refine ⟨d.pics.master.readsIsr, d.pics.slave.readsIsr, ?_⟩
    rw [if_neg hirq]
    simp only [hirq, false_and, decide_false]
    rfl

/-- Line 7 of the master, when it is not in service. -/
theorem irqHandler_spurious (h : s.devices.inService &&& 1 <<< (7 : UInt8).toUInt16 = 0) :
    ∃ b b', irqHandler 39 s = some { s with devices := s.devices.select b b' } := by
  obtain ⟨b, b', hspurious⟩ := irqIsSpurious_eq 7 7 s.devices
  refine ⟨b, b', ?_⟩
  have hyes : decide ((7 : UInt8) = 7 ∧ s.devices.inService &&& 1 <<< (7 : UInt8).toUInt16 = 0) =
      true := decide_eq_true ⟨rfl, h⟩
  rw [irqHandler, show UInt8.ofNat (39 - 32) = 7 from rfl, hspurious, hyes]
  rfl

/-- Line 7 of the slave, when it is not in service. -/
theorem irqHandler_spurious_slave (h : s.devices.inService &&& 1 <<< (15 : UInt8).toUInt16 = 0) :
    ∃ b b', irqHandler 47 s =
      some { s with devices := picEoiMaster (s.devices.select b b') } := by
  obtain ⟨b₁, b₁', hfirst⟩ := irqIsSpurious_eq 15 7 s.devices
  obtain ⟨b, b', hsecond⟩ := irqIsSpurious_eq 15 15 (s.devices.select b₁ b₁')
  refine ⟨b, b', ?_⟩
  have hno : decide ((15 : UInt8) = 7 ∧ s.devices.inService &&& 1 <<< (7 : UInt8).toUInt16 = 0) =
      false := decide_eq_false fun h => absurd h.1 (by decide)
  have hyes : decide ((15 : UInt8) = 15 ∧
      (s.devices.select b₁ b₁').inService &&& 1 <<< (15 : UInt8).toUInt16 = 0) = true :=
    decide_eq_true ⟨rfl, h⟩
  rw [irqHandler, show UInt8.ofNat (47 - 32) = 15 from rfl, hfirst, hno]
  dsimp only
  rw [if_neg Bool.false_ne_true, hsecond, hyes]
  rfl

/-- Any line that is in service. -/
theorem irqHandler_real (k : Fin 16)
    (h7 : k = 7 → s.devices.inService &&& 1 <<< (7 : UInt8).toUInt16 ≠ 0)
    (h15 : k = 15 → s.devices.inService &&& 1 <<< (15 : UInt8).toUInt16 ≠ 0) :
    ∃ s' b b', irqHandler (32 + k) s = some s' ∧
      s'.devices = picEoiMaster (if 8 ≤ k.1 then picEoiSlave (s.devices.select b b')
        else s.devices.select b b') ∧
      s'.view = (if k = 0 then [.tick]
        else if k = 1 then [.key s.devices.scancode] else []).foldl InputView.apply s.view := by
  have hirq : 32 + k.1 - 32 = k := by omega
  obtain ⟨-, -, hne7, hne15, h8⟩ := ofNat_irq k
  obtain ⟨b₁, b₁', hfirst⟩ := irqIsSpurious_eq (UInt8.ofNat k) 7 s.devices
  obtain ⟨b, b', hsecond⟩ := irqIsSpurious_eq (UInt8.ofNat k) 15 (s.devices.select b₁ b₁')
  have hno7 : decide (UInt8.ofNat k = 7 ∧
      s.devices.inService &&& 1 <<< (7 : UInt8).toUInt16 = 0) = false :=
    decide_eq_false fun h => h7 (hne7.mp h.1) h.2
  have hno15 : decide (UInt8.ofNat k = 15 ∧
      (s.devices.select b₁ b₁').inService &&& 1 <<< (15 : UInt8).toUInt16 = 0) = false :=
    decide_eq_false fun h => h15 (hne15.mp h.1) h.2
  obtain ⟨s₁, hserve, hdevices, hview⟩ :=
    irqService_eq k { s with devices := (s.devices.select b₁ b₁').select b b' }
  refine ⟨{ s₁ with devices := picEoiMaster (if 8 ≤ k.1 then picEoiSlave s₁.devices
    else s₁.devices) }, b, b', ?_, ?_, hview⟩
  · rw [irqHandler, hirq, hfirst, hno7]
    dsimp only
    rw [if_neg Bool.false_ne_true, hsecond, hno15]
    dsimp only
    rw [if_neg Bool.false_ne_true, hserve, Option.map_some]
    simp only [h8]
  · rw [hdevices]
    rfl

/-- The end of an interrupt for a chip that has nothing in service but the line `n`. -/
theorem picEoiMaster_serve {c : Chip} {n : Fin 8} (h : d.pics.master = c.serve n)
    (hisr : c.isr = 0) (hauto : c.autoEoi = false) :
    picEoiMaster d = { d with pics := { d.pics with
      master := { c with irr := c.irr &&& ~~~lineBit n } } } := by
  rw [picEoiMaster, outport8, if_pos (by decide), picCmdEndintr, h, Chip.end_serve hisr hauto]

theorem picEoiSlave_serve {c : Chip} {n : Fin 8} (h : d.pics.slave = c.serve n)
    (hisr : c.isr = 0) (hauto : c.autoEoi = false) :
    picEoiSlave d = { d with pics := { d.pics with
      slave := { c with irr := c.irr &&& ~~~lineBit n } } } := by
  rw [picEoiSlave, outport8, if_neg (by decide), if_neg (by decide), if_pos (by decide),
    picCmdEndintr, h, Chip.end_serve hisr hauto]

/-! ### One interrupt -/

/-- A hardware interrupt is handed to `irq_handler`. -/
theorem interruptHandler_eq (k : Fin 16) (s : IrqState) :
    interruptHandler (32 + k) s = irqHandler (32 + k) s :=
  if_pos ⟨by omega, by omega⟩

/-- The vectors of the two controllers. -/
theorem vector_toNat (n : Fin 8) :
    ((32 : UInt8) ||| UInt8.ofNat n).toNat = 32 + n ∧
      ((40 : UInt8) ||| UInt8.ofNat n).toNat = 40 + n := by
  revert n
  decide

/-- The slave is at line 2. -/
theorem on_cascade (n : Fin 8) : On 4 n ↔ n = slaveLine := by
  revert n
  decide

theorem IrqInv.serve_isr (h : IrqInv d) (n k : Fin 8) :
    (d.pics.master.serve n).isr = lineBit n ∧ (d.pics.slave.serve k).isr = lineBit k := by
  constructor
  · rw [Chip.serve, h.idle.1, h.master.autoEoi]
    exact UInt8.zero_or
  · rw [Chip.serve, h.idle.2, h.slave.autoEoi]
    exact UInt8.zero_or

/-- The next interrupt has an outcome, which clears the request and leaves nothing in service. -/
def IrqState.Served (s : IrqState) : Prop :=
  ∃ s' b b', irqExec s .interrupt = some s' ∧ s'.devices = s.devices.served.select b b' ∧
    s'.view = (s.told .interrupt).foldl InputView.apply s.view

/-- The state in which the handler finds the devices. -/
def IrqState.withPics (s : IrqState) (pics : Cascade) : IrqState :=
  { s with devices := { s.devices with pics := pics } }

/-- The processor takes an interrupt of the line `k`. -/
theorem irqExec_interrupt {vector : UInt8} {pics : Cascade} {k : Fin 16}
    (hack : s.devices.pics.acknowledge = (vector, pics)) (hvector : vector.toNat = 32 + k) :
    irqExec s .interrupt = irqHandler (32 + k) (s.withPics pics) := by
  rw [irqExec, hack]
  dsimp only
  rw [hvector, interruptHandler_eq]
  rfl

/-- Line 7 of the master, spurious. -/
theorem IrqInv.served_none (h : IrqInv s.devices)
    (hpending : s.devices.pics.master.pending = none) : s.Served := by
  have hack : s.devices.pics.acknowledge =
      (s.devices.pics.master.vector (Fin.last 7), s.devices.pics) := by
    simp only [Cascade.acknowledge, hpending]
  have hvector : (s.devices.pics.master.vector (Fin.last 7)).toNat = 32 + (7 : Fin 16) := by
    rw [Chip.vector, h.master.offset]
    rfl
  have hserved : s.devices.served = s.devices := by simp only [Devices.served, hpending]
  have hrequest : s.devices.request = none := by simp only [Devices.request, hpending]
  have hservice : s.devices.inService = 0 := by
    rw [Devices.inService, h.idle.1, h.idle.2]
    rfl
  obtain ⟨b, b', hirq⟩ := irqHandler_spurious (s := s) (by rw [hservice]; rfl)
  refine ⟨_, b, b', (irqExec_interrupt hack hvector).trans hirq, ?_, ?_⟩
  · rw [hserved]
  · rw [IrqState.told, hrequest]
    rfl

/-- Line 7 of the slave, spurious: the master has the line of the slave in service. -/
theorem IrqInv.served_slave_none (h : IrqInv s.devices)
    (hpending : s.devices.pics.master.pending = some slaveLine)
    (hbehind : s.devices.pics.slave.pending = none) : s.Served := by
  have hon : On s.devices.pics.master.cascade slaveLine := by
    rw [h.master.cascade]
    decide
  have hack : s.devices.pics.acknowledge = (s.devices.pics.slave.vector (Fin.last 7),
      { s.devices.pics with master := s.devices.pics.master.serve slaveLine }) := by
    simp only [Cascade.acknowledge, hpending, if_pos hon, hbehind]
  have hvector : (s.devices.pics.slave.vector (Fin.last 7)).toNat = 32 + (15 : Fin 16) := by
    rw [Chip.vector, h.slave.offset]
    rfl
  have hrequest : s.devices.request = none := by
    simp only [Devices.request, hpending, hbehind, if_true, Option.map_none]
  have hservice : (s.withPics { s.devices.pics with
      master := s.devices.pics.master.serve slaveLine }).devices.inService = 4 := by
    change (s.devices.pics.master.serve slaveLine).isr.toUInt16 |||
      s.devices.pics.slave.isr.toUInt16 <<< 8 = 4
    rw [(h.serve_isr slaveLine slaveLine).1, h.idle.2]
    decide
  obtain ⟨b, b', hirq⟩ := irqHandler_spurious_slave (s := s.withPics { s.devices.pics with
    master := s.devices.pics.master.serve slaveLine }) (by rw [hservice]; rfl)
  refine ⟨_, b, b', (irqExec_interrupt hack hvector).trans hirq, ?_, ?_⟩
  · let c : Chip := { s.devices.pics.master with readsIsr := b }
    rw [picEoiMaster_serve (c := c) (n := slaveLine) rfl h.idle.1 h.master.autoEoi]
    simp only [Devices.served, hpending, hbehind, if_true, Devices.select]
    rfl
  · rw [IrqState.told, hrequest]
    rfl

/-- A line of the slave: it is in service in both controllers. -/
theorem IrqInv.served_slave (h : IrqInv s.devices) {k : Fin 8}
    (hpending : s.devices.pics.master.pending = some slaveLine)
    (hbehind : s.devices.pics.slave.pending = some k) : s.Served := by
  let pics : Cascade := ⟨s.devices.pics.master.serve slaveLine, s.devices.pics.slave.serve k⟩
  let irq : Fin 16 := ⟨8 + k, by omega⟩
  have hon : On s.devices.pics.master.cascade slaveLine := by
    rw [h.master.cascade]
    decide
  have hack : s.devices.pics.acknowledge = (s.devices.pics.slave.vector k, pics) := by
    simp only [Cascade.acknowledge, hpending, if_pos hon, hbehind, pics]
  have hvector : (s.devices.pics.slave.vector k).toNat = 32 + irq := by
    rw [Chip.vector, h.slave.offset, (vector_toNat k).2]
    simp only [irq]
    omega
  have hrequest : s.devices.request = some irq := by
    simp only [Devices.request, hpending, hbehind, if_true, Option.map_some, irq]
  have hservice : (s.withPics pics).devices.inService =
      (lineBit slaveLine).toUInt16 ||| (lineBit k).toUInt16 <<< 8 := by
    change (s.devices.pics.master.serve slaveLine).isr.toUInt16 |||
      (s.devices.pics.slave.serve k).isr.toUInt16 <<< 8 = _
    rw [(h.serve_isr slaveLine k).1, (h.serve_isr slaveLine k).2]
  have hspurious : irq = 15 →
      (s.withPics pics).devices.inService &&& 1 <<< (15 : UInt8).toUInt16 ≠ 0 := by
    intro hirq
    have hk : k = 7 := by
      have := congrArg Fin.val hirq
      simp only [irq] at this
      omega
    rw [hservice, hk]
    decide
  obtain ⟨s', b, b', hirq, hdevices, hview⟩ := irqHandler_real (s := s.withPics pics) irq
    (fun h7 => absurd (congrArg Fin.val h7) (by simp only [irq]; omega)) hspurious
  refine ⟨s', b, b', (irqExec_interrupt hack hvector).trans hirq, ?_, ?_⟩
  · let master : Chip := { s.devices.pics.master with readsIsr := b }
    let slave : Chip := { s.devices.pics.slave with readsIsr := b' }
    rw [hdevices, if_pos (Nat.le_add_right 8 k),
      picEoiSlave_serve (c := slave) (n := k) rfl h.idle.2 h.slave.autoEoi,
      picEoiMaster_serve (c := master) (n := slaveLine) rfl h.idle.1 h.master.autoEoi]
    simp only [Devices.served, hpending, hbehind, if_true, Devices.select]
    rfl
  · simp only [IrqState.told, hrequest, Option.some_inj]
    exact hview

/-- A line of the master itself. -/
theorem IrqInv.served_master (h : IrqInv s.devices) {n : Fin 8}
    (hpending : s.devices.pics.master.pending = some n) (hn : n ≠ slaveLine) : s.Served := by
  let pics : Cascade := { s.devices.pics with master := s.devices.pics.master.serve n }
  let irq : Fin 16 := ⟨n, by omega⟩
  have hoff : ¬On s.devices.pics.master.cascade n := by
    rw [h.master.cascade, on_cascade]
    exact hn
  have hack : s.devices.pics.acknowledge = (s.devices.pics.master.vector n, pics) := by
    simp only [Cascade.acknowledge, hpending, if_neg hoff, pics]
  have hvector : (s.devices.pics.master.vector n).toNat = 32 + irq := by
    rw [Chip.vector, h.master.offset, (vector_toNat n).1]
  have hrequest : s.devices.request = some irq := by
    simp only [Devices.request, hpending, if_neg hn, irq]
  have hservice : (s.withPics pics).devices.inService = (lineBit n).toUInt16 := by
    change (s.devices.pics.master.serve n).isr.toUInt16 |||
      s.devices.pics.slave.isr.toUInt16 <<< 8 = _
    rw [(h.serve_isr n n).1, h.idle.2]
    exact UInt16.or_zero
  have hspurious : irq = 7 →
      (s.withPics pics).devices.inService &&& 1 <<< (7 : UInt8).toUInt16 ≠ 0 := by
    intro hirq
    have hval : irq.1 = 7 := congrArg Fin.val hirq
    have hk : n = 7 := Fin.ext hval
    rw [hservice, hk]
    decide
  have hlt : irq.1 < 8 := n.isLt
  obtain ⟨s', b, b', hirq, hdevices, hview⟩ := irqHandler_real (s := s.withPics pics) irq
    hspurious (fun h15 => absurd (congrArg Fin.val h15) (by simp only [irq]; omega))
  refine ⟨s', b, b', (irqExec_interrupt hack hvector).trans hirq, ?_, ?_⟩
  · let master : Chip := { s.devices.pics.master with readsIsr := b }
    rw [hdevices, if_neg (by omega),
      picEoiMaster_serve (c := master) (n := n) rfl h.idle.1 h.master.autoEoi]
    simp only [Devices.served, hpending, if_neg hn, Devices.select]
    rfl
  · simp only [IrqState.told, hrequest, Option.some_inj]
    exact hview

/-- **One interrupt.** Whatever the processor acknowledges between two handlers, the handler runs to
its end, clears the request and leaves nothing in service, and only the service of the timer and
of the keyboard is to be seen. -/
theorem IrqInv.served (h : IrqInv s.devices) : s.Served := by
  cases hpending : s.devices.pics.master.pending with
  | none => exact h.served_none hpending
  | some n =>
    by_cases hn : n = slaveLine
    · subst hn
      cases hbehind : s.devices.pics.slave.pending with
      | none => exact h.served_slave_none hpending hbehind
      | some k => exact h.served_slave hpending hbehind
    · exact h.served_master hpending hn

end ChalesOs
