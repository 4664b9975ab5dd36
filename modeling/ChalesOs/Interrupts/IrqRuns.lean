import ChalesOs.Interrupts.Irq

/-!
# Runs of the interrupt handlers

What holds of the interrupt controllers, the clock and the keyboard buffer over whole runs.
`interrupt_serves` says that no interrupt blocks another one and that they come in the order of
their priorities. `irq_history` says that the clock, the queue of characters and the keys that are
held are those of the requests that were served, each of them once and in order.
-/

namespace ChalesOs

open BoundedQueue Pic8259

variable {d : Devices} {s : IrqState}

/-! ### Runs -/

theorem IrqInv.congr {d' : Devices} (h : IrqInv d)
    (hmaster : ∃ irr b, d'.pics.master = { d.pics.master with irr := irr, readsIsr := b })
    (hslave : ∃ irr b, d'.pics.slave = { d.pics.slave with irr := irr, readsIsr := b }) :
    IrqInv d' := by
  obtain ⟨irr, b, hmaster⟩ := hmaster
  obtain ⟨irr', b', hslave⟩ := hslave
  refine ⟨?_, ?_, ?_, ?_⟩
  · rw [hmaster]
    exact ⟨h.master.offset, h.master.cascade, h.master.autoEoi, h.master.expecting⟩
  · rw [hslave]
    exact ⟨h.slave.offset, h.slave.cascade, h.slave.autoEoi, h.slave.expecting⟩
  · rw [Cascade.Idle, hmaster, hslave]
    exact h.idle
  · rw [hmaster, hslave]
    exact h.unmasked

/-- The service of a request changes the request registers only. -/
theorem served_chips (d : Devices) :
    (∃ irr, d.served.pics.master = { d.pics.master with irr := irr }) ∧
      (∃ irr, d.served.pics.slave = { d.pics.slave with irr := irr }) ∧
      d.served.scancode = d.scancode := by
  rw [Devices.served]
  split
  · exact ⟨⟨_, rfl⟩, ⟨_, rfl⟩, rfl⟩
  · dsimp only
    split
    · split
      · exact ⟨⟨_, rfl⟩, ⟨_, rfl⟩, rfl⟩
      · exact ⟨⟨_, rfl⟩, ⟨_, rfl⟩, rfl⟩
    · exact ⟨⟨_, rfl⟩, ⟨_, rfl⟩, rfl⟩

/-- One event. -/
theorem IrqInv.exec (h : IrqInv s.devices) (e : IrqEvent) :
    ∃ s', irqExec s e = some s' ∧ IrqInv s'.devices ∧
      s'.view = (s.told e).foldl InputView.apply s.view := by
  cases e with
  | lines master slave => exact ⟨_, rfl, h.congr ⟨_, _, rfl⟩ ⟨_, _, rfl⟩, rfl⟩
  | code scancode => exact ⟨_, rfl, h.congr ⟨_, _, rfl⟩ ⟨_, _, rfl⟩, rfl⟩
  | interrupt =>
    obtain ⟨s', b, b', hexec, hdevices, hview⟩ := h.served
    obtain ⟨⟨irr, hmaster⟩, ⟨irr', hslave⟩, -⟩ := served_chips s.devices
    refine ⟨s', hexec, h.congr ⟨irr, b, ?_⟩ ⟨irr', b', ?_⟩, hview⟩
    · rw [hdevices, Devices.select, hmaster]
    · rw [hdevices, Devices.select, hslave]
  | getchar =>
    refine ⟨_, rfl, h, ?_⟩
    have htaken : (getchar s.keyboard).2.contents = s.keyboard.contents.tail := by
      cases hq : s.keyboard.contents with
      | nil => rw [getchar_of_contents_eq_nil hq, hq, List.tail_nil]
      | cons c l =>
        obtain ⟨q', hq', hl⟩ := getchar_of_contents_eq_cons hq
        rw [hq', hl, List.tail_cons]
    rw [IrqState.view, htaken]
    rfl

theorem irqInv_devicesInitialize (d : Devices) : IrqInv (devicesInitialize d) := by
  let start := timerInitialize (picInitialize d)
  have hpics : start.pics =
      ⟨⟨32, 4, 0, 0, 0, false, false, .mask⟩, ⟨40, 2, 0, 0, 0, false, false, .mask⟩⟩ := by
    simp only [start, timerInitialize_eq, picInitialize_eq]
  have htakes : start.TakesMasks := by
    rw [Devices.TakesMasks, hpics]
    exact ⟨rfl, rfl⟩
  have htimer : picClearMask 0 start = maskCall (0, false) start := rfl
  have hkeyboard : ∀ d, picClearMask 1 d = maskCall (1, false) d := fun _ => rfl
  have hdevices : (devicesInitialize d).pics = start.pics := by
    rw [devicesInitialize, htimer, hkeyboard,
      maskCall_master (isMasked_maskCall htakes 0 0 false).1 (k := 1) (by decide),
      maskCall_master htakes (k := 0) (by decide)]
    dsimp only
    rw [hpics]
    rfl
  refine ⟨?_, ?_, ?_, ?_⟩
  all_goals rw [hdevices, hpics]
  · exact ⟨rfl, rfl, rfl, rfl⟩
  · exact ⟨rfl, rfl, rfl, rfl⟩
  · exact ⟨rfl, rfl⟩
  · exact ⟨rfl, rfl⟩

theorem irqInv_of_reachable (h : irqSystem.Reachable s) : IrqInv s.devices := by
  refine h.invariant (p := fun s => IrqInv s.devices) ?_ ?_
  · rintro s ⟨d, rfl⟩
    exact irqInv_devicesInitialize d
  · intro s e s' hs _ hstep
    obtain ⟨s₁, hexec, hinv, -⟩ := hs.exec e
    obtain rfl := Option.some_injective _ (hexec.symm.trans hstep)
    exact hinv

/-! ### Priorities -/

/-- The lines of a controller that are requested and not masked. -/
def wanted (c : Chip) : UInt8 := c.irr &&& ~~~c.imr

/-- The line is requested and not masked, at both controllers if it is one of the slave. -/
def Devices.Requests (d : Devices) (k : Fin 16) : Prop :=
  if h : k.1 < 8 then k.1 ≠ 2 ∧ On (wanted d.pics.master) ⟨k, h⟩
  else On (wanted d.pics.master) slaveLine ∧ On (wanted d.pics.slave) ⟨k - 8, sub_eight_lt h⟩

/-- When the slave asks for an interrupt at the master, it has one. -/
def Devices.SlaveAsks (d : Devices) : Prop :=
  On (wanted d.pics.master) slaveLine → ∃ k, On (wanted d.pics.slave) k

/-- The lines of the slave come where its line at the master is. -/
def irqPriority (k : Fin 16) : ℕ := if 8 ≤ k.1 then k - 6 else if 2 < k.1 then k + 7 else k

/-- A line of the master itself. -/
theorem requests_master {k : Fin 16} (hk : k.1 < 8) :
    d.Requests k ↔ k.1 ≠ 2 ∧ On (wanted d.pics.master) ⟨k, hk⟩ := by
  rw [Devices.Requests, dif_pos hk]

/-- A line of the slave. -/
theorem requests_slave {k : Fin 16} (hk : ¬k.1 < 8) :
    d.Requests k ↔
      On (wanted d.pics.master) slaveLine ∧ On (wanted d.pics.slave) ⟨k - 8, sub_eight_lt hk⟩ := by
  rw [Devices.Requests, dif_neg hk]

/-- A controller without the request of a line. -/
def cleared (c : Chip) (n : Fin 8) : Chip := { c with irr := c.irr &&& ~~~lineBit n }

theorem on_wanted_cleared {c : Chip} {n k : Fin 8} :
    On (wanted (cleared c n)) k ↔ On (wanted c) k ∧ k ≠ n := by
  rw [wanted, wanted, cleared, on_and_not, on_and_not, on_and_not, on_lineBit]
  tauto

/-- The request the processor gets to see and its service, by cases. -/
theorem IrqInv.request_cases (h : IrqInv d) :
    first (wanted d.pics.master) = none ∧ d.request = none ∧ d.served = d ∨
    first (wanted d.pics.master) = some slaveLine ∧ first (wanted d.pics.slave) = none ∧
      d.request = none ∧
      d.served = { d with pics := { d.pics with master := cleared d.pics.master slaveLine } } ∨
    (∃ k : Fin 8, first (wanted d.pics.master) = some slaveLine ∧
      first (wanted d.pics.slave) = some k ∧ d.request = some ⟨8 + k.1, slave_lt k⟩ ∧
      d.served = { d with pics := ⟨cleared d.pics.master slaveLine, cleared d.pics.slave k⟩ }) ∨
    ∃ n : Fin 8, first (wanted d.pics.master) = some n ∧ n ≠ slaveLine ∧
      d.request = some ⟨n, master_lt n⟩ ∧
      d.served = { d with pics := { d.pics with master := cleared d.pics.master n } } := by
  have hmaster : d.pics.master.pending = first (wanted d.pics.master) :=
    Chip.pending_of_idle h.idle.1
  have hslave : d.pics.slave.pending = first (wanted d.pics.slave) :=
    Chip.pending_of_idle h.idle.2
  rw [Devices.request, Devices.served, hmaster, hslave]
  cases hm : first (wanted d.pics.master) with
  | none => exact Or.inl ⟨rfl, rfl, rfl⟩
  | some n =>
    refine Or.inr ?_
    by_cases hn : n = slaveLine
    · subst hn
      cases hs : first (wanted d.pics.slave) with
      | none => exact Or.inl ⟨rfl, rfl, rfl, rfl⟩
      | some k => exact Or.inr (Or.inl ⟨k, rfl, rfl, rfl, rfl⟩)
    · exact Or.inr (Or.inr ⟨n, rfl, hn, if_neg hn, if_neg hn⟩)

/-- What the processor gets to see is a request, the one of the highest priority. -/
theorem IrqInv.request_some (h : IrqInv d) {k : Fin 16} (hk : d.request = some k) :
    d.Requests k ∧ ∀ j, d.Requests j → irqPriority k ≤ irqPriority j := by
  rcases h.request_cases with ⟨-, hnone, -⟩ | ⟨-, -, hnone, -⟩ | ⟨i, hm, hs, hsome, -⟩ |
    ⟨n, hm, hn, hsome, -⟩
  · simp [hnone] at hk
  · simp [hnone] at hk
  · obtain rfl := Option.some_injective _ (hsome.symm.trans hk)
    obtain ⟨hon, hfirst⟩ := first_eq_some.mp hm
    obtain ⟨hon', hfirst'⟩ := first_eq_some.mp hs
    have hcode : (⟨8 + i.1 - 8, by omega⟩ : Fin 8) = i := Fin.ext (Nat.add_sub_cancel_left ..)
    refine ⟨(requests_slave (by simp)).mpr ⟨hon, by rw [hcode]; exact hon'⟩, fun j hj => ?_⟩
    by_cases hj8 : j.1 < 8
    · -- a line of the master that is requested comes behind line 2
      obtain ⟨hne, hjon⟩ := (requests_master hj8).mp hj
      have hge : ¬j.1 < 2 := fun hlt => hfirst ⟨j, hj8⟩ (Fin.lt_def.mpr hlt) hjon
      simp only [irqPriority]
      split_ifs <;> omega
    · obtain ⟨-, hjon⟩ := (requests_slave hj8).mp hj
      have hge : ¬j.1 - 8 < i := fun hlt => hfirst' ⟨j - 8, by omega⟩ (Fin.lt_def.mpr hlt) hjon
      simp only [irqPriority]
      split_ifs <;> omega
  · obtain rfl := Option.some_injective _ (hsome.symm.trans hk)
    obtain ⟨hon, hfirst⟩ := first_eq_some.mp hm
    have hn2 : n.1 ≠ 2 := fun h => hn (Fin.ext h)
    refine ⟨(requests_master n.isLt).mpr ⟨hn2, hon⟩, fun j hj => ?_⟩
    by_cases hj8 : j.1 < 8
    · obtain ⟨hne, hjon⟩ := (requests_master hj8).mp hj
      have hge : ¬j.1 < n := fun hlt => hfirst ⟨j, hj8⟩ (Fin.lt_def.mpr hlt) hjon
      simp only [irqPriority]
      split_ifs <;> omega
    · -- line 2 is requested, so the first one is before it
      obtain ⟨hon2, -⟩ := (requests_slave hj8).mp hj
      have hge : ¬2 < n.1 := fun hlt => hfirst 2 (Fin.lt_def.mpr hlt) hon2
      simp only [irqPriority]
      split_ifs <;> omega

/-- Nothing is to be seen only if nothing is requested, or if the slave has withdrawn. -/
theorem IrqInv.request_none (h : IrqInv d) (hasks : d.SlaveAsks) (hnone : d.request = none)
    (j : Fin 16) : ¬d.Requests j := by
  rcases h.request_cases with ⟨hm, -⟩ | ⟨hm, hs, -⟩ | ⟨i, -, -, hsome, -⟩ | ⟨n, -, -, hsome, -⟩
  · have hoff := first_eq_none.mp hm
    intro hj
    by_cases hj8 : j.1 < 8
    · exact hoff _ ((requests_master hj8).mp hj).2
    · exact hoff _ ((requests_slave hj8).mp hj).1
  · obtain ⟨k, hk⟩ := hasks (first_eq_some.mp hm).1
    exact absurd hk (first_eq_none.mp hs k)
  · simp [hnone] at hsome
  · simp [hnone] at hsome

/-- What is still requested behind a service was requested before, and has not been served. -/
theorem IrqInv.requests_served (h : IrqInv d) {b b' : Bool} {j : Fin 16}
    (hj : (d.served.select b b').Requests j) : d.Requests j ∧ d.request ≠ some j := by
  rcases h.request_cases with ⟨-, hnone, hserved⟩ | ⟨-, -, hnone, hserved⟩ |
    ⟨i, -, -, hsome, hserved⟩ | ⟨n, -, -, hsome, hserved⟩
  · rw [hserved] at hj
    exact ⟨hj, by simp [hnone]⟩
  · rw [hserved] at hj
    refine ⟨?_, by simp [hnone]⟩
    by_cases hj8 : j.1 < 8
    · obtain ⟨hne, hon⟩ := (requests_master hj8).mp hj
      exact (requests_master hj8).mpr ⟨hne, (on_wanted_cleared.mp hon).1⟩
    · obtain ⟨hon, -⟩ := (requests_slave hj8).mp hj
      exact absurd rfl (on_wanted_cleared.mp hon).2
  · rw [hserved] at hj
    by_cases hj8 : j.1 < 8
    · obtain ⟨hne, hon⟩ := (requests_master hj8).mp hj
      refine ⟨(requests_master hj8).mpr ⟨hne, (on_wanted_cleared.mp hon).1⟩, fun hj' => ?_⟩
      have := congrArg Fin.val (Option.some_injective _ (hsome.symm.trans hj'))
      dsimp only at this
      omega
    · obtain ⟨hon, -⟩ := (requests_slave hj8).mp hj
      exact absurd rfl (on_wanted_cleared.mp hon).2
  · rw [hserved] at hj
    by_cases hj8 : j.1 < 8
    · obtain ⟨hne, hon⟩ := (requests_master hj8).mp hj
      obtain ⟨hon, hjn⟩ := on_wanted_cleared.mp hon
      refine ⟨(requests_master hj8).mpr ⟨hne, hon⟩, fun hj' => hjn ?_⟩
      have hval := congrArg Fin.val (Option.some_injective _ (hsome.symm.trans hj'))
      exact Fin.ext hval.symm
    · obtain ⟨hon, hon'⟩ := (requests_slave hj8).mp hj
      refine ⟨(requests_slave hj8).mpr ⟨(on_wanted_cleared.mp hon).1, hon'⟩, fun hj' => ?_⟩
      have := congrArg Fin.val (Option.some_injective _ (hsome.symm.trans hj'))
      dsimp only at this
      omega

/-! ### The results -/

/-- **Interrupts are served in order and ended.** In every reachable state the next interrupt is
handled to its end and leaves nothing in service. If the slave has not withdrawn, what is served is
the request of the highest priority, and there is one if anything is requested at all; what was
served is no longer requested, and nothing new is. -/
theorem interrupt_serves (h : irqSystem.Reachable s) :
    ∃ s', irqExec s .interrupt = some s' ∧ s'.devices.pics.Idle ∧
      (∀ k, s.devices.request = some k →
        s.devices.Requests k ∧ ∀ j, s.devices.Requests j → irqPriority k ≤ irqPriority j) ∧
      (s.devices.SlaveAsks → s.devices.request = none → ∀ j, ¬s.devices.Requests j) ∧
      ∀ j, s'.devices.Requests j → s.devices.Requests j ∧ s.devices.request ≠ some j := by
  have hinv := irqInv_of_reachable h
  obtain ⟨s', b, b', hexec, hdevices, -⟩ := hinv.served
  obtain ⟨⟨irr, hmaster⟩, ⟨irr', hslave⟩, -⟩ := served_chips s.devices
  refine ⟨s', hexec, ?_, fun k hk => hinv.request_some hk, hinv.request_none, fun j hj => ?_⟩
  · rw [hdevices, Devices.select, hmaster, hslave]
    exact hinv.idle
  · rw [hdevices] at hj
    exact hinv.requests_served hj

/-- The devices as the firmware may leave them. -/
def Devices.sample : Devices where
  pics :=
    ⟨⟨0x08, 0x04, 0xB8, 0, 0, false, false, .mask⟩, ⟨0x70, 0x02, 0x8F, 0, 0, false, false, .mask⟩⟩
  pit := ⟨0x36, none, 0⟩
  scancode := 0xFA
  other _ := 0xFF

/-- The state at `sti`. -/
def irqStart : IrqState := ⟨devicesInitialize Devices.sample, .empty, fun _ => 0, 0⟩

/-- `interrupt_serves` when the keyboard, the slave and line 7 ask for an interrupt. -/
theorem interrupt_serves_sample :
    ∃ s s', irqExec irqStart (.lines 0x86 0x01) = some s ∧ s.devices.request = some 1 ∧
      irqExec s .interrupt = some s' ∧ s'.devices.pics.Idle ∧ ¬s'.devices.Requests 1 := by
  have hrequest : ({ irqStart with devices := { irqStart.devices with
      pics := irqStart.devices.pics.request 0x86 0x01 } } : IrqState).devices.request =
      some 1 := by decide +kernel
  have hstart : irqSystem.Reachable irqStart := .start ⟨_, rfl⟩
  obtain ⟨s', hexec, hidle, -, -, hrequests⟩ :=
    interrupt_serves (hstart.step (i := .lines 0x86 0x01) trivial rfl)
  exact ⟨_, s', rfl, hrequest, hexec, hidle, fun h => (hrequests 1 h).2 hrequest⟩

/-- No character of the keyboard is `NUL`, the result of `getchar` on an empty buffer. -/
theorem decodedKey_ne_zero {scancode c : UInt8} (h : decodedKey scancode = some c) : c ≠ 0 := by
  rw [decodedKey] at h
  split_ifs at h with _ _ hascii
  · obtain rfl := Option.some_injective _ h
    decide
  · obtain rfl := Option.some_injective _ h
    decide
  · obtain rfl := Option.some_injective _ h
    exact hascii

theorem zero_notMem_apply {v : InputView} (h : (0 : UInt8) ∉ v.queue) (e : InputEvent) :
    (0 : UInt8) ∉ (v.apply e).queue := by
  cases e with
  | tick => exact h
  | key scancode =>
    rw [InputView.apply]
    split_ifs
    · cases hkey : decodedKey scancode with
      | none => exact h
      | some c =>
        rw [Option.elim_some, step]
        split_ifs
        · rw [List.mem_append, List.mem_singleton, not_or]
          exact ⟨h, (decodedKey_ne_zero hkey).symm⟩
        · exact h
    · exact h
  | taken => exact fun hmem => h (List.mem_of_mem_tail hmem)

/-- The calls of the keyboard buffer an event stands for. -/
def InputEvent.calls : InputEvent → List (Call UInt8)
  | .tick => []
  | .key scancode =>
    if scancode.toNat < 128 then (decodedKey scancode).toList.map .push else []
  | .taken => [.pop]

theorem queue_foldl (v : InputView) (es : List InputEvent) :
    (es.foldl InputView.apply v).queue =
      run keyboardBufferSize v.queue (es.flatMap InputEvent.calls) := by
  induction es generalizing v with
  | nil => rfl
  | cons e es ih =>
    have hstep : (v.apply e).queue = run keyboardBufferSize v.queue e.calls := by
      cases e with
      | tick => rfl
      | key scancode =>
        rw [InputView.apply, InputEvent.calls]
        split_ifs
        · cases decodedKey scancode <;> rfl
        · rfl
      | taken => rfl
    rw [List.foldl_cons, ih, hstep, List.flatMap_cons, run, run, run, List.foldl_append]

/-- No character of the buffer is `NUL`. -/
theorem zero_notMem_of_reachable (h : irqSystem.Reachable s) : (0 : UInt8) ∉ s.view.queue := by
  suffices IrqInv s.devices ∧ (0 : UInt8) ∉ s.view.queue from this.2
  refine h.invariant (p := fun s => IrqInv s.devices ∧ (0 : UInt8) ∉ s.view.queue) ?_ ?_
  · rintro s ⟨d, rfl⟩
    exact ⟨irqInv_devicesInitialize d, List.not_mem_nil⟩
  · rintro s e s' ⟨hs, hzero⟩ _ hstep
    obtain ⟨s₁, hexec, hinv, hview⟩ := hs.exec e
    obtain rfl := Option.some_injective _ (hexec.symm.trans hstep)
    refine ⟨hinv, ?_⟩
    rw [hview]
    generalize s.view = v at hzero
    induction s.told e generalizing v with
    | nil => exact hzero
    | cons e es ih => exact ih _ (zero_notMem_apply hzero e)

/-- **The clock, the queue and the keys.** Any events have an outcome from a reachable state. The
clock counts the timer interrupts served, modulo `2 ^ 32`; a key is held if the last code served for
it was a press; the buffer is the queue of 256 places that the pressed keys served were put into
and `getchar` has taken from. `getchar` returns `NUL` if and only if the buffer is empty. -/
theorem irq_history (h : irqSystem.Reachable s) (events : List IrqEvent) :
    ∃ s', irqSystem.runInputs s events = some s' ∧
      s'.view = (irqSystem.records IrqState.told s events).foldl InputView.apply s.view ∧
      s'.keyboard.contents = run keyboardBufferSize s.keyboard.contents
        ((irqSystem.records IrqState.told s events).flatMap InputEvent.calls) ∧
      ((getchar s'.keyboard).1 = 0 ↔ s'.keyboard.contents = []) := by
  have hrun : ∀ events s, irqSystem.Reachable s → ∃ s', irqSystem.Reachable s' ∧
      irqSystem.runInputs s events = some s' ∧
      s'.view = (irqSystem.records IrqState.told s events).foldl InputView.apply s.view := by
    intro events
    induction events with
    | nil => exact fun s hs => ⟨s, hs, rfl, rfl⟩
    | cons e events ih =>
      intro s hs
      obtain ⟨s₁, hexec, -, hview⟩ := (irqInv_of_reachable hs).exec e
      have hstep : irqSystem.step s e = some s₁ := hexec
      obtain ⟨s', hs', hrun, hview'⟩ := ih s₁ (hs.step trivial hexec)
      refine ⟨s', hs', ?_, ?_⟩
      · rw [StepSystem.runInputs, hstep]
        exact hrun
      · rw [StepSystem.records, hstep, List.foldl_append, ← hview]
        exact hview'
  obtain ⟨s', hs', hrun, hview⟩ := hrun events s h
  refine ⟨s', hrun, hview, ?_, ?_⟩
  · exact (congrArg InputView.queue hview).trans (queue_foldl s.view _)
  · cases hq : s'.keyboard.contents with
    | nil =>
      rw [getchar_of_contents_eq_nil hq]
      exact iff_of_true rfl rfl
    | cons c l =>
      obtain ⟨q', hget, -⟩ := getchar_of_contents_eq_cons hq
      rw [hget]
      refine iff_of_false (fun hc => zero_notMem_of_reachable hs' ?_) (List.cons_ne_nil c l)
      have hqueue : s'.view.queue = c :: l := hq
      have hc' : c = 0 := hc
      rw [hqueue, hc']
      exact List.mem_cons_self

/-- `irq_history` for a tick, a key that is pressed and taken, and its release. -/
theorem irq_history_sample :
    ∃ s', irqSystem.runInputs irqStart [.lines 0x03 0, .code 0x1E, .interrupt, .interrupt, .getchar,
        .code 0x9E, .lines 0x02 0, .interrupt] = some s' ∧
      s'.view.ticks = 1 ∧ s'.view.queue = [] ∧ s'.view.held 0x1E = false := by
  obtain ⟨s', hrun, hview, -⟩ := irq_history (s := irqStart) (.start ⟨_, rfl⟩)
    [.lines 0x03 0, .code 0x1E, .interrupt, .interrupt, .getchar, .code 0x9E, .lines 0x02 0,
      .interrupt]
  refine ⟨s', hrun, ?_, ?_, ?_⟩
  all_goals rw [hview]
  all_goals decide +kernel

end ChalesOs
