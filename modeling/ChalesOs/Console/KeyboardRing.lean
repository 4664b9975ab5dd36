import ChalesOs.Console.Keyboard
import ChalesOs.Lib.BoundedQueue

/-!
# The counters of the keyboard buffer

`keyboard.c` keeps the ring in an array and three `int`s that nothing ties together.
`KeyboardRing` is that bare state, on which an access outside of the array has no outcome. A
`Keyboard` is a bare state with consistent counters (`Keyboard.toRing`), and the operations of the
bare state are those of `Keyboard` on it (`push_toRing`, `pop_toRing`). From there a run of
operations is a run of a bounded queue (`run_toRing`).
-/

namespace ChalesOs

open ByteMemory BoundedQueue

/-- `keyboard_buffer`, `buffer_head`, `buffer_tail` and `buffer_count`. -/
structure KeyboardRing where
  keyboardBuffer : ℕ → UInt8
  bufferHead : ℤ
  bufferTail : ℤ
  bufferCount : ℤ

namespace KeyboardRing

/-- The variables as they are initialised. -/
def initial : KeyboardRing where
  keyboardBuffer _ := 0
  bufferHead := 0
  bufferTail := 0
  bufferCount := 0

/-- `keyboard_buffer_push`. -/
def keyboardBufferPush (c : UInt8) (r : KeyboardRing) : Option KeyboardRing :=
  if r.bufferCount < keyboardBufferSize then
    if 0 ≤ r.bufferTail then
      (store keyboardBufferSize r.keyboardBuffer r.bufferTail.toNat c).map fun buffer =>
        { r with
          keyboardBuffer := buffer
          bufferTail := (r.bufferTail + 1).tmod keyboardBufferSize
          bufferCount := r.bufferCount + 1 }
    else none
  else some r

/-- `keyboard_buffer_pop`. -/
def keyboardBufferPop (r : KeyboardRing) : Option (UInt8 × KeyboardRing) :=
  if r.bufferCount > 0 then
    if 0 ≤ r.bufferHead ∧ r.bufferHead < keyboardBufferSize then
      some (r.keyboardBuffer r.bufferHead.toNat,
        { r with
          bufferHead := (r.bufferHead + 1).tmod keyboardBufferSize
          bufferCount := r.bufferCount - 1 })
    else none
  else some (0, r)

/-- `keyboard_buffer_has_data`. -/
def keyboardBufferHasData (r : KeyboardRing) : Bool := r.bufferCount > 0

/-- One call: the ring behind it, and the character it returns if it is a pop. -/
def call (r : KeyboardRing) : Call UInt8 → Option (KeyboardRing × List UInt8)
  | .push c => (r.keyboardBufferPush c).map fun r => (r, [])
  | .pop => r.keyboardBufferPop.map fun p => (p.2, [p.1])

/-- A sequence of calls: the ring in the end, and the characters the pops return. -/
def runCalls : KeyboardRing → List (Call UInt8) → Option (KeyboardRing × List UInt8)
  | r, [] => some (r, [])
  | r, c :: calls =>
    (r.call c).bind fun p => (runCalls p.1 calls).map fun p' => (p'.1, p.2 ++ p'.2)

/-- The characters between head and tail, oldest first. -/
def contents (r : KeyboardRing) : List UInt8 :=
  (List.range r.bufferCount.toNat).map fun i =>
    r.keyboardBuffer ((r.bufferHead.toNat + i) % keyboardBufferSize)

/-- The counters agree with each other. -/
structure Consistent (r : KeyboardRing) : Prop where
  head_nonneg : 0 ≤ r.bufferHead
  head_lt : r.bufferHead < keyboardBufferSize
  count_nonneg : 0 ≤ r.bufferCount
  count_le : r.bufferCount ≤ keyboardBufferSize
  tail_eq : r.bufferTail = (r.bufferHead + r.bufferCount) % keyboardBufferSize

end KeyboardRing

/-- The bare state of a keyboard. -/
def Keyboard.toRing (q : Keyboard) : KeyboardRing where
  keyboardBuffer := q.buffer
  bufferHead := q.head
  bufferTail := q.tail
  bufferCount := q.count

variable {q : Keyboard} {c : UInt8}

theorem consistent_toRing : q.toRing.Consistent where
  head_nonneg := Int.natCast_nonneg _
  head_lt := Int.ofNat_lt.mpr q.head_lt
  count_nonneg := Int.natCast_nonneg _
  count_le := Int.ofNat_le.mpr q.count_le
  tail_eq := congrArg (Nat.cast : ℕ → ℤ) q.tail_eq

theorem contents_toRing : q.toRing.contents = q.contents := rfl

theorem hasData_toRing : q.toRing.keyboardBufferHasData = keyboardBufferHasData q := by
  simp [Keyboard.toRing, KeyboardRing.keyboardBufferHasData, keyboardBufferHasData]

/-- The remainder of a counter that is not negative. -/
private theorem tmod_succ (n : ℕ) :
    ((n : ℤ) + 1).tmod keyboardBufferSize = ((n + 1) % keyboardBufferSize : ℕ) := by
  rw [Int.tmod_eq_emod_of_nonneg (by omega)]
  norm_cast

/-- A push on consistent counters stays inside of the array. -/
theorem push_toRing :
    q.toRing.keyboardBufferPush c = some (keyboardBufferPush c q).toRing := by
  have htail : q.toRing.bufferTail.toNat < keyboardBufferSize :=
    q.tail_eq.trans_lt (Nat.mod_lt _ (by decide))
  rw [KeyboardRing.keyboardBufferPush, keyboardBufferPush]
  by_cases hroom : q.count < keyboardBufferSize
  · have hcount : q.toRing.bufferCount < keyboardBufferSize := Int.ofNat_lt.mpr hroom
    have hnonneg : 0 ≤ q.toRing.bufferTail := Int.natCast_nonneg _
    rw [if_pos hcount, if_pos hnonneg, dif_pos hroom, store_of_lt htail, Option.map_some,
      Option.some_inj]
    exact congrArg₂ (KeyboardRing.mk _ _) (tmod_succ _) rfl
  · have hcount : ¬q.toRing.bufferCount < keyboardBufferSize := mt Int.ofNat_lt.mp hroom
    rw [if_neg hcount, dif_neg hroom]

/-- A pop on consistent counters stays inside of the array. -/
theorem pop_toRing :
    q.toRing.keyboardBufferPop =
      some ((keyboardBufferPop q).1, (keyboardBufferPop q).2.toRing) := by
  rw [KeyboardRing.keyboardBufferPop, keyboardBufferPop]
  by_cases hdata : q.count > 0
  · have hcount : q.toRing.bufferCount > 0 := Int.natCast_pos.mpr hdata
    have hhead : 0 ≤ q.toRing.bufferHead ∧ q.toRing.bufferHead < keyboardBufferSize :=
      ⟨Int.natCast_nonneg _, Int.ofNat_lt.mpr q.head_lt⟩
    have hsub : (q.count : ℤ) - 1 = (q.count - 1 : ℕ) := by omega
    rw [if_pos hcount, if_pos hhead, dif_pos hdata]
    simp only [Keyboard.toRing, tmod_succ, hsub, Int.toNat_natCast]
  · have hcount : ¬q.toRing.bufferCount > 0 := mt Int.natCast_pos.mp hdata
    rw [if_neg hcount, dif_neg hdata]

/-- One call is a step of the queue. -/
theorem call_toRing (q : Keyboard) (op : Call UInt8) : ∃ q' : Keyboard,
    q.toRing.call op = some (q'.toRing, (resultOf q.contents op).map (·.getD 0)) ∧
      q'.contents = step keyboardBufferSize q.contents op := by
  have hlen : q.contents.length ≤ keyboardBufferSize := Keyboard.length_contents.trans_le q.count_le
  cases op with
  | push c =>
    refine ⟨keyboardBufferPush c q, ?_, ?_⟩
    · rw [KeyboardRing.call, push_toRing]
      rfl
    · rw [contents_push, step_push hlen]
  | pop =>
    refine ⟨(keyboardBufferPop q).2, ?_, ?_⟩
    · rw [KeyboardRing.call, pop_toRing]
      cases hq : q.contents with
      | nil => rw [pop_of_contents_eq_nil hq]; rfl
      | cons c l => rw [(pop_of_contents_eq_cons hq).2.1]; rfl
    · cases hq : q.contents with
      | nil => rw [pop_of_contents_eq_nil hq]; exact hq
      | cons c l => exact (pop_of_contents_eq_cons hq).2.2

/-- A run of calls is a run of the queue. -/
theorem run_toRing (q : Keyboard) (calls : List (Call UInt8)) : ∃ q' : Keyboard,
    q.toRing.runCalls calls =
        some (q'.toRing, (results keyboardBufferSize q.contents calls).map (·.getD 0)) ∧
      q'.contents = run keyboardBufferSize q.contents calls := by
  induction calls generalizing q with
  | nil => exact ⟨q, rfl, rfl⟩
  | cons op calls ih =>
    obtain ⟨q₁, hcall, hq₁⟩ := call_toRing q op
    obtain ⟨q₂, hrun, hq₂⟩ := ih q₁
    refine ⟨q₂, ?_, ?_⟩
    · rw [KeyboardRing.runCalls, hcall, Option.bind_some, hrun, Option.map_some, hq₁, results,
        List.map_append]
    · rw [hq₂, hq₁, run_cons]

/-- **The keyboard buffer.** Any sequence of calls keeps the counters consistent and returns what
a queue of 256 characters returns, with `0` for a pop of the empty queue. The characters accepted
are those that came out and those that are pending, each once and in order. -/
theorem keyboardRing_isQueue (calls : List (Call UInt8)) :
    ∃ r : KeyboardRing,
      KeyboardRing.initial.runCalls calls =
        some (r, (results keyboardBufferSize [] calls).map (·.getD 0)) ∧
      r.Consistent ∧ r.contents = run keyboardBufferSize [] calls ∧
      (r.keyboardBufferHasData = true ↔ run keyboardBufferSize [] calls ≠ []) ∧
      accepted keyboardBufferSize [] calls =
        (results keyboardBufferSize [] calls).reduceOption ++ run keyboardBufferSize [] calls := by
  obtain ⟨q, hrun, hq⟩ := run_toRing Keyboard.empty calls
  refine ⟨q.toRing, hrun, consistent_toRing, contents_toRing.trans hq, ?_,
    append_accepted (l := [])⟩
  rw [hasData_toRing, hasData_iff, hq]
  rfl

end ChalesOs
