import Mathlib.Data.List.Basic
import Mathlib.Data.Nat.ModEq
import ChalesOs.Abi
import ChalesOs.Lib.ArrayLoops
import ChalesOs.Memory.Words

/-!
# The keyboard buffer

`keyboard.c`: a ring of 256 characters between the keyboard interrupt and the system calls that
read from it. `Keyboard` carries the invariant of the ring, and `Keyboard.contents` is the queue it
stands for; a key that finds the ring full is lost.

`KeyInput` is the keyboard together with the keys still to come. The keyboard interrupts a program
between its system calls, so the keys come in batches, one in front of each poll.
`KeyInput.keys` is what the polls get to see: the keys in the order they were typed, less those
that found the ring full.
-/

namespace ChalesOs

open ByteMemory

/-- `KEYBOARD_BUFFER_SIZE`. -/
def keyboardBufferSize : ℕ := 256

/-- `keyboard_buffer`, `buffer_head`, `buffer_tail` and `buffer_count`. -/
structure Keyboard where
  buffer : ℕ → UInt8
  head : ℕ
  tail : ℕ
  count : ℕ
  head_lt : head < keyboardBufferSize
  count_le : count ≤ keyboardBufferSize
  tail_eq : tail = (head + count) % keyboardBufferSize

/-- The ring at the start of the kernel. -/
def Keyboard.empty : Keyboard where
  buffer _ := 0
  head := 0
  tail := 0
  count := 0
  head_lt := by decide
  count_le := by decide
  tail_eq := rfl

/-- `keyboard_buffer_push`. -/
def keyboardBufferPush (c : UInt8) (q : Keyboard) : Keyboard :=
  if h : q.count < keyboardBufferSize then
    { buffer := Function.update q.buffer q.tail c
      head := q.head
      tail := (q.tail + 1) % keyboardBufferSize
      count := q.count + 1
      head_lt := q.head_lt
      count_le := h
      tail_eq := by rw [q.tail_eq, Nat.mod_add_mod, Nat.add_assoc] }
  else q

/-- `keyboard_buffer_pop`. -/
def keyboardBufferPop (q : Keyboard) : UInt8 × Keyboard :=
  if h : q.count > 0 then
    let c := q.buffer q.head
    (c,
      { buffer := q.buffer
        head := (q.head + 1) % keyboardBufferSize
        tail := q.tail
        count := q.count - 1
        head_lt := Nat.mod_lt _ (by decide)
        count_le := (Nat.sub_le _ _).trans q.count_le
        tail_eq := by
          rw [q.tail_eq, Nat.mod_add_mod]
          congr 1
          omega })
  else (0, q)

/-- `keyboard_buffer_has_data`. -/
def keyboardBufferHasData (q : Keyboard) : Bool := q.count > 0

/-- `while (n < count && keyboard_buffer_has_data()) out[n++] = keyboard_buffer_pop();`, with `room`
characters of `count` left. -/
def sysReadLoop (count : ℕ) :
    (room n : ℕ) → (ℕ → UInt8) → Keyboard → Option (ℕ × (ℕ → UInt8) × Keyboard)
  | 0, n, out, q => some (n, out, q)
  | room + 1, n, out, q =>
    if keyboardBufferHasData q then
      let r := keyboardBufferPop q
      (store count out n r.1).bind fun out => sysReadLoop count room (n + 1) out r.2
    else some (n, out, q)

/-- `sys_read(CHALES_FD_STDIN, out, count)`: the result, what `out` points to, and the keyboard. -/
def sysRead (out : ℕ → UInt8) (count : ℕ) (q : Keyboard) : Option (ℤ × (ℕ → UInt8) × Keyboard) :=
  (sysReadLoop count count 0 out q).map fun r =>
    (if count = 0 then 0 else if r.1 ≠ 0 then (r.1 : ℤ) else -eAgain, r.2)

/-- The system call `getchar`, as a `char`. -/
def getchar (q : Keyboard) : UInt8 × Keyboard :=
  if keyboardBufferHasData q then keyboardBufferPop q else (0, q)

/-- The keyboard interrupts of some keys. -/
def keyboardInterrupts (keys : List UInt8) (q : Keyboard) : Keyboard :=
  keys.foldl (fun q c => keyboardBufferPush c q) q

/-! ### The queue -/

/-- The characters in the ring, oldest first. -/
def Keyboard.contents (q : Keyboard) : List UInt8 :=
  (List.range q.count).map fun i => q.buffer ((q.head + i) % keyboardBufferSize)

variable {q : Keyboard} {c : UInt8} {typed l l' : List UInt8} {out : ℕ → UInt8}
  {coming : List (List UInt8)} {n : ℕ}

theorem Keyboard.length_contents : q.contents.length = q.count := by
  rw [contents, List.length_map, List.length_range]

/-- Two places of the ring are different cells. -/
theorem ring_ne {i n : ℕ} (hi : i < n) (hn : n < keyboardBufferSize) :
    (q.head + i) % keyboardBufferSize ≠ (q.head + n) % keyboardBufferSize := by
  rw [keyboardBufferSize] at hn ⊢
  omega

/-- A key is put at the end of the queue, if there is room. -/
theorem contents_push :
    (keyboardBufferPush c q).contents = (q.contents ++ [c]).take keyboardBufferSize := by
  rw [keyboardBufferPush]
  split_ifs with hroom
  · rw [List.take_of_length_le (by
      rw [List.length_append, Keyboard.length_contents, List.length_singleton]; omega)]
    rw [Keyboard.contents, Keyboard.contents, List.range_succ, List.map_append, List.map_singleton]
    dsimp only
    rw [← q.tail_eq, Function.update_self]
    refine congrArg (· ++ [c]) (List.map_congr_left fun i hi => Function.update_of_ne ?_ _ _)
    rw [q.tail_eq]
    exact ring_ne (List.mem_range.mp hi) hroom
  · have hfull : q.contents.length = keyboardBufferSize :=
      Keyboard.length_contents.trans (le_antisymm q.count_le (not_lt.mp hroom))
    rw [← hfull, List.take_left]

/-- Cutting the front first does not matter. -/
private theorem take_take_append : (l.take n ++ l').take n = (l ++ l').take n := by
  rcases le_total l.length n with hle | hge
  · rw [List.take_of_length_le hle]
  · rw [List.take_append_of_le_length hge, List.take_append_of_le_length (by
      rw [List.length_take, min_eq_left hge]), List.take_take, min_self]

/-- The keys of several interrupts. -/
theorem contents_interrupts :
    (keyboardInterrupts typed q).contents = (q.contents ++ typed).take keyboardBufferSize := by
  induction typed generalizing q with
  | nil =>
    rw [List.append_nil, List.take_of_length_le (Keyboard.length_contents.le.trans q.count_le)]
    rfl
  | cons c typed ih =>
    have hstep : (keyboardInterrupts (c :: typed) q).contents =
        ((keyboardBufferPush c q).contents ++ typed).take keyboardBufferSize := ih
    rw [hstep, contents_push, take_take_append, List.append_assoc, List.singleton_append]

/-- The oldest key is taken out. -/
theorem pop_of_contents_eq_cons (h : q.contents = c :: l) :
    keyboardBufferHasData q = true ∧ (keyboardBufferPop q).1 = c ∧
      (keyboardBufferPop q).2.contents = l := by
  obtain ⟨n, hn⟩ : ∃ n, q.count = n + 1 :=
    ⟨l.length, by rw [← Keyboard.length_contents, h, List.length_cons]⟩
  have hpos : q.count > 0 := by omega
  rw [Keyboard.contents, hn, List.range_succ_eq_map, List.map_cons, List.map_map,
    List.cons.injEq, Nat.add_zero, Nat.mod_eq_of_lt q.head_lt] at h
  refine ⟨decide_eq_true hpos, ?_, ?_⟩
  · rw [keyboardBufferPop, dif_pos hpos]
    exact h.1
  · rw [keyboardBufferPop, dif_pos hpos, ← h.2, Keyboard.contents]
    dsimp only
    rw [hn, Nat.add_sub_cancel]
    refine List.map_congr_left fun i _ => ?_
    rw [Function.comp_apply, Nat.mod_add_mod]
    congr 2
    omega

theorem hasData_iff : keyboardBufferHasData q = true ↔ q.contents ≠ [] := by
  rw [keyboardBufferHasData, decide_eq_true_iff, ← List.length_pos_iff, Keyboard.length_contents]

theorem hasData_of_contents_eq_nil (h : q.contents = []) : keyboardBufferHasData q = false :=
  Bool.eq_false_iff.mpr (mt hasData_iff.mp (not_not.mpr h))

/-- Nothing is taken out of an empty ring. -/
theorem pop_of_contents_eq_nil (h : q.contents = []) : keyboardBufferPop q = (0, q) := by
  have hcount : ¬q.count > 0 := by
    rw [← Keyboard.length_contents, h]
    exact Nat.lt_irrefl 0
  rw [keyboardBufferPop, dif_neg hcount]

/-- A poll of an empty ring. -/
theorem sysRead_of_contents_eq_nil (h : q.contents = []) :
    sysRead out 1 q = some (-eAgain, out, q) := by
  rw [sysRead, sysReadLoop, if_neg (by rw [hasData_of_contents_eq_nil h]; decide)]
  rfl

/-- A poll of a ring with keys. -/
theorem sysRead_of_contents_eq_cons (out : ℕ → UInt8) (h : q.contents = c :: l) :
    ∃ q', sysRead out 1 q = some (1, Function.update out 0 c, q') ∧ q'.contents = l := by
  obtain ⟨hdata, rfl, hl⟩ := pop_of_contents_eq_cons h
  refine ⟨(keyboardBufferPop q).2, ?_, hl⟩
  rw [sysRead, sysReadLoop, if_pos hdata]
  rfl

theorem getchar_of_contents_eq_nil (h : q.contents = []) : getchar q = (0, q) := by
  rw [getchar, if_neg (by rw [hasData_of_contents_eq_nil h]; decide)]

theorem getchar_of_contents_eq_cons (h : q.contents = c :: l) :
    ∃ q', getchar q = (c, q') ∧ q'.contents = l := by
  obtain ⟨hdata, rfl, hl⟩ := pop_of_contents_eq_cons h
  exact ⟨(keyboardBufferPop q).2, if_pos hdata, hl⟩

/-- The printable characters, for a signed `char`. -/
theorem printable_iff : c.toInt8 ≥ 32 ∧ c.toInt8 < 127 ↔ 0x20 ≤ c ∧ c ≤ 0x7E :=
  forall_byte (p := fun c => c.toInt8 ≥ 32 ∧ c.toInt8 < 127 ↔ 0x20 ≤ c ∧ c ≤ 0x7E)
    (by decide +kernel) c

/-! ### Keys to come -/

/-- What polling a queue finds, one key a poll. -/
def keysSeen : (queue : List UInt8) → (coming : List (List UInt8)) → List UInt8
  | _, [] => []
  | queue, batch :: coming =>
    match (queue ++ batch).take keyboardBufferSize with
    | [] => keysSeen [] coming
    | c :: queue => c :: keysSeen queue coming

/-- The keyboard, and the keys typed in front of each of the polls to come. -/
structure KeyInput where
  keyboard : Keyboard
  coming : List (List UInt8)

/-- The keys the polls to come find. -/
def KeyInput.keys (input : KeyInput) : List UInt8 := keysSeen input.keyboard.contents input.coming

/-- A poll that finds nothing. -/
theorem keys_of_contents_eq_nil {batch : List UInt8}
    (h : (keyboardInterrupts batch q).contents = []) :
    KeyInput.keys ⟨q, batch :: coming⟩ = KeyInput.keys ⟨keyboardInterrupts batch q, coming⟩ := by
  rw [KeyInput.keys, KeyInput.keys, h]
  rw [contents_interrupts] at h
  dsimp only
  rw [keysSeen, h]

/-- A poll that finds the key `c`. -/
theorem keys_of_contents_eq_cons {batch : List UInt8} {q' : Keyboard}
    (h : (keyboardInterrupts batch q).contents = c :: l) (h' : q'.contents = l) :
    KeyInput.keys ⟨q, batch :: coming⟩ = c :: KeyInput.keys ⟨q', coming⟩ := by
  rw [KeyInput.keys, KeyInput.keys, h']
  rw [contents_interrupts] at h
  dsimp only
  rw [keysSeen, h]

end ChalesOs
