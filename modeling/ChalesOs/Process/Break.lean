import ChalesOs.Process.SavePool
import ChalesOs.Process.Sbrk

/-!
# The break of nested programs

All programs share one user heap and one break. A program that is started finds the break where
its caller left it, `frame_brk`, and the break is put back there when it ends; but `sbrk` tests the
bounds of the whole heap only, so nothing keeps a program from taking the break below its own
`frame_brk`, and from being granted what its caller holds (`not_heapSeparated`).

`holdingSystem` records, beside the machine, which bytes each task holds. In runs in which no
program takes the break below its `frame_brk`, the tasks that are not dead hold bytes of
consecutive parts of the heap, in the order of the chain: `HeapChain` is this invariant, read from
the current task down.
-/

namespace ChalesOs

open PointerRing

variable {L : Layout} {m m' : Machine} {rest callers pre post ts : List ℕ} {t p hi : ℕ}
  {status : ℤ} {op : ProcOp} {s s' : Machine × (ℕ → ℕ → Prop)} {held held' : ℕ → ℕ → Prop}

/-! ### Who holds what -/

/-- The break. -/
def Machine.brk (L : Layout) (m : Machine) : ℕ := L.userHeap.breakOf m.userBrk

/-- The break a task was started with. -/
def Machine.frameBreak (L : Layout) (m : Machine) (t : ℕ) : ℕ :=
  L.userHeap.breakOf (m.tasks t).frameBrk

/-- Which bytes of the heap each task holds behind an operation. A call of `sbrk` that raises the
break grants the bytes in between to the current task, and one that lowers it takes them back; a
new task holds nothing. -/
def heldAfter (L : Layout) (held : ℕ → ℕ → Prop) (m : Machine) (op : ProcOp) (m' : Machine)
    (t a : ℕ) : Prop :=
  match op with
  | .sbrk _ =>
    (held t a ∧ ¬(t = m.currentTask ∧ m'.brk L ≤ a ∧ a < m.brk L)) ∨
      (t = m.currentTask ∧ m.brk L ≤ a ∧ a < m'.brk L)
  | .exec .. => held t a ∧ (t = m'.currentTask → m'.currentTask = m.currentTask)
  | _ => held t a

/-- The system of processes, with what each task holds of the heap. -/
def holdingSystem (L : Layout) : StepSystem (Machine × (ℕ → ℕ → Prop)) ProcOp :=
  (procSystem L).recording (fun _ _ => False) (heldAfter L)

/-- The increments of `sbrk` are of type `int`. -/
def IntSbrk (op : ProcOp) : Prop := ∀ increment, op = .sbrk increment → IsInt increment

/-- A call of `sbrk` by a task with a frame is refused, or leaves the break at the task's
`frame_brk` or above it; and no sum of the break and an increment reaches `2 ^ 32`. -/
def KeepsCaller (L : Layout) (m : Machine) (op : ProcOp) : Prop :=
  ∀ increment, op = .sbrk increment → IsInt increment ∧ m.brk L + increment < 0x100000000 ∧
    ((m.tasks m.currentTask).hasFrame = true →
      m.brk L + increment < L.userHeapStart ∨
        ((m.tasks m.currentTask).frameBrk : ℤ) ≤ m.brk L + increment)

/-- The break is not below the `frame_brk` of the current task, if it has a frame, and no byte the
current task holds is held by a task of `rest` that is blocked. -/
def HeapSeparated (L : Layout) (s : Machine × (ℕ → ℕ → Prop)) (rest : List ℕ) : Prop :=
  ((s.1.tasks s.1.currentTask).hasFrame = true →
      (s.1.tasks s.1.currentTask).frameBrk ≤ s.1.brk L) ∧
    ∀ t ∈ rest, (s.1.tasks t).state = .blocked → ∀ a, s.2 t a → ¬s.2 s.1.currentTask a

/-- Only `sbrk` grants anything. -/
theorem heldAfter_le (hop : ∀ increment, op ≠ .sbrk increment) {a : ℕ}
    (h : heldAfter L held m op m' t a) : held t a := by
  cases op with
  | sbrk increment => exact absurd rfl (hop increment)
  | exec _ _ _ _ => exact h.1
  | _ => exact h

/-! ### The invariant -/

/-- The tasks of `ts` hold bytes of consecutive parts of the heap, the last of which belongs to the
first task and ends at `hi`. -/
def HeapChain (L : Layout) (m : Machine) (held : ℕ → ℕ → Prop) : (ts : List ℕ) → (hi : ℕ) → Prop
  | [], hi => L.userHeapStart ≤ hi
  | t :: ts, hi => (∀ a, held t a → m.frameBreak L t ≤ a ∧ a < hi) ∧ m.frameBreak L t ≤ hi ∧
      HeapChain L m held ts (m.frameBreak L t)

/-- The parts depend on the break each task was started with, and hold for those that hold less. -/
theorem HeapChain.mono (h : HeapChain L m held ts hi)
    (hbrk : ∀ t ∈ ts, (m'.tasks t).frameBrk = (m.tasks t).frameBrk)
    (hheld : ∀ t ∈ ts, ∀ a, held' t a → held t a) : HeapChain L m' held' ts hi := by
  induction ts generalizing hi with
  | nil => exact h
  | cons t ts ih =>
    obtain ⟨hpart, hle, h⟩ := h
    obtain ⟨hbrk_t, hbrk⟩ := List.forall_mem_cons.mp hbrk
    obtain ⟨hheld_t, hheld⟩ := List.forall_mem_cons.mp hheld
    have heq : m'.frameBreak L t = m.frameBreak L t := by
      rw [Machine.frameBreak, Machine.frameBreak, hbrk_t]
    refine ⟨fun a ha => ?_, heq ▸ hle, heq ▸ ih h hbrk hheld⟩
    rw [heq]
    exact hpart a (hheld_t a ha)

/-- The parts of the tasks further down. -/
theorem HeapChain.tail (h : HeapChain L m held (pre ++ t :: ts) hi) :
    m.frameBreak L t ≤ hi ∧ HeapChain L m held ts (m.frameBreak L t) := by
  induction pre generalizing hi with
  | nil => exact h.2
  | cons x pre ih =>
    obtain ⟨-, hle, h⟩ := h
    exact ⟨(ih h).1.trans hle, (ih h).2⟩

/-- All parts end below `hi`. -/
theorem HeapChain.lt (h : HeapChain L m held ts hi) (ht : t ∈ ts) {a : ℕ} (ha : held t a) :
    a < hi := by
  induction ts generalizing hi with
  | nil => exact absurd ht List.not_mem_nil
  | cons x ts ih =>
    obtain ⟨hpart, hle, h⟩ := h
    rcases List.mem_cons.mp ht with rfl | ht
    · exact (hpart a ha).2
    · exact (ih h ht).trans_le hle

/-- The parts start at the start of the heap. -/
theorem HeapChain.start_le (h : HeapChain L m held ts hi) : L.userHeapStart ≤ hi := by
  induction ts generalizing hi with
  | nil => exact h
  | cons x ts ih => exact (ih h.2.2).trans h.2.1

/-- The heap of a machine that runs a program. -/
structure HeapParts (L : Layout) (m : Machine) (held : ℕ → ℕ → Prop) (callers : List ℕ) :
    Prop where
  chain : HeapChain L m held (m.currentTask :: callers) (m.brk L)
  brk_le : m.brk L ≤ L.userHeapEnd
  task0 : (m.tasks L.task0).frameBrk = 0

/-- A machine at boot. -/
theorem heapParts_schedInit (L : Layout) (mem : Mem) (pageTable : PageTable) :
    HeapParts L (schedInit L mem pageTable) (fun _ _ => False) [] := by
  have htask0 : ((schedInit L mem pageTable).tasks L.task0).frameBrk = 0 := by
    simp only [schedInit, Function.update_self]
    rfl
  have hbrk : (schedInit L mem pageTable).brk L = L.userHeapStart := UserHeap.breakOf_zero
  have hframe : (schedInit L mem pageTable).frameBreak L L.task0 = L.userHeapStart := by
    rw [Machine.frameBreak, htask0]
    exact UserHeap.breakOf_zero
  refine ⟨⟨fun a ha => ha.elim, ?_, ?_⟩, ?_, htask0⟩
  · exact (hframe.trans hbrk.symm).le
  · exact hframe.ge
  · rw [hbrk, L.userHeapEnd_eq]
    exact Nat.le_add_right _ _

/-! ### Steps -/

/-- An operation that leaves the break and the chain alone, and grants nothing. -/
theorem HeapParts.congr (h : HeapParts L m held callers) (hcur : m'.currentTask = m.currentTask)
    (hbrk : m'.userBrk = m.userBrk) (hframe : ∀ t, (m'.tasks t).frameBrk = (m.tasks t).frameBrk)
    (hheld : ∀ t a, held' t a → held t a) : HeapParts L m' held' callers := by
  have heq : m'.brk L = m.brk L := by rw [Machine.brk, Machine.brk, hbrk]
  refine ⟨?_, heq ▸ h.brk_le, (hframe _).trans h.task0⟩
  rw [hcur, heq]
  exact h.chain.mono (fun t _ => hframe t) fun t _ => hheld t

/-- A new program starts with the break of its caller, and with nothing. -/
theorem HeapParts.started {lo top c : ℕ} (h : HeapParts L m held callers)
    (hs : ExecStarted m m' lo top c) (hnew : c ∉ m.currentTask :: callers) (hc : c ≠ L.task0)
    (hheld : ∀ t a, held' t a → held t a) (hnone : ∀ a, ¬held' c a) :
    HeapParts L m' held' (m.currentTask :: callers) := by
  obtain ⟨stack, next, entry, sp, hchild⟩ := hs.child
  have hbrk : m'.brk L = m.brk L := by rw [Machine.brk, Machine.brk, hs.userBrk]
  have hframe : m'.frameBreak L c = m.brk L := by
    rw [Machine.frameBreak, hchild]
    rfl
  refine ⟨?_, hbrk ▸ h.brk_le, ?_⟩
  · rw [hs.currentTask, hbrk]
    refine ⟨fun a ha => absurd ha (hnone a), hframe.le, ?_⟩
    rw [hframe]
    exact h.chain.mono
      (fun t ht => hs.keeps Task.frameBrk (fun _ _ _ => rfl) fun heq => hnew (heq ▸ ht))
      fun t _ => hheld t
  · rw [hs.keeps Task.frameBrk (fun _ _ _ => rfl) hc.symm, h.task0]

/-- The end of a task puts the break back where the task found it. -/
theorem HeapParts.finish (h : HeapParts L m held callers) (hprocs : Procs L m rest callers)
    (hchain : m.currentTask :: callers = pre ++ t :: p :: post)
    (hframe : (m.tasks t).hasFrame = true) (hheld : ∀ t a, held' t a → held t a) :
    HeapParts L (exitTo m pre t p status) held' post := by
  have hkeep : ∀ x, ((exitTo m pre t p status).tasks x).frameBrk = (m.tasks x).frameBrk :=
    exitTo_keeps Task.frameBrk fun _ _ _ _ _ _ => rfl
  have hbrk : (exitTo m pre t p status).brk L = m.frameBreak L t := by
    rw [Machine.brk, hprocs.exitTo_userBrk hchain hframe]
    rfl
  have hall : HeapChain L m held (pre ++ t :: p :: post) (m.brk L) := hchain ▸ h.chain
  obtain ⟨hle, htail⟩ := hall.tail
  refine ⟨?_, ?_, (hkeep _).trans h.task0⟩
  · rw [exitTo_currentTask, hbrk]
    exact htail.mono (fun x _ => hkeep x) fun x _ => hheld x
  · rw [hbrk]
    exact hle.trans h.brk_le

/-- A task of the chain other than the initial one has a frame. -/
theorem Pool.hasFrame (h : Pool L m callers)
    (hchain : m.currentTask :: callers = pre ++ t :: post) (hpost : post ≠ []) :
    (m.tasks t).hasFrame = true := by
  obtain ⟨fs, hfs_chain, hfs⟩ := h.stack
  obtain ⟨fs', last, rfl⟩ := (List.eq_nil_or_concat post).resolve_left hpost
  rw [hchain, List.concat_eq_append, ← List.cons_append, ← List.append_assoc] at hfs_chain
  obtain ⟨rfl, -⟩ := List.append_inj' hfs_chain rfl
  exact hfs.tail.1

/-- A break in the heap is not below the part of the current task, when it is not below the
`frame_brk` of a task with a frame. -/
theorem HeapParts.frameBreak_le (h : HeapParts L m held callers) (hprocs : Procs L m rest callers)
    (hpool : Pool L m callers) {brk : ℕ} (hstart : L.userHeapStart ≤ brk)
    (hframe : (m.tasks m.currentTask).hasFrame = true →
      (m.tasks m.currentTask).frameBrk ≤ brk) : m.frameBreak L m.currentTask ≤ brk := by
  rw [Machine.frameBreak, UserHeap.breakOf]
  split_ifs with hnull
  · exact hstart
  · by_cases hcallers : callers = []
    · -- the initial task has no frame, and nobody was started with its break
      have hlast := hprocs.last
      rw [hcallers, List.getLast?_singleton, Option.some.injEq] at hlast
      exact absurd (hlast ▸ h.task0) hnull
    · exact hframe (hpool.hasFrame (List.nil_append _).symm hcallers)

/-- A call of `sbrk` that keeps off the caller moves the end of the current task's part, or is
refused. -/
theorem HeapParts.sbrk (h : HeapParts L m held callers) (hprocs : Procs L m rest callers)
    (hpool : Pool L m callers) {increment : ℤ} (hok : KeepsCaller L m (.sbrk increment)) :
    HeapParts L (sbrkHandler L m increment).2
      (heldAfter L held m (.sbrk increment) (sbrkHandler L m increment).2) callers := by
  obtain ⟨hint, hbelow, hkeeps⟩ := hok increment rfl
  have hstart : m.frameBreak L m.currentTask ≤ m.brk L := h.chain.2.1
  have hle : L.userHeapStart ≤ m.brk L := h.chain.start_le
  have hfb_start : L.userHeapStart ≤ m.frameBreak L m.currentTask := h.chain.2.2.start_le
  have hbrk : L.userHeap.Holds m.userBrk := ⟨hle, h.brk_le⟩
  have hwrap : L.userHeap.NoWrap m.userBrk increment := by
    have hend := L.userHeapEnd_eq
    have hlow := hint.1
    refine ⟨?_, hbelow⟩
    show (L.userHeapEnd : ℤ) < m.brk L + increment + 0x100000000
    omega
  rw [sbrkHandler_eq]
  set m' : Machine := { m with userBrk := (L.userHeap.sbrk m.userBrk increment).2 } with hm'
  -- the parts of the callers are those of before, and they hold what they held
  have hcallers : HeapChain L m' (heldAfter L held m (.sbrk increment) m') callers
      (m.frameBreak L m.currentTask) := by
    refine h.chain.2.2.mono (fun _ _ => rfl) fun t ht a ha => ?_
    rcases ha with ⟨hheld, -⟩ | ⟨heq, -⟩
    · exact hheld
    · exact absurd (heq ▸ ht) (List.nodup_cons.mp hprocs.nodup).1
  -- the break ends where the sum is, or stays when the call is refused
  have hnew : m.frameBreak L m.currentTask ≤ m'.brk L ∧ m'.brk L ≤ L.userHeapEnd := by
    by_cases hsum : L.userHeap.Accepts m.userBrk increment
    · have hmove : (m'.brk L : ℤ) = m.brk L + increment :=
        (UserHeap.sbrk_of_accepts hwrap hsum).2
      have hlo : (L.userHeapStart : ℤ) ≤ m.brk L + increment := hsum.1
      have hhi : (m.brk L : ℤ) + increment ≤ L.userHeapEnd := hsum.2
      refine ⟨h.frameBreak_le hprocs hpool (by omega) fun hframe => ?_, by omega⟩
      rcases hkeeps hframe with hlow | habove
      · omega
      · omega
    · have hsame : m'.brk L = m.brk L := (UserHeap.sbrk_of_not_accepts hbrk hwrap hsum).2
      rw [hsame]
      exact ⟨hstart, h.brk_le⟩
  refine ⟨⟨fun a ha => ?_, hnew.1, hcallers⟩, hnew.2, h.task0⟩
  rcases ha with ⟨hheld, hkept⟩ | ⟨-, hlow, hhigh⟩
  · have hpart := h.chain.1 a hheld
    refine ⟨hpart.1, ?_⟩
    by_contra hover
    exact hkept ⟨rfl, not_lt.mp hover, hpart.2⟩
  · exact ⟨hstart.trans hlow, hhigh⟩

/-- The heap of a machine that has halted or runs a program. -/
def HeapState (L : Layout) (s : Machine × (ℕ → ℕ → Prop)) : Prop :=
  s.1.halted = true ∨ ∃ rest callers, Procs L s.1 rest callers ∧ Pool L s.1 callers ∧
    HeapParts L s.1 s.2 callers

/-- Every step that keeps off the caller keeps the parts. -/
theorem HeapState.step (h : HeapState L s) (hok : KeepsCaller L s.1 op)
    (hstep : (holdingSystem L).step s op = some s') : HeapState L s' := by
  obtain ⟨m, held⟩ := s
  obtain ⟨m', held'⟩ := s'
  obtain ⟨hstep, hheld'⟩ := StepSystem.recording_step.mp hstep
  obtain rfl : held' = heldAfter L held m op m' := hheld'
  dsimp only at hstep hok
  rcases h with hhalt | ⟨rest, callers, hprocs, hpool, hparts⟩
  · rw [halted_of_step hstep] at hhalt
    exact Bool.noConfusion hhalt
  have hmove := procStep_move hprocs hstep
  by_cases hsbrk : ∃ increment, op = .sbrk increment
  · -- `sbrk` is known: the four moves forget what it does to the break
    obtain ⟨increment, rfl⟩ := hsbrk
    obtain rfl : (sbrkHandler L m increment).2 = m' := by
      simpa [procSystem, halted_of_step hstep, procExec] using hstep
    have hq := quiet_sbrkHandler L m increment
    exact Or.inr ⟨rest, callers, hprocs.quiet hq, hpool.quiet hq, hparts.sbrk hprocs hpool hok⟩
  rw [not_exists] at hsbrk
  have hle : ∀ t a, heldAfter L held m op m' t a → held t a := fun t a => heldAfter_le hsbrk
  -- the other operations leave the break alone, or put it back
  cases hmove with
  | halt hhalt _ => exact Or.inl hhalt
  | exec hout =>
    cases hout with
    | failed hf hprocs' =>
      exact Or.inr ⟨_, _, hprocs', hpool.failed hf, hparts.congr hf.currentTask hf.userBrk
        (hf.keeps Task.frameBrk fun _ _ => rfl) hle⟩
    | started hs _ hprocs' =>
      have hnew := hs.not_mem hprocs'
      refine Or.inr ⟨_, _, hprocs', hpool.started hs hnew, hparts.started hs hnew ?_ hle ?_⟩
      · exact fun heq => hnew (heq ▸ List.mem_of_getLast? hprocs.last)
      · rintro a ⟨-, hsame⟩
        exact hnew (hs.currentTask ▸ hsame hs.currentTask.symm ▸ List.mem_cons_self)
  | finish hchain hprocs' =>
    exact Or.inr ⟨_, _, hprocs', hpool.finish hprocs hchain,
      hparts.finish hprocs hchain (hpool.hasFrame hchain (List.cons_ne_nil _ _)) hle⟩
  | quiet hq =>
    exact Or.inr ⟨_, _, hprocs.quiet hq, hpool.quiet hq, hparts.congr hq.currentTask
      (hq.userBrk hsbrk) (hq.keeps Task.frameBrk fun _ _ => rfl) hle⟩

/-! ### Runs -/

/-- **Nested programs.** In runs in which every call of `sbrk` keeps off the caller, the break is
not below the `frame_brk` of the current task, and no task holds what a blocked caller holds. -/
theorem heapSeparated_of_reachable
    (h : (holdingSystem L).ReachableBy (fun s op => KeepsCaller L s.1 op) s)
    (hrun : s.1.halted = false) (hring : IsRing s.1.nextOf (s.1.currentTask :: rest)) :
    HeapSeparated L s rest := by
  have hstate : HeapState L s := by
    refine h.invariant (p := HeapState L) ?_ fun s op s' hs hok hstep => hs.step hok hstep
    rintro ⟨_, _⟩ ⟨⟨mem, pageTable, rfl⟩, rfl⟩
    exact Or.inr ⟨_, _, procs_schedInit L mem pageTable, pool_schedInit L mem pageTable,
      heapParts_schedInit L mem pageTable⟩
  rcases hstate with hhalt | ⟨rest', callers, hprocs, -, hparts⟩
  · rw [hrun] at hhalt
    exact Bool.noConfusion hhalt
  obtain rfl := hprocs.ring.isRing.unique hring
  obtain ⟨hpart, hle, hcallers⟩ := hparts.chain
  constructor
  · intro _
    refine le_trans ?_ hle
    rw [Machine.frameBreak, UserHeap.breakOf]
    split_ifs with hnull
    · exact hnull ▸ Nat.zero_le _
    · exact le_rfl
  · intro t ht hblocked a hheld hcur
    have hlive : (s.1.tasks t).state ≠ .dead := by
      rw [hblocked]
      exact TaskState.noConfusion
    -- a blocked task is a caller, so its part of the heap ends below the current one
    have hchain := (hprocs.alive_iff (List.mem_cons_of_mem _ ht)).mp hlive
    have htcur : t ≠ s.1.currentTask := by
      rintro rfl
      exact (List.nodup_cons.mp hprocs.ring.isRing.nodup).1 ht
    have hlt := hcallers.lt ((List.mem_cons.mp hchain).resolve_left htcur) hheld
    exact absurd (hpart a hcur).1 (not_le.mpr hlt)

/-! ### A program that lowers the break -/

/-- The initial task raises the break and starts a program, which lowers the break by as much and
raises it again: the machine behind each call. -/
def loweringRun : Option (Machine × Machine × Machine × Machine) := do
  let m₁ ← (procSystem Layout.sample).step bootMachine (.sbrk 0x1000)
  let m₂ ← (procSystem Layout.sample).step m₁ (execAt 0x300000 16 [1, 2])
  let m₃ ← (procSystem Layout.sample).step m₂ (.sbrk (-0x1000))
  let m₄ ← (procSystem Layout.sample).step m₃ (.sbrk 0x1000)
  some (m₁, m₂, m₃, m₄)

/-- What becomes of the break, and who holds the first byte of the heap. -/
private theorem loweringRun_spec : ∃ s₃ s₄,
    (holdingSystem Layout.sample).ReachableBy (fun _ op => IntSbrk op) s₃ ∧
    (holdingSystem Layout.sample).ReachableBy (fun _ op => IntSbrk op) s₄ ∧
    (s₃.1.halted = false ∧ (s₃.1.tasks s₃.1.currentTask).hasFrame = true ∧
      s₃.1.brk Layout.sample < (s₃.1.tasks s₃.1.currentTask).frameBrk) ∧
    s₄.1.halted = false ∧ (s₄.1.tasks Layout.sample.task0).state = .blocked ∧
    s₄.2 Layout.sample.task0 Layout.sample.userHeapStart ∧
    s₄.2 s₄.1.currentTask Layout.sample.userHeapStart := by
  have heval : loweringRun.any (fun r => decide (
      (bootMachine.currentTask = Layout.sample.task0 ∧
        r.2.1.currentTask ≠ Layout.sample.task0 ∧ r.2.2.1.currentTask = r.2.1.currentTask ∧
        r.2.2.2.currentTask = r.2.1.currentTask) ∧
      (bootMachine.brk Layout.sample = 0x290000 ∧ r.1.brk Layout.sample = 0x291000 ∧
        r.2.2.1.brk Layout.sample = 0x290000 ∧ r.2.2.2.brk Layout.sample = 0x291000) ∧
      (r.2.2.1.halted = false ∧ (r.2.2.1.tasks r.2.2.1.currentTask).hasFrame = true ∧
        r.2.2.1.brk Layout.sample < (r.2.2.1.tasks r.2.2.1.currentTask).frameBrk) ∧
      r.2.2.2.halted = false ∧ (r.2.2.2.tasks Layout.sample.task0).state = .blocked)) = true := by
    decide +kernel
  obtain ⟨⟨m₁, m₂, m₃, m₄⟩, hrun, ⟨hc₀, hc₂, hc₃, hc₄⟩, ⟨hb₀, hb₁, hb₃, hb₄⟩, hlow, hhalt,
    hstate⟩ := exists_of_any heval
  dsimp only at hc₀ hc₂ hc₃ hc₄ hb₀ hb₁ hb₃ hb₄ hlow hhalt hstate
  simp only [loweringRun, Option.bind_eq_bind, Option.bind_eq_some_iff, Option.some.injEq,
    Prod.mk.injEq] at hrun
  obtain ⟨m₁, h₁, m₂, h₂, m₃, h₃, m₄, h₄, rfl, rfl, rfl, rfl⟩ := hrun
  have hint : ∀ z, IsInt z → IntSbrk (.sbrk z) := by
    intro z hz increment heq
    exact ProcOp.sbrk.inj heq ▸ hz
  have hexec : IntSbrk (execAt 0x300000 16 [1, 2]) := fun _ heq => ProcOp.noConfusion heq
  have hup : IntSbrk (.sbrk 0x1000) := hint _ ⟨by decide, by decide⟩
  have hdown : IntSbrk (.sbrk (-0x1000)) := hint _ ⟨by decide, by decide⟩
  have hreach₀ : (holdingSystem Layout.sample).ReachableBy (fun _ op => IntSbrk op)
      (bootMachine, fun _ _ => False) := .start ⟨⟨_, _, rfl⟩, rfl⟩
  have hreach₃ := ((hreach₀.record hup h₁).record hexec h₂).record hdown h₃
  refine ⟨_, _, hreach₃, hreach₃.record hup h₄, hlow, hhalt, hstate, ?_, ?_⟩
  · -- the first grant; neither the start nor the calls of the new task take anything from it
    have htask0 : ∀ m : Machine, m.currentTask = m₂.currentTask →
        Layout.sample.task0 ≠ m.currentTask := fun m hm heq => hc₂ (hm ▸ heq.symm)
    have hgrant : heldAfter Layout.sample (fun _ _ => False) bootMachine (.sbrk 0x1000) m₁
        Layout.sample.task0 0x290000 := Or.inr ⟨hc₀.symm, hb₀.le, by omega⟩
    refine Or.inl ⟨Or.inl ⟨⟨hgrant, fun heq => ?_⟩, fun hown => ?_⟩, fun hown => ?_⟩
    · exact absurd heq (htask0 m₂ rfl)
    · exact htask0 m₂ rfl hown.1
    · exact htask0 m₃ hc₃ hown.1
  · exact Or.inr ⟨hc₄.trans hc₃.symm, hb₃.le, by rw [hb₄]; decide⟩

/-- **A program can take the break below its `frame_brk`,** and is then granted what its caller
holds. -/
theorem not_heapSeparated :
    (¬∀ (L : Layout) (s : Machine × (ℕ → ℕ → Prop)),
      (holdingSystem L).ReachableBy (fun _ op => IntSbrk op) s → s.1.halted = false →
      (s.1.tasks s.1.currentTask).hasFrame = true →
      (s.1.tasks s.1.currentTask).frameBrk ≤ s.1.brk L) ∧
    ¬∀ (L : Layout) (s : Machine × (ℕ → ℕ → Prop)) (rest : List ℕ),
      (holdingSystem L).ReachableBy (fun _ op => IntSbrk op) s → s.1.halted = false →
      IsRing s.1.nextOf (s.1.currentTask :: rest) →
      ∀ t ∈ rest, (s.1.tasks t).state = .blocked → ∀ a, s.2 t a → ¬s.2 s.1.currentTask a := by
  obtain ⟨s₃, s₄, hreach₃, hreach₄, ⟨hhalt₃, hframe, hlow⟩, hhalt₄, hblocked, hcaller, hcur⟩ :=
    loweringRun_spec
  constructor
  · intro h
    exact absurd (h _ s₃ hreach₃ hhalt₃ hframe) (not_le.mpr hlow)
  · intro h
    -- the initial task is in every ring
    obtain ⟨rest, callers, hprocs⟩ := procs_of_reachable hreach₄.of_recording hhalt₄
    have hne : Layout.sample.task0 ≠ s₄.1.currentTask := by
      intro heq
      rw [heq, hprocs.running] at hblocked
      exact TaskState.noConfusion hblocked
    have hmem := (List.mem_cons.mp hprocs.ring.task0_mem).resolve_left hne
    exact h _ s₄ rest hreach₄ hhalt₄ hprocs.ring.isRing _ hmem hblocked _ hcaller hcur

/-- `heapSeparated_of_reachable` when the started program only raises the break. -/
theorem heapSeparated_sample : ∃ s rest, HeapSeparated Layout.sample s rest ∧
    (s.1.tasks s.1.currentTask).hasFrame = true ∧ s.1.brk Layout.sample = 0x292000 := by
  have heval : (((procSystem Layout.sample).step bootMachine (.sbrk 0x1000)).bind fun m₁ =>
      ((procSystem Layout.sample).step m₁ (execAt 0x300000 16 [1, 2])).bind fun m₂ =>
        ((procSystem Layout.sample).step m₂ (.sbrk 0x1000)).map fun m₃ => (m₁, m₂, m₃)).any
      (fun r => decide (
        (bootMachine.brk Layout.sample = 0x290000 ∧ r.2.1.brk Layout.sample = 0x291000 ∧
          (r.2.1.tasks r.2.1.currentTask).frameBrk = 0x291000) ∧
        r.2.2.halted = false ∧ (r.2.2.tasks r.2.2.currentTask).hasFrame = true ∧
          r.2.2.brk Layout.sample = 0x292000)) = true := by
    decide +kernel
  obtain ⟨r, hrun, ⟨hb₀, hb₂, hframe₂⟩, hhalt, hframe, hbrk⟩ := exists_of_any heval
  obtain ⟨m₁, h₁, hrun⟩ := Option.bind_eq_some_iff.mp hrun
  obtain ⟨m₂, h₂, hrun⟩ := Option.bind_eq_some_iff.mp hrun
  obtain ⟨m₃, h₃, rfl⟩ := Option.map_eq_some_iff.mp hrun
  dsimp only at hb₂ hframe₂ hhalt hframe hbrk
  -- the break stays below `2 ^ 32`, and the program does not lower it
  have hkeeps : ∀ {m : Machine}, m.brk Layout.sample ≤ 0x291000 →
      (m.tasks m.currentTask).frameBrk ≤ 0x291000 ∧ 0x290000 ≤ m.brk Layout.sample →
      KeepsCaller Layout.sample m (.sbrk 0x1000) := by
    intro m hm ⟨hle, hge⟩ increment heq
    obtain rfl := ProcOp.sbrk.inj heq
    exact ⟨⟨by decide, by decide⟩, by omega, fun _ => Or.inr (by omega)⟩
  have hreach₀ : (holdingSystem Layout.sample).ReachableBy
      (fun s op => KeepsCaller Layout.sample s.1 op) (bootMachine, fun _ _ => False) :=
    .start ⟨⟨_, _, rfl⟩, rfl⟩
  have hboot : (bootMachine.tasks bootMachine.currentTask).frameBrk ≤ 0x291000 := by
    decide +kernel
  have hkeeps₀ : KeepsCaller Layout.sample bootMachine (.sbrk 0x1000) :=
    hkeeps (by omega) ⟨hboot, by omega⟩
  have hkeeps₂ : KeepsCaller Layout.sample m₂ (.sbrk 0x1000) :=
    hkeeps hb₂.le ⟨hframe₂.le, by omega⟩
  have hreach := ((hreach₀.record hkeeps₀ h₁).record (fun _ heq => ProcOp.noConfusion heq)
    h₂).record hkeeps₂ h₃
  obtain ⟨rest, callers, hprocs⟩ := procs_of_reachable hreach.of_recording hhalt
  exact ⟨_, rest, heapSeparated_of_reachable hreach hhalt hprocs.ring.isRing, hframe, hbrk⟩

end ChalesOs
