import ChalesOs.Process.Tree

/-!
# The outcomes of `exec_run`

`exec_run` fails or starts a program, and `Procs.execRun` says what each of the two does to the
machine. A failure may come after the new image has been copied over memory, so even then
bytes of the extent of the program change; what the caller gets back is its image and its stack
(`ExecFailed`). A start adds one task in front of the chain (`ExecStarted`).

`ExecCovers` names the bytes at stake: those in the extent of a program the loader accepts.
-/

namespace ChalesOs

open PointerRing ByteMemory

/-- The byte at `a` lies in the extent of the program at `path`, and the loader accepts this
program. -/
def ExecCovers (L : Layout) (fileData : CString → Option (List UInt8)) (m : Machine)
    (path : Option CString) (a : ℕ) : Prop :=
  ∃ bytes lo hi entry st, path.bind fileData = some bytes ∧
    elfExtent (.ofBytes bytes) m.mem = some (some (lo, hi)) ∧
    elfLoad L (.ofBytes bytes) ⟨m.mem, m.pageTable⟩ = some (.ok entry, st) ∧ lo ≤ a ∧ a < hi

/-- What a call of `exec_run` that returns -1 leaves behind; `covers` are the bytes it may have
loaded. -/
structure ExecFailed (m m' : Machine) (covers : ℕ → Prop) : Prop where
  currentTask : m'.currentTask = m.currentTask
  halted : m'.halted = m.halted
  userBrk : m'.userBrk = m.userBrk
  execPoolUsed : m'.execPoolUsed = m.execPoolUsed
  execPool : ∀ i, i < m.execPoolUsed → m'.execPool i = m.execPool i
  tasks : ∀ t, ∃ next, m'.tasks t = { m.tasks t with next := next }
  image : ∀ a, (m.tasks m.currentTask).InImage a → m'.mem a = m.mem a
  stack : (m.tasks m.currentTask).elfHi ≠ 0 → ∀ a, InUserStack a → m'.mem a = m.mem a
  mem : ∀ a, ¬InUserStack a → ¬covers a → m'.mem a = m.mem a

/-- The frame `exec_run` saves before it starts a program with the extent `[lo, hi)`. -/
def Machine.frameFor (m : Machine) (lo hi : ℕ) : FrameShape :=
  frameShape (m.tasks m.currentTask) lo hi

/-- The pool with this frame in it. -/
def Machine.poolWith (m : Machine) (lo hi : ℕ) : ℕ → UInt8 :=
  frameSave m.execPool m.mem m.execPoolUsed (m.frameFor lo hi).stackLen
    (m.frameFor lo hi).imgBase (m.frameFor lo hi).imgLen

/-- The use of the pool with this frame in it. -/
def Machine.usedWith (m : Machine) (lo hi : ℕ) : ℕ :=
  m.execPoolUsed + (align16 (m.frameFor lo hi).stackLen + align16 (m.frameFor lo hi).imgLen)

/-- What a call of `exec_run` that starts the program with the extent `[lo, hi)` in the task `c`
leaves behind. -/
structure ExecStarted (m m' : Machine) (lo hi c : ℕ) : Prop where
  ne_zero : hi ≠ 0
  fits : m.usedWith lo hi ≤ execPoolSize
  currentTask : m'.currentTask = c
  halted : m'.halted = m.halted
  userBrk : m'.userBrk = m.userBrk
  execPool : m'.execPool = m.poolWith lo hi
  execPoolUsed : m'.execPoolUsed = m.usedWith lo hi
  child : ∃ stack next entry sp, m'.tasks c =
    { Task.zero with
      stack := stack
      heapAlloc := true
      entry := entry
      userStackTop := sp
      state := .running
      pid := m.nextPid
      next := next
      parent := m.currentTask
      elfLo := lo
      elfHi := hi
      hasFrame := true
      frameOff := m.execPoolUsed
      frameStackLen := (m.frameFor lo hi).stackLen
      frameImgBase := (m.frameFor lo hi).imgBase
      frameImgLen := (m.frameFor lo hi).imgLen
      frameBrk := m.userBrk }
  caller : ∃ next, m'.tasks m.currentTask =
    { m.tasks m.currentTask with next := next, state := .blocked }
  others : ∀ t, t ≠ c → t ≠ m.currentTask → ∃ next, m'.tasks t = { m.tasks t with next := next }
  mem : ∀ a, ¬InUserStack a → ¬(lo ≤ a ∧ a < hi) → m'.mem a = m.mem a

variable {L : Layout} {m m' : Machine} {lo hi : ℕ} {rest callers : List ℕ}
  {fileData : CString → Option (List UInt8)} {path : Option CString}
  {argv envp : Option (List CString)}

/-- A call that has changed nothing. -/
theorem ExecFailed.refl (m : Machine) (covers : ℕ → Prop) : ExecFailed m m covers where
  currentTask := rfl
  halted := rfl
  userBrk := rfl
  execPoolUsed := rfl
  execPool _ _ := rfl
  tasks t := ⟨(m.tasks t).next, rfl⟩
  image _ _ := rfl
  stack _ _ _ := rfl
  mem _ _ _ := rfl

/-- What a failed call keeps of the tasks: all but the links. -/
theorem ExecFailed.keeps {α : Type} {covers : ℕ → Prop} (h : ExecFailed m m' covers) (g : Task → α)
    (hg : ∀ (t : Task) next, g { t with next := next } = g t) (t : ℕ) :
    g (m'.tasks t) = g (m.tasks t) := by
  obtain ⟨next, ht⟩ := h.tasks t
  rw [ht, hg]

/-- What a start keeps of the tasks that were there: all but the links and the state of the
caller. -/
theorem ExecStarted.keeps {α : Type} {c : ℕ} (h : ExecStarted m m' lo hi c) (g : Task → α)
    (hg : ∀ (t : Task) next state, g { t with next := next, state := state } = g t) {t : ℕ}
    (ht : t ≠ c) : g (m'.tasks t) = g (m.tasks t) := by
  by_cases hcur : t = m.currentTask
  · obtain ⟨next, hcaller⟩ := h.caller
    rw [hcur, hcaller, hg]
  · obtain ⟨next, hother⟩ := h.others t ht hcur
    rw [hother]
    exact hg (m.tasks t) next (m.tasks t).state

/-- The new task was none of the chain. -/
theorem ExecStarted.not_mem {c : ℕ} {rest' : List ℕ} (h : ExecStarted m m' lo hi c)
    (hprocs : Procs L m' rest' (m.currentTask :: callers)) : c ∉ m.currentTask :: callers := by
  have hnd := hprocs.nodup
  rw [h.currentTask] at hnd
  exact (List.nodup_cons.mp hnd).1

/-! ### The roll-back -/

/-- The frame of a program is its stack, and the part of its image that the new program
covers. -/
theorem frameShape_mem {t : Task} (ht : t.elfHi ≠ 0) (lo hi a : ℕ) :
    (execStackBase ≤ a ∧ a < execStackBase + (frameShape t lo hi).stackLen ↔ InUserStack a) ∧
      ((frameShape t lo hi).imgBase ≤ a ∧
        a < (frameShape t lo hi).imgBase + (frameShape t lo hi).imgLen ↔
          t.InImage a ∧ lo ≤ a ∧ a < hi) := by
  rw [frameShape, if_pos ht]
  refine ⟨?_, ?_⟩
  · simp only [InUserStack, execStackTop, execStackBase, execStackSize]
  · simp only [Task.InImage]
    split_ifs <;> omega

/-- Restoring the frame that has just been saved brings back the caller's image and, for a
program, its stack; no other byte changes. -/
theorem frameRestore_poolWith {mem mem' : Mem}
    (hmem : ∀ a, ¬InUserStack a → ¬(lo ≤ a ∧ a < hi) → mem a = m.mem a)
    (hmem' : mem' = frameRestore (m.poolWith lo hi) mem m.execPoolUsed (m.frameFor lo hi).stackLen
      (m.frameFor lo hi).imgBase (m.frameFor lo hi).imgLen) :
    (∀ a, (m.tasks m.currentTask).InImage a → mem' a = m.mem a) ∧
      ((m.tasks m.currentTask).elfHi ≠ 0 → ∀ a, InUserStack a → mem' a = m.mem a) ∧
      ∀ a, mem a = m.mem a → mem' a = m.mem a := by
  subst hmem'
  set fr := m.frameFor lo hi with hfr
  -- what the frame holds is put back, and the rest is as the program left it
  have hin : ∀ a, execStackBase ≤ a ∧ a < execStackBase + fr.stackLen ∨
      fr.imgBase ≤ a ∧ a < fr.imgBase + fr.imgLen →
      frameRestore (m.poolWith lo hi) mem m.execPoolUsed fr.stackLen fr.imgBase fr.imgLen a =
        m.mem a := fun a ha =>
    frameRestore_of_saved (fun i => frameSave_of_mem.1) (fun i => frameSave_of_mem.2) ha
  have hout : ∀ a, mem a = m.mem a →
      frameRestore (m.poolWith lo hi) mem m.execPoolUsed fr.stackLen fr.imgBase fr.imgLen a =
        m.mem a := by
    intro a hsame
    by_cases ha : execStackBase ≤ a ∧ a < execStackBase + fr.stackLen ∨
        fr.imgBase ≤ a ∧ a < fr.imgBase + fr.imgLen
    · exact hin a ha
    · rw [not_or] at ha
      rw [frameRestore_of_not_mem ha.1 ha.2, hsame]
  refine ⟨fun a ha => ?_, fun hprog a ha => ?_, hout⟩
  · have hprog : (m.tasks m.currentTask).elfHi ≠ 0 := by
      have := ha.2
      omega
    obtain ⟨h₁, h₂⟩ := frameShape_mem hprog lo hi a
    by_cases hstack : InUserStack a
    · exact hin a (Or.inl (h₁.mpr hstack))
    by_cases hhull : lo ≤ a ∧ a < hi
    · exact hin a (Or.inr (h₂.mpr ⟨ha, hhull⟩))
    · exact hout a (hmem a hstack hhull)
  · exact hin a (Or.inl ((frameShape_mem hprog lo hi a).1.mpr ha))

/-- The failures behind the saving of the frame, `mem` being what has been written by then. -/
private theorem execFailed_execFail {covers : ℕ → Prop} {mem : Mem} {pt : PageTable}
    (hmem : ∀ a, ¬InUserStack a → ¬(lo ≤ a ∧ a < hi) → mem a = m.mem a)
    (next : ℕ → ℕ) (heap : KernelHeap) (pid : ℕ)
    (hcovers : ∀ a, ¬InUserStack a → ¬covers a → mem a = m.mem a) :
    ExecFailed m (execFail ({ m with
      mem := mem
      pageTable := pt
      nextPid := pid
      execPool := m.poolWith lo hi
      execPoolUsed := m.usedWith lo hi }.relink next heap) m.execPoolUsed (m.frameFor lo hi))
      covers := by
  obtain ⟨himage, hstack, hother⟩ := frameRestore_poolWith hmem rfl
  exact
    { currentTask := rfl
      halted := rfl
      userBrk := rfl
      execPoolUsed := rfl
      execPool := fun i hi => frameSave_of_lt hi
      tasks := fun t => ⟨next t, rfl⟩
      image := himage
      stack := hstack
      mem := fun a h₁ h₂ => hother a (hcovers a h₁ h₂) }

/-- The callers are blocked, so reaping keeps them. -/
theorem Procs.mem_kept (h : Procs L m rest callers) {t : ℕ} (ht : t ∈ callers) :
    t ∈ rest.filter (!m.doomed ·) := by
  refine List.mem_filter.mpr ⟨h.sub t ht, ?_⟩
  simp [Machine.doomed, h.blocked t ht]

/-- Reaping takes away tasks that are neither current nor callers. -/
theorem Procs.relink (h : Procs L m rest callers) (hcur : m'.currentTask = m.currentTask)
    (hring : TaskRing L m' (m'.currentTask :: rest.filter (!m.doomed ·)))
    (htasks : ∀ t, ∃ next, m'.tasks t = { m.tasks t with next := next }) :
    Procs L m' (rest.filter (!m.doomed ·)) callers where
  ring := hring
  parents := by
    rw [hcur]
    refine h.parents.congr fun t _ => ?_
    obtain ⟨next, ht⟩ := htasks t
    rw [Machine.parentOf, ht]
  nodup := hcur ▸ h.nodup
  sub _ ht := h.mem_kept ht
  last := hcur ▸ h.last
  running := by
    obtain ⟨next, ht⟩ := htasks m.currentTask
    rw [hcur, ht, h.running]
  blocked t ht := by
    obtain ⟨next, ht'⟩ := htasks t
    rw [ht', h.blocked t ht]
  dead t ht hc := by
    obtain ⟨next, ht'⟩ := htasks t
    rw [ht', h.dead t (List.mem_of_mem_filter ht) hc]

/-! ### The launch -/

/-- The machine in which a successful `exec_run` calls `schedule`: the child is filled in, and the
caller blocked. -/
def readyChild (m : Machine) (child lo hi frameOff : ℕ) (fr : FrameShape) : Machine :=
  (adoptChild m child m.currentTask lo hi frameOff fr).modifyTask m.currentTask
    fun p => { p with state := .blocked }

section Launch

variable {c off : ℕ} {fr : FrameShape}

/-- The new task in front of the launch. -/
theorem readyChild_child (hc : c ≠ m.currentTask) :
    (readyChild m c lo hi off fr).tasks c =
      { m.tasks c with
        parent := m.currentTask
        elfLo := lo
        elfHi := hi
        hasFrame := true
        frameOff := off
        frameStackLen := fr.stackLen
        frameImgBase := fr.imgBase
        frameImgLen := fr.imgLen
        frameBrk := m.userBrk } := by
  rw [readyChild, Machine.modifyTask_of_ne _ _ _ hc, adoptChild, Machine.modifyTask_self]

/-- The caller in front of the launch. -/
theorem readyChild_caller (hc : c ≠ m.currentTask) :
    (readyChild m c lo hi off fr).tasks m.currentTask =
      { m.tasks m.currentTask with state := .blocked } := by
  rw [readyChild, Machine.modifyTask_self, adoptChild, Machine.modifyTask_of_ne _ _ _ hc.symm]

/-- The other tasks in front of the launch. -/
theorem readyChild_of_ne {t : ℕ} (ht : t ≠ c) (hcur : t ≠ m.currentTask) :
    (readyChild m c lo hi off fr).tasks t = m.tasks t := by
  rw [readyChild, Machine.modifyTask_of_ne _ _ _ hcur, adoptChild,
    Machine.modifyTask_of_ne _ _ _ ht]

/-- What is not filled in, and not the state, is as before. -/
theorem readyChild_keeps {α : Type} (g : Task → α)
    (hg : ∀ (t : Task) parent elfLo elfHi hasFrame frameOff frameStackLen frameImgBase frameImgLen
      frameBrk state,
      g { t with
        parent := parent
        elfLo := elfLo
        elfHi := elfHi
        hasFrame := hasFrame
        frameOff := frameOff
        frameStackLen := frameStackLen
        frameImgBase := frameImgBase
        frameImgLen := frameImgLen
        frameBrk := frameBrk
        state := state } = g t) (t : ℕ) :
    g ((readyChild m c lo hi off fr).tasks t) = g (m.tasks t) := by
  refine (Machine.modifyTask_keeps _ _ _ g t ?_).trans (Machine.modifyTask_keeps _ _ _ g t ?_)
  · exact hg (Machine.tasks _ _) _ _ _ _ _ _ _ _ _ _
  · exact hg (m.tasks c) _ _ _ _ _ _ _ _ _ (m.tasks c).state

/-- The switch to the new task is a switch away from a blocked one. -/
theorem switchTo_readyChild (hc : c ≠ m.currentTask) :
    switchTo (readyChild m c lo hi off fr) c =
      { readyChild m c lo hi off fr with currentTask := c }.modifyTask c fun t =>
        { t with state := .running } := by
  refine switchTo_eq ?_
  show ((readyChild m c lo hi off fr).tasks m.currentTask).state ≠ .running
  rw [readyChild_caller hc]
  exact TaskState.noConfusion

theorem switchTo_readyChild_child (hc : c ≠ m.currentTask) :
    (switchTo (readyChild m c lo hi off fr) c).tasks c =
      { (readyChild m c lo hi off fr).tasks c with state := .running } := by
  rw [switchTo_readyChild hc, Machine.modifyTask_self]

theorem switchTo_readyChild_of_ne (hc : c ≠ m.currentTask) {t : ℕ} (ht : t ≠ c) :
    (switchTo (readyChild m c lo hi off fr) c).tasks t = (readyChild m c lo hi off fr).tasks t := by
  rw [switchTo_readyChild hc, Machine.modifyTask_of_ne _ _ _ ht]

/-- Filling the new task in and blocking the caller does not touch the ring. -/
theorem readyChild_taskRing {ring : List ℕ} (h : TaskRing L m (m.currentTask :: ring)) :
    TaskRing L (readyChild m c lo hi off fr) (m.currentTask :: ring) :=
  h.congr rfl (fun t _ => readyChild_keeps Task.next (fun _ _ _ _ _ _ _ _ _ _ _ => rfl) t)
    (fun t _ => readyChild_keeps Task.heapAlloc (fun _ _ _ _ _ _ _ _ _ _ _ => rfl) t)
    fun t _ => readyChild_keeps Task.stack (fun _ _ _ _ _ _ _ _ _ _ _ => rfl) t

/-- The states of the other tasks in front of the launch. -/
theorem readyChild_state
    (htasks : ∀ t, t ≠ c → ∃ next, m'.tasks t = { m.tasks t with next := next }) {t : ℕ}
    (ht : t ≠ c) (hcur : t ≠ m'.currentTask) :
    ((readyChild m' c lo hi off fr).tasks t).state = (m.tasks t).state := by
  obtain ⟨next, hnext⟩ := htasks t ht
  rw [readyChild_of_ne ht hcur, hnext]

/-- Only the new task is ready, so `schedule` picks it. -/
theorem Procs.schedule_readyChild (h : Procs L m rest callers)
    (hring : TaskRing L m' (m'.currentTask :: c :: rest.filter (!m.doomed ·)))
    (htasks : ∀ t, t ≠ c → ∃ next, m'.tasks t = { m.tasks t with next := next })
    (hready : (m'.tasks c).state = .ready) :
    schedule (readyChild m' c lo hi off fr) =
      some (true, switchTo (readyChild m' c lo hi off fr) c) := by
  have hnd := hring.isRing.nodup
  simp only [List.nodup_cons, List.mem_cons, not_or] at hnd
  have hc : c ≠ m'.currentTask := Ne.symm hnd.1.1
  have hring' : TaskRing L (readyChild m' c lo hi off fr)
      (m'.currentTask :: c :: rest.filter (!m.doomed ·)) := readyChild_taskRing hring
  refine schedule_of_ready hring'.isRing List.mem_cons_self (hring'.ne_zero List.mem_cons_self)
    hring'.length_lt (by simp) hc ?_ ?_
  · rw [readyChild_child hc]
    exact hready
  · intro t ht htready
    rcases List.mem_cons.mp ht with rfl | ht
    · rw [readyChild_caller hc] at htready
      exact TaskState.noConfusion htready
    rcases List.mem_cons.mp ht with rfl | ht
    · rfl
    · -- the other tasks are blocked callers, or dead
      rw [readyChild_state htasks (fun heq => hnd.2.1 (heq ▸ ht))
        fun heq => hnd.1.2 (heq ▸ ht)] at htready
      by_cases hcall : t ∈ callers
      · rw [h.blocked t hcall] at htready
        exact TaskState.noConfusion htready
      · rw [h.dead t (List.mem_of_mem_filter ht) hcall] at htready
        exact TaskState.noConfusion htready

/-- **The launch.** `schedule` picks the new task, and the caller is the first of its callers. -/
theorem Procs.launch (h : Procs L m rest callers) (lo hi off : ℕ) (fr : FrameShape)
    (hcur : m'.currentTask = m.currentTask)
    (hring : TaskRing L m' (m'.currentTask :: c :: rest.filter (!m.doomed ·)))
    (htasks : ∀ t, t ≠ c → ∃ next, m'.tasks t = { m.tasks t with next := next })
    (hready : (m'.tasks c).state = .ready) :
    schedule (readyChild m' c lo hi off fr) =
        some (true, switchTo (readyChild m' c lo hi off fr) c) ∧
      ∃ rest', Procs L (switchTo (readyChild m' c lo hi off fr) c) rest'
        (m.currentTask :: callers) := by
  have hnd := hring.isRing.nodup
  simp only [List.nodup_cons, List.mem_cons, not_or] at hnd
  have hc : c ≠ m'.currentTask := Ne.symm hnd.1.1
  refine ⟨h.schedule_readyChild hring htasks hready, ?_⟩
  obtain ⟨rest', hring', hperm⟩ := (readyChild_taskRing hring).rotate (t := c) (by simp)
  have hE : (switchTo (readyChild m' c lo hi off fr) c).currentTask = c := by
    rw [switchTo_readyChild hc]
    rfl
  have hccall : c ∉ m.currentTask :: callers := by
    rw [← hcur, List.mem_cons, not_or]
    exact ⟨hc, fun hmem => hnd.2.1 (h.mem_kept hmem)⟩
  have hcallne : ∀ t ∈ m.currentTask :: callers, t ≠ c := fun t ht heq => hccall (heq ▸ ht)
  -- rotating the ring to the new task keeps its members
  have hmem : ∀ t, t ≠ c → (t ∈ rest' ↔
      t ∈ m.currentTask :: rest.filter (!m.doomed ·)) := by
    intro t htc
    have := hperm.mem_iff (a := t)
    simp only [List.mem_cons, htc, false_or, hcur] at this ⊢
    exact this
  refine ⟨rest', ?_, ?_, ?_, fun t ht => ?_, ?_, ?_, fun t ht => ?_, fun t ht hcall => ?_⟩
  · rw [hE]
    refine hring'.congr ?_
      (fun t _ => switchTo_keeps Task.next (fun _ _ => rfl) t)
      (fun t _ => switchTo_keeps Task.heapAlloc (fun _ _ => rfl) t)
      fun t _ => switchTo_keeps Task.stack (fun _ _ => rfl) t
    rw [switchTo_readyChild hc]
    rfl
  · have hparent : (switchTo (readyChild m' c lo hi off fr) c).parentOf c = m.currentTask := by
      rw [Machine.parentOf, switchTo_readyChild_child hc, readyChild_child hc, hcur]
    rw [hE]
    refine ⟨rfl, ?_⟩
    rw [hparent]
    refine h.parents.congr fun t ht => ?_
    have htc := hcallne t ht
    obtain ⟨next, hnext⟩ := htasks t htc
    rw [Machine.parentOf, switchTo_readyChild_of_ne hc htc]
    by_cases htcur : t = m'.currentTask
    · rw [htcur, readyChild_caller hc, ← htcur, hnext]
    · rw [readyChild_of_ne htc htcur, hnext]
  · rw [hE]
    exact List.nodup_cons.mpr ⟨hccall, h.nodup⟩
  · refine (hmem t (hcallne t ht)).mpr ?_
    rcases List.mem_cons.mp ht with rfl | ht
    · exact List.mem_cons_self
    · exact List.mem_cons_of_mem _ (h.mem_kept ht)
  · rw [hE, List.getLast?_cons_cons, h.last]
  · rw [hE, switchTo_readyChild_child hc]
  · rw [switchTo_readyChild_of_ne hc (hcallne t ht)]
    rcases List.mem_cons.mp ht with rfl | ht
    · rw [← hcur, readyChild_caller hc]
    · have htkept := h.mem_kept ht
      rw [readyChild_state htasks (fun heq => hnd.2.1 (heq ▸ htkept))
        (fun heq => hnd.1.2 (heq ▸ htkept)), h.blocked t ht]
  · have htc : t ≠ c := fun heq => (List.nodup_cons.mp hring'.isRing.nodup).1 (heq ▸ ht)
    rw [List.mem_cons, not_or] at hcall
    have htkept := (List.mem_cons.mp ((hmem t htc).mp ht)).resolve_left hcall.1
    rw [switchTo_readyChild_of_ne hc htc, readyChild_state htasks htc
      (fun heq => hnd.1.2 (heq ▸ htkept)), h.dead t (List.mem_of_mem_filter htkept) hcall.2]

end Launch

/-! ### The outcomes -/

/-- The two outcomes of `exec_run` when the current task has the callers `callers`; `covers` are
the bytes it may load. -/
inductive ExecOutcome (L : Layout) (m : Machine) (callers : List ℕ) (covers : ℕ → Prop) :
    ℤ → Machine → Prop
  | failed {m' : Machine} {rest : List ℕ} : ExecFailed m m' covers → Procs L m' rest callers →
      ExecOutcome L m callers covers (-1) m'
  | started {m' : Machine} {lo hi c : ℕ} {rest : List ℕ} : ExecStarted m m' lo hi c →
      (∀ a, lo ≤ a → a < hi → covers a) → Procs L m' rest (m.currentTask :: callers) →
      ExecOutcome L m callers covers 0 m'

/-- The machine when the frame has been saved, and stack and image written. -/
def Machine.written (m : Machine) (lo hi : ℕ) (mem : Mem) (pageTable : PageTable) : Machine :=
  { m with
    mem := mem
    pageTable := pageTable
    execPool := m.poolWith lo hi
    execPoolUsed := m.usedWith lo hi }

/-- `exec_run` from the allocation of the task on. -/
private theorem Procs.execTask (h : Procs L m rest callers) {covers : ℕ → Prop} {mem : Mem}
    {pt : PageTable} (entry sp : ℕ) (hfits : m.usedWith lo hi ≤ execPoolSize) (hhi : hi ≠ 0)
    (hmem : ∀ a, ¬InUserStack a → ¬(lo ≤ a ∧ a < hi) → mem a = m.mem a)
    (hcovers : ∀ a, lo ≤ a → a < hi → covers a) :
    ∃ r m', execTask L (m.written lo hi mem pt) entry sp lo hi m.execPoolUsed
        (m.frameFor lo hi) = some (r, m') ∧ ExecOutcome L m callers covers r m' := by
  rw [ChalesOs.execTask]
  have hring : TaskRing L (m.written lo hi mem pt) (m.currentTask :: rest) :=
    h.ring.congr rfl (fun _ _ => rfl) (fun _ _ => rfl) fun _ _ => rfl
  obtain ⟨next, heap, ⟨hnew, hring'⟩ | ⟨c, stack, hc, hnew, hring'⟩⟩ :=
    TaskRing.schedTaskNew (m := m.written lo hi mem pt) hring entry sp
  · rw [hnew, Option.bind_some]
    refine ⟨_, _, rfl, .failed (execFailed_execFail hmem _ _ _ fun a h₁ h₂ => ?_)
      (h.relink rfl (hring'.congr rfl (fun _ _ => rfl) (fun _ _ => rfl) fun _ _ => rfl)
        fun t => ⟨next t, rfl⟩)⟩
    exact hmem a h₁ fun h₃ => h₂ (hcovers a h₃.1 h₃.2)
  · set new := ((m.written lo hi mem pt).withNewTask c stack entry sp).relink next heap
      with hnew_def
    have hcne : c ≠ new.currentTask := fun heq => hc (heq ▸ List.mem_cons_self)
    have hchild : new.tasks c =
        { Task.zero with
          stack := stack
          heapAlloc := true
          entry := entry
          userStackTop := sp
          state := .ready
          pid := m.nextPid
          next := next c } := by
      rw [hnew_def, Machine.relink_tasks, Machine.withNewTask, Machine.modifyTask_self]
      rfl
    have htasks : ∀ t, t ≠ c → ∃ next, new.tasks t = { m.tasks t with next := next } := by
      intro t ht
      refine ⟨next t, ?_⟩
      rw [hnew_def, Machine.relink_tasks, Machine.withNewTask, Machine.modifyTask_of_ne _ _ _ ht]
      rfl
    have hcur : new.currentTask = m.currentTask := rfl
    -- a task has been allocated: fill it in and switch to it
    obtain ⟨hsched, rest', hprocs⟩ :=
      h.launch lo hi m.execPoolUsed (m.frameFor lo hi) hcur hring' htasks (by rw [hchild])
    rw [hnew, Option.bind_some]
    refine ⟨0, _, congrArg (Option.map fun r => ((0 : ℤ), r.2)) hsched,
      .started (c := c) ⟨hhi, hfits, ?_, ?_, ?_, ?_, ?_, ?_, ?_, fun t htc ht => ?_, ?_⟩ hcovers
        hprocs⟩
    · rw [switchTo_readyChild hcne]
      rfl
    · rw [switchTo_readyChild hcne]
      rfl
    · rw [switchTo_readyChild hcne]
      rfl
    · rw [switchTo_readyChild hcne]
      rfl
    · rw [switchTo_readyChild hcne]
      rfl
    · refine ⟨stack, next c, entry, sp, ?_⟩
      rw [switchTo_readyChild_child hcne, readyChild_child hcne, hchild]
      rfl
    · obtain ⟨next, hcaller⟩ := htasks new.currentTask hcne.symm
      exact ⟨next, (switchTo_readyChild_of_ne hcne hcne.symm).trans
        ((readyChild_caller hcne).trans (by rw [hcaller]; rfl))⟩
    · obtain ⟨next, hother⟩ := htasks t htc
      exact ⟨next, (switchTo_readyChild_of_ne hcne htc).trans
        ((readyChild_of_ne (m := new) htc ht).trans hother)⟩
    · rw [switchTo_readyChild hcne]
      exact hmem

/-- What `copy_strings` lets pass fits on the user stack. -/
private theorem copied_fits {argv envp : List CString} {used : ℕ}
    (h : (copyStrings 0 0 argv).bind (fun used => copyStrings 0 used envp) = some used) :
    stringsTotalSize argv + stringsTotalSize envp + (argv.length + 1) * 4 +
      (envp.length + 1) * 4 + 4 + 3 ≤ execStackTop - execStackBase := by
  obtain ⟨-, hargc, henvc, hbytes⟩ := copyStrings_bind_eq_some_iff.mp h
  have hsize : execStackTop - execStackBase = 0x4000 := rfl
  rw [hsize]
  simp only [execMaxArgs, execArgBytes] at *
  omega

/-- What `exec_run` does when the stack is written depends on `elf_load`. -/
private theorem execImage_of_stack {bytes : List UInt8} {argv envp : List CString} {mem₁ : Mem}
    {sp : ℕ} (hfits : ¬m.usedWith lo hi > execPoolSize)
    (hstack : elfBuildUserStack m.mem execStackBase execStackTop argv envp = some (mem₁, sp))
    {st₁ st : LoadState}
    (hst₁ : st₁ = ⟨mem₁, pagingMapUserRange m.pageTable execStackBase execStackTop⟩) :
    (∀ e, elfLoad L (.ofBytes bytes) st₁ = some (.error e, st) →
      execImage L m (.ofBytes bytes) lo hi argv envp =
        some (-1, execFail (m.written lo hi st.mem st.pageTable) m.execPoolUsed
          (m.frameFor lo hi))) ∧
    ∀ entry, elfLoad L (.ofBytes bytes) st₁ = some (.ok entry, st) →
      execImage L m (.ofBytes bytes) lo hi argv envp =
        execTask L (m.written lo hi st.mem st.pageTable) entry sp lo hi m.execPoolUsed
          (m.frameFor lo hi) := by
  subst hst₁
  have himage : execImage L m (.ofBytes bytes) lo hi argv envp =
      execLoad L { m with execPool := m.poolWith lo hi, execPoolUsed := m.usedWith lo hi }
        (.ofBytes bytes) lo hi argv envp m.execPoolUsed (m.frameFor lo hi) := if_neg hfits
  rw [himage, execLoad]
  dsimp only
  rw [hstack]
  dsimp only
  constructor
  · intro e hload
    rw [hload]
    rfl
  · intro entry hload
    rw [hload]
    rfl

/-- `exec_run` behind the copying of the arguments. -/
private theorem Procs.execImage (h : Procs L m rest callers) {covers : ℕ → Prop}
    {bytes : List UInt8} {argv envp : List CString} {used : ℕ}
    (hext : elfExtent (.ofBytes bytes) m.mem = some (some (lo, hi)))
    (hargs : (copyStrings 0 0 argv).bind (fun used => copyStrings 0 used envp) = some used)
    (hcovers : ∀ entry st, elfLoad L (.ofBytes bytes) ⟨m.mem, m.pageTable⟩ = some (.ok entry, st) →
      ∀ a, lo ≤ a → a < hi → covers a) :
    ∃ r m', execImage L m (.ofBytes bytes) lo hi argv envp = some (r, m') ∧
      ExecOutcome L m callers covers r m' := by
  have hrefl : ExecOutcome L m callers covers (-1) m := .failed (.refl m covers) h
  by_cases hfits : m.usedWith lo hi > execPoolSize
  · exact ⟨-1, m, if_pos hfits, hrefl⟩
  obtain ⟨mem₁, sp, hstack, hmem₁⟩ := elfBuildUserStack_eqOn (m := m.mem) (copied_fits hargs)
  obtain ⟨_, hext', hspec⟩ := elfExtent_spec (.ofBytes bytes) m.mem
  obtain rfl := Option.some.inj (hext.symm.trans hext')
  obtain ⟨-, hhi, -, hsegs⟩ := hspec lo hi rfl
  have hheld : (Image.ofBytes bytes).HeldOutside (LoadState.mem
      ⟨mem₁, pagingMapUserRange m.pageTable execStackBase execStackTop⟩) :=
    Image.heldOutside_ofBytes bytes mem₁
  rcases elfLoad_cases L hheld with ⟨e, hload⟩ | ⟨⟨entry, hload⟩, hc⟩
  · rw [(execImage_of_stack hfits hstack rfl).1 e hload]
    refine ⟨_, _, rfl, .failed (execFailed_execFail (fun a h₁ _ => hmem₁ h₁) m.nextOf m.heap
      m.nextPid fun a h₁ _ => hmem₁ h₁)
      (h.congr rfl rfl (fun _ => rfl) (fun _ => rfl) (fun _ => rfl) (fun _ => rfl) fun _ => rfl)⟩
  · obtain ⟨st, hload'⟩ := elfLoad_ofBytes_ok hload ⟨m.mem, m.pageTable⟩
    rw [(execImage_of_stack hfits hstack rfl).2 entry hload]
    refine h.execTask entry sp (by omega) hhi (fun a hstack hhull => ?_) (hcovers entry st hload')
    refine (LoadState.loaded_mem_of_not_covers hc fun ph hph hcov => ?_).trans (hmem₁ hstack)
    -- every segment lies in the extent
    obtain ⟨h₁, h₂⟩ := hsegs ph hph
    obtain ⟨h₃, h₄⟩ := hcov
    exact hhull ⟨by omega, by omega⟩

/-- **The outcomes of `exec_run`.** It always comes to an end, and fails or starts a program. -/
theorem Procs.execRun (h : Procs L m rest callers)
    (fileData : CString → Option (List UInt8)) (path : Option CString)
    (argv envp : Option (List CString)) :
    ∃ r m', execRun L fileData m path argv envp = some (r, m') ∧
      ExecOutcome L m callers (ExecCovers L fileData m path) r m' := by
  have hrefl : ExecOutcome L m callers (ExecCovers L fileData m path) (-1) m :=
    .failed (.refl m _) h
  rw [ChalesOs.execRun]
  cases hfile : path.bind fileData with
  | none => exact ⟨-1, m, rfl, hrefl⟩
  | some bytes =>
    dsimp only
    by_cases hsize : bytes.length = 0
    · exact ⟨-1, m, if_pos hsize, hrefl⟩
    obtain ⟨extent, hext, -⟩ := elfExtent_spec (.ofBytes bytes) m.mem
    rw [if_neg hsize, hext, Option.bind_some]
    cases extent with
    | none => exact ⟨-1, m, rfl, hrefl⟩
    | some e =>
      obtain ⟨lo, hi⟩ := e
      dsimp only
      cases hargs : (copyStrings 0 0 (argv.getD [])).bind fun used =>
          copyStrings 0 used (envp.getD []) with
      | none => exact ⟨-1, m, rfl, hrefl⟩
      | some used =>
        refine h.execImage hext hargs fun entry st hload a h₁ h₂ => ?_
        exact ⟨bytes, lo, hi, entry, st, hfile, hext, hload, h₁, h₂⟩

end ChalesOs
