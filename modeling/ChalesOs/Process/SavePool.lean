import ChalesOs.Process.Runs

/-!
# The save pool

A program that has been started owns the frame of `exec_pool` with the saved part of its caller.
The frames of the tasks that are not dead form a stack: `FrameStack` reads it from the current
task down to the child of the initial one. Starting a program pushes a frame, and the end of
a task pops its frame together with those of its descendants, all of which lie above it.
-/

namespace ChalesOs

open PointerRing

variable {L : Layout} {m m' : Machine} {rest callers pre post fs : List ℕ} {t p x used : ℕ}
  {status : ℤ} {op : ProcOp}

/-- The tasks of `fs` own consecutive frames, the last of which belongs to the first task and
ends at `used`; the first frame starts at 0. -/
def FrameStack (m : Machine) : (fs : List ℕ) → (used : ℕ) → Prop
  | [], used => used = 0
  | t :: fs, used => (m.tasks t).hasFrame = true ∧ (m.tasks t).frameEnd = used ∧
      FrameStack m fs (m.tasks t).frameOff

/-- A stack depends on the frames of its tasks only. -/
theorem FrameStack.congr (h : FrameStack m fs used)
    (hframe : ∀ t ∈ fs, (m'.tasks t).hasFrame = (m.tasks t).hasFrame ∧
      (m'.tasks t).frameOff = (m.tasks t).frameOff ∧
      (m'.tasks t).frameEnd = (m.tasks t).frameEnd) : FrameStack m' fs used := by
  induction fs generalizing used with
  | nil => exact h
  | cons t fs ih =>
    obtain ⟨h₁, h₂, h₃⟩ := h
    obtain ⟨⟨e₁, e₂, e₃⟩, hframe⟩ := List.forall_mem_cons.mp hframe
    exact ⟨e₁.trans h₁, e₃.trans h₂, e₂ ▸ ih h₃ hframe⟩

/-- Below any of the frames the stack goes on. -/
theorem FrameStack.tail (h : FrameStack m (pre ++ t :: fs) used) :
    (m.tasks t).hasFrame = true ∧ FrameStack m fs (m.tasks t).frameOff := by
  induction pre generalizing used with
  | nil => exact ⟨h.1, h.2.2⟩
  | cons x pre ih => exact ih h.2.2

/-- Every frame of the stack is in use. -/
theorem FrameStack.frameEnd_le (h : FrameStack m fs used) (ht : t ∈ fs) :
    (m.tasks t).frameEnd ≤ used := by
  induction fs generalizing used with
  | nil => simp at ht
  | cons x fs ih =>
    obtain ⟨-, hend, hfs⟩ := h
    rcases List.mem_cons.mp ht with rfl | ht
    · exact hend.le
    · refine (ih hfs ht).trans (le_trans ?_ hend.le)
      rw [Task.frameEnd, Nat.add_assoc]
      exact Nat.le_add_right _ _

/-- The pool of a machine that runs a program. -/
structure Pool (L : Layout) (m : Machine) (callers : List ℕ) : Prop where
  stack : ∃ fs, m.currentTask :: callers = fs ++ [L.task0] ∧ FrameStack m fs m.execPoolUsed
  task0 : (m.tasks L.task0).hasFrame = false
  fits : m.execPoolUsed ≤ execPoolSize

/-! ### What an exit pops -/

/-- The end of an exit takes the task's frame, and no other. -/
theorem finishExit_hasFrame (hx : x ≠ t) :
    ((finishExit m t status).tasks x).hasFrame = (m.tasks x).hasFrame := by
  rw [finishExit, Machine.modifyTask_of_ne _ _ _ hx]
  split_ifs
  · rw [Machine.modifyTask_keeps _ _ _ Task.hasFrame _ rfl, execRestore_of_ne hx]
  · rfl

theorem killAll_hasFrame (hx : x ∉ pre) :
    ((killAll m pre).tasks x).hasFrame = (m.tasks x).hasFrame := by
  induction pre generalizing m with
  | nil => rfl
  | cons t pre ih =>
    rw [List.mem_cons, not_or] at hx
    exact (ih (m := finishExit m t 9) hx.2).trans (finishExit_hasFrame hx.1)

/-- The end of a task with a frame and a parent restores the frame, and pops it. -/
theorem finishExit_restores (hp : m.parentOf t ≠ 0) (hframe : (m.tasks t).hasFrame = true)
    (status : ℤ) :
    (finishExit m t status).mem = frameRestore m.execPool m.mem (m.tasks t).frameOff
        (m.tasks t).frameStackLen (m.tasks t).frameImgBase (m.tasks t).frameImgLen ∧
      (finishExit m t status).userBrk = (m.tasks t).frameBrk ∧
      (finishExit m t status).execPoolUsed = (m.tasks t).frameOff := by
  rw [finishExit, if_pos hp, execRestore, if_pos hframe]
  exact ⟨rfl, rfl, rfl⟩

/-- When the tasks above it have ended, a task with a frame and a parent still has both. -/
theorem Procs.killAll_frame (h : Procs L m rest callers)
    (hchain : m.currentTask :: callers = pre ++ t :: p :: post)
    (hframe : (m.tasks t).hasFrame = true) :
    (killAll m pre).parentOf t ≠ 0 ∧ ((killAll m pre).tasks t).hasFrame = true := by
  have hnd := h.nodup
  rw [hchain, List.nodup_append] at hnd
  have htpre : t ∉ pre := fun hmem => hnd.2.2 t hmem t List.mem_cons_self rfl
  constructor
  · rw [killAll_parent, (h.split hchain).2.1]
    exact h.ring.ne_zero (h.mem_ring (by simp [hchain]))
  · rw [killAll_hasFrame htpre, hframe]

/-! ### Steps -/

/-- A machine at boot has an empty pool. -/
theorem pool_schedInit (L : Layout) (mem : Mem) (pageTable : PageTable) :
    Pool L (schedInit L mem pageTable) [] where
  stack := ⟨[], rfl, rfl⟩
  task0 := by
    simp only [schedInit, Function.update_self]
    rfl
  fits := Nat.zero_le _

/-- The pool depends on frames, on the current task and on the use of the pool only. -/
theorem Pool.congr (h : Pool L m callers) (hcur : m'.currentTask = m.currentTask)
    (hused : m'.execPoolUsed = m.execPoolUsed)
    (htasks : ∀ t, (m'.tasks t).hasFrame = (m.tasks t).hasFrame ∧
      (m'.tasks t).frameOff = (m.tasks t).frameOff ∧
      (m'.tasks t).frameEnd = (m.tasks t).frameEnd) : Pool L m' callers where
  stack := by
    obtain ⟨fs, hchain, hfs⟩ := h.stack
    exact ⟨fs, hcur ▸ hchain, hused ▸ hfs.congr fun t _ => htasks t⟩
  task0 := (htasks _).1.trans h.task0
  fits := hused ▸ h.fits

/-- A failed `exec_run` changes no frame. -/
theorem Pool.failed {covers : ℕ → Prop} (h : Pool L m callers) (hf : ExecFailed m m' covers) :
    Pool L m' callers :=
  h.congr hf.currentTask hf.execPoolUsed fun t =>
    ⟨hf.keeps Task.hasFrame (fun _ _ => rfl) t, hf.keeps Task.frameOff (fun _ _ => rfl) t,
      hf.keeps Task.frameEnd (fun _ _ => rfl) t⟩

/-- A quiet operation changes no frame. -/
theorem Pool.quiet (h : Pool L m callers) (hq : Quiet m m' op) : Pool L m' callers :=
  h.congr hq.currentTask hq.execPoolUsed fun t =>
    ⟨hq.keeps Task.hasFrame (fun _ _ => rfl) t, hq.keeps Task.frameOff (fun _ _ => rfl) t,
      hq.keeps Task.frameEnd (fun _ _ => rfl) t⟩

/-- A successful start pushes the frame of the new task. -/
theorem Pool.started {lo hi c : ℕ} (h : Pool L m callers) (hs : ExecStarted m m' lo hi c)
    (hnew : c ∉ m.currentTask :: callers) : Pool L m' (m.currentTask :: callers) := by
  obtain ⟨fs, hchain, hfs⟩ := h.stack
  have hne : ∀ {t}, t ∈ fs ++ [L.task0] → t ≠ c := fun ht heq => hnew (hchain ▸ heq ▸ ht)
  obtain ⟨stack, next, entry, sp, hchild⟩ := hs.child
  refine ⟨⟨c :: fs, ?_, ?_, ?_, ?_⟩, ?_, hs.execPoolUsed ▸ hs.fits⟩
  · rw [hs.currentTask, hchain, List.cons_append]
  · rw [hchild]
  · rw [hchild, hs.execPoolUsed, Machine.usedWith, Task.frameEnd, Nat.add_assoc]
  · rw [hchild]
    exact hfs.congr fun t ht =>
      ⟨hs.keeps Task.hasFrame (fun _ _ _ => rfl) (hne (by simp [ht])),
        hs.keeps Task.frameOff (fun _ _ _ => rfl) (hne (by simp [ht])),
        hs.keeps Task.frameEnd (fun _ _ _ => rfl) (hne (by simp [ht]))⟩
  · rw [hs.keeps Task.hasFrame (fun _ _ _ => rfl) (hne (by simp)), h.task0]

/-- A task that has not ended keeps its frame. -/
theorem exitTo_hasFrame (hpre : x ∉ pre) (ht : x ≠ t) :
    ((exitTo m pre t p status).tasks x).hasFrame = (m.tasks x).hasFrame := by
  rw [exitTo, switchTo_keeps Task.hasFrame fun _ _ => rfl, finishExit_hasFrame ht,
    killAll_hasFrame hpre]

/-- The pool behind the end of a task with a frame and a parent. -/
theorem Procs.exitTo_execPoolUsed (h : Procs L m rest callers)
    (hchain : m.currentTask :: callers = pre ++ t :: p :: post)
    (hframe : (m.tasks t).hasFrame = true) :
    (exitTo m pre t p status).execPoolUsed = (m.tasks t).frameOff := by
  obtain ⟨hparent, hframe'⟩ := h.killAll_frame hchain hframe
  rw [h.exitTo_eq hchain]
  exact (finishExit_restores hparent hframe' status).2.2.trans
    (killAll_keeps_task Task.frameOff (fun _ _ _ _ _ _ => rfl) t)

/-- The break behind the end of a task with a frame and a parent. -/
theorem Procs.exitTo_userBrk (h : Procs L m rest callers)
    (hchain : m.currentTask :: callers = pre ++ t :: p :: post)
    (hframe : (m.tasks t).hasFrame = true) :
    (exitTo m pre t p status).userBrk = (m.tasks t).frameBrk := by
  obtain ⟨hparent, hframe'⟩ := h.killAll_frame hchain hframe
  rw [h.exitTo_eq hchain]
  exact (finishExit_restores hparent hframe' status).2.1.trans
    (killAll_keeps_task Task.frameBrk (fun _ _ _ _ _ _ => rfl) t)

/-- The end of a task with a parent pops its frame, and those above it. -/
theorem Pool.finish (h : Pool L m callers) (hprocs : Procs L m rest callers)
    (hchain : m.currentTask :: callers = pre ++ t :: p :: post) :
    Pool L (exitTo m pre t p status) post := by
  obtain ⟨fs, hfs_chain, hfs⟩ := h.stack
  obtain ⟨fs', last, hpost⟩ := (List.eq_nil_or_concat (p :: post)).resolve_left (by simp)
  rw [List.concat_eq_append] at hpost
  rw [hchain, hpost, ← List.cons_append, ← List.append_assoc] at hfs_chain
  obtain ⟨rfl, hlast⟩ := List.append_inj' hfs_chain rfl
  obtain rfl := List.singleton_inj.mp hlast
  obtain ⟨hframe, hfs'⟩ := hfs.tail
  have hmem : ∀ {x}, x ∈ fs' ++ [L.task0] → x ∉ pre ∧ x ≠ t := fun hx =>
    (hprocs.mem_callers hchain (hpost ▸ hx)).2
  have hused : (exitTo m pre t p status).execPoolUsed = (m.tasks t).frameOff :=
    hprocs.exitTo_execPoolUsed hchain hframe
  refine ⟨⟨fs', hpost, ?_⟩, ?_, ?_⟩
  · rw [hused]
    refine hfs'.congr fun x hx => ?_
    obtain ⟨hxpre, hxt⟩ := hmem (List.mem_append_left _ hx)
    exact ⟨exitTo_hasFrame hxpre hxt, exitTo_keeps Task.frameOff (fun _ _ _ _ _ _ => rfl) x,
      exitTo_keeps Task.frameEnd (fun _ _ _ _ _ _ => rfl) x⟩
  · obtain ⟨hxpre, hxt⟩ := hmem (List.mem_append_right fs' (List.mem_singleton.mpr rfl))
    rw [exitTo_hasFrame hxpre hxt, h.task0]
  · have hle := hfs.frameEnd_le (t := t) (by simp)
    rw [Task.frameEnd, Nat.add_assoc] at hle
    rw [hused]
    exact (Nat.le_add_right _ _).trans (hle.trans h.fits)

/-- Every step keeps the discipline. -/
theorem ProcMove.pool (hmove : ProcMove L m callers op m') (hprocs : Procs L m rest callers)
    (h : Pool L m callers) :
    m'.halted = true ∨ ∃ rest' callers', Procs L m' rest' callers' ∧ Pool L m' callers' := by
  cases hmove with
  | halt hhalt _ => exact Or.inl hhalt
  | exec hout =>
    cases hout with
    | failed hf hprocs' => exact Or.inr ⟨_, _, hprocs', h.failed hf⟩
    | started hs _ hprocs' => exact Or.inr ⟨_, _, hprocs', h.started hs (hs.not_mem hprocs')⟩
  | finish hchain hprocs' => exact Or.inr ⟨_, _, hprocs', h.finish hprocs hchain⟩
  | quiet hq => exact Or.inr ⟨_, _, hprocs.quiet hq, h.quiet hq⟩

/-! ### Runs -/

theorem pool_of_reachable {ok : Machine → ProcOp → Prop} (h : (procSystem L).ReachableBy ok m)
    (hrun : m.halted = false) : ∃ rest callers, Procs L m rest callers ∧ Pool L m callers :=
  running_invariant h hrun (pool_schedInit L) fun _ _ _ _ _ hprocs hpool _ hmove =>
    hmove.pool hprocs hpool

/-- The stack discipline of the save pool on the ring `current_task`, `rest`: the tasks that are
not dead and have a frame are those between the current task and the initial one, and own
consecutive frames from 0 to `exec_pool_used`. -/
structure SavePool (L : Layout) (m : Machine) (rest : List ℕ) : Prop where
  frames : ∃ fs, Seg m.parentOf m.currentTask fs L.task0 ∧ fs.Nodup ∧
    (∀ t, t ∈ fs ↔ t ∈ m.currentTask :: rest ∧ (m.tasks t).state ≠ .dead ∧
      (m.tasks t).hasFrame = true) ∧
    FrameStack m fs m.execPoolUsed
  fits : m.execPoolUsed ≤ execPoolSize

/-- The pool of a running machine is a stack of frames. -/
theorem Pool.savePool (h : Pool L m callers) (hprocs : Procs L m rest callers) :
    SavePool L m rest := by
  obtain ⟨fs, hchain, hfs⟩ := h.stack
  refine ⟨⟨fs, (hprocs.split hchain).1, ?_, fun t => ?_, hfs⟩, h.fits⟩
  · have hnd := hprocs.nodup
    rw [hchain] at hnd
    exact (List.nodup_append.mp hnd).1
  · constructor
    · intro ht
      have hmem : t ∈ m.currentTask :: callers := hchain ▸ List.mem_append_left _ ht
      have hring := hprocs.mem_ring hmem
      obtain ⟨l₁, l₂, rfl⟩ := List.append_of_mem ht
      exact ⟨hring, (hprocs.alive_iff hring).mpr hmem, hfs.tail.1⟩
    · rintro ⟨hring, hlive, hframe⟩
      have hmem := (hprocs.alive_iff hring).mp hlive
      rw [hchain] at hmem
      refine (List.mem_append.mp hmem).resolve_right fun h0 => ?_
      rw [List.mem_singleton.mp h0, h.task0] at hframe
      exact Bool.noConfusion hframe

/-- `exec_run` writes the pool behind what is in use only. -/
theorem ExecOutcome.execPool {covers : ℕ → Prop} {r : ℤ}
    (h : ExecOutcome L m callers covers r m') {i : ℕ} (hi : i < m.execPoolUsed) :
    m'.execPool i = m.execPool i := by
  cases h with
  | failed hf _ => exact hf.execPool i hi
  | started hs _ _ =>
    rw [hs.execPool]
    exact frameSave_of_lt hi

/-- **Stack discipline of the save pool.** In every reachable machine that has not halted, the
frames of the tasks that are not dead are consecutive, from 0 to `exec_pool_used`, and fit; and no
`exec_run` changes a byte of any of them. -/
theorem savePool_of_reachable (h : (procSystem L).Reachable m) (hrun : m.halted = false)
    (hring : IsRing m.nextOf (m.currentTask :: rest)) :
    SavePool L m rest ∧
      ∀ fileData path argv envp r m', execRun L fileData m path argv envp = some (r, m') →
        ∀ t ∈ m.currentTask :: rest, (m.tasks t).state ≠ .dead → (m.tasks t).hasFrame = true →
          ∀ i, i < (m.tasks t).frameEnd → m'.execPool i = m.execPool i := by
  obtain ⟨rest', callers, hprocs, hpool⟩ := pool_of_reachable h hrun
  obtain rfl := hprocs.ring.isRing.unique hring
  have hsave := hpool.savePool hprocs
  refine ⟨hsave, fun fileData path argv envp r m' hexec t ht hlive hframe i hi => ?_⟩
  obtain ⟨fs, -, -, hmem, hfs⟩ := hsave.frames
  obtain ⟨r₁, m₁, hexec₁, hout⟩ := hprocs.execRun fileData path argv envp
  obtain ⟨rfl, rfl⟩ := Prod.mk.inj (Option.some.inj (hexec₁.symm.trans hexec))
  exact hout.execPool (hi.trans_le (hfs.frameEnd_le ((hmem t).mpr ⟨ht, hlive, hframe⟩)))

/-- `savePool_of_reachable` on the sample run. -/
theorem savePool_sample :
    SavePool Layout.sample sampleMachine [1253632, 2621464] ∧
      ∀ fileData path argv envp r m',
        execRun Layout.sample fileData sampleMachine path argv envp = some (r, m') →
        ∀ t ∈ sampleMachine.currentTask :: [1253632, 2621464],
          (sampleMachine.tasks t).state ≠ .dead → (sampleMachine.tasks t).hasFrame = true →
            ∀ i, i < (sampleMachine.tasks t).frameEnd →
              m'.execPool i = sampleMachine.execPool i :=
  savePool_of_reachable (reachable_of_runInputs (Option.some_get _).symm) (by decide +kernel)
    isRing_sample

end ChalesOs
