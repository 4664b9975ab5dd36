import ChalesOs.Process.Runs

/-!
# Who runs after an exit

The end of a task with a parent ends its descendants too and nothing else, and leaves the parent
running with the status of the task. The parent then reads this status once.

In a chain the descendants of a task are the tasks in front of it, so the walk up the process
tree and the list `pre` of `Procs.schedTaskExit` say the same; `Procs.descendant_iff` is this
translation.
-/

namespace ChalesOs

open PointerRing ByteMemory

variable {L : Layout} {m m' : Machine} {rest callers pre post : List ℕ} {t p x : ℕ} {status : ℤ}

/-! ### Descendants -/

/-- The task `x` is `t` or one of its descendants. -/
def Machine.Descends (m : Machine) (x t : ℕ) : Prop := Relation.ReflTransGen m.ParentStep x t

/-- Every task of a chain leads to the end of the chain. -/
private theorem descends_of_seg {a b : ℕ} {l : List ℕ} (h : Seg m.parentOf a l b)
    (h0 : ∀ y ∈ l, y ≠ 0) (hb : b ≠ 0) (hx : x ∈ l) : m.Descends x b := by
  induction l generalizing a x with
  | nil => simp at hx
  | cons y l ih =>
    obtain ⟨rfl, h⟩ := h
    replace h0 := (List.forall_mem_cons.mp h0).2
    rcases List.mem_cons.mp hx with rfl | hx
    · cases l with
      | nil => exact .single ⟨hb, h⟩
      | cons z l =>
        obtain rfl : m.parentOf x = z := h.1
        exact .head ⟨h0 _ (by simp), rfl⟩ (ih h h0 List.mem_cons_self)
    · exact ih h h0 hx

/-- A walk up the tree from a task of a chain up to 0 stays in the chain. -/
private theorem mem_of_descends {a y : ℕ} {l : List ℕ} (h : Seg m.parentOf a l 0) (hx : x ∈ l)
    (hxy : m.Descends x y) : y ∈ l := by
  induction hxy with
  | refl => exact hx
  | tail _ hstep ih =>
    obtain ⟨h0, rfl⟩ := hstep
    exact (parent_of_seg h ih).resolve_left fun hnull => h0 hnull.1

/-- In the chain, `t` and its descendants are `t` and the tasks in front of it. -/
theorem Procs.descendant_iff (h : Procs L m rest callers)
    (hchain : m.currentTask :: callers = pre ++ t :: post) (hx : x ∈ m.currentTask :: callers) :
    m.Descends x t ↔ x ∈ pre ++ [t] := by
  obtain ⟨hpre, hpost⟩ := h.split hchain
  have h0 : ∀ y ∈ m.currentTask :: callers, y ≠ 0 := fun y hy => h.ring.ne_zero (h.mem_ring hy)
  rw [hchain] at hx h0
  constructor
  · intro hxt
    have hnd := h.nodup
    rw [hchain] at hnd
    have hmem : x ∈ pre ∨ x = t ∨ x ∈ post := by simpa using hx
    rcases hmem with hmem | rfl | hmem
    · exact List.mem_append_left _ hmem
    · simp
    · exact absurd (mem_of_descends hpost hmem hxt)
        (List.nodup_cons.mp (List.nodup_append.mp hnd).2.1).1
  · intro hmem
    rcases List.mem_append.mp hmem with hmem | hmem
    · exact descends_of_seg hpre (fun y hy => h0 y (by simp [hy])) (h0 t (by simp)) hmem
    · obtain rfl := List.mem_singleton.mp hmem
      exact .refl

/-! ### The status of a task that has ended -/

/-- While a task stays current and starts no program, its operations are quiet. -/
private theorem quiet_of_stays (h : Procs L m rest callers) {op : ProcOp}
    (hop : ¬op.IsExec) (hcur : m'.currentTask = m.currentTask) (hhalt : m'.halted = false)
    (hs : (procSystem L).step m op = some m') : Quiet m m' op := by
  cases procStep_move h hs with
  | halt h₁ _ =>
    rw [hhalt] at h₁
    exact Bool.noConfusion h₁
  | exec _ => exact absurd trivial hop
  | finish hchain _ =>
    rw [exitTo_currentTask] at hcur
    obtain ⟨hp, -, -⟩ := h.mem_callers hchain List.mem_cons_self
    exact absurd (hcur ▸ hp) (List.nodup_cons.mp h.nodup).1
  | quiet hq => exact hq

/-- The state after the end of `t`, a task with the parent `p`. -/
structure Handover (L : Layout) (m m' : Machine) (ring : List ℕ) (t p : ℕ) (status : ℤ) : Prop where
  halted : m'.halted = false
  currentTask : m'.currentTask = p
  running : (m'.tasks p).state = .running
  ended : ∀ x ∈ ring, m.Descends x t → (m'.tasks x).state = .dead
  spared : ∀ x ∈ ring, ¬m.Descends x t → (m.tasks x).state ≠ .dead → (m'.tasks x).state ≠ .dead
  zombieValid : (m'.tasks p).zombieValid = true
  zombiePid : (m'.tasks p).zombiePid = (m.tasks t).pid
  zombieStatus : (m'.tasks p).zombieStatus = status

/-- **Handing over.** The end of a task with a parent hands control and status to the parent. -/
theorem Procs.handover (h : Procs L m rest callers) (ht : t ∈ m.currentTask :: rest)
    (hlive : (m.tasks t).state ≠ .dead) (hparent : m.parentOf t ≠ 0) (hrun : m.halted = false)
    (status : ℤ) :
    ∃ m', ChalesOs.schedTaskExit m t status = some m' ∧
      (∃ rest' callers', Procs L m' rest' callers') ∧
      Handover L m m' (m.currentTask :: rest) t (m.parentOf t) status := by
  obtain ⟨pre, post, hchain⟩ := List.append_of_mem ((h.alive_iff ht).mp hlive)
  obtain ⟨hpre, hpost⟩ := h.split hchain
  cases post with
  | nil => exact absurd hpost hparent
  | cons p post =>
    obtain ⟨rfl, -⟩ := hpost
    obtain ⟨hexit, rest', hprocs, -⟩ := h.schedTaskExit hchain status
    obtain ⟨-, hppre, hpt⟩ := h.mem_callers hchain (x := m.parentOf t) List.mem_cons_self
    refine ⟨_, hexit, ⟨_, _, hprocs⟩, ?_, rfl, hprocs.running, fun x hx hxt => ?_,
      fun x hx hxt hxlive => ?_, ?_, ?_, ?_⟩
    · rw [h.exitTo_eq hchain]
      exact (exit_keeps_machine Machine.halted fun _ _ _ _ _ => rfl).trans hrun
    · -- a descendant is above its ancestor in the chain, or has been dead before
      have hcases : x ∈ pre ++ [t] ∨ (m.tasks x).state = .dead := by
        by_cases hdead : (m.tasks x).state = .dead
        · exact Or.inr hdead
        · exact Or.inl ((h.descendant_iff hchain ((h.alive_iff hx).mp hdead)).mp hxt)
      refine h.exitTo_dead hchain hcases ?_
      rintro rfl
      rcases hcases with hmem | hdead
      · simp [hppre, hpt] at hmem
      · exact (h.alive_iff hx).mpr (by simp [hchain]) hdead
    · -- and what is alive and no descendant is further down
      have hxchain := (h.alive_iff hx).mp hxlive
      have hxmem := (h.descendant_iff hchain hxchain).not.mp hxt
      simp only [List.mem_append, List.mem_singleton, not_or] at hxmem
      by_cases hxp : x = m.parentOf t
      · rw [hxp, h.exitTo_parent hchain]
        exact TaskState.noConfusion
      · rwa [h.exitTo_of_not_mem hchain hxmem.1 hxmem.2 hxp]
    · rw [h.exitTo_parent hchain]
    · rw [h.exitTo_parent hchain]
    · rw [h.exitTo_parent hchain]

/-! ### What `SYS_wait` returns -/

/-- A run in which `p` stays current and every operation meets `ok`. -/
def StaysCurrent (L : Layout) (ok : ProcOp → Prop) (p : ℕ) (m m' : Machine) : Prop :=
  (procSystem L).RunWithin (fun _ op => ok op) (fun s => s.currentTask = p ∧ s.halted = false) m m'

/-- What no quiet operation of the run changes about `p` holds at its end. -/
private theorem StaysCurrent.task_invariant {ok : ProcOp → Prop} {q : Task → Prop}
    (hrun : StaysCurrent L ok p m m') (h : Procs L m rest callers) (hok : ∀ op, ok op → ¬op.IsExec)
    (hq : q (m.tasks p))
    (hstep : ∀ s op s', q (s.tasks p) → ok op → Quiet s s' op → q (s'.tasks p)) :
    q (m'.tasks p) ∧ ∃ rest callers, Procs L m' rest callers := by
  refine StepSystem.RunWithin.invariant hrun
    (q := fun s => q (s.tasks p) ∧ ∃ rest callers, Procs L s rest callers) ⟨hq, rest, callers, h⟩
    fun s op s' hs hcur hcur' hop hstep' => ?_
  obtain ⟨hqs, rest, callers, hprocs⟩ := hs
  have hquiet := quiet_of_stays hprocs (hok op hop) (hcur'.1.trans hcur.1.symm) hcur'.2 hstep'
  exact ⟨hstep s op s' hqs hop hquiet, rest, callers, hprocs.quiet hquiet⟩

/-- The first `SYS_wait` of a task that has a status to read. -/
private theorem sysWait_of_zombie (hvalid : (m.tasks m.currentTask).zombieValid = true) (ptr : ℕ) :
    (sysWait m ptr).1 = (m.tasks m.currentTask).zombiePid ∧
      (ptr ≠ 0 → slice (sysWait m ptr).2.mem ptr 4 =
        leWord ((m.tasks m.currentTask).zombieStatus % 0x100000000).toNat) ∧
      ((sysWait m ptr).2.tasks m.currentTask).zombieValid = false := by
  rw [sysWait]
  simp only [hvalid, if_true]
  refine ⟨trivial, fun hptr => ?_, ?_⟩
  · rw [Machine.modifyTask_mem, if_pos hptr]
    exact slice_write
  · rw [Machine.modifyTask_self]

/-- **Exit and kill.** In a reachable machine, the end of a task `t` with a parent ends `t` and
its descendants, kills no other task, and makes the parent current and running with the status to
read. As long as the parent starts no program, its first `SYS_wait` returns the number and the
status of `t`, and every later one `-ECHILD`. -/
theorem handover_of_reachable (h : (procSystem L).Reachable m) (hrun : m.halted = false)
    (hring : IsRing m.nextOf (m.currentTask :: rest)) (ht : t ∈ m.currentTask :: rest)
    (hlive : (m.tasks t).state ≠ .dead) (hparent : m.parentOf t ≠ 0) (status : ℤ) :
    ∃ m', schedTaskExit m t status = some m' ∧
      Handover L m m' (m.currentTask :: rest) t (m.parentOf t) status ∧
      ∀ m₁, StaysCurrent L (fun op => ¬op.IsExec ∧ ¬op.IsWait) (m.parentOf t) m' m₁ →
        ∀ ptr, (sysWait m₁ ptr).1 = (m.tasks t).pid ∧
          (ptr ≠ 0 → slice (sysWait m₁ ptr).2.mem ptr 4 = leWord (status % 0x100000000).toNat) ∧
          ∀ m₂, StaysCurrent L (fun op => ¬op.IsExec) (m.parentOf t) (sysWait m₁ ptr).2 m₂ →
            ∀ ptr', (sysWait m₂ ptr').1 = -eChild := by
  obtain ⟨rest', callers, hprocs⟩ := procs_of_reachable h hrun
  obtain rfl := hprocs.ring.isRing.unique hring
  obtain ⟨m', hexit, ⟨rest₁, callers₁, hprocs'⟩, hover⟩ :=
    hprocs.handover ht hlive hparent hrun status
  refine ⟨m', hexit, hover, fun m₁ hrun₁ ptr => ?_⟩
  -- the status is still there when the parent first waits
  obtain ⟨hsame, rest₂, callers₂, hprocs₁⟩ :=
    hrun₁.task_invariant (q := (· = m'.tasks (m.parentOf t))) hprocs' (fun op hop => hop.1) rfl
      fun s op s' hs hop hquiet => by
      rcases hquiet.tasks (m.parentOf t) with htask | ⟨⟨ptr, rfl⟩, -⟩
      · exact htask.trans hs
      · exact absurd trivial hop.2
  obtain ⟨hcur₁, hhalt₁⟩ := StepSystem.RunWithin.last hrun₁
  have hwait := sysWait_of_zombie (m := m₁) (by rw [hcur₁, hsame, hover.zombieValid]) ptr
  rw [hcur₁, hsame, hover.zombiePid, hover.zombieStatus] at hwait
  refine ⟨hwait.1, hwait.2.1, fun m₂ hrun₂ ptr' => ?_⟩
  -- and gone when it waits again
  have hprocs₂ : Procs L (sysWait m₁ ptr).2 rest₂ callers₂ := hprocs₁.quiet (quiet_sysWait m₁ ptr)
  obtain ⟨hnone, -⟩ := hrun₂.task_invariant (q := fun t => t.zombieValid = false)
    hprocs₂ (fun op hop => hop) hwait.2.2 fun s op s' hs hop hquiet => by
      rcases hquiet.tasks (m.parentOf t) with htask | ⟨-, htask⟩
      · rw [htask, hs]
      · rw [htask]
  rw [sysWait, (StepSystem.RunWithin.last hrun₂).1, hnone]
  rfl

/-- `handover_of_reachable` when the running program of the sample run kills the program that has
started it. -/
theorem handover_sample :
    ∃ m', schedTaskExit sampleMachine 2621464 9 = some m' ∧
      Handover Layout.sample sampleMachine m' (sampleMachine.currentTask :: [1253632, 2621464])
        2621464 (sampleMachine.parentOf 2621464) 9 ∧
      ∀ m₁, StaysCurrent Layout.sample (fun op => ¬op.IsExec ∧ ¬op.IsWait)
          (sampleMachine.parentOf 2621464) m' m₁ →
        ∀ ptr, (sysWait m₁ ptr).1 = (sampleMachine.tasks 2621464).pid ∧
          (ptr ≠ 0 → slice (sysWait m₁ ptr).2.mem ptr 4 = leWord ((9 : ℤ) % 0x100000000).toNat) ∧
          ∀ m₂, StaysCurrent Layout.sample (fun op => ¬op.IsExec) (sampleMachine.parentOf 2621464)
              (sysWait m₁ ptr).2 m₂ → ∀ ptr', (sysWait m₂ ptr').1 = -eChild :=
  handover_of_reachable (reachable_of_runInputs (Option.some_get _).symm) (by decide +kernel)
    isRing_sample (by decide +kernel) (by decide +kernel) (by decide +kernel) 9

end ChalesOs
