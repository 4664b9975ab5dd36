import ChalesOs.Process.Runs

/-!
# A failed `exec_run`

What a caller finds when `exec_run` returns -1. Its memory outside the kernel, the break, the pool
and the tasks that are not dead are as before. One field of its task may not be: `sched_task_new`
reaps before it allocates, and a reaping that frees the task behind the caller moves the caller's
link in the ring, also when the allocation then fails (`not_caller_unchanged`).
-/

namespace ChalesOs

open PointerRing

variable {L : Layout} {m m' : Machine} {rest : List ℕ} {mem : Mem}
  {fileData : CString → Option (List UInt8)} {path : Option CString}
  {argv envp : Option (List CString)}

/-- What a failed `exec_run` leaves as it was, `m` running on the ring `current_task`, `rest`. -/
structure RolledBack (m m' : Machine) (rest : List ℕ) : Prop where
  image : ∀ a, (m.tasks m.currentTask).InImage a → m'.mem a = m.mem a
  stack : (m.tasks m.currentTask).elfHi ≠ 0 → ∀ a, InUserStack a → m'.mem a = m.mem a
  userBrk : m'.userBrk = m.userBrk
  execPoolUsed : m'.execPoolUsed = m.execPoolUsed
  currentTask : m'.currentTask = m.currentTask
  caller : ∃ next, m'.tasks m.currentTask = { m.tasks m.currentTask with next := next }
  alive : ∃ rest', IsRing m'.nextOf (m'.currentTask :: rest') ∧
    ∀ t, t ∈ m'.currentTask :: rest' ∧ (m'.tasks t).state ≠ .dead ↔
      t ∈ m.currentTask :: rest ∧ (m.tasks t).state ≠ .dead
  states : ∀ t, (m'.tasks t).state = (m.tasks t).state

/-- **A failed `exec_run`.** When `exec_run` returns -1 in a reachable machine, for whatever reason,
the caller finds its image, its stack, the break, the pool, its task but for the link `next`, and
the tasks that are not dead, with their states, as they were. The image and the stack have to lie
outside the kernel: what the kernel's own bytes hold afterwards, its variables among them, is
left open. -/
theorem rolledBack_of_reachable (h : (procSystem L).Reachable m) (hrun : m.halted = false)
    (hring : IsRing m.nextOf (m.currentTask :: rest))
    (hoff : ∀ a, InUserStack a ∨ (m.tasks m.currentTask).InImage a → ¬L.InKernel a)
    (hexec : execRun L fileData m path argv envp = some (-1, m'))
    (hmem : ∀ a, ¬L.InKernel a → mem a = m'.mem a) :
    RolledBack m { m' with mem := mem } rest := by
  obtain ⟨rest₁, callers, hprocs⟩ := procs_of_reachable h hrun
  obtain rfl := hprocs.ring.isRing.unique hring
  obtain ⟨r₁, m₁, hexec₁, hout⟩ := hprocs.execRun fileData path argv envp
  obtain ⟨hr, rfl⟩ := Prod.mk.inj (Option.some.inj (hexec₁.symm.trans hexec))
  cases hout with
  | started _ _ _ => exact absurd hr (by decide)
  | @failed _ rest' hf hprocs' =>
    refine ⟨fun a ha => ?_, fun helf a ha => ?_, hf.userBrk, hf.execPoolUsed, hf.currentTask,
      hf.tasks _, ⟨rest', hprocs'.ring.isRing, fun t => ?_⟩, hf.keeps Task.state fun _ _ => rfl⟩
    · exact (hmem a (hoff a (Or.inr ha))).trans (hf.image a ha)
    · exact (hmem a (hoff a (Or.inl ha))).trans (hf.stack helf a ha)
    · change t ∈ m₁.currentTask :: rest' ∧ (m₁.tasks t).state ≠ .dead ↔ _
      rw [hprocs'.mem_alive_iff, hprocs.mem_alive_iff, hf.currentTask]

/-- The result of a call, when its first component is known. -/
private theorem eq_some_of_get_fst {o : Option (ℤ × Machine)} {r : ℤ} {ho : o.isSome}
    (hr : (o.get ho).1 = r) : o = some (r, (o.get ho).2) := by
  subst hr
  exact (Option.some_get ho).symm

/-- The user stack, and an image that begins at `0x300000`, lie behind the kernel of the sample
layout. -/
private theorem not_inKernel_sample {t : Task} (hlo : t.elfLo = 0x300000) {a : ℕ}
    (ha : InUserStack a ∨ t.InImage a) : ¬Layout.sample.InKernel a := by
  intro hkernel
  have hend : a < 0x2B9000 := hkernel.2
  rcases ha with hstack | hin
  · have hbase : 0x2FB000 ≤ a := hstack.1
    omega
  · have hbase := hlo ▸ hin.1
    omega

/-- What the sample run is after a call that the loader refuses, because the program overlaps the
kernel. -/
def refusedMachine : Machine :=
  ((execRun Layout.sample (fun _ => some (oneSegmentElf 0x200000 16 [1])) sampleMachine
    (some []) none none).get (by decide +kernel)).2

/-- `rolledBack_of_reachable` on the refused call, with the kernel's bytes cleared. -/
theorem rolledBack_sample :
    RolledBack sampleMachine
      { refusedMachine with
        mem := fun a => if 0x100000 ≤ a ∧ a < 0x2B9000 then 0 else refusedMachine.mem a }
      [1253632, 2621464] :=
  rolledBack_of_reachable (reachable_of_runInputs (Option.some_get _).symm) (by decide +kernel)
    isRing_sample (fun _ => not_inKernel_sample (by decide +kernel))
    (eq_some_of_get_fst (by decide +kernel)) fun _ ha => if_neg ha

/-! ### A call that fails for want of memory -/

/-- Fifteen nested programs, the last of which exits: its blocks are merged into one when they
are freed, which the next task takes whole, so that there is no room for its stack. -/
def exhaustingRun : List ProcOp := List.replicate 15 (execAt 0x300000 16 [1, 2]) ++ [.exit 0]

/-- What becomes of another `exec_run` there. -/
private theorem exhausted_spec : ∃ m r,
    (procSystem Layout.sample).runInputs bootMachine exhaustingRun = some m ∧
      execRun Layout.sample (fun _ => some (oneSegmentElf 0x300000 16 [1, 2])) m (some []) none
        none = some r ∧
      r.1 = -1 ∧ m.halted = false ∧ (m.tasks m.currentTask).elfLo = 0x300000 ∧
      (r.2.tasks m.currentTask).next ≠ (m.tasks m.currentTask).next := by
  have h : (((procSystem Layout.sample).runInputs bootMachine exhaustingRun).bind fun m =>
      (execRun Layout.sample (fun _ => some (oneSegmentElf 0x300000 16 [1, 2])) m (some []) none
        none).map fun r => (m, r)).any (fun q => decide (q.2.1 = -1 ∧ q.1.halted = false ∧
          (q.1.tasks q.1.currentTask).elfLo = 0x300000 ∧
          (q.2.2.tasks q.1.currentTask).next ≠ (q.1.tasks q.1.currentTask).next)) = true := by
    decide +kernel
  obtain ⟨q, hq, hspec⟩ := exists_of_any h
  obtain ⟨m, hm, hmap⟩ := Option.bind_eq_some_iff.mp hq
  obtain ⟨r, hexec, rfl⟩ := Option.map_eq_some_iff.mp hmap
  exact ⟨m, r, hm, hexec, hspec⟩

/-- The caller's task is not always as before: its link `next` may have moved. -/
theorem not_caller_unchanged :
    ¬∀ (L : Layout) (m m' : Machine) (fileData : CString → Option (List UInt8))
        (path : Option CString) (argv envp : Option (List CString)),
      (procSystem L).Reachable m → m.halted = false →
      (∀ a, InUserStack a ∨ (m.tasks m.currentTask).InImage a → ¬L.InKernel a) →
      execRun L fileData m path argv envp = some (-1, m') →
      m'.tasks m.currentTask = m.tasks m.currentTask := by
  intro hclaim
  obtain ⟨m, ⟨_, m'⟩, hm, hexec, rfl, hrun, hlo, hmoved⟩ := exhausted_spec
  exact hmoved (congrArg Task.next (hclaim Layout.sample m m' _ _ _ _
    (reachable_of_runInputs hm) hrun (fun _ => not_inKernel_sample hlo) hexec))

end ChalesOs
