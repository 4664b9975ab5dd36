import Mathlib.Logic.Relation
import ChalesOs.Process.Start

/-!
# Runs of the process system

`Procs.step_cases` says once what an operation can do to a machine that runs a program: halt it,
start a program or fail to, end some tasks at the young end of the chain, or nothing that
concerns the scheduler. All invariants of runs are proved by these four cases.

The first of them is the process tree itself: `processTree_of_reachable`.
-/

namespace ChalesOs

open PointerRing ByteMemory

variable {L : Layout} {m m' : Machine} {rest callers : List ℕ} {op : ProcOp}

/-- The operation starts a program. -/
def ProcOp.IsExec : ProcOp → Prop
  | .exec .. => True
  | _ => False

/-- The operation is `SYS_wait`. -/
def ProcOp.IsWait : ProcOp → Prop
  | .wait _ => True
  | _ => False

/-- The bytes an operation writes itself: those a store changes, and the status `SYS_wait` reports.
Starts and ends of programs are not counted. -/
def ProcOp.Writes (m : Machine) (op : ProcOp) (a : ℕ) : Prop :=
  match op with
  | .store mem => mem a ≠ m.mem a
  | .wait ptr => (m.tasks m.currentTask).zombieValid = true ∧ ptr ≠ 0 ∧ ptr ≤ a ∧ a < ptr + 4
  | _ => False

/-- What an operation leaves behind that neither starts nor ends a program. -/
structure Quiet (m m' : Machine) (op : ProcOp) : Prop where
  currentTask : m'.currentTask = m.currentTask
  halted : m'.halted = m.halted
  heap : m'.heap = m.heap
  execPool : m'.execPool = m.execPool
  execPoolUsed : m'.execPoolUsed = m.execPoolUsed
  userBrk : (∀ increment, op ≠ .sbrk increment) → m'.userBrk = m.userBrk
  tasks : ∀ t, m'.tasks t = m.tasks t ∨
    (∃ ptr, op = .wait ptr) ∧ m'.tasks t = { m.tasks t with zombieValid := false }
  mem : ∀ a, ¬op.Writes m a → m'.mem a = m.mem a

/-- An operation that returns at once. -/
theorem Quiet.refl (m : Machine) (op : ProcOp) : Quiet m m op where
  currentTask := rfl
  halted := rfl
  heap := rfl
  execPool := rfl
  execPoolUsed := rfl
  userBrk _ := rfl
  tasks _ := Or.inl rfl
  mem _ _ := rfl

/-- What a quiet operation does not change about the tasks. -/
theorem Quiet.keeps {α : Type} (hq : Quiet m m' op) (g : Task → α)
    (hg : ∀ (t : Task) zombieValid, g { t with zombieValid := zombieValid } = g t) (t : ℕ) :
    g (m'.tasks t) = g (m.tasks t) := by
  rcases hq.tasks t with ht | ⟨-, ht⟩
  · rw [ht]
  · rw [ht, hg]

/-- A quiet operation keeps the state of the scheduler. -/
theorem Procs.quiet (h : Procs L m rest callers) (hq : Quiet m m' op) :
    Procs L m' rest callers :=
  h.congr hq.heap hq.currentTask (hq.keeps Task.next fun _ _ => rfl)
    (hq.keeps Task.heapAlloc fun _ _ => rfl) (hq.keeps Task.stack fun _ _ => rfl)
    (hq.keeps Task.parent fun _ _ => rfl) (hq.keeps Task.state fun _ _ => rfl)

/-- `SYS_wait` is quiet. -/
theorem quiet_sysWait (m : Machine) (ptr : ℕ) : Quiet m (sysWait m ptr).2 (.wait ptr) := by
  have htaken : ∀ mem, (∀ a, ¬(ProcOp.wait ptr).Writes m a → mem a = m.mem a) →
      Quiet m ({ m with mem := mem }.modifyTask m.currentTask
        fun t => { t with zombieValid := false }) (.wait ptr) := by
    refine fun mem hmem => ⟨rfl, rfl, rfl, rfl, rfl, fun _ => rfl, fun t => ?_, hmem⟩
    by_cases ht : t = m.currentTask
    · exact Or.inr ⟨⟨ptr, rfl⟩, by rw [ht, Machine.modifyTask_self]⟩
    · exact Or.inl (Machine.modifyTask_of_ne _ _ _ ht)
  rw [sysWait]
  split_ifs with hvalid hptr
  · exact htaken _ fun a ha => eqOn_write fun hin => ha ⟨hvalid, hptr, hin.1, hin.2⟩
  · exact htaken _ fun _ _ => rfl
  · exact .refl m _

/-- `sbrk` is quiet. -/
theorem quiet_sbrkHandler (L : Layout) (m : Machine) (increment : ℤ) :
    Quiet m (sbrkHandler L m increment).2 (.sbrk increment) := by
  have hbrk : ∀ brk, Quiet m { m with userBrk := brk } (.sbrk increment) := fun brk =>
    ⟨rfl, rfl, rfl, rfl, rfl, fun hne => absurd rfl (hne increment), fun _ => Or.inl rfl,
      fun _ _ => rfl⟩
  rw [sbrkHandler]
  split_ifs
  all_goals exact hbrk _

/-- The ways in which an operation goes on from a machine that runs a program, the current task
having the callers `callers`. -/
inductive ProcMove (L : Layout) (m : Machine) (callers : List ℕ) : ProcOp → Machine → Prop
  | halt {op : ProcOp} {m' : Machine} : m'.halted = true → m'.currentTask = m.currentTask →
      ProcMove L m callers op m'
  | exec {fileData : CString → Option (List UInt8)} {path : Option CString}
      {argv envp : Option (List CString)} {r : ℤ} {m' : Machine} :
      ExecOutcome L m callers (ExecCovers L fileData m path) r m' →
      ProcMove L m callers (.exec fileData path argv envp) m'
  | finish {op : ProcOp} {pre post rest : List ℕ} {t p : ℕ} {status : ℤ} :
      m.currentTask :: callers = pre ++ t :: p :: post →
      Procs L (exitTo m pre t p status) rest post →
      ProcMove L m callers op (exitTo m pre t p status)
  | quiet {op : ProcOp} {m' : Machine} : Quiet m m' op → ProcMove L m callers op m'

/-- The end of a task of the chain. -/
theorem Procs.schedTaskExit_move (h : Procs L m rest callers) {t : ℕ}
    (ht : t ∈ m.currentTask :: callers) (status : ℤ) (op : ProcOp) :
    ∃ m', ChalesOs.schedTaskExit m t status = some m' ∧ ProcMove L m callers op m' := by
  obtain ⟨pre, post, hchain⟩ := List.append_of_mem ht
  cases post with
  | nil => exact ⟨_, h.schedTaskExit_halts hchain, .halt rfl
      (exit_keeps_machine Machine.currentTask fun _ _ _ _ _ => rfl)⟩
  | cons p post =>
    obtain ⟨hexit, rest', hprocs, -⟩ := h.schedTaskExit hchain status
    exact ⟨_, hexit, .finish hchain hprocs⟩

/-- **The cases of a step.** Every operation has an outcome, and is one of the four moves. -/
theorem Procs.step_cases (h : Procs L m rest callers) (op : ProcOp) :
    ∃ r m', procExec L m op = some (r, m') ∧ ProcMove L m callers op m' := by
  cases op with
  | exec fileData path argv envp =>
    obtain ⟨r, m', hexec, hout⟩ := h.execRun fileData path argv envp
    exact ⟨r, m', hexec, .exec hout⟩
  | exit code =>
    obtain ⟨m', hexit, hmove⟩ := h.schedTaskExit_move List.mem_cons_self
      ((code % 0x100 * 0x100 : ℕ) : ℤ) (.exit code)
    exact ⟨0, m', by rw [procExec, hexit]; rfl, hmove⟩
  | kill pid sig =>
    obtain ⟨target, hfind, htarget⟩ := schedFindTask_spec h.ring.isRing List.mem_cons_self
      (h.ring.ne_zero List.mem_cons_self) h.ring.length_lt pid
    rw [procExec, sysKill, hfind, Option.bind_some]
    by_cases hsig : sig > 64
    · exact ⟨-eInval, m, if_pos hsig, .quiet (.refl m _)⟩
    rw [if_neg hsig]
    by_cases hnone : target = 0
    · exact ⟨-eSrch, m, if_pos hnone, .quiet (.refl m _)⟩
    rw [if_neg hnone]
    by_cases hprobe : sig = 0
    · exact ⟨0, m, if_pos hprobe, .quiet (.refl m _)⟩
    -- a task that was found is alive, so it ends like one that calls `exit`
    obtain ⟨hmem, -, hlive⟩ := htarget.resolve_left hnone
    obtain ⟨m', hexit, hmove⟩ := h.schedTaskExit_move ((h.alive_iff hmem).mp hlive) (sig : ℤ)
      (.kill pid sig)
    rw [if_neg hprobe, hexit]
    exact ⟨0, m', rfl, hmove⟩
  | wait ptr => exact ⟨_, _, rfl, .quiet (quiet_sysWait m ptr)⟩
  | sbrk increment => exact ⟨_, _, rfl, .quiet (quiet_sbrkHandler L m increment)⟩
  | store mem =>
    exact ⟨0, _, rfl, .quiet ⟨rfl, rfl, rfl, rfl, rfl, fun _ => rfl, fun _ => Or.inl rfl,
      fun a ha => not_not.mp ha⟩⟩

/-- Every move leads to a machine that has halted or runs a program. -/
theorem ProcMove.procs (h : Procs L m rest callers) (hmove : ProcMove L m callers op m') :
    m'.halted = true ∨ ∃ rest' callers', Procs L m' rest' callers' := by
  cases hmove with
  | halt hhalt _ => exact Or.inl hhalt
  | exec hout =>
    cases hout with
    | failed _ hprocs => exact Or.inr ⟨_, _, hprocs⟩
    | started _ _ hprocs => exact Or.inr ⟨_, _, hprocs⟩
  | finish _ hprocs => exact Or.inr ⟨_, _, hprocs⟩
  | quiet hq => exact Or.inr ⟨_, _, h.quiet hq⟩

/-! ### Runs -/

/-- A step of the system is a move. -/
theorem procStep_move (h : Procs L m rest callers) (hs : (procSystem L).step m op = some m') :
    ProcMove L m callers op m' := by
  obtain ⟨r, m₁, hexec, hmove⟩ := h.step_cases op
  simp only [procSystem] at hs
  split_ifs at hs with hhalt
  rw [hexec, Option.map_some, Option.some.injEq] at hs
  exact hs ▸ hmove

/-- A machine that makes a step has not halted. -/
theorem halted_of_step (hs : (procSystem L).step m op = some m') : m.halted = false := by
  by_contra hhalt
  simp [procSystem, Bool.not_eq_false _ ▸ hhalt] at hs

/-- **Invariants of running machines.** What holds of the machine at boot and its callers, and is
kept by every move that does not halt, holds of every reachable machine that has not halted. -/
theorem running_invariant {ok : Machine → ProcOp → Prop} {q : Machine → List ℕ → Prop}
    (h : (procSystem L).ReachableBy ok m) (hrun : m.halted = false)
    (hstart : ∀ mem pageTable, q (schedInit L mem pageTable) [])
    (hmove : ∀ m rest callers op m', Procs L m rest callers → q m callers → ok m op →
      ProcMove L m callers op m' →
      m'.halted = true ∨ ∃ rest' callers', Procs L m' rest' callers' ∧ q m' callers') :
    ∃ rest callers, Procs L m rest callers ∧ q m callers := by
  suffices m.halted = true ∨ ∃ rest callers, Procs L m rest callers ∧ q m callers by
    refine this.resolve_left fun hhalt => ?_
    rw [hrun] at hhalt
    exact Bool.noConfusion hhalt
  refine h.invariant (p := fun m => m.halted = true ∨ ∃ rest callers, Procs L m rest callers ∧
    q m callers) (fun s hs => ?_) fun s op s' hs hok hstep => ?_
  · obtain ⟨mem, pageTable, rfl⟩ := hs
    exact Or.inr ⟨_, _, procs_schedInit L mem pageTable, hstart mem pageTable⟩
  · rcases hs with hhalt | ⟨rest, callers, hprocs, hq⟩
    · simp [procSystem, hhalt] at hstep
    · exact hmove s rest callers op s' hprocs hq hok (procStep_move hprocs hstep)

/-- A reachable machine that has not halted runs a program. -/
theorem procs_of_reachable {ok : Machine → ProcOp → Prop} (h : (procSystem L).ReachableBy ok m)
    (hrun : m.halted = false) : ∃ rest callers, Procs L m rest callers := by
  obtain ⟨rest, callers, hprocs, -⟩ := running_invariant (q := fun _ _ => True) h hrun
    (fun _ _ => trivial) fun m rest callers op m' hprocs _ _ hmove =>
      (hmove.procs hprocs).imp_right fun ⟨rest', callers', h⟩ => ⟨rest', callers', h, trivial⟩
  exact ⟨rest, callers, hprocs⟩

/-- **Every operation has an outcome.** No loop of the scheduler runs on for ever in a reachable
machine that has not halted. -/
theorem procExec_isSome_of_reachable (h : (procSystem L).Reachable m) (hrun : m.halted = false)
    (op : ProcOp) : (procExec L m op).isSome := by
  obtain ⟨rest, callers, hprocs⟩ := procs_of_reachable h hrun
  obtain ⟨r, m', hexec, -⟩ := hprocs.step_cases op
  rw [hexec]
  rfl

/-! ### The process tree -/

/-- One step up the process tree; `NULL` is not a step. -/
def Machine.ParentStep (m : Machine) (a b : ℕ) : Prop := b ≠ 0 ∧ m.parentOf a = b

/-- The process tree on the ring `current_task`, `rest`. Its tasks and the stacks of its allocated
tasks are all that is live on the heap. -/
structure ProcessTree (L : Layout) (m : Machine) (rest : List ℕ) : Prop where
  ring : IsRing m.nextOf (m.currentTask :: rest)
  task0_mem : L.task0 ∈ m.currentTask :: rest
  allocated : (m.heap.live L).Perm (m.owned L (m.currentTask :: rest))
  running : ∀ t ∈ m.currentTask :: rest,
    (m.tasks t).state = .running ↔ t = m.currentTask
  blocked : ∀ t ∈ rest, (m.tasks t).state ≠ .dead →
    (m.tasks t).state = .blocked ∧ Relation.TransGen m.ParentStep m.currentTask t
  parent : ∀ t ∈ m.currentTask :: rest, (m.tasks t).state ≠ .dead →
    m.parentOf t = 0 ∧ t = L.task0 ∨
      m.parentOf t ∈ m.currentTask :: rest ∧ (m.tasks (m.parentOf t)).state ≠ .dead
  reap : ∃ m' freed, schedReap L m = some (m', freed) ∧
    (m.heap.live L).Perm (freed ++ m'.heap.live L) ∧ freed.Nodup ∧ m.currentTask ∉ freed ∧
    ∀ p, p ∈ freed ↔ ∃ t ∈ rest, m.doomed t = true ∧ (p = (m.tasks t).stack ∨ p = t)

/-- A chain of parents is a path up the tree. -/
theorem transGen_of_seg {a x : ℕ} {l : List ℕ} (h : Seg m.parentOf (m.parentOf a) l 0)
    (h0 : ∀ y ∈ l, y ≠ 0) (hx : x ∈ l) : Relation.TransGen m.ParentStep a x := by
  induction l generalizing a with
  | nil => simp at hx
  | cons y l ih =>
    obtain ⟨rfl, h⟩ := h
    obtain ⟨hy, h0⟩ := List.forall_mem_cons.mp h0
    have hstep : m.ParentStep a (m.parentOf a) := ⟨hy, rfl⟩
    rcases List.mem_cons.mp hx with rfl | hx
    · exact .single hstep
    · exact .head hstep (ih h h0 hx)

/-- The callers are ancestors of the current task. -/
theorem Procs.ancestor (h : Procs L m rest callers) {t : ℕ} (ht : t ∈ callers) :
    Relation.TransGen m.ParentStep m.currentTask t :=
  transGen_of_seg h.parents.2 (fun x hx =>
    h.ring.ne_zero (List.mem_cons_of_mem _ (h.sub x hx))) ht

/-- The parents of the chain. -/
theorem parent_of_seg {a x : ℕ} {l : List ℕ} (h : Seg m.parentOf a l 0) (hx : x ∈ l) :
    m.parentOf x = 0 ∧ l.getLast? = some x ∨ m.parentOf x ∈ l := by
  induction l generalizing a with
  | nil => simp at hx
  | cons y l ih =>
    obtain ⟨rfl, h⟩ := h
    rcases List.mem_cons.mp hx with rfl | hx
    · cases l with
      | nil => exact Or.inl ⟨h, rfl⟩
      | cons z l => exact Or.inr (by rw [h.1]; simp)
    · rcases ih h hx with ⟨h0, hlast⟩ | hmem
      · obtain ⟨z, l, rfl⟩ := List.exists_cons_of_ne_nil (List.ne_nil_of_mem hx)
        exact Or.inl ⟨h0, by rw [List.getLast?_cons_cons, hlast]⟩
      · exact Or.inr (List.mem_cons_of_mem _ hmem)

/-- What `sched_reap` would free in a running machine. -/
private theorem Procs.reap_spec (h : Procs L m rest callers) :
    ∃ m' freed, schedReap L m = some (m', freed) ∧
      (m.heap.live L).Perm (freed ++ m'.heap.live L) ∧ freed.Nodup ∧ m.currentTask ∉ freed ∧
      ∀ p, p ∈ freed ↔ ∃ t ∈ rest, m.doomed t = true ∧ (p = (m.tasks t).stack ∨ p = t) := by
  obtain ⟨next, heap, hreap, hring, hlive⟩ := h.ring.reap
  have hperm : (m.heap.live L).Perm (m.garbage rest ++ heap.live L) :=
    hlive.trans (hring.live.symm.append_left _)
  have hnd : (m.garbage rest ++ heap.live L).Nodup :=
    hperm.nodup_iff.mp (nodup_liveFrom _ _)
  refine ⟨_, _, hreap, hperm, (List.nodup_append.mp hnd).1, fun hcur => ?_, fun p => ?_⟩
  · by_cases h0 : m.currentTask = L.task0
    · have hmem := hperm.mem_iff.mpr (List.mem_append_left _ hcur)
      have := (h.ring.arena.mem_live hmem).1
      have := L.task0_lt_heapStart
      omega
    · exact (List.nodup_append.mp hnd).2.2 _ hcur _ (hring.mem_live List.mem_cons_self h0) rfl
  · simp only [Machine.garbage, List.mem_flatMap, List.mem_filter, List.mem_cons,
      List.not_mem_nil, or_false, and_assoc]

/-- The state of the scheduler is a process tree. -/
theorem Procs.processTree (h : Procs L m rest callers) : ProcessTree L m rest where
  ring := h.ring.isRing
  task0_mem := h.ring.task0_mem
  allocated := h.ring.live
  running t ht := by
    by_cases hcur : t = m.currentTask
    · simp [hcur, h.running]
    · have hrest := (List.mem_cons.mp ht).resolve_left hcur
      by_cases hcall : t ∈ callers
      · simp [hcur, h.blocked t hcall]
      · simp [hcur, h.dead t hrest hcall]
  blocked t ht hlive := by
    have hcall : t ∈ callers := by
      by_contra hcall
      exact hlive (h.dead t ht hcall)
    exact ⟨h.blocked t hcall, h.ancestor hcall⟩
  parent t ht hlive := by
    have hchain := (h.alive_iff ht).mp hlive
    rcases parent_of_seg h.parents hchain with ⟨h0, hlast⟩ | hmem
    · exact Or.inl ⟨h0, Option.some.inj (hlast.symm.trans h.last)⟩
    · exact Or.inr ⟨h.mem_ring hmem, (h.alive_iff (h.mem_ring hmem)).mpr hmem⟩
  reap := h.reap_spec

/-- **The process tree.** In every reachable machine that has not halted, the current task and its
ancestors are the only tasks that are not dead, all links lead to tasks that have not been freed,
and `sched_reap` frees the dead ones once. -/
theorem processTree_of_reachable (h : (procSystem L).Reachable m) (hrun : m.halted = false) :
    ∃ rest, ProcessTree L m rest := by
  obtain ⟨rest, callers, hprocs⟩ := procs_of_reachable h hrun
  exact ⟨rest, hprocs.processTree⟩

/-! ### A sample run -/

/-- The machine of the sample layout at boot. -/
def bootMachine : Machine :=
  schedInit Layout.sample (fun _ => 0) (pagingInitialize Layout.sample)

/-- `exec_run` of a program of `memsz` bytes at `vaddr`, the first of which are `payload`. -/
def execAt (vaddr memsz : ℕ) (payload : List UInt8) : ProcOp :=
  .exec (fun _ => some (oneSegmentElf vaddr memsz payload)) (some []) none none

/-- Two nested programs; the inner one exits, and the outer one starts another. -/
def sampleRun : List ProcOp :=
  [execAt 0x300000 16 [1, 2], execAt 0x310000 16 [1, 2], .exit 3, execAt 0x300000 16 [1, 2]]

/-- The machine behind the sample run. -/
def sampleMachine : Machine :=
  ((procSystem Layout.sample).runInputs bootMachine sampleRun).get (by decide +kernel)

/-- The end of a list of operations from boot is reachable. -/
theorem reachable_of_runInputs {ops : List ProcOp}
    (hrun : (procSystem Layout.sample).runInputs bootMachine ops = some m) :
    (procSystem Layout.sample).Reachable m :=
  StepSystem.ReachableBy.runInputs (.start ⟨_, _, rfl⟩) (fun _ _ _ _ => trivial) hrun

/-- The ring of the sample run: the initial task and the two programs. -/
theorem isRing_sample :
    IsRing sampleMachine.nextOf (sampleMachine.currentTask :: [1253632, 2621464]) := by
  refine ⟨by decide +kernel, ?_⟩
  simp only [seg_cons, seg_nil]
  decide +kernel

/-- Evaluating a partial function and a property of its result at once. -/
theorem exists_of_any {α : Type} {o : Option α} {p : α → Prop} [DecidablePred p]
    (h : (o.any fun a => decide (p a)) = true) : ∃ a, o = some a ∧ p a := by
  obtain ⟨a, ha, hp⟩ := (Option.any_eq_true _ _).mp h
  exact ⟨a, ha, of_decide_eq_true hp⟩

/-- `processTree_of_reachable` on the sample run. -/
theorem processTree_sample : ∃ rest, ProcessTree Layout.sample sampleMachine rest :=
  processTree_of_reachable (reachable_of_runInputs (Option.some_get _).symm) (by decide +kernel)

end ChalesOs
